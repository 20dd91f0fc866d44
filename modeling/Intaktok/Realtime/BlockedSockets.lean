import Intaktok.Realtime.Server
import Intaktok.Realtime.Sockets
import Intaktok.Admin.BlockSticks
/-
# A blocked user and his sockets

`handleConnection` reads the status of the user (`realtime.gateway.ts:127`) and only then joins the
room by which a block finds the socket (`:73`). A block that suspends the user and disconnects his
room between the two finds nobody there, and the socket goes on to connect (`blocked_online`).

`InTime u` is the order of steps in which this cannot happen: no socket joins the room of `u` once
the block has finished. In every such run no socket of his is left when all have finished
(`blocked_offline`).
-/

namespace Intaktok.Realtime

open Interleave Tables
open Admin (Suspended UpdateWhitelistDto)
open Auth (userKeys listKeys mem_userKeys mem_listKeys)

abbrev BlockCalls := Call ⊕ Admin.Call
abbrev BlockPcs := Pc ⊕ Admin.Pc

/-- Handshakes beside admin operations. -/
def blockade (cfg : AppConfig) (decode : String → Option Jwt) :
    Machine Hub BlockCalls BlockPcs Choice Env :=
  broadcasting ((machine cfg decode).sum (hosted cfg Admin.machine))

def finished : BlockPcs → Bool
  | .inl (.connect (.accepted _)) | .inl (.connect (.rejected _)) | .inl (.read (.done _))
  | .inr (.done _) => true
  | _ => false

/-- No socket joins the room of `u` once the block has finished. -/
def InTime (u : String) : Discipline Hub BlockCalls BlockPcs where
  alone _ _ _ := True
  beside _ _ pc _ pc₂ := pc = .inl (.connect (.joinUser u)) → ∀ r, pc₂ ≠ .inr (.done r)

/-! ## The block -/

/-- What the block of the person `k` has achieved when it is about to do `pc`. -/
def Blocks (k : String) (w : World) : Admin.Pc → Prop
  | .find | .write _ => True
  | .linkedUser updated => updated.kakaoId = some k
  | .suspend _ user => (user.id, k) ∈ userKeys w
  | .revoke _ userId _ => (userId, k) ∈ userKeys w ∧ Suspended k w
  | .suspendedUser _ | .activate _ _ => False
  | .done _ => Suspended k w

theorem Blocks.of_db {k : String} {w w' : World} {pc : Admin.Pc} (hdb : w'.db = w.db)
    (h : Blocks k w pc) : Blocks k w' pc := by
  revert h
  cases pc <;> simp only [Blocks, Suspended, userKeys, hdb, imp_self]

/-- The user `u` with the Kakao id `k`, and his whitelist row `id`. -/
structure Person (w : World) (u k id : String) : Prop where
  kakaoId : k ≠ ""
  user : (u, k) ∈ userKeys w
  row : (id, some k) ∈ listKeys w

theorem Person.of_keys {w w' : World} {u k id : String} (h : Person w u k id)
    (hu : userKeys w' = userKeys w) (hl : listKeys w' = listKeys w) : Person w' u k id :=
  ⟨h.kakaoId, hu ▸ h.user, hl ▸ h.row⟩

/-- Each action of the block takes it one step further; before it ends it has emitted
`SESSION_REVOKED`, and nothing else. -/
theorem blocks_step {c : Choice} {u k id : String} {w w' : World} {dto : UpdateWhitelistDto}
    {pc pc' : Admin.Pc} (hw : Person w u k id) (hb : dto.status = some (some .BLOCKED))
    (hB : Blocks k w pc) (h : Admin.step c (.update id dto) w pc = some (w', pc')) :
    Person w' u k id ∧ Blocks k w' pc' ∧ (w'.events = w.events ∧ (∀ r, pc' ≠ .done r) ∨
      w'.events = w.events ++ [.sessionRevoked u] ∧ ∃ r, pc' = .done r) := by
  have hacts := Admin.acts_of_step h
  have hw' := hw.of_keys hacts.keys.1 hacts.keys.2
  obtain ⟨r₀, hr₀, hid₀, hk₀⟩ := mem_listKeys.1 hw.row
  cases hacts with
  | missing _ hf | gone hf =>
    have hno := Table.find_none.1 hf r₀ hr₀
    simp [hid₀] at hno
  | found => exact ⟨hw', trivial, .inl ⟨rfl, by simp⟩⟩
  | nullStatus hn => rw [hb] at hn; cases hn
  | @write existing r hf =>
    obtain ⟨hr, hid⟩ := Table.find_some hf
    have hrid : r.id = id := by simpa using hid
    have heq : r = r₀ := whitelist_eq_of_id hr hr₀ (hrid.trans hid₀.symm)
    have hk : (dto.apply r).kakaoId = some k := by rw [heq]; exact hk₀
    have hnext : Admin.afterWrite dto existing (dto.apply r) = .linkedUser (dto.apply r) := by
      simp only [Admin.afterWrite, hb, hk, truthy_some hw.kakaoId]
    rw [hnext]
    exact ⟨hw', hk, .inl ⟨rfl, by simp⟩⟩
  | @unlinked updated hf =>
    obtain ⟨x, hx, -, hxk⟩ := mem_userKeys.1 hw.user
    have hno := Table.find_none.1 hf x hx
    have hku : updated.kakaoId = some k := hB
    simp [hku, hxk] at hno
  | @linked updated user hf =>
    obtain ⟨hu, hk⟩ := Table.find_some hf
    have hku : updated.kakaoId = some k := hB
    rw [hku] at hk
    exact ⟨hw', mem_userKeys.2 ⟨user, hu, rfl, by simpa using hk⟩, .inl ⟨rfl, by simp⟩⟩
  | suspend =>
    refine ⟨hw', ⟨?_, Admin.suspended_setUserStatus hB⟩, .inl ⟨rfl, by simp⟩⟩
    rw [Auth.userKeys_setUserStatus]
    exact hB
  | @noUser updated user hno =>
    obtain ⟨x, hx, hid, -⟩ := mem_userKeys.1 hB
    simp only [List.any_eq_false] at hno
    exact absurd (by simpa using hid) (hno x hx)
  | sweep hs =>
    obtain ⟨huid, hsus⟩ := hB
    rcases sweepStep_world hs with rfl | ⟨key, rfl⟩ <;>
      exact ⟨hw', ⟨huid, hsus⟩, .inl ⟨rfl, by simp⟩⟩
  | @swept updated userId sw w' hs =>
    obtain ⟨huid, hsus⟩ := hB
    obtain rfl := Auth.userKeys_inj huid hw.user
    rcases sweepStep_world hs with rfl | ⟨key, rfl⟩ <;>
      exact ⟨hw', hsus, .inr ⟨rfl, _, rfl⟩⟩
  | suspended | notSuspended | activate | activateNoUser => exact hB.elim

/-! ## Sockets on their way to their room -/

section Pool
variable {ι : Type}

/-- A handshake has authenticated the socket `s` as `v`, and is about to join the room of `v`. -/
def Joining (calls : ι → BlockCalls) (Q : Pool Hub BlockPcs ι) (s v : String) : Prop :=
  ∃ i hs, calls i = .inl (.connect s hs) ∧ Q.pcs i = .inl (.connect (.joinUser v))

/-- `calls i₀` blocks the row `id`, and every other call is a handshake. -/
structure Blockade (calls : ι → BlockCalls) (i₀ : ι) (id : String) : Prop where
  block : ∃ dto, calls i₀ = .inr (.update id dto) ∧ dto.status = some (some .BLOCKED)
  others : ∀ i, i ≠ i₀ → ∃ s hs, calls i = .inl (.connect s hs)

/-- A socket is in the room of its user or on its way there, and once the block has finished those
of `u` are on their way. -/
structure Besieged (k u id : String) (calls : ι → BlockCalls) (i₀ : ι)
    (Q : Pool Hub BlockPcs ι) : Prop where
  person : Person Q.shared.world u k id
  block : ∃ pc, Q.pcs i₀ = .inr pc ∧ Blocks k Q.shared.world pc
  sockets : ∀ s v, (Q.shared.sockets s).connected = true →
    (Q.shared.sockets s).userId = some v →
    userRoom v ∈ (Q.shared.sockets s).rooms ∨ Joining calls Q s v
  gone : ∀ r, Q.pcs i₀ = .inr (.done r) → ∀ s, (Q.shared.sockets s).connected = true →
    (Q.shared.sockets s).userId = some u → Joining calls Q s u

variable [DecidableEq ι] {cfg : AppConfig} {decode : String → Option Jwt} {calls : ι → BlockCalls}
  {k u id : String} {i₀ : ι} {Q : Pool Hub BlockPcs ι}

/-- Whoever is not the acting process is where he was. -/
theorem Joining.update {s v : String} {h' : Hub} {i : ι} {l' : BlockPcs}
    (hj : Joining calls Q s v)
    (hi : ∀ hs, calls i = .inl (.connect s hs) → Q.pcs i ≠ .inl (.connect (.joinUser v))) :
    Joining calls ⟨h', Function.update Q.pcs i l'⟩ s v := by
  obtain ⟨j, hs, hcall, hpc⟩ := hj
  have hne : j ≠ i := by rintro rfl; exact hi hs hcall hpc
  exact ⟨j, hs, hcall, by simpa [Function.update_of_ne hne] using hpc⟩

theorem besieged_connect {i : ι} {s₀ : String} {hs : Handshake} {pc pc' : ConnectPc} {h' : Hub}
    (hQ : Besieged k u id calls i₀ Q) (hcall : calls i = .inl (.connect s₀ hs))
    (hpc : Q.pcs i = .inl (.connect pc)) (ha : (InTime u).allows calls Q i)
    (hstep : connectStep cfg decode s₀ hs Q.shared pc = some (h', pc')) :
    Besieged k u id calls i₀ ⟨h', Function.update Q.pcs i (.inl (.connect pc'))⟩ := by
  obtain ⟨hdb, -⟩ := connectStep_world hstep
  obtain ⟨block, hblock, hB⟩ := hQ.block
  have hne : i₀ ≠ i := by rintro rfl; rw [hpc] at hblock; cases hblock
  have hpc₀ : Function.update Q.pcs i (.inl (.connect pc')) i₀ = Q.pcs i₀ :=
    Function.update_of_ne hne _ _
  have hkeys : userKeys h'.world = userKeys Q.shared.world := by rw [userKeys, userKeys, hdb]
  have hlist : listKeys h'.world = listKeys Q.shared.world := by rw [listKeys, listKeys, hdb]
  refine ⟨hQ.person.of_keys hkeys hlist, ⟨block, hpc₀.trans hblock, hB.of_db hdb⟩, ?_, ?_⟩
  · intro s v hc hv
    rcases connectStep_sockets hstep with hstay | ⟨sub, rfl, rfl, -, rfl⟩
    · rw [(hstay s).userId] at hv
      rcases hQ.sockets s v ((hstay s).connected hc) hv with hr | hj
      · exact .inl ((hstay s).rooms hc _ hr)
      · by_cases hown : s = s₀ ∧ pc = .joinUser v
        · -- the join itself
          obtain ⟨rfl, rfl⟩ := hown
          simp only [connectStep, Option.some.injEq, Prod.mk.injEq] at hstep
          obtain ⟨rfl, -⟩ := hstep
          exact .inl (mem_rooms_join List.mem_cons_self)
        · refine .inr (hj.update fun hs' hcall' hpc' => hown ?_)
          rw [hcall] at hcall'
          rw [hpc] at hpc'
          cases hcall'
          cases hpc'
          exact ⟨rfl, rfl⟩
    · simp only [Hub.sockets_update] at hc hv ⊢
      by_cases hs₀ : s = s₀
      · subst hs₀
        simp only [if_true, Option.some.injEq] at hv
        subst hv
        exact .inr ⟨i, hs, hcall, by simp⟩
      · simp only [hs₀, if_false] at hc hv ⊢
        refine (hQ.sockets s v hc hv).imp_right fun hj => hj.update fun hs' _ hpc' => ?_
        rw [hpc] at hpc'
        cases hpc'
  · intro r hdone s hc hv
    have hr : Q.pcs i₀ = .inr (.done r) := hpc₀.symm.trans hdone
    rcases connectStep_sockets hstep with hstay | ⟨sub, rfl, rfl, ⟨x, hx, hxid, hxs⟩, rfl⟩
    · rw [(hstay s).userId] at hv
      refine (hQ.gone r hr s ((hstay s).connected hc) hv).update fun hs' _ hpc' => ?_
      exact ha.2 i₀ hne hpc' r hr
    · have hsus : Suspended k Q.shared.world := by
        rw [hblock] at hr
        cases hr
        exact hB
      simp only [Hub.sockets_update] at hc hv
      by_cases hs₀ : s = s₀
      · -- nobody is authenticated as a suspended user
        subst hs₀
        simp only [if_true, Option.some.injEq] at hv
        subst hv
        obtain ⟨y, hy, hyid, hyk⟩ := mem_userKeys.1 hQ.person.user
        have hxy : x = y := users_eq_of_id hx hy (hxid.trans hyid.symm)
        exact absurd hxs (hsus x hx (hxy ▸ hyk))
      · simp only [hs₀, if_false] at hc hv
        refine (hQ.gone r hr s hc hv).update fun hs' _ hpc' => ?_
        rw [hpc] at hpc'
        cases hpc'

theorem besieged_block {c : Choice} {dto : UpdateWhitelistDto} {pc pc' : Admin.Pc} {w' : World}
    {h' : Hub} (hQ : Besieged k u id calls i₀ Q) (hdto : dto.status = some (some .BLOCKED))
    (hpc : Q.pcs i₀ = .inr pc)
    (hstep : Admin.step c (.update id dto) Q.shared.world pc = some (w', pc'))
    (hh : h' = deliver Q.shared.world.events { Q.shared with world := w' }) :
    Besieged k u id calls i₀ ⟨h', Function.update Q.pcs i₀ (.inr pc')⟩ := by
  obtain ⟨block, hblock, hB⟩ := hQ.block
  obtain rfl : block = pc := by rw [hpc] at hblock; cases hblock; rfl
  obtain ⟨hperson, hB', hev⟩ := blocks_step hQ.person hdto hB hstep
  have hjoin : ∀ {s v}, Joining calls Q s v →
      Joining calls ⟨h', Function.update Q.pcs i₀ (.inr pc')⟩ s v := fun hj =>
    hj.update fun hs _ hpc' => by rw [hpc] at hpc'; cases hpc'
  have hworld : h'.world = w' := by rw [hh, world_deliver]
  refine ⟨hworld ▸ hperson, ⟨pc', by simp, hworld ▸ hB'⟩, ?_, ?_⟩
  · intro s v hc hv
    rcases hev with ⟨hev, -⟩ | ⟨hev, -⟩
    · rw [deliver_same hev] at hh
      subst hh
      exact (hQ.sockets s v hc hv).imp_right hjoin
    · rw [deliver_of_events hev] at hh
      subst hh
      simp only [List.foldl_cons, List.foldl_nil, onEvent, Hub.disconnectSockets] at hc hv ⊢
      split at hc
      · cases hc
      · rename_i hroom
        simp only [hroom] at hv ⊢
        exact (hQ.sockets s v hc hv).imp_right hjoin
  · intro r hr s hc hv
    obtain ⟨hev, -⟩ := hev.resolve_left fun h => h.2 r (by simpa using hr)
    rw [deliver_of_events hev] at hh
    subst hh
    simp only [List.foldl_cons, List.foldl_nil, onEvent, Hub.disconnectSockets] at hc hv
    split at hc
    · cases hc
    · -- whoever was in the room has been disconnected
      rename_i hroom
      simp only [hroom] at hv
      refine hjoin ((hQ.sockets s u hc hv).resolve_left fun hin => hroom ?_)
      simpa using hin

theorem besieged_run {hub : Hub} (hc : Blockade calls i₀ id) (hw : Person hub.world u k id)
    (hsettled : ∀ s v, (hub.sockets s).connected = true → (hub.sockets s).userId = some v →
      userRoom v ∈ (hub.sockets s).rooms)
    (hrun : Run (blockade cfg decode) (InTime u) calls ((blockade cfg decode).initial calls hub) Q) :
    Besieged k u id calls i₀ Q := by
  obtain ⟨dto, hcall, hdto⟩ := hc.block
  have hpc₀ : ((blockade cfg decode).initial calls hub : Pool Hub BlockPcs ι).pcs i₀ =
      .inr .find := by
    show Sum.map _ _ (calls i₀) = _
    rw [hcall]
    rfl
  refine hrun.invariant (Besieged k u id calls i₀) ⟨hw, ⟨_, hpc₀, trivial⟩,
    fun s v hcon hv => .inl (hsettled s v hcon hv), fun r hr => ?_⟩ ?_ ?_
  · rw [hpc₀] at hr
    cases hr
  · rintro R i c h' l' - hR ha hs
    obtain ⟨h₁, hsum, hdel⟩ := broadcasting_step hs
    rcases Machine.sum_step hsum with ⟨call, l, l₁, hci, hpi, rfl, hstep⟩ |
      ⟨⟨id', dto'⟩, l, l₁, hci, hpi, rfl, hstep⟩
    · have hne : i ≠ i₀ := by rintro rfl; rw [hcall] at hci; cases hci
      obtain ⟨s, hs', hcs⟩ := hc.others i hne
      rw [hcs] at hci
      cases hci
      cases l with
      | connect pc =>
        obtain ⟨⟨h₂, pc'⟩, hcon, he⟩ := Option.map_eq_some_iff.1 hstep
        cases he
        rw [deliver_same (connectStep_world hcon).2.1] at hdel
        rw [hdel]
        exact besieged_connect hR hcs hpi ha hcon
      | read pc => cases hstep
    · have hi : i = i₀ := by
        by_contra hne
        obtain ⟨s, hs', hcs⟩ := hc.others i hne
        rw [hcs] at hci
        cases hci
      subst hi
      rw [hcall] at hci
      cases hci
      obtain ⟨w', hadm, rfl⟩ := hosted_step hstep
      exact besieged_block hR hdto hpi hadm hdel
  · rintro R e hR
    have hdb : ((blockade cfg decode).env e R.shared).world.db = R.shared.world.db :=
      db_env cfg e R.shared
    have hsock : ((blockade cfg decode).env e R.shared).sockets = R.shared.sockets :=
      sockets_env cfg e R.shared
    obtain ⟨pc, hpc, hB⟩ := hR.block
    refine ⟨hR.person.of_keys (by simp only [userKeys, hdb]) (by simp only [listKeys, hdb]),
      ⟨pc, hpc, hB.of_db hdb⟩, fun s v => ?_, fun r hr s => ?_⟩
    · rw [hsock]
      exact hR.sockets s v
    · rw [hsock]
      exact hR.gone r hr s

end Pool

/-- **A blocked user goes offline.** In every order of steps in which no socket joins the room of
`u` once the block has finished, however many sockets connect beside it: when all have finished no
connected socket is authenticated as `u`. -/
theorem blocked_offline {ι : Type} [DecidableEq ι] (cfg : AppConfig)
    (decode : String → Option Jwt) (calls : ι → BlockCalls) (hub : Hub) (u k id : String)
    (hw : Person hub.world u k id) (i₀ : ι) (hc : Blockade calls i₀ id)
    (hsettled : ∀ s v, (hub.sockets s).connected = true → (hub.sockets s).userId = some v →
      userRoom v ∈ (hub.sockets s).rooms) {P : Pool Hub BlockPcs ι}
    (hrun : Run (blockade cfg decode) (InTime u) calls ((blockade cfg decode).initial calls hub) P)
    (hdone : ∀ i, finished (P.pcs i) = true) (s : String)
    (hs : (P.shared.sockets s).connected = true) : (P.shared.sockets s).userId ≠ some u := by
  intro hu
  have hP := besieged_run hc hw hsettled hrun
  obtain ⟨pc, hpc, -⟩ := hP.block
  have hfin := hdone i₀
  rw [hpc] at hfin
  cases pc with
  | done r =>
    -- who is still on his way to the room has not finished
    obtain ⟨i, hs', -, hj⟩ := hP.gone r hpc s hs hu
    have hfin' := hdone i
    rw [hj] at hfin'
    cases hfin'
  | _ => simp [finished] at hfin

/-! ### A socket and a block -/

def tokenAccessU1 : Jwt := ⟨"change-me-access", "u1", .access, "", 1800⟩

/-- `u1` is on the whitelist as `w1` and holds an access token. -/
def hubU1 : Hub where
  world := { Admin.worldK1 .ACTIVE with issued := [tokenAccessU1] }

theorem hubU1_person : Person hubU1.world "u1" "k1" "w1" :=
  ⟨by decide, by simp [hubU1, Admin.worldK1, userKeys], by simp [hubU1, Admin.worldK1, listKeys]⟩

/-- `u1` connects the socket `s1` and is blocked. -/
def connectAndBlock : Bool → BlockCalls
  | false => .inl (.connect "s1" { token := some "t" })
  | true => .inr (.update "w1" { status := some (some .BLOCKED) })

theorem connectAndBlock_blockade : Blockade connectAndBlock true "w1" where
  block := ⟨_, rfl, rfl⟩
  others i hi := by cases i; exacts [⟨_, _, rfl⟩, absurd rfl hi]

def siege : Machine Hub BlockCalls BlockPcs Choice Env := blockade {} fun _ => some tokenAccessU1

def inTimeOk (P : Pool Hub BlockPcs Bool) (i : Bool) : Bool :=
  match P.pcs i, P.pcs (!i) with
  | .inl (.connect (.joinUser _)), .inr (.done _) => false
  | _, _ => true

theorem inTimeOk_allows {P : Pool Hub BlockPcs Bool} {i : Bool} (h : inTimeOk P i = true) :
    (InTime "u1").allows connectAndBlock P i := by
  refine ⟨trivial, fun j hj hpc r hr => ?_⟩
  obtain rfl : j = !i := by cases i <;> cases j <;> simp_all
  simp [inTimeOk, hpc, hr] at h

/-- The turns of the handshake and of the block. -/
def connecting : Move Bool Choice Env := .step false {}
def blocking : Move Bool Choice Env := .step true {}

/-- The socket is in its room when the block disconnects it. -/
theorem blocked_offline_u1 : ∃ P : Pool Hub BlockPcs Bool,
    Run siege (InTime "u1") connectAndBlock (siege.initial connectAndBlock hubU1) P ∧
    (P.shared.sockets "s1").userId = some "u1" ∧ (P.shared.sockets "s1").connected = false := by
  let schedule := List.replicate 3 connecting ++ List.replicate 6 blocking ++
    List.replicate 5 connecting
  have hexec : (siege.exec inTimeOk connectAndBlock (siege.initial connectAndBlock hubU1)
      schedule).any (fun P => finished (P.pcs false) && finished (P.pcs true) &&
        (P.shared.sockets "s1").userId == some "u1") = true := by decide
  obtain ⟨P, hrun, hP⟩ := Machine.exec_reaches inTimeOk_allows hexec
  simp only [Bool.and_eq_true, beq_iff_eq] at hP
  refine ⟨P, hrun, hP.2, Bool.eq_false_iff.2 fun hs => ?_⟩
  exact blocked_offline {} (fun _ => some tokenAccessU1) connectAndBlock hubU1 "u1" "k1" "w1"
    hubU1_person true connectAndBlock_blockade (fun _ _ _ h => nomatch h) hrun
    (fun i => by cases i; exacts [hP.1.1, hP.1.2]) "s1" hs hP.2

/-- **Blocked and online.** The handshake looks the user up, the block runs, and the socket joins
a room that has been disconnected before. -/
theorem blocked_online : ¬ ∀ (ι : Type) [DecidableEq ι] (cfg : AppConfig)
    (decode : String → Option Jwt) (calls : ι → BlockCalls) (hub : Hub) (u k id : String),
    Person hub.world u k id → ∀ i₀, Blockade calls i₀ id →
    (∀ s v, (hub.sockets s).connected = true → (hub.sockets s).userId = some v →
      userRoom v ∈ (hub.sockets s).rooms) → ∀ P : Pool Hub BlockPcs ι,
    Run (blockade cfg decode) Discipline.free calls ((blockade cfg decode).initial calls hub) P →
    (∀ i, finished (P.pcs i) = true) → ∀ s, (P.shared.sockets s).connected = true →
    (P.shared.sockets s).userId ≠ some u := by
  intro h
  let schedule := List.replicate 2 connecting ++ List.replicate 6 blocking ++
    List.replicate 6 connecting
  have hexec : (siege.exec always connectAndBlock (siege.initial connectAndBlock hubU1)
      schedule).any (fun P => finished (P.pcs false) && finished (P.pcs true) &&
        (P.shared.sockets "s1").connected && (P.shared.sockets "s1").userId == some "u1") =
      true := by decide
  obtain ⟨P, hrun, hP⟩ := Machine.exec_reaches_free hexec
  simp only [Bool.and_eq_true, beq_iff_eq] at hP
  exact h Bool {} (fun _ => some tokenAccessU1) connectAndBlock hubU1 "u1" "k1" "w1"
    hubU1_person true connectAndBlock_blockade (fun _ _ _ h => nomatch h) P hrun
    (fun i => by cases i; exacts [hP.1.1.1, hP.1.1.2]) "s1" hP.1.2 hP.2

end Intaktok.Realtime
