import Intaktok.Auth.Accounts
import Intaktok.Admin.Service
/-
# When a block sticks

`kakaoLogin` decides on a whitelist row it read before its transaction (`auth.service.ts:51`,
`:69`), and `refresh` and `kakaoLogin` write a new session key after their last look at the user
(`:137`). A login that read the row before `AdminService.update` blocked it and runs its
transaction after `enforceBlock` is over therefore undoes the block (`block_undone`).

`Guard k` is the order of steps in which this cannot happen, for the person with the Kakao id `k`:

* a transaction that writes the whitelist row does not find it `BLOCKED`;
* no transaction comes after the block has suspended the user or found that there is none;
* no session key is written after `enforceBlock` has begun to scan for them.

In every such run the block sticks (`block_sticks`).
-/

namespace Intaktok.Admin

open Interleave Tables Auth

abbrev Calls := Auth.Call ⊕ Call
abbrev Pcs := Auth.Pc ⊕ Pc

/-- Logins, refreshes and logouts beside admin operations. -/
def system (cfg : AppConfig) : Machine World Calls Pcs Choice Nat := (Auth.machine cfg).sum machine

/-- The block has suspended the linked user, or has found none. -/
def Pc.suspended : Pc → Bool
  | .revoke _ _ _ | .done _ => true
  | _ => false

/-- The block has begun to scan for session keys, or does not need to. -/
def Pc.scanned : Pc → Bool
  | .revoke _ _ .scan => false
  | .revoke _ _ _ | .done _ => true
  | _ => false

def finished : Pcs → Bool
  | .inl (.done _) | .inr (.done _) => true
  | _ => false

/-! ## The guarded runs -/

def Guard (k : String) : Discipline World Calls Pcs where
  alone call w pc := ∀ info row, call = .inl (.kakaoLogin info) → pc = .inl (.enroll row) →
    info.kakaoId = k → row.status = .INVITED →
    ∀ r ∈ w.db.whitelist.rows, r.kakaoId = some k → r.status ≠ .BLOCKED
  beside call w pc _ pc₂ := ∀ block, pc₂ = .inr block →
    (∀ info row, call = .inl (.kakaoLogin info) → pc = .inl (.enroll row) → info.kakaoId = k →
      block.suspended = false) ∧
    (∀ userId tokens caller, pc = .inl (.store userId tokens caller) → (userId, k) ∈ userKeys w →
      block.scanned = false)

def Blocked (id : String) (w : World) : Prop :=
  ∀ r ∈ w.db.whitelist.rows, r.id = id → r.status = .BLOCKED

def Suspended (k : String) (w : World) : Prop :=
  ∀ u ∈ w.db.users.rows, u.kakaoId = k → u.status ≠ .ACTIVE

def NoSession (k : String) (w : World) : Prop :=
  ∀ uid, (uid, k) ∈ userKeys w → Sweep.Covers (sessionPattern uid) w none

/-- What the block of the row `id` has achieved when it is about to do `pc`. -/
def Enforced (k id : String) (w : World) : Pc → Prop
  | .find | .write _ => True
  | .linkedUser updated => Blocked id w ∧ updated.kakaoId = some k
  | .suspend _ user => Blocked id w ∧ (user.id, k) ∈ userKeys w
  | .revoke _ userId sweep => Blocked id w ∧ (userId, k) ∈ userKeys w ∧ Suspended k w ∧
      Sweep.Covers (sessionPattern userId) w (some sweep)
  | .suspendedUser _ | .activate _ _ => False
  | .done _ => Blocked id w ∧ Suspended k w ∧ NoSession k w

/-- The row `id` is that of `k`, ids are cuids, and there is one block, of that row. -/
def enforcement (k id : String) : Outline World Calls Pcs where
  glob w := (id, some k) ∈ listKeys w ∧ ∀ p ∈ userKeys w, isCuid p.1 = true
  own
    | .inl call, w, .inl pc => Knows call w pc
    | .inr (.update id' dto), w, .inr pc =>
      id' = id ∧ dto.status = some (some .BLOCKED) ∧ Enforced k id w pc
    | _, _, _ => False
  apart call _ call₂ _ := call.isLeft = true ∨ call₂.isLeft = true

theorem enforcement_apart {k id : String} {call call₂ : Calls} {pc pc₂ : Pcs} :
    (enforcement k id).apart call pc call₂ pc₂ ↔ call.isLeft = true ∨ call₂.isLeft = true := Iff.rfl

theorem enforcement_own {k id : String} {call : Calls} {w : World} {pc : Pcs}
    (h : (enforcement k id).own call w pc) :
    (∃ call₁ pc₁, call = .inl call₁ ∧ pc = .inl pc₁ ∧ Knows call₁ w pc₁) ∨
    ∃ dto block, call = .inr (.update id dto) ∧ pc = .inr block ∧
      dto.status = some (some .BLOCKED) ∧ Enforced k id w block := by
  rcases call with call₁ | ⟨id', dto⟩ <;> rcases pc with pc₁ | block <;>
    simp only [enforcement] at h
  · exact .inl ⟨call₁, pc₁, rfl, rfl, h⟩
  · obtain ⟨rfl, hb, hE⟩ := h
    exact .inr ⟨dto, block, rfl, rfl, hb, hE⟩

/-! ## The block itself -/

theorem mem_updateWhitelist {t : Table Whitelist} {id : String} {dto : UpdateWhitelistDto}
    {x : Whitelist} : x ∈ (updateWhitelist t id dto).rows ↔
      ∃ r ∈ t.rows, (if r.id == id then dto.apply r else r) = x := by
  rw [updateWhitelist, Table.mem_updateWhere]

/-- An update renames no account. -/
theorem Acts.keys {c : Choice} {w w' : World} {id : String} {dto : UpdateWhitelistDto}
    {pc pc' : Pc} (h : Acts c w id dto pc w' pc') :
    userKeys w' = userKeys w ∧ listKeys w' = listKeys w := by
  cases h with
  | write hf =>
    refine ⟨rfl, ?_⟩
    simp only [listKeys, updateWhitelist]
    rw [Table.map_updateWhere]
    exact fun _ => rfl
  | suspend | activate => exact ⟨userKeys_setUserStatus w _ _, rfl⟩
  | sweep hs | swept hs => rcases sweepStep_world hs with rfl | ⟨key, rfl⟩ <;> exact ⟨rfl, rfl⟩
  | _ => exact ⟨rfl, rfl⟩

theorem suspended_setUserStatus {k uid : String} {w : World} (h : (uid, k) ∈ userKeys w) :
    Suspended k { w with db.users := setUserStatus w.db.users (·.id == uid) .SUSPENDED } := by
  intro u hu hk
  obtain ⟨r, hr, rfl⟩ := mem_setUserStatus.1 hu
  obtain ⟨x, hx, rfl, hxk⟩ := mem_userKeys.1 h
  have hrk : r.kakaoId = k := by split at hk <;> exact hk
  rw [users_eq_of_kakaoId hr hx (hrk.trans hxk.symm)]
  simp

/-- Each action of the block takes it one step further. -/
theorem Acts.enforced {c : Choice} {k id : String} {w w' : World} {dto : UpdateWhitelistDto}
    {pc pc' : Pc} (h : Acts c w id dto pc w' pc') (hkne : k ≠ "")
    (hrow : (id, some k) ∈ listKeys w) (hb : dto.status = some (some .BLOCKED))
    (hE : Enforced k id w pc) : Enforced k id w' pc' := by
  obtain ⟨r₀, hr₀, hid₀, hk₀⟩ := mem_listKeys.1 hrow
  cases h with
  | missing _ hf | gone hf =>
    have hno := Table.find_none.1 hf r₀ hr₀
    simp [hid₀] at hno
  | found => trivial
  | nullStatus hn => rw [hb] at hn; cases hn
  | @write existing r hf =>
    obtain ⟨hr, hid⟩ := Table.find_some hf
    have hid : r.id = id := by simpa using hid
    have heq : r = r₀ := whitelist_eq_of_id hr hr₀ (hid.trans hid₀.symm)
    have hk : (dto.apply r).kakaoId = some k := by rw [heq]; exact hk₀
    have hnext : afterWrite dto existing (dto.apply r) = .linkedUser (dto.apply r) := by
      simp only [afterWrite, hb, hk, truthy_some hkne]
    rw [hnext]
    refine ⟨fun x hx hxid => ?_, hk⟩
    obtain ⟨y, -, rfl⟩ := mem_updateWhitelist.1 hx
    split at hxid
    · rename_i hy; simp [hy, UpdateWhitelistDto.apply, hb]
    · rename_i hy; exact absurd hxid (by simpa using hy)
  | @unlinked updated hf =>
    obtain ⟨hbl, hku⟩ := hE
    have hnone : ∀ u ∈ w.db.users.rows, u.kakaoId ≠ k := fun u hu heq => by
      have hno := Table.find_none.1 hf u hu
      simp [hku, heq] at hno
    refine ⟨hbl, fun u hu hk => absurd hk (hnone u hu), fun uid huid => ?_⟩
    obtain ⟨u, hu, -, hk⟩ := mem_userKeys.1 huid
    exact absurd hk (hnone u hu)
  | @linked updated user hf =>
    obtain ⟨hbl, hku⟩ := hE
    obtain ⟨hu, hk⟩ := Table.find_some hf
    refine ⟨hbl, mem_userKeys.2 ⟨user, hu, rfl, ?_⟩⟩
    rw [hku] at hk
    simpa using hk
  | @suspend updated user =>
    exact ⟨hE.1, by rw [userKeys_setUserStatus]; exact hE.2, suspended_setUserStatus hE.2, trivial⟩
  | @noUser updated user hno =>
    obtain ⟨u, hu, hid, -⟩ := mem_userKeys.1 hE.2
    simp only [List.any_eq_false] at hno
    exact absurd (by simpa using hid) (hno u hu)
  | @sweep updated userId sw sw' w' hs =>
    obtain ⟨hbl, huid, hsus, hcov⟩ := hE
    have hcov' := hcov.step hs
    rcases sweepStep_world hs with rfl | ⟨key, rfl⟩ <;> exact ⟨hbl, huid, hsus, hcov'⟩
  | @swept updated userId sw w' hs =>
    obtain ⟨hbl, huid, hsus, hcov⟩ := hE
    have hcov' := hcov.step hs
    have hnone : NoSession k w' := by
      intro uid h
      have hkeys : userKeys w' = userKeys w := by
        rcases sweepStep_world hs with rfl | ⟨key, rfl⟩ <;> rfl
      rw [hkeys] at h
      rw [userKeys_inj h huid]
      exact hcov'
    rcases sweepStep_world hs with rfl | ⟨key, rfl⟩ <;> exact ⟨hbl, hsus, hnone⟩
  | suspended | notSuspended | activate | activateNoUser => exact hE.elim

/-! ## Logins and refreshes beside the block -/

/-- Which row an enrolling login can write. -/
theorem row_of_knows {w : World} {info : KakaoUserInfo} {row : Whitelist} {k id : String}
    (hk : Knows (.kakaoLogin info) w (.enroll row)) (hrow : (id, some k) ∈ listKeys w)
    (hid : row.id = id) : info.kakaoId = k := by
  have hinfo := hk.row info row rfl rfl
  rw [hid] at hinfo
  simpa using listKeys_kakaoId hinfo hrow

/-- A login that keeps to `Guard` leaves the row blocked. -/
theorem blocked_of_acts {cfg : AppConfig} {c : Choice} {k id : String} {w w' : World}
    {call : Auth.Call} {pc pc' : Auth.Pc} (h : Auth.Acts cfg c w call pc w' pc')
    (hg : (Guard k).alone (.inl call) w (.inl pc)) (hk : Knows call w pc)
    (hrow : (id, some k) ∈ listKeys w) (hb : Blocked id w) : Blocked id w' := by
  rcases h.tables with ⟨-, hl⟩ | ⟨info, row, u, rfl, rfl, rfl, he⟩
  · simpa only [Blocked, hl] using hb
  · rcases he.listed with hl | ⟨hinv, hl⟩
    · simpa only [Blocked, hl] using hb
    · intro r hr hid
      rw [hl] at hr
      obtain ⟨x, hx, rfl⟩ := mem_setWhitelistStatus.1 hr
      have hxid : x.id = id := by split at hid <;> exact hid
      split
      · -- the transaction writes the row, which `Guard` keeps from being `BLOCKED`
        rename_i hrx
        have hkk := row_of_knows hk hrow ((by simpa using hrx : x.id = row.id).symm.trans hxid)
        obtain ⟨y, hy, hyid, hyk⟩ := mem_listKeys.1 hrow
        exact absurd (hb y hy hyid) (hg info row rfl rfl hkk hinv y hy hyk)
      · exact hb x hx hxid

theorem suspended_of_acts {cfg : AppConfig} {c : Choice} {k : String} {w w' : World}
    {call : Auth.Call} {pc pc' : Auth.Pc} (h : Auth.Acts cfg c w call pc w' pc')
    (hg : ∀ info row, call = .kakaoLogin info → pc = .enroll row → info.kakaoId ≠ k)
    (hs : Suspended k w) :
    Suspended k w' ∧ ∀ uid, (uid, k) ∈ userKeys w' → (uid, k) ∈ userKeys w := by
  rcases h.tables with ⟨hu, -⟩ | ⟨info, row, u, rfl, rfl, rfl, he⟩
  · exact ⟨by simpa only [Suspended, hu] using hs, fun uid hm => by simpa [userKeys, hu] using hm⟩
  · have hne := hg info row rfl rfl
    refine ⟨fun x hx hk => hs x (he.others x hx (by rw [hk]; exact hne.symm)) hk, fun uid hm => ?_⟩
    exact (he.new _ hm).resolve_right fun hc => hne hc.2.symm

/-- A `SET` for another user, or none at all, leaves the sweep covering. -/
theorem covers_of_acts {cfg : AppConfig} {c : Choice} {uid : String} {w w' : World}
    {call : Auth.Call} {pc pc' : Auth.Pc} {sw : Option Sweep}
    (h : Auth.Acts cfg c w call pc w' pc') (hu : isCuid uid = true)
    (hg : ∀ userId tokens caller, pc = .store userId tokens caller →
      isCuid userId = true ∧ uid ≠ userId)
    (hc : Sweep.Covers (sessionPattern uid) w sw) : Sweep.Covers (sessionPattern uid) w' sw := by
  refine hc.mono fun key hglob he => (h.exists_of_exists he).resolve_right ?_
  rintro ⟨userId, tokens, caller, hpc, rfl⟩
  obtain ⟨hcu, hne⟩ := hg userId tokens caller hpc
  exact hne (eq_of_glob_refreshKey (plainId_of_isCuid hu) (plainId_of_isCuid hcu) hglob)

/-- Nothing the others do sets the block back. -/
theorem enforced_of_acts {cfg : AppConfig} {c : Choice} {k id : String} {w w' : World}
    {call : Auth.Call} {pc pc' : Auth.Pc} {block : Pc} (h : Auth.Acts cfg c w call pc w' pc')
    (hga : (Guard k).alone (.inl call) w (.inl pc)) (hk : Knows call w pc)
    (hgl : ∀ info row, call = .kakaoLogin info → pc = .enroll row → info.kakaoId = k →
      block.suspended = false)
    (hgs : ∀ userId tokens caller, pc = .store userId tokens caller → (userId, k) ∈ userKeys w →
      block.scanned = false)
    (hrow : (id, some k) ∈ listKeys w) (hcuid : ∀ p ∈ userKeys w, isCuid p.1 = true)
    (hE : Enforced k id w block) : Enforced k id w' block := by
  have hbl := fun hb => blocked_of_acts h hga hk hrow hb
  have hsus : block.suspended = true → Suspended k w → Suspended k w' ∧
      ∀ uid, (uid, k) ∈ userKeys w' → (uid, k) ∈ userKeys w := fun hb => suspended_of_acts h
    fun info row hc hp he => by rw [hgl info row hc hp he] at hb; cases hb
  have hcov : ∀ {uid sw}, block.scanned = true → (uid, k) ∈ userKeys w →
      Sweep.Covers (sessionPattern uid) w sw → Sweep.Covers (sessionPattern uid) w' sw := by
    intro uid sw hb huid
    refine covers_of_acts h (hcuid _ huid) fun userId tokens caller hp => ?_
    obtain ⟨k', hk'⟩ := hk.user userId (by subst hp; cases call <;> rfl)
    refine ⟨hcuid _ hk', ?_⟩
    rintro rfl
    rw [hgs _ tokens caller hp huid] at hb; cases hb
  cases block with
  | find | write _ => trivial
  | linkedUser updated => exact ⟨hbl hE.1, hE.2⟩
  | suspend updated user => exact ⟨hbl hE.1, h.userKeys hE.2⟩
  | suspendedUser _ | activate _ _ => exact hE.elim
  | done r =>
    obtain ⟨hb, hs, hn⟩ := hE
    obtain ⟨hs', hback⟩ := hsus rfl hs
    exact ⟨hbl hb, hs', fun uid huid => hcov rfl (hback uid huid) (hn uid (hback uid huid))⟩
  | revoke updated userId sw =>
    obtain ⟨hb, huid, hs, hc⟩ := hE
    refine ⟨hbl hb, h.userKeys huid, (hsus rfl hs).1, ?_⟩
    cases sw with
    | scan => trivial
    | scanning _ | deleting _ => exact hcov rfl huid hc

theorem enforced_tick {k id : String} {w : World} {block : Pc} (ms : Nat)
    (hE : Enforced k id w block) : Enforced k id (w.tick ms) block := by
  have hcov : ∀ {pattern sw}, Sweep.Covers pattern w sw → Sweep.Covers pattern (w.tick ms) sw :=
    fun hc => hc.mono fun key _ he => by
      by_contra hno
      have hn := World.lookup_tick_none (World.exists?_eq_false.1 (by simpa using hno)) ms
      rw [World.exists?_eq_false.2 hn] at he; cases he
  cases block with
  | find | write _ => trivial
  | linkedUser _ | suspend _ _ => exact hE
  | suspendedUser _ | activate _ _ => exact hE.elim
  | done r => exact ⟨hE.1, hE.2.1, fun uid huid => hcov (hE.2.2 uid huid)⟩
  | revoke updated userId sw => exact ⟨hE.1, hE.2.1, hE.2.2.1, hcov hE.2.2.2⟩

theorem enforcement_tick {k id : String} {w : World} {call : Calls} {pc : Pcs} (ms : Nat)
    (ho : (enforcement k id).own call w pc) : (enforcement k id).own call (w.tick ms) pc := by
  rcases enforcement_own ho with ⟨_, _, rfl, rfl, hown⟩ | ⟨_, _, rfl, rfl, hb, hE⟩
  · exact hown.mono (fun _ hp => hp) rfl
  · exact ⟨rfl, hb, enforced_tick ms hE⟩

theorem enforcement_valid {cfg : AppConfig} {k id : String} (hkne : k ≠ "") :
    (enforcement k id).Valid (system cfg) (Guard k) Outline.top where
  move {c call w pc w' pc'} a := by
    obtain ⟨hrow, hcuid⟩ := a.glob
    rcases Machine.sum_step a.step with ⟨call₁, l, l', rfl, rfl, rfl, hs⟩ |
      ⟨⟨id', dto⟩, l, l', rfl, rfl, rfl, hs⟩
    · have h := Auth.acts_of_step hs
      exact ⟨⟨by rw [h.listKeys]; exact hrow, h.isCuid hcuid⟩, h.knows a.own⟩
    · have h := acts_of_step hs
      obtain ⟨rfl, hb, hE⟩ := a.own
      obtain ⟨hu, hl⟩ := h.keys
      exact ⟨⟨by rw [hl]; exact hrow, by rw [hu]; exact hcuid⟩, rfl, hb, h.enforced hkne hrow hb hE⟩
  keep {c call w pc w' pc' call₂ pc₂} a b := by
    obtain ⟨hrow, hcuid⟩ := a.glob
    rcases Machine.sum_step a.step with ⟨call₁, l, l', rfl, rfl, rfl, hs⟩ |
      ⟨⟨id', dto⟩, l, l', rfl, rfl, rfl, hs⟩
    · have h := Auth.acts_of_step hs
      refine ⟨?_, enforcement_apart.2 (.inl rfl)⟩
      rcases enforcement_own b.own with ⟨_, _, rfl, rfl, hown⟩ | ⟨dto, block, rfl, rfl, hb, hE⟩
      · exact hown.mono (fun p hp => h.userKeys hp) h.listKeys
      · have hg := b.beside block rfl
        exact ⟨rfl, hb, enforced_of_acts h a.alone a.own
          (fun info row hc hp => hg.1 info row (by rw [hc]) (by rw [hp]))
          (fun u t cl hp => hg.2 u t cl (by rw [hp])) hrow hcuid hE⟩
    · have h := acts_of_step hs
      obtain ⟨hu, hl⟩ := h.keys
      refine ⟨?_, enforcement_apart.2 (enforcement_apart.1 b.apart)⟩
      rcases enforcement_own b.own with ⟨_, _, rfl, rfl, hown⟩ | ⟨_, _, rfl, -, -, -⟩
      · exact hown.mono (fun p hp => by rwa [hu]) hl
      · rcases enforcement_apart.1 b.apart with h | h <;> cases h
  symm h := h.symm
  env ms {w} hg := ⟨hg, fun {call pc} ho => enforcement_tick ms ho⟩

/-! ## The block sticks -/

/-- The whitelist row `id` belongs to the Kakao id `k`; user ids are cuids. -/
structure Listed (w : World) (k id : String) : Prop where
  kakaoId : k ≠ ""
  row : (id, some k) ∈ listKeys w
  cuid : ∀ p ∈ userKeys w, isCuid p.1 = true

/-- The row is `BLOCKED`, the linked user is not `ACTIVE` and has no session key. -/
structure Sticks (k id : String) (w : World) : Prop where
  row : ∃ r ∈ w.db.whitelist.rows, r.id = id ∧ r.kakaoId = some k ∧ r.status = .BLOCKED
  user : Suspended k w
  sessions : ∀ u ∈ w.db.users.rows, u.kakaoId = k → ∀ jti, w.exists? (refreshKey u.id jti) = false

/-- `calls i₀` blocks the row `id`, and no other call is an admin operation. -/
structure OneBlock {ι : Type} (calls : ι → Calls) (i₀ : ι) (id : String) : Prop where
  block : ∃ dto, calls i₀ = .inr (.update id dto) ∧ dto.status = some (some .BLOCKED)
  others : ∀ i, i ≠ i₀ → (calls i).isLeft = true

theorem enforcement_initial {ι : Type} {cfg : AppConfig} {calls : ι → Calls} {w : World}
    {k id : String} {i₀ : ι} (hw : Listed w k id) (hc : OneBlock calls i₀ id) :
    (enforcement k id).Holds calls ((system cfg).initial calls w) := by
  refine ⟨⟨hw.row, hw.cuid⟩, fun i => ?_, fun i j hne => ?_⟩
  · by_cases hi : i = i₀
    · subst hi
      obtain ⟨dto, hcall, hs⟩ := hc.block
      simp only [Machine.initial, hcall]
      exact ⟨rfl, hs, trivial⟩
    · obtain ⟨call, hcall⟩ := Sum.isLeft_iff.1 (hc.others i hi)
      simp only [Machine.initial, hcall]
      exact knows_start call w
  · by_cases hi : i = i₀
    · exact .inr (hc.others j (by rintro rfl; exact hne hi))
    · exact .inl (hc.others i hi)

/-- **A block sticks.** In every order of steps that keeps to `Guard k`, any number of logins,
refreshes and logouts beside the block leave the row `BLOCKED`, the user not `ACTIVE` and without
a session key once all of them have finished. -/
theorem block_sticks {ι : Type} [DecidableEq ι] (cfg : AppConfig) (calls : ι → Calls) (w : World)
    (k id : String) (hw : Listed w k id) (i₀ : ι) (hc : OneBlock calls i₀ id)
    {P : Pool World Pcs ι}
    (hrun : Run (system cfg) (Guard k) calls ((system cfg).initial calls w) P)
    (hdone : ∀ i, finished (P.pcs i) = true) : Sticks k id P.shared := by
  have hO := (enforcement_valid hw.kakaoId).run (fun _ => Outline.top_holds _ _)
    (enforcement_initial hw hc) hrun
  obtain ⟨hrow, hcuid⟩ := hO.glob
  obtain ⟨dto, hcall, -⟩ := hc.block
  have hown := hO.own i₀
  rw [hcall] at hown
  rcases enforcement_own hown with ⟨_, _, h, -, -⟩ | ⟨_, block, -, hpc, -, hE⟩
  · cases h
  · have hfin := hdone i₀
    rw [hpc] at hfin
    cases block with
    | done r =>
      obtain ⟨hb, hs, hn⟩ := hE
      obtain ⟨x, hx, hid, hk⟩ := mem_listKeys.1 hrow
      refine ⟨⟨x, hx, hid, hk, hb x hx hid⟩, hs, fun u hu huk jti => ?_⟩
      have huid : (u.id, k) ∈ userKeys P.shared := mem_userKeys.2 ⟨u, hu, rfl, huk⟩
      exact hn u.id huid _ (glob_refreshKey (plainId_of_isCuid (hcuid _ huid)) jti)
    | _ => simp [finished] at hfin

/-! ## One login beside a block -/

/-- `u1` is on the whitelist with the status `status` and has logged in before. -/
def worldK1 (status : WhitelistStatus) : World where
  db.users := ⟨[⟨"u1", "k1", .ACTIVE⟩], by simp⟩
  db.whitelist := ⟨[{ id := "w1", kakaoId := some "k1", status }], by simp⟩

theorem worldK1_listed (status : WhitelistStatus) : Listed (worldK1 status) "k1" "w1" :=
  ⟨by decide, by simp [worldK1, listKeys], by simp only [worldK1, userKeys]; decide⟩

/-- `false` logs in, `true` is the block. -/
def loginAndBlock : Bool → Calls
  | false => .inl (.kakaoLogin { kakaoId := "k1" })
  | true => .inr (.update "w1" { status := some (some .BLOCKED) })

theorem loginAndBlock_oneBlock : OneBlock loginAndBlock true "w1" where
  block := ⟨_, rfl, rfl⟩
  others i hi := by cases i; exacts [rfl, absurd rfl hi]

def turn (i : Bool) (c : Choice := {}) : Move Bool Choice Nat := .step i c

def guardOk (P : Pool World Pcs Bool) (i : Bool) : Bool :=
  match P.pcs i, P.pcs (!i) with
  | .inl (.enroll row), .inr block => row.status ≠ .INVITED && !block.suspended
  | .inl (.store _ _ _), .inr block => !block.scanned
  | .inl (.enroll _), .inl _ => false
  | _, _ => true

theorem guardOk_allows {P : Pool World Pcs Bool} {i : Bool} (h : guardOk P i = true) :
    (Guard "k1").allows loginAndBlock P i := by
  refine ⟨fun info row _ hpc _ hinv => ?_, fun j hj block hb => ?_⟩
  · rw [guardOk, hpc] at h
    cases hn : P.pcs (!i) <;> simp [hn, hinv] at h
  · obtain rfl : j = !i := by cases i <;> cases j <;> simp_all
    refine ⟨fun info row _ hpc _ => ?_, fun u t caller hpc _ => ?_⟩
    · simp only [guardOk, hpc, hb, Bool.and_eq_true, Bool.not_eq_true'] at h
      exact h.2
    · simpa [guardOk, hpc, hb] using h

/-- The login takes its session while the block is under way, and loses it. -/
theorem block_sticks_k1 : ∃ P : Pool World Pcs Bool,
    Run (system {}) (Guard "k1") loginAndBlock
      ((system {}).initial loginAndBlock (worldK1 .ACTIVE)) P ∧
    Sticks "k1" "w1" P.shared := by
  let schedule := [turn false, turn true, turn true, turn false, turn true, turn true, turn false,
    turn false { id := "j1" }, turn false, turn true, turn true { keys := [refreshKey "u1" "j1"] },
    turn true]
  have hexec : ((system {}).exec guardOk loginAndBlock
      ((system {}).initial loginAndBlock (worldK1 .ACTIVE)) schedule).any
        (fun P => finished (P.pcs false) && finished (P.pcs true)) = true := by decide
  obtain ⟨P, hrun, hP⟩ := Machine.exec_reaches guardOk_allows hexec
  simp only [Bool.and_eq_true] at hP
  exact ⟨P, hrun, block_sticks {} loginAndBlock _ "k1" "w1" (worldK1_listed _) true
    loginAndBlock_oneBlock hrun (fun i => by cases i; exacts [hP.1, hP.2])⟩

/-- The call is one of the person with the Kakao id `k`. -/
def OfPerson (k : String) (w : World) : Calls → Prop
  | .inl (.kakaoLogin info) => info.kakaoId = k
  | .inl (.refresh token) => (token.sub, k) ∈ userKeys w
  | _ => False

/-- **Undone block.** A login that read the whitelist row before the block and enrols after it
ends with the row and the user `ACTIVE` and a live session. -/
theorem block_undone : ¬ ∀ (ι : Type) [DecidableEq ι] (cfg : AppConfig) (calls : ι → Calls)
    (w : World) (k id : String), Listed w k id → ∀ i₀, OneBlock calls i₀ id →
    (∀ i, i ≠ i₀ → OfPerson k w (calls i)) → ∀ P : Pool World Pcs ι,
    Run (system cfg) Discipline.free calls ((system cfg).initial calls w) P →
    (∀ i, finished (P.pcs i) = true) → Sticks k id P.shared := by
  intro h
  -- the login reads the row; all of the block; the transaction and `issueTokens` of the login
  let schedule := [turn false, turn true, turn true, turn true, turn true, turn true, turn true,
    turn false, turn false, turn false { id := "j1" }, turn false]
  have hexec : ((system {}).exec always loginAndBlock
      ((system {}).initial loginAndBlock (worldK1 .INVITED)) schedule).any
        (fun P => finished (P.pcs false) && finished (P.pcs true) &&
          P.shared.db.whitelist.rows.all (·.status = .ACTIVE) &&
          P.shared.db.users.rows.all (·.status = .ACTIVE) &&
          P.shared.exists? (refreshKey "u1" "j1")) = true := by decide
  obtain ⟨P, hrun, hP⟩ := Machine.exec_reaches_free hexec
  simp only [Bool.and_eq_true, List.all_eq_true, decide_eq_true_eq] at hP
  obtain ⟨⟨⟨⟨hf, ht⟩, hrow⟩, -⟩, -⟩ := hP
  have hs := h Bool {} loginAndBlock _ "k1" "w1" (worldK1_listed .INVITED) true
    loginAndBlock_oneBlock (fun i hi => by cases i; exacts [rfl, absurd rfl hi]) P hrun
    (fun i => by cases i; exacts [hf, ht])
  obtain ⟨r, hr, -, -, hb⟩ := hs.row
  rw [hrow r hr] at hb
  cases hb

end Intaktok.Admin
