import Intaktok.Realtime.Sockets
import Intaktok.Messages.Numbers
/-
# Whose read positions a `message:read` event writes

`onRead` passes `client.data.userId` and `body.roomId` on to `markRead` as they are, and Prisma
drops a `where` field that is `undefined`. The socket's field follows the handshake
(`userId_run`), so that what an event may write is settled by what the body says and by how far
the handshake has come when it arrives: `reads_own_row_iff` says exactly when it stays within the
sender's own row, `stranger_reads` that a socket nobody has authenticated yet can write
everybody's.
-/

namespace Intaktok.Realtime

open Interleave Tables Messages

/-! ## The handshake -/

/-- An action of the handshake sets `client.data.userId` when it authenticates, of its own socket
only. -/
theorem userId_of_connectStep {cfg : AppConfig} {decode : String → Option Jwt} {id : String}
    {hs : Handshake} {h h' : Hub} {pc pc' : ConnectPc}
    (hstep : connectStep cfg decode id hs h pc = some (h', pc')) :
    ((h.sockets id).userId = authenticatedAs pc →
      (h'.sockets id).userId = authenticatedAs pc') ∧
    ∀ j, j ≠ id → (h'.sockets j).userId = (h.sockets j).userId := by
  cases pc <;> simp only [connectStep] at hstep
  case verify =>
    split at hstep
    · cases hstep; simp [authenticatedAs]
    · split at hstep
      · cases hstep; simp [authenticatedAs]
      · split at hstep <;> cases hstep <;> simp [authenticatedAs]
  case user sub =>
    split at hstep <;> cases hstep
    · exact ⟨fun _ => by simp [authenticatedAs], fun j hj => by simp [hj]⟩
    · simp [authenticatedAs]
  case joinUser u => cases hstep; simp [authenticatedAs]
  case memberships u => split at hstep <;> cases hstep <;> simp [authenticatedAs]
  case joinRooms u roomIds => cases hstep; simp [authenticatedAs]
  case presence u pc =>
    obtain ⟨⟨world, pc₁⟩, -, he⟩ := Option.map_eq_some_iff.1 hstep
    simp only at he
    split at he <;> cases he
    · refine ⟨fun hu => ?_, fun j hj => by simp [hj]⟩
      split <;> simpa [authenticatedAs] using hu
    · simp [authenticatedAs]
    · simp [authenticatedAs]
  case myRooms u => split at hstep <;> cases hstep <;> simp [authenticatedAs]
  case coMembers u roomIds => cases hstep; simp [authenticatedAs]
  case accepted u => cases hstep
  case rejected u => cases hstep

theorem sockets_of_onReadStep {id : String} {body : Option ReadPayload} {h h' : Hub}
    {pc pc' : ReadPc} (hstep : onReadStep id body h pc = some (h', pc')) :
    h'.sockets = h.sockets := by
  cases pc <;> simp only [onReadStep] at hstep
  case received => cases hstep; rfl
  case markRead r u n pc =>
    obtain ⟨⟨world, pc₁⟩, -, he⟩ := Option.map_eq_some_iff.1 hstep
    cases he
    rfl
  case done ack => cases hstep

section Handshake
variable {ι : Type} [DecidableEq ι] {cfg : AppConfig} {decode : String → Option Jwt}
  {calls : ι → Call} {hub : Hub} {P : Pool Hub Pc ι} {i : ι} {id : String} {hs : Handshake}

/-- In every reachable state `client.data.userId` is what the handshake of the socket has come
to. -/
theorem userId_run (hi : calls i = .connect id hs)
    (hone : ∀ i' hs', calls i' = .connect id hs' → i' = i) (hnew : (hub.sockets id).userId = none)
    (hrun : Run (machine cfg decode) Discipline.free calls
      ((machine cfg decode).initial calls hub) P) :
    ∃ pc, P.pcs i = .connect pc ∧ (P.shared.sockets id).userId = authenticatedAs pc := by
  refine hrun.invariant (fun Q : Pool Hub Pc ι => ∃ pc, Q.pcs i = .connect pc ∧
    (Q.shared.sockets id).userId = authenticatedAs pc) ⟨.verify, ?_, hnew⟩ ?_ ?_
  · show start (calls i) = _
    rw [hi]; rfl
  · rintro Q j c h' pc' - ⟨pc, hpc, hu⟩ - hstep
    have hstep' : step cfg decode (calls j) Q.shared (Q.pcs j) = some (h', pc') := hstep
    unfold step at hstep'
    split at hstep'
    · rename_i id' hs' pc₁ hj hpc₁
      obtain ⟨⟨h₁, pc₂⟩, hc, he⟩ := Option.map_eq_some_iff.1 hstep'
      cases he
      by_cases hid : id' = id
      · subst hid
        obtain rfl := hone j hs' hj
        obtain rfl : pc = pc₁ := by rw [hpc] at hpc₁; cases hpc₁; rfl
        exact ⟨pc₂, by simp, (userId_of_connectStep hc).1 hu⟩
      · have hne : i ≠ j := by rintro rfl; rw [hi] at hj; cases hj; exact hid rfl
        refine ⟨pc, by simpa [Function.update_of_ne hne] using hpc, ?_⟩
        exact ((userId_of_connectStep hc).2 id (Ne.symm hid)).trans hu
    · rename_i id' body pc₁ hj hpc₁
      obtain ⟨⟨h₁, pc₂⟩, hc, he⟩ := Option.map_eq_some_iff.1 hstep'
      cases he
      have hne : i ≠ j := by rintro rfl; rw [hi] at hj; cases hj
      refine ⟨pc, by simpa [Function.update_of_ne hne] using hpc, ?_⟩
      rw [← hu]
      exact congrArg (fun s : String → Socket => (s id).userId) (sockets_of_onReadStep hc)
    · cases hstep'
  · rintro Q e ⟨pc, hpc, hu⟩
    refine ⟨pc, hpc, ?_⟩
    rw [← hu]
    exact congrArg (fun s : String → Socket => (s id).userId) (sockets_env cfg e Q.shared)

end Handshake

/-! ## The event -/

/-- Between `w` and `w'` no membership has changed but that of the user in the room, and nothing
at all without a user. -/
structure Confined (user : Option String) (roomId : WhereString) (w w' : World) : Prop where
  members : ∀ m : RoomMember, ¬ (roomId = .str m.roomId ∧ user = some m.userId) →
    (m ∈ w'.db.roomMembers.rows ↔ m ∈ w.db.roomMembers.rows)
  stranger : user = none → w'.db = w.db

theorem Confined.of_db {user : Option String} {roomId : WhereString} {w w' : World}
    (h : w'.db = w.db) : Confined user roomId w w' := ⟨fun m _ => by rw [h], fun _ => h⟩

/-- The one write of `markRead`. -/
theorem db_of_readStep {r u : WhereString} {n : JsNumber} {w w' : World} {pc pc' : Messages.ReadPc}
    (h : readStep r u n w pc = some (w', pc')) :
    w'.db = w.db ∨ ∃ k : Nat, n = .int k ∧ 0 < k ∧ k < bigIntEnd ∧
      w.db.roomMembers.rows.any (reads r u k) = true ∧
      w'.db = { w.db with roomMembers := setLastReadSeq w.db.roomMembers (reads r u k) k } := by
  cases pc <;> simp only [readStep] at h
  case update =>
    split at h
    · cases h; exact .inl rfl
    · rename_i n
      split at h
      · cases h; exact .inl rfl
      · rename_i hvalid
        simp only [Bool.or_eq_true, decide_eq_true_eq, not_or] at hvalid
        split at h
        · rename_i hany
          cases h
          obtain ⟨m, -, hm⟩ := List.any_eq_true.1 hany
          simp only [reads, Bool.and_eq_true, decide_eq_true_eq] at hm
          have hpos : 0 < n.toNat := by omega
          have hn : (n.toNat : Int) = n := by omega
          exact .inr ⟨n.toNat, by rw [hn], hpos, by omega, hany, rfl⟩
        · cases h; exact .inl rfl
  case members l => cases h; exact .inl rfl
  case done r => cases h

theorem mem_setLastReadSeq {t : Table RoomMember} {p : RoomMember → Bool} {n : Nat}
    {m : RoomMember} : m ∈ (setLastReadSeq t p n).rows ↔
      ∃ x ∈ t.rows, (if p x then { x with lastReadSeq := n } else x) = m :=
  Table.mem_updateWhere

/-- An event that asks for nothing: it has no body, no number from 1 on that the column can hold,
or a `roomId` that matches no room. -/
def Idle (body : Option ReadPayload) : Prop :=
  ∀ b, body = some b → (∀ k : Nat, 0 < k → k < bigIntEnd → b.lastReadSeq ≠ .int k) ∨
    ∀ s, b.roomId.matches s = false

/-- The event of an authenticated socket that names one room. -/
def Addressed (user : Option String) (body : Option ReadPayload) : Prop :=
  ∃ u b s, user = some u ∧ body = some b ∧ b.roomId = .str s

def roomIdOf (body : Option ReadPayload) : WhereString := (body.map (·.roomId)).getD .undefined

/-- `markRead` for an idle or an addressed event. -/
theorem confined_of_readStep {user : Option String} {b : ReadPayload} {w w' : World}
    {pc pc' : Messages.ReadPc}
    (h : readStep b.roomId (whereUser user) b.lastReadSeq w pc = some (w', pc'))
    (hb : Idle (some b) ∨ Addressed user (some b)) : Confined user b.roomId w w' := by
  rcases db_of_readStep h with heq | ⟨k, hk, hpos, hlt, hany, heq⟩
  · exact .of_db heq
  · rcases hb with hidle | ⟨u, _, s, rfl, hb, hs⟩
    · obtain ⟨m, -, hm⟩ := List.any_eq_true.1 hany
      simp only [reads, Bool.and_eq_true] at hm
      rcases hidle b rfl with hno | hno
      · exact absurd hk (hno k hpos hlt)
      · rw [hno] at hm; cases hm.1.1.1
    · cases hb
      refine ⟨fun m hm => ?_, nofun⟩
      have hkey : ∀ x : RoomMember, reads b.roomId (whereUser (some u)) k x = true →
          x.roomId = s ∧ x.userId = u := fun x hx => by
        simp only [reads, hs, whereUser, WhereString.matches, Bool.and_eq_true, beq_iff_eq] at hx
        exact ⟨hx.1.1.1, hx.1.1.2⟩
      have hother : ¬ (m.roomId = s ∧ m.userId = u) := by
        rintro ⟨rfl, rfl⟩; exact hm ⟨hs, rfl⟩
      rw [heq, mem_setLastReadSeq]
      constructor
      · rintro ⟨x, hx, rfl⟩
        split at hother
        · rename_i hp; exact absurd (hkey x hp) hother
        · rename_i hp; simpa [hp] using hx
      · intro hin
        refine ⟨m, hin, if_neg fun hp => hother (hkey m hp)⟩

/-- The event has come in a state `hub`: its handler, whose later actions find whatever the other
processes have made of the database by then, changes no membership but the sender's own. -/
def Confines (cfg : AppConfig) (decode : String → Option Jwt) (id : String)
    (body : Option ReadPayload) (hub : Hub) (user : Option String) : Prop :=
  ∀ {hub₁ pc₁}, step cfg decode (.messageRead id body) hub (.read .received) = some (hub₁, pc₁) →
    hub₁.world = hub.world ∧
    ∀ {pc}, Amid (machine cfg decode) (.messageRead id body) pc₁ pc →
      ∀ {h h' : Hub} {pc'}, step cfg decode (.messageRead id body) h pc = some (h', pc') →
        Confined user (roomIdOf body) h.world h'.world

theorem read_step {cfg : AppConfig} {decode : String → Option Jwt} {id : String}
    {body : Option ReadPayload} {h h' : Hub} {pc : ReadPc} {pc' : Pc}
    (hs : step cfg decode (.messageRead id body) h (.read pc) = some (h', pc')) :
    ∃ pc₁, pc' = .read pc₁ ∧ onReadStep id body h pc = some (h', pc₁) := by
  obtain ⟨⟨h₁, pc₁⟩, hon, he⟩ := Option.map_eq_some_iff.1 hs
  cases he
  exact ⟨pc₁, rfl, hon⟩

/-- The handler has called `markRead` with these arguments, or has returned. -/
def Calling (r u : WhereString) (n : JsNumber) (pc : ReadPc) : Prop :=
  (∃ pc₁, pc = .markRead r u n pc₁) ∨ ∃ ack, pc = .done ack

theorem calling_step {id : String} {body : Option ReadPayload} {r u : WhereString} {n : JsNumber}
    {h h' : Hub} {pc pc' : ReadPc} (hc : Calling r u n pc)
    (hs : onReadStep id body h pc = some (h', pc')) :
    Calling r u n pc' ∧ ∃ pc₁ pc₂, readStep r u n h.world pc₁ = some (h'.world, pc₂) := by
  rcases hc with ⟨pc₁, rfl⟩ | ⟨ack, rfl⟩
  · obtain ⟨⟨world, pc₂⟩, hread, he⟩ := Option.map_eq_some_iff.1 hs
    cases he
    refine ⟨?_, pc₁, pc₂, hread⟩
    split
    · exact .inr ⟨_, rfl⟩
    · exact .inr ⟨_, rfl⟩
    · exact .inl ⟨_, rfl⟩
  · cases hs

/-- Every later action of the handler is one of that call. -/
theorem amid_calling {cfg : AppConfig} {decode : String → Option Jwt} {id : String}
    {body : Option ReadPayload} {r u : WhereString} {n : JsNumber} {pc₀ : ReadPc} {pc pc' : Pc}
    {h h' : Hub} (h0 : Calling r u n pc₀)
    (ham : Amid (machine cfg decode) (.messageRead id body) (.read pc₀) pc)
    (hs : step cfg decode (.messageRead id body) h pc = some (h', pc')) :
    ∃ pc₁ pc₂, readStep r u n h.world pc₁ = some (h'.world, pc₂) := by
  obtain ⟨pc₁, rfl, hc⟩ : ∃ pc₁, pc = .read pc₁ ∧ Calling r u n pc₁ := by
    refine ham.invariant (fun pc => ∃ pc₁, pc = Pc.read pc₁ ∧ Calling r u n pc₁) ⟨pc₀, rfl, h0⟩
      ?_
    rintro c s _ s' l₂ ⟨pc₁, rfl, hc⟩ hs
    have hs' : step cfg decode (.messageRead id body) s (.read pc₁) = some (s', l₂) := hs
    obtain ⟨pc₂, rfl, hon⟩ := read_step hs'
    exact ⟨pc₂, rfl, (calling_step hc hon).1⟩
  obtain ⟨pc₂, -, hon⟩ := read_step hs
  exact (calling_step hc hon).2

/-- A body that is neither idle nor addressed moves the row of a member it is not about. -/
theorem not_confined {user : Option String} {b : ReadPayload} (hidle : ¬ Idle (some b))
    (hnot : ¬ Addressed user (some b)) :
    ∃ w w' pc', readStep b.roomId (whereUser user) b.lastReadSeq w .update = some (w', pc') ∧
      ¬ Confined user b.roomId w w' := by
  obtain ⟨⟨k, hpos, hlt, hk⟩, s, hs⟩ : (∃ k : Nat, 0 < k ∧ k < bigIntEnd ∧ b.lastReadSeq = .int k) ∧
      ∃ s, b.roomId.matches s = true := by
    simpa [Idle] using hidle
  -- a database with one membership, in a room that matches
  let m : RoomMember := { roomId := s, userId := user.getD "", joinedAt := 0 }
  let w : World := { db := { roomMembers := ⟨[m], List.pairwise_singleton _ m⟩ } }
  have huser : (whereUser user).matches m.userId = true ∧ (whereUser user).valid = true := by
    cases user <;> simp [whereUser, WhereString.matches, WhereString.valid, m]
  have hreads : reads b.roomId (whereUser user) k m = true := by
    simp only [reads, Bool.and_eq_true, decide_eq_true_eq]
    exact ⟨⟨⟨hs, huser.1⟩, rfl⟩, hpos⟩
  have hroom : b.roomId.valid = true := by
    cases hr : b.roomId <;> simp_all [WhereString.matches, WhereString.valid]
  let rows := setLastReadSeq w.db.roomMembers (reads b.roomId (whereUser user) k) k
  refine ⟨w, { w with db.roomMembers := rows }, .members k, ?_, fun hc => ?_⟩
  · simp only [readStep, hk, hroom, huser.2]
    rw [if_neg (by simp; omega), if_pos (by simpa [w] using hreads)]
    rfl
  · have hother : ¬ (b.roomId = .str m.roomId ∧ user = some m.userId) := by
      rintro ⟨hr, hu⟩
      exact hnot ⟨_, b, _, hu, rfl, hr⟩
    obtain ⟨x, hx, he⟩ := mem_setLastReadSeq.1 ((hc.members m hother).2 List.mem_cons_self)
    obtain rfl := List.mem_singleton.1 hx
    rw [if_pos hreads] at he
    have : k = 0 := congrArg RoomMember.lastReadSeq he
    omega

theorem confines_iff {cfg : AppConfig} {decode : String → Option Jwt} {id : String}
    {body : Option ReadPayload} {hub : Hub} {user : Option String}
    (hu : (hub.sockets id).userId = user) :
    Confines cfg decode id body hub user ↔ Idle body ∨ Addressed user body := by
  subst hu
  cases body with
  | none =>
    refine ⟨fun _ => .inl (fun _ h => nomatch h), fun _ hub₁ pc₁ hstep => ?_⟩
    cases hstep
    refine ⟨rfl, fun ham h h' pc' hs => ?_⟩
    obtain ⟨pc₁, pc₂, hread⟩ := amid_calling (r := .undefined) (u := .undefined) (n := .other)
      (.inr ⟨_, rfl⟩) ham hs
    rcases db_of_readStep hread with heq | ⟨k, hk, -⟩
    · exact .of_db heq
    · cases hk
  | some b =>
    constructor
    · intro hc
      by_contra hno
      obtain ⟨hidle, hnot⟩ := not_or.1 hno
      obtain ⟨w, w', pc', hread, hbad⟩ := not_confined hidle hnot
      obtain ⟨pc₂, hs⟩ : ∃ pc₂, step cfg decode (.messageRead id (some b)) { hub with world := w }
          (.read (.markRead b.roomId (whereUser (hub.sockets id).userId) b.lastReadSeq .update)) =
          some ({ hub with world := w' }, pc₂) :=
        ⟨_, by simp only [step, onReadStep, hread, Option.map_some]; rfl⟩
      exact hbad ((hc rfl).2 .refl hs)
    · intro hb hub₁ pc₁ hstep
      cases hstep
      refine ⟨rfl, fun {pc} ham h h' pc' hs => ?_⟩
      obtain ⟨pc₁, pc₂, hread⟩ := amid_calling (.inl ⟨_, rfl⟩) ham hs
      exact confined_of_readStep hread hb

/-- **An event writes the sender's own row.** At whatever point of the handshake of its socket a
`message:read` event comes, and whatever the database holds: its handler changes no membership but
that of the authenticated user in `body.roomId`, and nothing for a socket not authenticated yet,
if and only if the event asks for nothing, or the socket is authenticated and `body.roomId` is a
string. -/
theorem reads_own_row_iff {ι : Type} [DecidableEq ι] (cfg : AppConfig)
    (decode : String → Option Jwt) (calls : ι → Call) (hub : Hub) (i : ι) (id : String)
    (hs : Handshake) (body : Option ReadPayload) (hi : calls i = .connect id hs)
    (hone : ∀ i' hs', calls i' = .connect id hs' → i' = i) (hnew : (hub.sockets id).userId = none)
    {P : Pool Hub Pc ι} (hrun : Run (machine cfg decode) Discipline.free calls
      ((machine cfg decode).initial calls hub) P) :
    ∃ pc, P.pcs i = .connect pc ∧ (Confines cfg decode id body P.shared (authenticatedAs pc) ↔
      Idle body ∨ Addressed (authenticatedAs pc) body) := by
  obtain ⟨pc, hpc, hu⟩ := userId_run hi hone hnew hrun
  exact ⟨pc, hpc, confines_iff hu⟩

/-! ### A socket in a room of two -/

def tokenA : Jwt := ⟨"change-me-access", "a", .access, "", 1800⟩

/-- `a` and `b` are in `r1`, and `a` holds an access token. -/
def hubR1 : Hub where
  world := { worldR1 with issued := [tokenA] }

/-- A socket connects with that token and sends `message:read` for the room. -/
def connectAndRead : Bool → Call
  | false => .connect "s1" { token := some "t" }
  | true => .messageRead "s1" (some ⟨.str "r1", .int 1⟩)

def verifying : Pc → Bool
  | .connect .verify => true
  | _ => false

theorem verifying_eq {pc : Pc} (h : verifying pc = true) : pc = .connect .verify := by
  unfold verifying at h
  split at h
  · rfl
  · cases h

def joiningUser : Pc → Option String
  | .connect (.joinUser u) => some u
  | _ => none

theorem joiningUser_eq {pc : Pc} {u : String} (h : joiningUser pc = some u) :
    pc = .connect (.joinUser u) := by
  unfold joiningUser at h
  split at h <;> cases h
  rfl

theorem reads_own_row_r1 : ∃ P : Pool Hub Pc Bool,
    Run (machine {} fun _ => some tokenA) Discipline.free connectAndRead
      ((machine {} fun _ => some tokenA).initial connectAndRead hubR1) P ∧
    Confines {} (fun _ => some tokenA) "s1" (some ⟨.str "r1", .int 1⟩) P.shared (some "a") := by
  have hexec : ((machine {} fun _ => some tokenA).exec always connectAndRead
      ((machine {} fun _ => some tokenA).initial connectAndRead hubR1)
      [.step false {}, .step false {}]).any
        (fun P => joiningUser (P.pcs false) == some "a") = true := by decide
  obtain ⟨P, hrun, hP⟩ := Machine.exec_reaches_free hexec
  obtain ⟨pc, hpc, hiff⟩ := reads_own_row_iff {} (fun _ => some tokenA) connectAndRead hubR1 false
    "s1" { token := some "t" } (some ⟨.str "r1", .int 1⟩) rfl
    (fun i' _ h => by cases i' <;> cases h; rfl) rfl hrun
  obtain rfl : pc = .joinUser "a" := by
    have hjoin := joiningUser_eq (beq_iff_eq.1 hP)
    rw [hpc] at hjoin
    cases hjoin
    rfl
  exact ⟨P, hrun, hiff.2 (.inr ⟨"a", _, "r1", rfl, rfl, rfl⟩)⟩

/-- Before the handshake has done anything, an event of the socket marks the room read for
everybody in it. -/
theorem stranger_reads : ∃ P : Pool Hub Pc Bool,
    Run (machine {} fun _ => some tokenA) Discipline.free connectAndRead
      ((machine {} fun _ => some tokenA).initial connectAndRead hubR1) P ∧
    P.pcs false = .connect .verify ∧
    P.shared.world.db.roomMembers.rows.map (fun m => (m.userId, m.lastReadSeq)) =
      [("a", 1), ("b", 1)] ∧
    ¬ Confined (authenticatedAs .verify) (.str "r1") hubR1.world P.shared.world := by
  have hexec : ((machine {} fun _ => some tokenA).exec always connectAndRead
      ((machine {} fun _ => some tokenA).initial connectAndRead hubR1)
      [.step true {}, .step true {}]).any (fun P => verifying (P.pcs false) &&
        P.shared.world.db.roomMembers.rows.map (fun m => (m.userId, m.lastReadSeq)) ==
          [("a", 1), ("b", 1)]) = true := by decide
  obtain ⟨P, hrun, hP⟩ := Machine.exec_reaches_free hexec
  simp only [Bool.and_eq_true, beq_iff_eq] at hP
  obtain ⟨hverify, hrows⟩ := hP
  refine ⟨P, hrun, verifying_eq hverify, hrows, fun hc => ?_⟩
  rw [hc.stranger rfl] at hrows
  revert hrows
  decide

end Intaktok.Realtime
