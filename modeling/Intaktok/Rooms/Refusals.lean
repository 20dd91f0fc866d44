import Intaktok.Rooms.Chat
import Intaktok.Messages.Numbers
/-
# Refused requests change nothing

A request that runs alone has two phases. In the first it reads, and may be refused; in the second
it writes, and no `AppException` comes any more: the room of the request is known to exist, and the
second number a message takes is free whatever the counter was at (`Firm`). So who is refused has
changed nothing (`untouched_of_refused`). Numbers are whole numbers here; `Doubles` has what
JavaScript makes of them.
-/

namespace Intaktok.Rooms

open Interleave Tables Messages

/-- Nobody has written. -/
structure Untouched (w w' : World) : Prop where
  db : w'.db = w.db
  redis : w'.redis = w.redis
  events : w'.events = w.events

theorem Untouched.refl (w : World) : Untouched w w := ⟨rfl, rfl, rfl⟩

theorem Untouched.tick {w w' : World} (h : Untouched w w') (ms : Nat) : Untouched w (w'.tick ms) :=
  ⟨h.db, h.redis, h.events⟩

/-! ## Messages -/

/-- `createMessage` may still be refused. -/
def CreateRefusable : CreatePc → Prop
  | .lookup _ | .member | .media _ | .reply _ => True
  | .done (.error (.app e)) => e.code ≠ .CONFLICT
  | _ => False

/-- The counter has been resynced. -/
structure Resynced (r : String) (w : World) : Prop where
  lasting : KeyValue.Lasting (seqKey r) w.redis
  number : w.lookup (seqKey r) = some (.num (dbMaxSeq w.db r))

/-- `createMessage` is not going to be refused: at the first attempt the counter may be anything,
at the second it has been resynced, and there is no third. -/
def Firm (r : String) (w : World) : CreatePc → Prop
  | .seqExists a | .seqIncr a => a = 0 ∨ a = 1 ∧ Resynced r w
  | .seqMax a | .seqSetNx a _ | .resyncMax a => a = 0
  | .insert a seq => a = 0 ∨ a = 1 ∧ seq ∉ seqs w.db r
  | .resyncSet a max => a = 0 ∧ max = dbMaxSeq w.db r
  | .winner | .roomUpdate _ | .fetch _ _ | .done (.ok _) => True
  | .done (.error e) => ∀ e', e ≠ .app e'
  | _ => False

theorem firm_of_checking (r : String) (w : World) {pc : CreatePc} (h : Checking pc) :
    CreateRefusable pc ∨ Firm r w pc := by
  cases h with
  | seqExists => exact .inr (.inl rfl)
  | _ => exact .inl trivial

theorem firm_afterMember (r : String) (w : World) (p : CreateMessageParams) :
    CreateRefusable (afterMember p) ∨ Firm r w (afterMember p) := by
  unfold afterMember
  split
  · rename_i e hv
    exact .inl (validatePayload_code hv)
  · exact .inl trivial
  · exact firm_of_checking r w (checking_afterMedia p)

section Create
variable {json : Json} {c : Choice} {p : CreateMessageParams} {w w' : World} {q q' : CreatePc}

/-- A call that may be refused reads, and is refused or not. -/
theorem refusable_step (hq : CreateRefusable q) (h : CreateActs json c p w q w' q') :
    w' = w ∧ (CreateRefusable q' ∨ Firm p.roomId w' q') := by
  cases h with
  | found => exact ⟨rfl, .inr trivial⟩
  | missed => exact ⟨rfl, firm_of_checking _ _ (checking_afterLookup p)⟩
  | notMember he => exact ⟨rfl, .inl (assertActiveMember_code he)⟩
  | member => exact ⟨rfl, firm_afterMember ..⟩
  | notOwned he => exact ⟨rfl, .inl (Messages.assertOwnedMedia_code he)⟩
  | owned => exact ⟨rfl, firm_of_checking _ _ (checking_afterMedia p)⟩
  | noTarget he => exact ⟨rfl, .inl (assertReplyTarget_code he)⟩
  | target => exact ⟨rfl, .inr (.inl rfl)⟩
  | _ => cases hq

/-- A call that is not going to be refused goes on so. -/
theorem firm_step (hq : Firm p.roomId w q) (h : CreateActs json c p w q w' q') :
    Firm p.roomId w' q' := by
  cases h with
  | counter => exact hq
  | noCounter hno =>
    rcases hq with rfl | ⟨-, hsync⟩
    · rfl
    · rw [World.exists?_eq_false, hsync.number] at hno
      cases hno
  | seqMax => exact hq
  | setNx => exact .inl hq
  | @incr a seq w' hi =>
    obtain ⟨⟨redis, rfl⟩, -, -, hcase, -⟩ := World.incr_spec hi
    rcases hq with rfl | ⟨rfl, hsync⟩
    · exact .inl rfl
    · -- one past the maximum is free
      refine .inr ⟨rfl, fun hs => ?_⟩
      have hle := le_dbMaxSeq hs
      rcases hcase with ⟨hnone, -⟩ | ⟨n, hn, rfl⟩
      · rw [hsync.number] at hnone
        cases hnone
      · rw [hsync.number] at hn
        cases hn
        exact absurd hle (Nat.not_succ_le_self _)
  | noNumber => exact fun e' he => by cases he
  | inserted => trivial
  | refused href => exact fun e' he => by rcases href.failure with rfl | rfl <;> cases he
  | seqTaken hs =>
    rcases hq with rfl | ⟨-, hfree⟩
    · rfl
    · exact absurd hs hfree
  | keyTaken => trivial
  | resyncMax => exact ⟨hq, rfl⟩
  | @resyncSet a max =>
    obtain ⟨rfl, rfl⟩ := hq
    refine .inr ⟨rfl, ?_, World.lookup_set_self ..⟩
    intro x hx hk
    rcases List.mem_cons.1 hx with rfl | hx
    · rfl
    · exact absurd hk (by simpa using (List.mem_filter.1 hx).2)
  | winner => trivial
  | noWinner => exact fun e' he => by cases he
  | roomUpdate => trivial
  | noRoom => exact fun e' he => by cases he
  | @fetch dto got got' hf =>
    rcases emitCreated_cases json dto got' w with ⟨he, -⟩ | ⟨_, _, _, he⟩ | he <;> rw [he]
    · trivial
    · trivial
    · exact fun e' he => by cases he
  | _ => exact hq.elim

theorem firm_tick {r : String} (hq : Firm r w q) (ms : Nat) : Firm r (w.tick ms) q := by
  have hsync : Resynced r w → Resynced r (w.tick ms) := fun h =>
    ⟨h.lasting, (World.lookup_tick h.lasting ms).trans h.number⟩
  cases q with
  | seqExists a => exact hq.imp_right (And.imp_right hsync)
  | seqIncr a => exact hq.imp_right (And.imp_right hsync)
  | done r => cases r <;> exact hq
  | _ => exact hq

end Create

/-! ## Requests on rooms -/

/-- The request may still be refused. -/
def Refusable : Pc → Prop
  | .write _ _ _ _ | .candidates | .promote _ | .tail _ _ _ _ _ => False
  | .winner e => ∀ e', e ≠ .app e'
  | .done (.error (.app e)) => e.code ≠ .CONFLICT
  | .done _ => False
  | _ => True

/-- The request is not going to be refused. -/
def Committed : Pc → Prop
  | .write _ _ _ _ | .candidates | .promote _ | .tail _ _ _ _ _ | .done (.ok _) => True
  | .done (.error e) => ∀ e', e ≠ .app e'
  | _ => False

def RoomThere (r : String) (w : World) : Prop := r ∈ w.db.rooms.rows.map (·.id)

/-- The room a request has found. -/
def found : Call → Pc → Option String
  | _, .tail r _ _ _ _ | .createRoom _ _, .reactivate r => some r
  | .addMembers r _ _, .activeUsers | .addMembers r _ _, .head | .addMembers r _ _, .existing _
  | .addMembers r _ _, .write _ _ _ _ | .updateMemberRole r _ _ _, .target _ _
  | .updateMemberRole r _ _ _, .setRole | .removeMember r _ _, .target _ _
  | .removeMember r _ _, .leave _ _ | .removeMember r _ _, .candidates
  | .removeMember r _ _, .promote _ => some r
  | _, _ => none

theorem roomThere_of_find {w : World} {r : String} {room : Room}
    (h : w.db.rooms.find (·.id == r) = some room) : RoomThere r w := by
  obtain ⟨hm, hid⟩ := Table.find_some h
  exact List.mem_map.2 ⟨room, hm, by simpa using hid⟩

theorem roomThere_of_group {w : World} {r : String} {room : Room}
    (h : requireGroup w.db r = .ok room) : RoomThere r w := by
  obtain ⟨hm, hid, -⟩ := requireGroup_ok h
  exact List.mem_map.2 ⟨room, hm, hid⟩

theorem loadRoom_there {w : World} {r : String} (h : RoomThere r w) : loadRoom w.db r ≠ none := by
  obtain ⟨x, hx, hid⟩ := List.mem_map.1 h
  rw [loadRoom, ne_eq, Option.map_eq_none_iff, Table.find_none]
  intro hno
  have hne := hno x hx
  simp [hid] at hne

/-- Rooms stay. -/
theorem RoomThere.mono {r : String} {w w' : World} (h : RoomThere r w)
    (hs : ∀ x ∈ roomStubs w.db, x ∈ roomStubs w'.db) : RoomThere r w' := by
  obtain ⟨x, hx, rfl⟩ := List.mem_map.1 h
  obtain ⟨y, hy, he⟩ := List.mem_map.1 (hs _ (roomStub_mem hx))
  have hid : (roomStub y).id = (roomStub x).id := congrArg Room.id he
  exact List.mem_map.2 ⟨y, hy, hid⟩

/-! ### The checks -/

theorem canActivate_code {db : Db} {r u : String} {e : AppException}
    (h : canActivate db r u = .error e) : e.code ≠ .CONFLICT := by
  unfold canActivate at h
  split at h
  · cases h; simp [Errors.unauthorized]
  · split at h
    · cases h; simp [Errors.validation]
    · split at h <;> cases h
      simp [Errors.forbidden]

theorem requireGroup_code {db : Db} {r : String} {e : AppException}
    (h : requireGroup db r = .error e) : e.code ≠ .CONFLICT := by
  unfold requireGroup at h
  split at h
  · cases h; simp [Errors.notFound]
  · split at h <;> cases h
    simp [Errors.forbidden]

theorem requireRole_code {role : MemberRole} {allowed : List MemberRole} {e : AppException}
    (h : requireRole role allowed = .error e) : e.code ≠ .CONFLICT := by
  unfold requireRole at h
  split at h <;> cases h
  simp [Errors.forbidden]

theorem assertActiveUsers_code {db : Db} {ids : List String} {e : AppException}
    (h : assertActiveUsers db ids = .error e) : e.code ≠ .CONFLICT := by
  unfold assertActiveUsers at h
  dsimp only at h
  split at h <;> cases h
  simp [Errors.forbidden]

theorem assertOwnedMedia_code {db : Db} {i u : String} {e : AppException}
    (h : MediaService.assertOwnedMedia db i u = .error e) : e.code ≠ .CONFLICT := by
  unfold MediaService.assertOwnedMedia at h
  split at h
  · cases h; simp [Errors.notFound]
  · split at h <;> cases h
    simp [Errors.forbidden]

theorem assertMayRemove_code {actorId t : String} {role : MemberRole} {m : RoomMember}
    {e : AppException} (h : assertMayRemove actorId role t m = .error e) :
    e.code ≠ .CONFLICT := by
  unfold assertMayRemove at h
  split at h
  · cases h
  · split at h
    · cases h; simp [Errors.forbidden]
    · split at h
      · cases h; simp [Errors.forbidden]
      · split at h <;> cases h
        simp [Errors.forbidden]

/-- Where a check leads. -/
theorem refusable_orFail {α : Type} {x : Except AppException α} {next : α → Pc}
    (he : ∀ e, x = .error e → e.code ≠ .CONFLICT) (hok : ∀ a, x = .ok a → Refusable (next a)) :
    Refusable (orFail x next) :=
  orFail_rule hok he

theorem committed_proceed (json : Json) (r : String) (result : Option RoomView)
    (todo : List Task) : Committed (proceed json r result todo) := by
  cases todo <;> trivial

theorem committed_nextWrite (json : Json) (r a : String) (head : Nat) (existing : List RoomMember)
    (todo added : List String) : Committed (nextWrite json r a head existing todo added) := by
  unfold nextWrite
  split
  · exact committed_proceed ..
  · trivial

/-! ### The tail -/

section Tail
variable {json : Json} {c : Choice} {w w' : World}

theorem viewStep_error {r u : String} {pc : ViewPc} {e : Failure} (hr : RoomThere r w)
    (h : viewStep json r u w pc = some (.done (.error e))) : ∀ e', e ≠ .app e' := by
  have hbuilt : ∀ {x found n}, built json x found n = .done (.error e) → ∀ e', e ≠ .app e' := by
    intro x found n hb e' he
    unfold built at hb
    split at hb <;> cases hb
    cases he
  have hafter : ∀ {x found}, afterAvatars json u x found = .done (.error e) →
      ∀ e', e ≠ .app e' := by
    intro x found hb
    unfold afterAvatars at hb
    split at hb
    · cases hb
    · exact hbuilt hb
  cases pc <;> simp only [viewStep, Option.some.injEq] at h
  case room =>
    split at h
    · rename_i hno
      exact absurd hno (loadRoom_there hr)
    · split at h
      · exact hafter h
      · cases h
  case avatars x ids => exact hafter h
  case unread x found n => exact hbuilt h
  case done x => cases h

/-- What a request knows that is about to do `pc`. -/
structure Grounded (call : Call) (w : World) (pc : Pc) : Prop where
  room : ∀ r, found call pc = some r → RoomThere r w
  firm : ∀ r q, pc.creates = some (r, q) → Firm r w q

theorem grounded_done (call : Call) (w : World) (x : Except Failure (Option RoomView)) :
    Grounded call w (.done x) where
  room r h := by cases call <;> cases h
  firm r q h := by cases h

/-- A message of the service starts with the counter. -/
theorem grounded_proceed {call : Call} {r : String} {result : Option RoomView} {todo : List Task}
    (hr : RoomThere r w) : Grounded call w (proceed json r result todo) := by
  cases todo with
  | nil => exact grounded_done ..
  | cons task todo =>
    refine ⟨fun r' h => ?_, fun r' q h => ?_⟩
    · cases call <;> cases h <;> exact hr
    · cases task with
      | system actorId payload => cases h; exact .inl rfl
      | lifecycle event recipients => cases recipients <;> cases h
      | view requesterId => cases h

theorem grounded_tail {call : Call} {r : String} {task : Task} {todo : List Task}
    {result : Option RoomView} {tp : TailPc} (hr : RoomThere r w)
    (hf : ∀ q, tp = .system q → Firm r w q) : Grounded call w (.tail r task todo tp result) where
  room r' h := by cases call <;> cases h <;> exact hr
  firm r' q h := by
    cases tp with
    | system q' => cases h; exact hf q rfl
    | _ => cases h

/-- A tail does not refuse, in a room that is there. -/
theorem committed_tail {call : Call} {r : String} {task : Task} {todo : List Task}
    {result : Option RoomView} {tp : TailPc} {pc' : Pc} (hr : RoomThere r w)
    (hf : ∀ q, tp = .system q → Firm r w q)
    (h : tailStep json c r task todo result w tp = some (w', pc')) :
    Committed pc' ∧ Grounded call w' pc' := by
  have hr' : RoomThere r w' := hr.mono (by rw [(tail_step h).1.rooms]; exact fun _ hx => hx)
  have hproceed : ∀ {result}, Committed (proceed json r result todo) ∧
      Grounded call w' (proceed json r result todo) := fun {_} =>
    ⟨committed_proceed .., grounded_proceed hr'⟩
  have hfailed : ∀ {e : Failure}, (∀ e', e ≠ .app e') →
      Committed (.done (.error e)) ∧ Grounded call w' (.done (.error e)) := fun {_} he =>
    ⟨he, grounded_done ..⟩
  cases move_of_tailStep h with
  | @created actorId payload q _ q' hacts =>
    have hq' := firm_step (p := systemParams json r actorId payload) (hf q rfl) hacts
    cases q' with
    | done x =>
      cases x with
      | ok res => exact hproceed
      | error e => exact hfailed hq'
    | _ => exact ⟨trivial, grounded_tail hr' fun q hq => by cases hq; exact hq'⟩
  | addressed | shows _ | views _ => exact ⟨trivial, grounded_tail hr' fun q hq => by cases hq⟩
  | emitted _ | viewed _ => exact hproceed
  | unshown hs | unviewed hs => exact hfailed (viewStep_error hr hs)

end Tail

/-! ### The requests -/

/-- What an action of a request does: it reads, and the request may go on to be refused, or the
request is past that. -/
structure Advances (call : Call) (w : World) (pc : Pc) (w' : World) (pc' : Pc) : Prop where
  phase : Committed pc' ∨ ¬ Committed pc ∧ w' = w ∧ Refusable pc'
  grounded : Grounded call w' pc'

section Requests
variable {json : Json} {c : Choice} {w w' : World} {pc pc' : Pc}

/-- A request that has found no room yet. -/
theorem grounded_none {call : Call} (hn : found call pc = none) (hc : pc.creates = none) :
    Grounded call w pc where
  room r h := by rw [hn] at h; cases h
  firm r q h := by rw [hc] at h; cases h

/-- A request that has found the room, and creates no message. -/
theorem grounded_some {call : Call} {r : String} (hr : RoomThere r w)
    (hn : found call pc = some r) (hc : pc.creates = none) : Grounded call w pc where
  room r' h := by rw [hn] at h; cases h; exact hr
  firm r' q h := by rw [hc] at h; cases h

theorem grounded_orFail {call : Call} {α : Type} {x : Except AppException α} {next : α → Pc}
    (h : ∀ a, x = .ok a → Grounded call w (next a)) : Grounded call w (orFail x next) :=
  orFail_rule h fun _ _ => grounded_done ..

theorem insertRoom_there {room : Room} {ms : List RoomMember}
    (h : insertRoom room ms w = .ok w') : RoomThere room.id w' := by
  obtain ⟨rooms, roomMembers, hins, -, rfl⟩ := insertRoom_ok h
  exact List.mem_map.2 ⟨room, (Table.mem_insert hins).2 (.inr rfl), rfl⟩

theorem insertRoom_error {room : Room} {ms : List RoomMember} {e : Failure}
    (h : insertRoom room ms w = .error e) : ∀ e', e ≠ .app e' := by
  have hms : ∀ {t : Table RoomMember} {ms}, insertMembers t ms = .error e → ∀ e', e ≠ .app e' := by
    intro t ms
    induction ms generalizing t with
    | nil => intro h; cases h
    | cons m ms ih =>
      intro h
      simp only [insertMembers] at h
      split at h
      · exact ih h
      · cases h; exact fun e' he => by cases he
  unfold insertRoom at h
  split at h
  · cases h; exact fun e' he => by cases he
  · cases h; exact fun e' he => by cases he
  · split at h
    · rename_i he; cases h; exact hms he
    · split at h <;> cases h
      exact fun e' he => by cases he

theorem advances_createRoom {creatorId : String} {dto : CreateRoomDto}
    (hp : Refusable pc ∨ Committed pc)
    (hg : Grounded (.createRoom creatorId dto) w pc)
    (h : createStep json c creatorId dto w pc = some (w', pc')) :
    Advances (.createRoom creatorId dto) w pc w' pc' := by
  cases pc <;> simp only [createStep] at h
  case activeUsers =>
    cases h
    split
    · exact ⟨.inr ⟨id, rfl, refusable_orFail (fun _ => assertActiveUsers_code) fun _ _ => trivial⟩,
        grounded_orFail fun _ _ => grounded_none rfl rfl⟩
    · refine ⟨.inr ⟨id, rfl, refusable_orFail (fun _ => assertActiveUsers_code) fun _ _ => ?_⟩,
        grounded_orFail fun _ _ => ?_⟩
      · split <;> trivial
      · split <;> exact grounded_none rfl rfl
  case directRoom =>
    cases h
    split
    · rename_i room hf
      obtain ⟨hm, -⟩ := Table.find_some hf
      exact ⟨.inr ⟨id, rfl, trivial⟩, grounded_some (List.mem_map_of_mem hm) rfl rfl⟩
    · exact ⟨.inr ⟨id, rfl, trivial⟩, grounded_none rfl rfl⟩
  case insertDirect =>
    split at h
    · split at h <;> cases h
      · rename_i hins
        exact ⟨.inl (committed_proceed ..), grounded_proceed (insertRoom_there hins)⟩
      · exact ⟨.inr ⟨id, rfl, fun e' he => by cases he⟩, grounded_none rfl rfl⟩
      · rename_i hins
        exact ⟨.inl (insertRoom_error hins), grounded_done ..⟩
    · cases h
  case winner e =>
    cases h
    split
    · rename_i room hf
      obtain ⟨hm, -⟩ := Table.find_some hf
      exact ⟨.inr ⟨id, rfl, trivial⟩, grounded_some (List.mem_map_of_mem hm) rfl rfl⟩
    · exact ⟨.inl (hp.resolve_right id), grounded_done ..⟩
  case reactivate r =>
    cases h
    exact ⟨.inl (committed_proceed ..), grounded_proceed (hg.room r rfl)⟩
  case avatar i =>
    cases h
    exact ⟨.inr ⟨id, rfl, refusable_orFail (fun _ => assertOwnedMedia_code) fun _ _ => trivial⟩,
      grounded_orFail fun _ _ => grounded_none rfl rfl⟩
  case insertGroup =>
    split at h
    · split at h <;> cases h
      · rename_i hins
        exact ⟨.inl (committed_proceed ..), grounded_proceed (insertRoom_there hins)⟩
      · rename_i hins
        exact ⟨.inl (insertRoom_error hins), grounded_done ..⟩
    · cases h
  all_goals cases h

theorem grounded_nextWrite {r a : String} {userIds : List String} {head : Nat}
    {existing : List RoomMember} {todo added : List String} (hr : RoomThere r w) :
    Grounded (.addMembers r a userIds) w (nextWrite json r a head existing todo added) := by
  unfold nextWrite
  split
  · exact grounded_proceed hr
  · exact grounded_some hr rfl rfl

theorem joinMember_error {r u : String} {head : Nat} {existing : List RoomMember} {e : Failure}
    (h : joinMember r u head existing w = .error e) : ∀ e', e ≠ .app e' := by
  simp only [joinMember] at h
  split at h
  · split at h <;> cases h
    exact fun e' he => by cases he
  · split at h
    · cases h; exact fun e' he => by cases he
    · split at h <;> cases h
      exact fun e' he => by cases he

theorem advances_addMembers {r a : String} {userIds : List String}
    (hg : Grounded (.addMembers r a userIds) w pc)
    (h : addStep json r a userIds w pc = some (w', pc')) :
    Advances (.addMembers r a userIds) w pc w' pc' := by
  cases pc <;> simp only [addStep] at h
  case guard =>
    cases h
    exact ⟨.inr ⟨id, rfl, refusable_orFail (fun _ => canActivate_code) fun _ _ => trivial⟩,
      grounded_orFail fun _ _ => grounded_none rfl rfl⟩
  case room role =>
    cases h
    refine ⟨.inr ⟨id, rfl, refusable_orFail (fun _ => requireGroup_code) fun _ _ =>
      refusable_orFail (fun _ => requireRole_code) fun _ _ => trivial⟩, ?_⟩
    exact grounded_orFail fun _ hroom => grounded_orFail fun _ _ =>
      grounded_some (roomThere_of_group hroom) rfl rfl
  case activeUsers =>
    cases h
    exact ⟨.inr ⟨id, rfl, refusable_orFail (fun _ => assertActiveUsers_code) fun _ _ => trivial⟩,
      grounded_orFail fun _ _ => grounded_some (hg.room r rfl) rfl rfl⟩
  case head =>
    cases h
    exact ⟨.inr ⟨id, rfl, trivial⟩, grounded_some (hg.room r rfl) rfl rfl⟩
  case existing n =>
    cases h
    exact ⟨.inl (committed_nextWrite ..), grounded_nextWrite (hg.room r rfl)⟩
  case write n existing todo added =>
    split at h
    · cases h
    · split at h <;> cases h
      · exact ⟨.inl (committed_nextWrite ..), grounded_nextWrite (hg.room r rfl)⟩
      · rename_i hj
        exact ⟨.inl (joinMember_error hj), grounded_done ..⟩
  all_goals cases h

theorem advances_updateMemberRole {r a t : String} {role : MemberRole}
    (hg : Grounded (.updateMemberRole r a t role) w pc)
    (h : roleStep json r a t role w pc = some (w', pc')) :
    Advances (.updateMemberRole r a t role) w pc w' pc' := by
  cases pc <;> simp only [roleStep] at h
  case guard =>
    cases h
    exact ⟨.inr ⟨id, rfl, refusable_orFail (fun _ => canActivate_code) fun _ _ => trivial⟩,
      grounded_orFail fun _ _ => grounded_none rfl rfl⟩
  case room actorRole =>
    cases h
    refine ⟨.inr ⟨id, rfl, refusable_orFail (fun _ => requireGroup_code) fun _ _ =>
      refusable_orFail (fun _ => requireRole_code) fun _ _ => trivial⟩, ?_⟩
    exact grounded_orFail fun _ hroom => grounded_orFail fun _ _ =>
      grounded_some (roomThere_of_group hroom) rfl rfl
  case target actorRole type =>
    cases h
    split
    · split
      · exact ⟨.inr ⟨id, rfl, by simp [Pc.fail, Refusable, Errors.notFound]⟩, grounded_done ..⟩
      · split
        · exact ⟨.inr ⟨id, rfl, by simp [Pc.fail, Refusable, Errors.validation]⟩, grounded_done ..⟩
        · exact ⟨.inr ⟨id, rfl, trivial⟩, grounded_some (hg.room r rfl) rfl rfl⟩
    · exact ⟨.inr ⟨id, rfl, by simp [Pc.fail, Refusable, Errors.notFound]⟩, grounded_done ..⟩
  case setRole =>
    split at h <;> cases h
    · exact ⟨.inl (committed_proceed ..), grounded_proceed (hg.room r rfl)⟩
    · exact ⟨.inl (fun e' he => by cases he), grounded_done ..⟩
  all_goals cases h

theorem advances_removeMember {r a t : String} (hg : Grounded (.removeMember r a t) w pc)
    (h : removeStep json c r a t w pc = some (w', pc')) :
    Advances (.removeMember r a t) w pc w' pc' := by
  have hremoved : ∀ {w' : World} {type}, RoomThere r w' →
      Advances (.removeMember r a t) w pc w' (afterRemoval json r a t type) := fun hr =>
    ⟨.inl (committed_proceed ..), grounded_proceed hr⟩
  cases pc <;> simp only [removeStep] at h
  case guard =>
    cases h
    exact ⟨.inr ⟨id, rfl, refusable_orFail (fun _ => canActivate_code) fun _ _ => trivial⟩,
      grounded_orFail fun _ _ => grounded_none rfl rfl⟩
  case room actorRole =>
    cases h
    split
    · exact ⟨.inr ⟨id, rfl, by simp [Pc.fail, Refusable, Errors.notFound]⟩, grounded_done ..⟩
    · rename_i room hf
      exact ⟨.inr ⟨id, rfl, trivial⟩, grounded_some (roomThere_of_find hf) rfl rfl⟩
  case target actorRole type =>
    cases h
    split
    · split
      · exact ⟨.inr ⟨id, rfl, by simp [Pc.fail, Refusable, Errors.notFound]⟩, grounded_done ..⟩
      · exact ⟨.inr ⟨id, rfl, refusable_orFail (fun _ => assertMayRemove_code) fun _ _ => trivial⟩,
          grounded_orFail fun _ _ => grounded_some (hg.room r rfl) rfl rfl⟩
    · exact ⟨.inr ⟨id, rfl, by simp [Pc.fail, Refusable, Errors.notFound]⟩, grounded_done ..⟩
  case leave type role =>
    split at h <;> cases h
    · split
      · exact ⟨.inl trivial, grounded_some (hg.room r rfl) rfl rfl⟩
      · exact hremoved (hg.room r rfl)
    · exact ⟨.inl (fun e' he => by cases he), grounded_done ..⟩
  case candidates =>
    split at h
    · cases h
      split
      · exact ⟨.inl trivial, grounded_some (hg.room r rfl) rfl rfl⟩
      · exact hremoved (hg.room r rfl)
    · cases h
  case promote u =>
    split at h <;> cases h
    · exact hremoved (hg.room r rfl)
    · exact ⟨.inl (fun e' he => by cases he), grounded_done ..⟩
  all_goals cases h

theorem advances_step {call : Call} (hp : Refusable pc ∨ Committed pc) (hg : Grounded call w pc)
    (h : step json c call w pc = some (w', pc')) : Advances call w pc w' pc' := by
  unfold step at h
  split at h
  · rename_i r task todo tp result
    obtain ⟨hc, hg'⟩ : Committed pc' ∧ Grounded call w' pc' :=
      committed_tail (hg.room r (by cases call <;> rfl))
        (fun q hq => hg.firm r q (by rw [hq]; rfl)) h
    exact ⟨.inl hc, hg'⟩
  · cases call with
    | createRoom creatorId dto => exact advances_createRoom hp hg h
    | addMembers r a userIds => exact advances_addMembers hg h
    | updateMemberRole r a t role => exact advances_updateMemberRole hg h
    | removeMember r a t => exact advances_removeMember hg h

end Requests

/-! ## Runs -/

/-- `softDelete` may still be refused. -/
def DeleteRefusable : DeletePc → Prop
  | .find => True
  | .done (.error (.app e)) => e.code ≠ .CONFLICT
  | _ => False

/-- `softDelete` is not going to be refused. -/
def DeleteCommitted : DeletePc → Prop
  | .update _ | .members | .done (.ok _) => True
  | .done (.error e) => ∀ e', e ≠ .app e'
  | _ => False

/-- How far a lone `updateRoom` that started in `w₀` has come. -/
def UpdateStage (w₀ w : World) (r : String) : UpdatePc → Prop
  | .guard | .room _ => Untouched w₀ w
  | .avatar _ _ | .update _ => Untouched w₀ w ∧ RoomThere r w
  | .after pc => (Untouched w₀ w ∧ Refusable pc ∨ Committed pc) ∧ ∀ call, Grounded call w pc

/-- The same for any request. -/
def Stage (w₀ w : World) : ChatCall → ChatPc → Prop
  | .inl (.createMessage p), .inl (.create q) =>
    Untouched w₀ w ∧ CreateRefusable q ∨ Firm p.roomId w q
  | .inl (.markRead _ _ _), .inl (.read pc) => ∀ e, pc ≠ .done (.error (.app e))
  | .inl (.softDelete _ _ _), .inl (.delete pc) =>
    Untouched w₀ w ∧ DeleteRefusable pc ∨ DeleteCommitted pc
  | .inr (.inl call), .inr (.inl pc) =>
    (Untouched w₀ w ∧ Refusable pc ∨ Committed pc) ∧ Grounded call w pc
  | .inr (.inr (.updateRoom r _ _)), .inr (.inr pc) => UpdateStage w₀ w r pc
  | _, _ => False

section Runs
variable {cfg : AppConfig} {json : Json} {c : Choice} {w₀ w w' : World}

theorem stage_start (k : ChatCall) : Stage w w k ((chat cfg json).start k) := by
  rcases k with (p | _ | _) | (call | call)
  · exact (firm_of_checking p.roomId w (checking_createStart p)).imp_left fun h => ⟨.refl w, h⟩
  · exact fun e he => by cases he
  · exact .inl ⟨.refl w, trivial⟩
  · cases call with
    | createRoom creatorId dto =>
      have hstart : Refusable (createStart creatorId dto) ∧
          Grounded (.createRoom creatorId dto) w (createStart creatorId dto) := by
        unfold createStart
        split
        · split
          · split
            · exact ⟨by simp [Pc.fail, Refusable, Errors.validation], grounded_done ..⟩
            · exact ⟨trivial, grounded_none rfl rfl⟩
          · exact ⟨by simp [Pc.fail, Refusable, Errors.validation], grounded_done ..⟩
        · exact ⟨trivial, grounded_none rfl rfl⟩
      exact ⟨.inl ⟨.refl w, hstart.1⟩, hstart.2⟩
    | _ => exact ⟨.inl ⟨.refl w, trivial⟩, grounded_none rfl rfl⟩
  · exact .refl w

theorem readStep_app {r u : WhereString} {n : JsNumber} {pc pc' : ReadPc}
    (h : readStep r u n w pc = some (w', pc')) (e : AppException) :
    pc' ≠ .done (.error (.app e)) := by
  cases pc <;> simp only [readStep] at h
  case update =>
    split at h
    · cases h; simp
    · split at h
      · cases h; simp
      · split at h <;> cases h <;> simp
  case members l => cases h; simp
  case done x => cases h

theorem deleteStep_phase {r m u : String} {pc pc' : DeletePc}
    (h : deleteStep cfg r m u w pc = some (w', pc')) :
    DeleteCommitted pc' ∨ ¬ DeleteCommitted pc ∧ w' = w ∧ DeleteRefusable pc' := by
  cases pc <;> simp only [deleteStep] at h
  case find =>
    cases h
    split
    · exact .inr ⟨id, rfl, by simp [DeleteRefusable, Errors.notFound]⟩
    · split
      · exact .inr ⟨id, rfl, by simp [DeleteRefusable, Errors.notFound]⟩
      · split
        · exact .inr ⟨id, rfl, by simp [DeleteRefusable, Errors.forbidden]⟩
        · split
          · exact .inr ⟨id, rfl, by simp [DeleteRefusable, Errors.forbidden]⟩
          · split
            · exact .inl trivial
            · split
              · exact .inr ⟨id, rfl, by simp [DeleteRefusable, Errors.forbidden]⟩
              · exact .inl trivial
  case update at_ =>
    split at h <;> cases h
    · exact .inl trivial
    · exact .inl (fun e' he => by cases he)
  case members => cases h; exact .inl trivial
  case done x => cases h

/-- What `updateRoom` does before it writes, and when it writes. -/
theorem updateStep_phase {r a : String} {dto : UpdateRoomDto} {pc pc' : UpdatePc}
    (h : UpdateStage w₀ w r pc) (hs : updateStep json c r a dto w pc = some (w', pc')) :
    UpdateStage w₀ w' r pc' := by
  have hrefused : ∀ {e : AppException}, Untouched w₀ w → e.code ≠ .CONFLICT →
      UpdateStage w₀ w r (.fail e) := fun hw he => ⟨.inl ⟨hw, he⟩, fun call => grounded_done ..⟩
  cases pc <;> simp only [updateStep] at hs
  case guard =>
    cases hs
    split
    · rename_i e he
      exact hrefused h (canActivate_code he)
    · exact h
  case room role =>
    cases hs
    split
    · rename_i e he
      exact hrefused h (requireGroup_code he)
    · rename_i room hroom
      split
      · rename_i e he
        exact hrefused h (requireRole_code he)
      · unfold afterChecks
        split <;> exact ⟨h, roomThere_of_group hroom⟩
  case avatar room i =>
    cases hs
    split
    · rename_i e he
      exact hrefused h.1 (assertOwnedMedia_code he)
    · exact h
  case update room =>
    split at hs <;> cases hs
    · have hr : RoomThere r { w with db.rooms := updateRooms w.db.rooms r dto } := by
        unfold RoomThere updateRooms
        rw [Table.map_updateWhere]
        · exact h.2
        · exact fun _ => rfl
      exact ⟨.inr (committed_proceed ..), fun call => grounded_proceed hr⟩
    · exact ⟨.inr (fun e' he => by cases he), fun call => grounded_done ..⟩
  case after pc =>
    cases pc with
    | tail r' task todo tp result =>
      obtain ⟨⟨w₁, pc₁⟩, ht, he⟩ := Option.map_eq_some_iff.1 hs
      cases he
      obtain ⟨-, hg⟩ := h
      have hg' := hg (.removeMember r a a)
      have htail : ∀ call, Committed pc₁ ∧ Grounded call w₁ pc₁ := fun call =>
        committed_tail (hg'.room r' rfl) (fun q hq => hg'.firm r' q (by rw [hq]; rfl)) ht
      exact ⟨.inr (htail (.removeMember r a a)).1, fun call => (htail call).2⟩
    | _ => cases hs

theorem stage_step {k : ChatCall} {pc pc' : ChatPc} (h : Stage w₀ w k pc)
    (hs : (chat cfg json).step c k w pc = some (w', pc')) : Stage w₀ w' k pc' := by
  cases acts_of_chat hs with
  | create hc =>
    rcases h with ⟨hw, hq⟩ | hq
    · obtain ⟨rfl, hq'⟩ := refusable_step hq hc
      exact hq'.imp_left fun h => ⟨hw, h⟩
    · exact .inr (firm_step hq hc)
  | read hr => exact readStep_app hr
  | delete hd =>
    rcases deleteStep_phase hd with hc | ⟨hno, rfl, hr⟩
    · exact .inr hc
    · obtain ⟨hw, -⟩ := h.resolve_right hno
      exact .inl ⟨hw, hr⟩
  | @room call pc w' pc' hr =>
    obtain ⟨hp, hg⟩ := h
    obtain ⟨hphase, hg'⟩ := advances_step (hp.imp_left (·.2)) hg hr
    refine ⟨?_, hg'⟩
    rcases hphase with hc | ⟨hno, rfl, hr'⟩
    · exact .inr hc
    · exact .inl ⟨(hp.resolve_right hno).1, hr'⟩
  | update hu => exact updateStep_phase h hu

theorem stage_tick {k : ChatCall} {pc : ChatPc} (h : Stage w₀ w k pc) (ms : Nat) :
    Stage w₀ (w.tick ms) k pc := by
  have hg : ∀ {call pc}, Grounded call w pc → Grounded call (w.tick ms) pc := fun h =>
    ⟨h.room, fun r q hq => firm_tick (h.firm r q hq) ms⟩
  unfold Stage at h
  split at h
  · exact h.imp (And.imp_left (·.tick ms)) fun h => firm_tick h ms
  · exact h
  · exact h.imp_left (And.imp_left (·.tick ms))
  · exact ⟨h.1.imp_left (And.imp_left (·.tick ms)), hg h.2⟩
  · rename_i pc
    cases pc with
    | after pc => exact ⟨h.1.imp_left (And.imp_left (·.tick ms)), fun call => hg (h.2 call)⟩
    | avatar | update => exact ⟨h.1.tick ms, h.2⟩
    | guard | room => exact h.tick ms
  · exact h.elim

/-- A request that has been refused has not been past that. -/
theorem stage_refused {k : ChatCall} {pc : ChatPc} {e : AppException} (h : Stage w₀ w k pc)
    (he : outcome pc = some (.error (.app e))) : Untouched w₀ w ∧ e.code ≠ .CONFLICT := by
  unfold Stage at h
  split at h
  · rename_i p q
    obtain rfl : q = .done (.error (.app e)) := by
      cases q with
      | done x => cases x <;> cases he; rfl
      | _ => cases he
    exact h.resolve_right fun hf => hf e rfl
  · rename_i pc
    cases pc with
    | done x => cases he; exact absurd rfl (h e)
    | _ => cases he
  · rename_i pc
    cases pc with
    | done x => cases he; exact h.resolve_right fun hf => hf e rfl
    | _ => cases he
  · rename_i call pc
    obtain rfl : pc = .done (.error (.app e)) := by
      cases pc with
      | done x => cases x <;> cases he; rfl
      | _ => cases he
    exact h.1.resolve_right fun hf => hf e rfl
  · rename_i pc
    cases pc with
    | after pc =>
      obtain rfl : pc = .done (.error (.app e)) := by
        cases pc with
        | done x => cases x <;> cases he; rfl
        | _ => cases he
      exact h.1.resolve_right fun hf => hf e rfl
    | _ => cases he
  · exact h.elim

/-- A request that runs alone and ends with an `AppException`. -/
theorem untouched_of_refused {k : ChatCall} {pc : ChatPc} {e : AppException}
    (h : Solo (chat cfg json) k w ((chat cfg json).start k) w' pc)
    (he : outcome pc = some (.error (.app e))) : Untouched w w' ∧ e.code ≠ .CONFLICT := by
  have hstage := h.invariant (Stage w · k) (stage_start k) stage_step
    fun ms _ _ hI => stage_tick hI ms
  exact stage_refused hstage he

end Runs

end Intaktok.Rooms
