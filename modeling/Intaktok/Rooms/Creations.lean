import Intaktok.Rooms.UpdateRoom
/-
# The messages a request creates

`RoomsService` creates SYSTEM messages in the tails of its requests, one after the other, and
emits nothing else but the events of the room (`step_creates`, `updateStep_creates`).
-/

namespace Intaktok.Rooms

open Messages (CreatePc CreateActs createStart systemParams)

/-- No message is under way but one that is about to start. -/
def Pc.Begins (pc : Pc) : Prop := ∀ q, pc.creation = some q → ∃ p, q = Messages.createStart p

theorem begins_proceed {json : Messages.Json} {r : String} {result : Option RoomView}
    {todo : List Task} : (proceed json r result todo).Begins := (between_proceed ..).2

/-- What a tail is about. -/
def Pc.current : Pc → Option (String × Task × TailPc)
  | .tail r task _ tp _ => some (r, task, tp)
  | _ => none

/-- A tail that is under way is at the start of its task. -/
def Pc.Opening (json : Messages.Json) (pc : Pc) : Prop :=
  ∀ r task tp, pc.current = some (r, task, tp) → tp = task.start json r

theorem Pc.Opening.begins {json : Messages.Json} {pc : Pc} (h : pc.Opening json) : pc.Begins := by
  intro q hq
  cases pc with
  | tail r task todo tp result =>
    cases tp with
    | system q' =>
      cases hq
      have hstart := h r task _ rfl
      cases task with
      | system actorId payload => cases hstart; exact ⟨_, rfl⟩
      | lifecycle event recipients => cases recipients <;> cases hstart
      | view u => cases hstart
    | _ => cases hq
  | _ => cases hq

theorem opening_of_none {json : Messages.Json} {pc : Pc} (h : pc.current = none) :
    pc.Opening json := by
  intro r task tp ht
  rw [h] at ht
  cases ht

theorem opening_proceed {json : Messages.Json} {r : String} {result : Option RoomView}
    {todo : List Task} : (proceed json r result todo).Opening json := by
  cases todo with
  | nil => exact opening_of_none rfl
  | cons task todo =>
    intro r' task' tp ht
    cases ht
    rfl

theorem opening_orFail {json : Messages.Json} {α : Type} {x : Except AppException α} {next : α → Pc}
    (h : ∀ a, (next a).Opening json) : (orFail x next).Opening json :=
  orFail_rule (fun a _ => h a) fun _ _ => opening_of_none rfl

theorem opening_nextWrite {json : Messages.Json} {r a : String} {head : Nat}
    {existing : List RoomMember} {todo added : List String} :
    (nextWrite json r a head existing todo added).Opening json := by
  unfold nextWrite
  split
  · exact opening_proceed
  · exact opening_of_none rfl

theorem opening_afterRemoval {json : Messages.Json} {r a t : String} {type : RoomType} :
    (afterRemoval json r a t type).Opening json := opening_proceed

section Requests
variable {json : Messages.Json} {c : Choice} {w w' : World} {pc pc' : Pc}

theorem opening_createRoom {creatorId : String} {dto : CreateRoomDto}
    (h : createStep json c creatorId dto w pc = some (w', pc')) : pc'.Opening json := by
  cases pc <;> simp only [createStep] at h
  case activeUsers =>
    cases h
    split
    · exact opening_orFail fun _ => opening_of_none rfl
    · refine opening_orFail fun _ => ?_
      split <;> exact opening_of_none rfl
  case directRoom => cases h; split <;> exact opening_of_none rfl
  case insertDirect =>
    split at h
    · split at h <;> cases h
      · exact opening_proceed
      · exact opening_of_none rfl
      · exact opening_of_none rfl
    · cases h
  case winner e => cases h; split <;> exact opening_of_none rfl
  case reactivate r => cases h; exact opening_proceed
  case avatar i => cases h; exact opening_orFail fun _ => opening_of_none rfl
  case insertGroup =>
    split at h
    · split at h <;> cases h
      · exact opening_proceed
      · exact opening_of_none rfl
    · cases h
  all_goals cases h

theorem opening_addMembers {r a : String} {userIds : List String}
    (h : addStep json r a userIds w pc = some (w', pc')) : pc'.Opening json := by
  cases pc <;> simp only [addStep] at h
  case guard => cases h; exact opening_orFail fun _ => opening_of_none rfl
  case room role =>
    cases h
    exact opening_orFail fun _ => opening_orFail fun _ => opening_of_none rfl
  case activeUsers => cases h; exact opening_orFail fun _ => opening_of_none rfl
  case head => cases h; exact opening_of_none rfl
  case existing n => cases h; exact opening_nextWrite
  case write n existing todo added =>
    split at h
    · cases h
    · split at h <;> cases h
      · exact opening_nextWrite
      · exact opening_of_none rfl
  all_goals cases h

theorem opening_updateMemberRole {r a t : String} {role : MemberRole}
    (h : roleStep json r a t role w pc = some (w', pc')) : pc'.Opening json := by
  cases pc <;> simp only [roleStep] at h
  case guard => cases h; exact opening_orFail fun _ => opening_of_none rfl
  case room role =>
    cases h
    exact opening_orFail fun _ => opening_orFail fun _ => opening_of_none rfl
  case target role type =>
    cases h
    split
    · split
      · exact opening_of_none rfl
      · split <;> exact opening_of_none rfl
    · exact opening_of_none rfl
  case setRole =>
    split at h <;> cases h
    · exact opening_proceed
    · exact opening_of_none rfl
  all_goals cases h

theorem opening_removeMember {r a t : String}
    (h : removeStep json c r a t w pc = some (w', pc')) : pc'.Opening json := by
  cases pc <;> simp only [removeStep] at h
  case guard => cases h; exact opening_orFail fun _ => opening_of_none rfl
  case room role => cases h; split <;> exact opening_of_none rfl
  case target role type =>
    cases h
    split
    · split
      · exact opening_of_none rfl
      · exact opening_orFail fun _ => opening_of_none rfl
    · exact opening_of_none rfl
  case leave type role =>
    split at h <;> cases h
    · split
      · exact opening_of_none rfl
      · exact opening_afterRemoval
    · exact opening_of_none rfl
  case candidates =>
    split at h
    · cases h
      split
      · exact opening_of_none rfl
      · exact opening_afterRemoval
    · cases h
  case promote u =>
    split at h <;> cases h
    · exact opening_afterRemoval
    · exact opening_of_none rfl
  all_goals cases h

end Requests

/-! ## One action -/

/-- Until its tail a request writes to rooms and memberships. -/
theorem Acts.db {c : Choice} {call : Call} {w w' : World} {pc pc' : Pc}
    (h : Acts c call w pc w' pc') : ∃ rooms roomMembers, w' = { w with
      db.rooms := rooms, db.roomMembers := roomMembers } := by
  cases call with
  | createRoom creatorId dto =>
    cases h with
    | insertedDirect _ _ _ _ hins | insertedGroup _ _ _ _ hins =>
      obtain ⟨rooms, roomMembers, -, -, rfl⟩ := insertRoom_ok hins
      exact ⟨rooms, roomMembers, rfl⟩
    | _ => exact ⟨_, _, rfl⟩
  | addMembers r a userIds => cases h <;> exact ⟨_, _, rfl⟩
  | updateMemberRole r a t role => cases h <;> exact ⟨_, _, rfl⟩
  | removeMember r a t => cases h <;> exact ⟨_, _, rfl⟩

/-- What the tail of a request does: an action of the message it is creating, or something else. -/
inductive TailCreates (json : Messages.Json) (c : Choice) (w : World) : Pc → World → Pc → Prop
  | creates {r actorId payload todo result q w' q'} :
      CreateActs json c (systemParams json r actorId payload) w q w' q' →
      TailCreates json c w (.tail r (.system actorId payload) todo (.system q) result) w'
        (afterCreate json r (.system actorId payload) todo result q')
  | other {pc w' pc'} : pc'.Begins → w'.db.messages = w.db.messages →
      (w'.events = w.events ∨ ∃ r ids room event,
        w'.events = w.events ++ [Lifecycle.event r ids room event]) →
      TailCreates json c w pc w' pc'

theorem TailActs.creates {json : Messages.Json} {c : Choice} {r : String} {task : Task}
    {todo : List Task} {result : Option RoomView} {w w' : World} {pc : TailPc} {pc' : Pc}
    (h : TailActs json c r task todo result w pc w' pc') :
    TailCreates json c w (.tail r task todo pc result) w' pc' := by
  cases h with
  | created ht hc => subst ht; exact .creates hc
  | read hp => exact .other hp.2 rfl (.inl rfl)
  | emitted hp => exact .other hp.2 rfl (.inr ⟨_, _, _, _, rfl⟩)

/-- An action in a tail, or one before it. -/
theorem step_acts {json : Messages.Json} {c : Choice} {call : Call} {w w' : World} {pc pc' : Pc}
    (h : step json c call w pc = some (w', pc')) :
    (∃ r task todo q result, pc = .tail r task todo q result ∧
      TailActs json c r task todo result w q w' pc') ∨
      Acts c call w pc w' pc' ∧ pc'.Opening json := by
  unfold step at h
  split at h
  · exact .inl ⟨_, _, _, _, _, rfl, acts_of_tailStep h⟩
  · cases call with
    | createRoom creatorId dto => exact .inr ⟨acts_of_createRoom h, opening_createRoom h⟩
    | addMembers r a userIds => exact .inr ⟨acts_of_addMembers h, opening_addMembers h⟩
    | updateMemberRole r a t role =>
      exact .inr ⟨acts_of_updateMemberRole h, opening_updateMemberRole h⟩
    | removeMember r a t => exact .inr ⟨acts_of_removeMember h, opening_removeMember h⟩

theorem step_creates {json : Messages.Json} {c : Choice} {call : Call} {w w' : World} {pc pc' : Pc}
    (h : step json c call w pc = some (w', pc')) : TailCreates json c w pc w' pc' := by
  rcases step_acts h with ⟨r, task, todo, q, result, rfl, htail⟩ | ⟨hacts, hopening⟩
  · exact htail.creates
  · obtain ⟨rooms, roomMembers, rfl⟩ := hacts.db
    exact .other hopening.begins rfl (.inl rfl)

/-- `updateRoom` creates its messages in its tail. -/
theorem updateStep_creates {json : Messages.Json} {c : Choice} {roomId actorId : String}
    {dto : UpdateRoomDto} {w w' : World} {pc pc' : UpdatePc}
    (h : updateStep json c roomId actorId dto w pc = some (w', pc')) :
    (∃ q q', pc = .after q ∧ pc' = .after q' ∧ TailCreates json c w q w' q') ∨
      (∀ q, pc' = .after q → q.Begins) ∧ w'.db.messages = w.db.messages ∧
        w'.events = w.events := by
  have hchecks : ∀ {room : Room} {q}, afterChecks dto room ≠ .after q := by
    intro room q
    unfold afterChecks
    split <;> exact UpdatePc.noConfusion
  cases acts_of_updateRoom h with
  | after hs => exact .inl ⟨_, _, rfl, rfl, (acts_of_tailStep hs).creates⟩
  | refused => exact .inr ⟨by rintro q ⟨⟩; exact (between_done _).2, rfl, rfl⟩
  | updated hp => exact .inr ⟨by rintro q ⟨⟩; exact hp.2, rfl, rfl⟩
  | group => exact .inr ⟨fun q hq => absurd hq hchecks, rfl, rfl⟩
  | entered | owned => exact .inr ⟨by rintro q ⟨⟩, rfl, rfl⟩

end Intaktok.Rooms
