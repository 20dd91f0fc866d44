import Intaktok.Rooms.Refusals
import Intaktok.Rooms.Requests
/-
# Everybody affected is notified

`row` and `face` are what others see of a membership and of a room, `Concerns` says who has to hear
of a change, `AllHeard` that they do. A request that runs alone writes to one room (`Within`), and
in its tail it knows that whoever it still has to tell will be told (`Telling`). Only
`reactivateDirect` tells nobody.
-/

namespace Intaktok.Rooms

open Interleave Tables Messages

/-! ## Who has to hear of what -/

/-- The row of a user in a room. -/
def row (t : Table RoomMember) (r u : String) : Option RoomMember := t.find (isMember r u)

def standing (t : Table RoomMember) (r u : String) : Option (MemberRole × Option Nat) :=
  (row t r u).map fun m => (m.role, m.leftAt)

/-- The name and the avatar of a room. -/
def face (db : Db) (r : String) : Option (Option String × Option String) :=
  (db.rooms.find (·.id == r)).map fun x => (x.name, x.avatarMediaId)

/-- The room is new or looks different, or somebody's role or `leftAt` is. -/
def Affects (w w' : World) (r : String) : Prop :=
  face w'.db r ≠ face w.db r ∨ ∃ u, standing w'.db.roomMembers r u ≠ standing w.db.roomMembers r u

/-- Who is in the room now, or whose row is not the same. -/
def Concerns (w w' : World) (r u : String) : Prop :=
  (crew w'.db.roomMembers r u).isSome = true ∨ row w'.db.roomMembers r u ≠ row w.db.roomMembers r u

/-- A lifecycle event of the room to these users. -/
def Announces (r : String) (ids : List String) (e : DomainEvent) : Prop :=
  ∃ view event, e = Lifecycle.event r ids view event

/-- Everybody who has to has been told of the room. -/
def Heard (w w' : World) (r : String) : Prop :=
  ∃ emitted, w'.events = w.events ++ emitted ∧
    ∃ e ∈ emitted, ∃ ids, Announces r ids e ∧ ∀ u, Concerns w w' r u → u ∈ ids

def AllHeard (w w' : World) : Prop := ∀ r, Affects w w' r → Heard w w' r

/-- Every membership has its room, by its foreign key. -/
def Housed (w : World) : Prop := ∀ m ∈ w.db.roomMembers.rows, RoomThere m.roomId w

theorem mem_getActiveMemberIds {db : Db} {r u : String} :
    u ∈ getActiveMemberIds db r ↔ (crew db.roomMembers r u).isSome = true := by
  rw [getActiveMemberIds, List.mem_map, Option.isSome_iff_exists]
  refine exists_congr fun m => ?_
  simp only [crew_eq_some, Table.mem_findMany, Bool.and_eq_true, beq_iff_eq,
    Option.isNone_iff_eq_none]
  tauto

/-! ### Rooms that are left alone -/

theorem row_crew {t t' : Table RoomMember} {r r' u u' : String} (h : row t' r' u' = row t r u) :
    crew t' r' u' = crew t r u := congrArg (Option.filter _) h

theorem not_affects {w w' : World} {r : String} (hface : face w'.db r = face w.db r)
    (hrow : ∀ u, row w'.db.roomMembers r u = row w.db.roomMembers r u) : ¬ Affects w w' r := by
  rintro (h | ⟨u, h⟩)
  · exact h hface
  · exact h (congrArg (Option.map _) (hrow u))

theorem face_of_stubs {db db' : Db} (h : roomStubs db' = roomStubs db) (r : String) :
    face db' r = face db r := by
  have hstub : ∀ db : Db, face db r =
      ((roomStubs db).find? (·.id == r)).map fun x => (x.name, x.avatarMediaId) := by
    intro db
    rw [face, Table.find, roomStubs, List.find?_map, Option.map_map]
    rfl
  rw [hstub, hstub, h]

theorem Elsewhere.row {r r' : String} {t t' : Table RoomMember} (h : Elsewhere r t t')
    (hr : r' ≠ r) (u : String) : row t' r' u = row t r' u := by
  ext m
  unfold Rooms.row
  rw [find_isMember, find_isMember]
  constructor
  · rintro ⟨hm, rfl, rfl⟩
    exact ⟨(h m hr).1 hm, rfl, rfl⟩
  · rintro ⟨hm, rfl, rfl⟩
    exact ⟨(h m hr).2 hm, rfl, rfl⟩

section Kept
variable {w₀ w w' : World} {r : String}

theorem Kept.affects (h : Kept w w') : Affects w₀ w' r ↔ Affects w₀ w r := by
  unfold Affects
  rw [face_of_stubs h.rooms, h.members]

theorem Kept.concerns (h : Kept w w') {u : String} : Concerns w₀ w' r u ↔ Concerns w₀ w r u := by
  unfold Concerns
  rw [h.members]

end Kept

/-! ## One room at a time -/

/-- A request that has written, if anything, to one room, and has told nobody yet. -/
structure Within (w₀ w : World) (r : String) : Prop where
  events : w.events = w₀.events
  others : ∀ r', r' ≠ r → ¬ Affects w₀ w r'

theorem Untouched.within {w₀ w : World} (h : Untouched w₀ w) (r : String) : Within w₀ w r where
  events := h.events
  others r' _ := not_affects (by rw [h.db]) fun _ => by rw [h.db]

/-- A write to the memberships of the room. -/
theorem Within.write {w₀ w : World} {r : String} {t : Table RoomMember} (h : Within w₀ w r)
    (ht : Elsewhere r w.db.roomMembers t) :
    Within w₀ { w with db.roomMembers := t } r where
  events := h.events
  others r' hr := by
    rintro (hface | ⟨u, hu⟩)
    · exact h.others r' hr (.inl hface)
    · refine h.others r' hr (.inr ⟨u, fun he => hu ?_⟩)
      rw [← he]
      exact congrArg (Option.map _) (ht.row hr u)

/-! ## The tail -/

abbrev RoomsCall := Call ⊕ UpdateCall

/-- A direct room of the pair is there and one of the two has left it. -/
def Reactivates : RoomsCall → World → Prop
  | .inl (.createRoom creatorId dto), w => dto.type = .DIRECT ∧ ∃ room ∈ w.db.rooms.rows,
      room.directKey = some (directKey creatorId dto.otherId) ∧ ∃ m ∈ w.db.roomMembers.rows,
        m.roomId = room.id ∧ (m.userId = creatorId ∨ m.userId = dto.otherId) ∧ m.leftAt ≠ none
  | _, _ => False

/-- What a request has still to do will tell everybody who has to hear, if they have not heard. -/
structure Telling (w₀ w : World) (k : RoomsCall) (r : String) (tasks : List Task) : Prop where
  grown : w₀.events <+: w.events
  others : ∀ r', r' ≠ r → ¬ Affects w₀ w r'
  addressed : ∀ event recipients, Task.lifecycle event recipients ∈ tasks →
    ∀ u, Concerns w₀ w r u → u ∈ recipientsOf w.db r recipients
  told : Reactivates k w₀ ∨ (Affects w₀ w r → Heard w₀ w r ∨
    ∃ event recipients, Task.lifecycle event recipients ∈ tasks)

/-- How far a request is that has done its writes. -/
def Reported (w₀ w : World) (k : RoomsCall) : Pc → Prop
  | .tail r task todo pc _ => Telling w₀ w k r (task :: todo) ∧
      ∀ ids vp, pc = .lifecycle ids vp → ∀ u, Concerns w₀ w r u → u ∈ ids
  | .done (.ok _) => ∃ r, Telling w₀ w k r []
  | .done (.error _) => True
  | _ => False

section Tail
variable {json : Json} {c : Choice} {k : RoomsCall} {w₀ w w' : World} {r : String} {task : Task}
  {todo : List Task} {result : Option RoomView}

/-- What is heard stays heard. -/
theorem Heard.kept (hk : Kept w w') (hg : w.events <+: w'.events) (h : Heard w₀ w r) :
    Heard w₀ w' r := by
  obtain ⟨emitted, hev, e, he, ids, ha, hids⟩ := h
  obtain ⟨more, hmore⟩ := hg
  refine ⟨emitted ++ more, by rw [← hmore, hev, List.append_assoc], e,
    List.mem_append_left _ he, ids, ha, fun u hu => hids u (hk.concerns.1 hu)⟩

theorem recipientsOf_kept (hk : Kept w w') (x : Recipients) :
    recipientsOf w'.db r x = recipientsOf w.db r x := by
  cases x <;> simp only [recipientsOf, getActiveMemberIds, hk.members]

theorem Telling.kept (h : Telling w₀ w k r todo) (hk : Kept w w')
    (hg : w.events <+: w'.events) : Telling w₀ w' k r todo where
  grown := h.grown.trans hg
  others r' hr ha := h.others r' hr (hk.affects.1 ha)
  addressed event recipients hm u hu := by
    rw [recipientsOf_kept hk]
    exact h.addressed event recipients hm u (hk.concerns.1 hu)
  told := h.told.imp_right fun ht ha => (ht (hk.affects.1 ha)).imp_left (·.kept hk hg)

/-- On to the next task, when this one tells nobody. -/
theorem Telling.next (h : Telling w₀ w k r (task :: todo))
    (htask : ∀ event recipients, task ≠ .lifecycle event recipients) :
    Telling w₀ w k r todo where
  grown := h.grown
  others := h.others
  addressed event recipients hm := h.addressed event recipients (List.mem_cons_of_mem _ hm)
  told := h.told.imp_right fun ht ha => (ht ha).imp_right fun ⟨event, recipients, hm⟩ =>
    ⟨event, recipients, (List.mem_cons.1 hm).resolve_left (htask event recipients).symm⟩

/-- On to the next task, when this one has told those who have to hear. -/
theorem Telling.emitted (h : Telling w₀ w k r (task :: todo)) {ids : List String} {view : RoomView}
    {event : Lifecycle} (hids : ∀ u, Concerns w₀ w r u → u ∈ ids) :
    Telling w₀ (w.emit (event.event r ids view)) k r todo := by
  have hk : Kept w (w.emit (event.event r ids view)) := ⟨rfl, rfl⟩
  have h' := h.kept hk (List.prefix_append ..)
  obtain ⟨emitted, hev⟩ := h.grown
  refine ⟨h'.grown, h'.others, fun event recipients hm =>
    h'.addressed event recipients (List.mem_cons_of_mem _ hm), .inr fun _ => .inl ?_⟩
  refine ⟨emitted ++ [event.event r ids view], ?_, _, List.mem_append_right _ List.mem_cons_self,
    ids, ⟨view, event, rfl⟩, fun u hu => hids u (hk.concerns.1 hu)⟩
  rw [World.emit, ← hev, List.append_assoc]

theorem telling_proceed (h : Telling w₀ w k r todo) :
    Reported w₀ w k (proceed json r result todo) := by
  cases todo with
  | nil => exact ⟨r, h⟩
  | cons task todo =>
    refine ⟨h, fun ids vp he u hu => ?_⟩
    cases task with
    | lifecycle event recipients =>
      cases recipients <;> cases he
      exact h.addressed event _ List.mem_cons_self u hu
    | _ => cases he

theorem telling_tail {tp : TailPc} {pc' : Pc} (h : Reported w₀ w k (.tail r task todo tp result))
    (hs : tailStep json c r task todo result w tp = some (w', pc')) : Reported w₀ w' k pc' := by
  obtain ⟨ht, hids⟩ := h
  cases move_of_tailStep hs with
  | @created actorId payload q _ q' hacts =>
    have hgrow : w.events <+: w'.events := by
      rcases hacts.events with he | ⟨_, _, _, _, he⟩ <;> rw [he]
      exact List.prefix_append ..
    have ht' := ht.kept (kept_of_createActs hacts) hgrow
    cases q' with
    | done x =>
      cases x with
      | ok res => exact telling_proceed (ht'.next fun _ _ => Task.noConfusion)
      | error e => trivial
    | _ => exact ⟨ht', fun ids vp he => by cases he⟩
  | @addressed event recipients =>
    refine ⟨ht, fun ids vp he u hu => ?_⟩
    cases he
    exact ht.addressed event recipients List.mem_cons_self u hu
  | shows _ => exact ⟨ht, fun ids' vp' he => by cases he; exact hids _ _ rfl⟩
  | emitted _ => exact telling_proceed (ht.emitted (hids _ _ rfl))
  | views _ => exact ⟨ht, fun ids vp he => by cases he⟩
  | viewed _ => exact telling_proceed (ht.next fun _ _ => Task.noConfusion)
  | unshown _ | unviewed _ => trivial

end Tail

/-! ## The writes -/

section Writes
variable {w₀ w w' : World} {k : RoomsCall} {r : String} {tasks : List Task}

/-- A request that will tell `x`. -/
theorem Within.telling (h : Within w₀ w r) (x : Recipients)
    (honly : ∀ event y, Task.lifecycle event y ∈ tasks → y = x)
    (hsome : ∃ event, Task.lifecycle event x ∈ tasks)
    (hreach : ∀ u, Concerns w₀ w r u → u ∈ recipientsOf w.db r x) : Telling w₀ w k r tasks where
  grown := by rw [h.events]
  others := h.others
  addressed event y hm u hu := honly event y hm ▸ hreach u hu
  told := .inr fun _ => .inr (hsome.imp fun _ he => ⟨_, he⟩)

/-- A request that will tell nobody. -/
theorem Within.silent (h : Within w₀ w r)
    (hno : ∀ event y, Task.lifecycle event y ∉ tasks)
    (htold : Reactivates k w₀ ∨ ¬ Affects w₀ w r) : Telling w₀ w k r tasks where
  grown := by rw [h.events]
  others := h.others
  addressed event y hm := absurd hm (hno event y)
  told := htold.imp_right fun hna ha => absurd ha hna

theorem row_updateMember {t t' : Table RoomMember} {u v : String} {d : MemberData}
    (h : updateMember t r u d = some t') (hv : v ≠ u) : row t' r v = row t r v := by
  rw [row, find_updateMember h, if_neg fun hk => hv hk.2]
  rfl

theorem row_setRole {t t' : Table RoomMember} {a u v : String} {role : MemberRole}
    (h : setRole t r a u role = some t') (hu : v ≠ u) (ha : v ≠ a) : row t' r v = row t r v := by
  obtain ⟨t₁, h₁, h₂⟩ := Option.bind_eq_some_iff.1 h
  split at h₂
  · rw [row_updateMember h₂ ha, row_updateMember h₁ hu]
  · cases h₂
    exact row_updateMember h₁ hu

theorem row_joinMember {u v : String} {head : Nat} {existing : List RoomMember}
    {t : Table RoomMember} (h : joinMember r u head existing w = .ok t) (hv : v ≠ u) :
    row t r v = row w.db.roomMembers r v := by
  simp only [joinMember] at h
  split at h
  · split at h <;> cases h
    rename_i hu
    exact row_updateMember hu hv
  · split at h
    · cases h
    · rename_i hi
      split at h <;> cases h
      have hno : isMember r v { roomId := r, userId := u, joinedAt := w.now, lastReadSeq := head } =
          false := by
        simpa [isMember] using fun he => hv he.symm
      rw [row, Table.find_insert hi, hno]
      exact Option.or_none

theorem reactivate_nobody {t : Table RoomMember} {ids : List String}
    (h : ∀ m ∈ t.rows, m.roomId = r → m.userId ∈ ids → m.leftAt = none) :
    reactivateMembers t r ids = t := by
  obtain ⟨rows, ok⟩ := t
  simp only [reactivateMembers, Table.updateWhere, Table.mk.injEq]
  conv_rhs => rw [← List.map_id rows]
  refine List.map_congr_left fun m hm => if_neg fun hp => ?_
  simp only [Bool.and_eq_true, beq_iff_eq, List.contains_iff_mem, Option.isSome_iff_ne_none] at hp
  exact hp.2 (h m hm hp.1.1 hp.1.2)

/-- The new room is the only one that is new. -/
theorem within_insertRoom {room : Room} {ms : List RoomMember} (h : Untouched w₀ w)
    (hms : ∀ m ∈ ms, m.roomId = room.id) (hins : insertRoom room ms w = .ok w') :
    Within w₀ w' room.id := by
  obtain ⟨rooms, roomMembers, hr, hm, rfl⟩ := insertRoom_ok hins
  refine ⟨h.events, fun r' hne => not_affects ?_ fun u => ?_⟩
  · have hno : (room.id == r') = false := by simpa using hne.symm
    simp only [face]
    rw [Table.find_insert hr, hno, ← h.db]
    simp
  · rw [← h.db]
    exact (elsewhere_append (insertMembers_ok hm) hms).row hne u

/-- Who has to hear of a new room is one of its first members. -/
theorem concerns_insertRoom {room : Room} {ms : List RoomMember} (h : Untouched w₀ w)
    (hh : Housed w₀) (hfresh : freshRoomId w.db room.id = true)
    (hins : insertRoom room ms w = .ok w') {u : String} (hu : Concerns w₀ w' room.id u) :
    ∃ m ∈ ms, m.userId = u := by
  have hnone : ∀ m ∈ w.db.roomMembers.rows, m.roomId ≠ room.id := by
    intro m hm he
    obtain ⟨x, hx, hid⟩ := List.mem_map.1 (hh m (h.db ▸ hm))
    rw [← h.db] at hx
    exact ne_of_freshRoomId hfresh (roomStub_mem hx) (hid.trans he)
  obtain ⟨rooms, roomMembers, -, hm, rfl⟩ := insertRoom_ok hins
  have hin : ∀ m ∈ roomMembers.rows, m.roomId = room.id → m.userId = u →
      ∃ m ∈ ms, m.userId = u := by
    intro m hmem hr hmu
    rw [insertMembers_ok hm] at hmem
    exact ⟨m, (List.mem_append.1 hmem).resolve_left fun hold => hnone m hold hr, hmu⟩
  rcases hu with hactive | hrow
  · obtain ⟨m, hcrew⟩ := Option.isSome_iff_exists.1 hactive
    obtain ⟨hmem, hr, hmu, -⟩ := crew_eq_some.1 hcrew
    exact hin m hmem hr hmu
  · cases hnew : row roomMembers room.id u with
    | some m =>
      obtain ⟨hmem, hr, hmu⟩ := find_isMember.1 hnew
      exact hin m hmem hr hmu
    | none =>
      refine absurd ?_ hrow
      rw [hnew, ← h.db, eq_comm]
      exact Table.find_none.2 fun m hmem => by
        rw [Bool.eq_false_iff, ne_eq, isMember_iff]
        exact fun hk => hnone m hmem hk.1

end Writes

/-! ## The requests -/

/-- The loop of `addMembers`: whose row has changed is a member now. -/
structure Enlisting (w₀ w : World) (r : String) (added : List String) : Prop
    extends Within w₀ w r where
  active : ∀ u, row w.db.roomMembers r u ≠ row w₀.db.roomMembers r u →
    (crew w.db.roomMembers r u).isSome = true
  nobody : added = [] → ¬ Affects w₀ w r

/-- The target has left, and at most somebody who is still there has been promoted. -/
structure Leaving (w₀ w : World) (r target : String) : Prop extends Within w₀ w r where
  active : ∀ u, u ≠ target → row w.db.roomMembers r u ≠ row w₀.db.roomMembers r u →
    (crew w.db.roomMembers r u).isSome = true

/-- What a lone request that started in `w₀` knows at `pc`. -/
def Heading (w₀ w : World) (call : Call) (pc : Pc) : Prop :=
  match call, pc with
  | _, .tail r task todo tp result => Reported w₀ w (.inl call) (.tail r task todo tp result)
  | _, .done x => Reported w₀ w (.inl call) (.done x)
  | .createRoom _ dto, .directRoom | .createRoom _ dto, .insertDirect
  | .createRoom _ dto, .winner _ => Untouched w₀ w ∧ dto.type = .DIRECT
  | .createRoom a dto, .reactivate r => Untouched w₀ w ∧ dto.type = .DIRECT ∧
      ∃ room ∈ w.db.rooms.rows, room.id = r ∧ room.directKey = some (directKey a dto.otherId)
  | .addMembers r _ _, .write _ _ _ added => Enlisting w₀ w r added
  | .updateMemberRole r a _ _, .room _ | .updateMemberRole r a _ _, .target _ _ =>
    Untouched w₀ w ∧ (crew w.db.roomMembers r a).isSome = true
  | .updateMemberRole r a t _, .setRole => Untouched w₀ w ∧
      (crew w.db.roomMembers r a).isSome = true ∧ (crew w.db.roomMembers r t).isSome = true ∧ t ≠ a
  | .removeMember r _ t, .candidates => Leaving w₀ w r t
  | .removeMember r _ t, .promote u => Leaving w₀ w r t ∧ (crew w.db.roomMembers r u).isSome = true
  | _, _ => Untouched w₀ w

section Requests
variable {json : Json} {c : Choice} {w₀ w w' : World} {pc pc' : Pc}

theorem heading_proceed {call : Call} {r : String} {result : Option RoomView} {todo : List Task}
    (h : Telling w₀ w (.inl call) r todo) : Heading w₀ w call (proceed json r result todo) := by
  have hr : Reported w₀ w (.inl call) (proceed json r result todo) := telling_proceed h
  cases todo <;> cases call <;> exact hr

theorem heading_failed {call : Call} (e : Failure) : Heading w₀ w call (.done (.error e)) := by
  cases call <;> trivial

theorem heading_orFail {call : Call} {α : Type} {x : Except AppException α} {next : α → Pc}
    (h : ∀ a, x = .ok a → Heading w₀ w call (next a)) : Heading w₀ w call (orFail x next) :=
  orFail_rule h fun _ _ => heading_failed _

theorem Reactivates.of_left {a : String} {dto : CreateRoomDto} {room : Room} {m : RoomMember}
    (htype : dto.type = .DIRECT) (hroom : room ∈ w.db.rooms.rows)
    (hkey : room.directKey = some (directKey a dto.otherId)) (hm : m ∈ w.db.roomMembers.rows)
    (hr : m.roomId = room.id) (hu : m.userId ∈ [a, dto.otherId]) (hl : m.leftAt ≠ none) :
    Reactivates (.inl (.createRoom a dto)) w :=
  ⟨htype, room, hroom, hkey, m, hm, hr, by simpa using hu, hl⟩

/-- A new room, of which its first members will be told. -/
theorem heading_inserted {call : Call} {room : Room} {ms : List RoomMember}
    {result : Option RoomView} {todo : List Task} (userIds : List String) (h : Untouched w₀ w)
    (hh : Housed w₀) (hfresh : freshRoomId w.db room.id = true)
    (hins : insertRoom room ms w = .ok w')
    (hms : ∀ m ∈ ms, m.roomId = room.id ∧ m.userId ∈ userIds)
    (honly : ∀ event y, Task.lifecycle event y ∈ todo → y = .fixed userIds)
    (hsome : ∃ event, Task.lifecycle event (.fixed userIds) ∈ todo) :
    Heading w₀ w' call (proceed json room.id result todo) := by
  have hwithin := within_insertRoom h (fun m hm => (hms m hm).1) hins
  refine heading_proceed (hwithin.telling (.fixed userIds) honly hsome fun u hu => ?_)
  obtain ⟨m, hm, rfl⟩ := concerns_insertRoom h hh hfresh hins hu
  exact (hms m hm).2

/-- A room is reopened: somebody comes back, or both are there and the update finds nobody. -/
theorem heading_reactivated {a : String} {dto : CreateRoomDto} {room : Room}
    {result : Option RoomView} (hw : Untouched w₀ w) (htype : dto.type = .DIRECT)
    (hroom : room ∈ w.db.rooms.rows) (hkey : room.directKey = some (directKey a dto.otherId)) :
    Heading w₀ { w with
        db.roomMembers := reactivateMembers w.db.roomMembers room.id [a, dto.otherId] }
      (.createRoom a dto) (proceed json room.id result [.view a]) := by
  refine heading_proceed (((hw.within room.id).write
    (elsewhere_reactivate w.db.roomMembers room.id [a, dto.otherId])).silent (by simp) ?_)
  by_cases hleft : ∃ m ∈ w.db.roomMembers.rows, m.roomId = room.id ∧
      m.userId ∈ [a, dto.otherId] ∧ m.leftAt ≠ none
  · obtain ⟨m, hm, hr, hu, hl⟩ := hleft
    rw [hw.db] at hroom hm
    exact .inl (.of_left htype hroom hkey hm hr hu hl)
  · have hsame : reactivateMembers w.db.roomMembers room.id [a, dto.otherId] =
        w.db.roomMembers :=
      reactivate_nobody fun m hm hr hu => by_contra fun hl => hleft ⟨m, hm, hr, hu, hl⟩
    exact .inr (not_affects (by simp only [face, hw.db]) fun _ => by rw [hsame, hw.db])

theorem heading_createRoom {a : String} {dto : CreateRoomDto} (hh : Housed w₀)
    (h : Heading w₀ w (.createRoom a dto) pc) (hs : createStep json c a dto w pc = some (w', pc')) :
    Heading w₀ w' (.createRoom a dto) pc' := by
  cases pc <;> simp only [createStep] at hs
  case activeUsers =>
    cases hs
    split
    · rename_i htype
      exact heading_orFail fun _ _ => ⟨h, htype⟩
    · refine heading_orFail fun _ _ => ?_
      split <;> exact h
  case directRoom =>
    cases hs
    split
    · rename_i room hf
      obtain ⟨hm, hkey⟩ := Table.find_some hf
      exact ⟨h.1, h.2, room, hm, rfl, by simpa using hkey⟩
    · exact h
  case insertDirect =>
    split at hs
    · rename_i hfresh
      split at hs <;> cases hs
      · rename_i hins
        refine heading_inserted [a, dto.otherId] h.1 hh hfresh hins (fun m hm => ?_)
          (by simp) (by simp)
        obtain ⟨v, hv, rfl⟩ := List.mem_map.1 hm
        exact ⟨rfl, hv⟩
      · exact h
      · exact heading_failed _
    · cases hs
  case winner e =>
    cases hs
    split
    · rename_i room hf
      obtain ⟨hm, hkey⟩ := Table.find_some hf
      exact ⟨h.1, h.2, room, hm, rfl, by simpa using hkey⟩
    · exact heading_failed _
  case reactivate r =>
    obtain ⟨hw, htype, room, hroom, rfl, hkey⟩ := h
    cases hs
    exact heading_reactivated hw htype hroom hkey
  case avatar i => cases hs; exact heading_orFail fun _ _ => h
  case insertGroup =>
    split at hs
    · rename_i hfresh
      split at hs <;> cases hs
      · rename_i hins
        refine heading_inserted (dto.memberIds a) h hh hfresh hins (fun m hm => ?_)
          (by simp) (by simp)
        obtain ⟨v, hv, rfl⟩ := List.mem_map.1 hm
        exact ⟨rfl, hv⟩
      · exact heading_failed _
    · cases hs
  all_goals cases hs

theorem Untouched.enlisting {r : String} (h : Untouched w₀ w) : Enlisting w₀ w r [] where
  toWithin := h.within r
  active u hu := absurd (by rw [h.db]) hu
  nobody _ := not_affects (by rw [h.db]) fun _ => by rw [h.db]

theorem Enlisting.join {r u : String} {head : Nat} {existing : List RoomMember}
    {added : List String} {t : Table RoomMember} (h : Enlisting w₀ w r added)
    (hj : joinMember r u head existing w = .ok t) :
    Enlisting w₀ { w with db.roomMembers := t } r (added ++ [u]) where
  toWithin := h.toWithin.write (elsewhere_joinMember hj)
  active v hv := by
    obtain ⟨m, -, hcrew⟩ := crew_joinMember hj
    by_cases hvu : v = u
    · show (crew t r v).isSome = true
      rw [hcrew, hvu, Function.update_self]
      rfl
    · have hsame := row_joinMember hj hvu
      show (crew t r v).isSome = true
      rw [row_crew hsame]
      exact h.active v fun he => hv (hsame.trans he)
  nobody hno := by simp at hno

theorem heading_nextWrite {r a : String} {userIds : List String} {head : Nat}
    {existing : List RoomMember} {todo added : List String} (h : Enlisting w₀ w r added) :
    Heading w₀ w (.addMembers r a userIds) (nextWrite json r a head existing todo added) := by
  unfold nextWrite
  split
  · refine heading_proceed ?_
    split
    · rename_i hadded
      exact h.toWithin.silent (by simp) (.inr (h.nobody (List.isEmpty_iff.1 hadded)))
    · exact h.toWithin.telling .active (by simp) (by simp) fun u hu =>
        mem_getActiveMemberIds.2 (hu.elim id (h.active u))
  · exact h

theorem heading_addMembers {r a : String} {userIds : List String}
    (h : Heading w₀ w (.addMembers r a userIds) pc)
    (hs : addStep json r a userIds w pc = some (w', pc')) :
    Heading w₀ w' (.addMembers r a userIds) pc' := by
  cases pc <;> simp only [addStep] at hs
  case guard => cases hs; exact heading_orFail fun _ _ => h
  case room role => cases hs; exact heading_orFail fun _ _ => heading_orFail fun _ _ => h
  case activeUsers => cases hs; exact heading_orFail fun _ _ => h
  case head => cases hs; exact h
  case existing n => cases hs; exact heading_nextWrite (Untouched.enlisting h)
  case write n existing todo added =>
    split at hs
    · cases hs
    · split at hs <;> cases hs
      · rename_i hj
        exact heading_nextWrite (Enlisting.join h hj)
      · exact heading_failed _
  all_goals cases hs

theorem heading_updateMemberRole {r a t : String} {role : MemberRole}
    (h : Heading w₀ w (.updateMemberRole r a t role) pc)
    (hs : roleStep json r a t role w pc = some (w', pc')) :
    Heading w₀ w' (.updateMemberRole r a t role) pc' := by
  cases pc <;> simp only [roleStep] at hs
  case guard =>
    cases hs
    refine heading_orFail fun role' hok => ⟨h, ?_⟩
    obtain ⟨m, hm, -⟩ := canActivate_ok hok
    exact hm ▸ rfl
  case room role => cases hs; exact heading_orFail fun _ _ => heading_orFail fun _ _ => h
  case target role type =>
    cases hs
    split
    · rename_i m hf
      split
      · exact heading_failed _
      · rename_i hl
        split
        · exact heading_failed _
        · rename_i hne
          exact ⟨h.1, h.2, find_crew hf hl ▸ rfl, hne⟩
    · exact heading_failed _
  case setRole =>
    obtain ⟨hw, ha, ht, hne⟩ := h
    split at hs <;> cases hs
    · rename_i t' hset
      -- both are still there
      have hboth : ∀ u, u = t ∨ u = a → (crew t' r u).isSome = true := by
        rw [crew_setRole hset hne]
        rintro u (rfl | rfl) <;> split <;> simp [hne, hne.symm, ha, ht]
      refine heading_proceed (((hw.within r).write (elsewhere_setRole hset)).telling .active
        (by simp) (by simp) fun u hu => mem_getActiveMemberIds.2 (hu.elim id fun hrow => ?_))
      by_contra hno
      have hut : u ≠ t := fun he => hno (hboth u (.inl he))
      have hua : u ≠ a := fun he => hno (hboth u (.inr he))
      exact hrow ((row_setRole hset hut hua).trans (by rw [hw.db]))
    · exact heading_failed _
  all_goals cases hs

theorem Leaving.after {r a t : String} {type : RoomType} (h : Leaving w₀ w r t) :
    Heading w₀ w (.removeMember r a t) (afterRemoval json r a t type) := by
  refine heading_proceed (h.toWithin.telling (.activeAnd t) ?_ ?_ fun u hu => ?_)
  · intro event y hy
    split at hy <;> simp_all
  · split <;> exact ⟨.ROOM_UPDATED, by simp⟩
  · simp only [recipientsOf, List.mem_eraseDups, List.mem_append, List.mem_singleton,
      mem_getActiveMemberIds]
    by_cases ht : u = t
    · exact .inr ht
    · exact .inl (hu.elim id (h.active u ht))

theorem heading_removeMember {r a t : String} (h : Heading w₀ w (.removeMember r a t) pc)
    (hs : removeStep json c r a t w pc = some (w', pc')) :
    Heading w₀ w' (.removeMember r a t) pc' := by
  cases pc <;> simp only [removeStep] at hs
  case guard => cases hs; exact heading_orFail fun _ _ => h
  case room role =>
    cases hs
    split
    · exact heading_failed _
    · exact h
  case target role type =>
    cases hs
    split
    · split
      · exact heading_failed _
      · exact heading_orFail fun _ _ => h
    · exact heading_failed _
  case leave type role =>
    split at hs <;> cases hs
    · rename_i t' hu
      have hleaving : Leaving w₀ { w with db.roomMembers := t' } r t :=
        ⟨(Untouched.within h r).write (elsewhere_updateMember hu), fun u hne hrow =>
          absurd ((row_updateMember hu hne).trans (by rw [h.db])) hrow⟩
      split
      · exact hleaving
      · exact hleaving.after
    · exact heading_failed _
  case candidates =>
    split at hs
    · rename_i hc
      cases hs
      split
      · rename_i next hn
        simp only [Bool.and_eq_true, decide_eq_true_eq, List.isPerm_iff] at hc
        exact ⟨h, Option.isSome_iff_exists.2 ⟨next, Elected.active ⟨_, hc.1, hc.2, hn⟩⟩⟩
      · exact Leaving.after h
    · cases hs
  case promote u =>
    obtain ⟨hleaving, hu⟩ := h
    split at hs <;> cases hs
    · rename_i t' hup
      refine Leaving.after ⟨hleaving.toWithin.write (elsewhere_updateMember hup),
        fun v hv hrow => ?_⟩
      show (crew t' r v).isSome = true
      rw [crew_change hup rfl]
      by_cases hvu : v = u
      · simp [hvu, hu]
      · rw [Function.update_of_ne hvu]
        exact hleaving.active v hv fun he => hrow ((row_updateMember hup hvu).trans he)
    · exact heading_failed _
  all_goals cases hs

end Requests

theorem heading_step {json : Json} {c : Choice} {call : Call} {w₀ w w' : World} {pc pc' : Pc}
    (hh : Housed w₀) (h : Heading w₀ w call pc) (hs : step json c call w pc = some (w', pc')) :
    Heading w₀ w' call pc' := by
  unfold step at hs
  split at hs
  · rename_i r task todo tp result
    have hr : Reported w₀ w' (.inl call) pc' := telling_tail (by cases call <;> exact h) hs
    cases pc' with
    | tail | done => cases call <;> exact hr
    | _ => exact hr.elim
  · cases call with
    | createRoom a dto => exact heading_createRoom hh h hs
    | addMembers r a userIds => exact heading_addMembers h hs
    | updateMemberRole r a t role => exact heading_updateMemberRole h hs
    | removeMember r a t => exact heading_removeMember h hs

/-! ### `updateRoom` -/

/-- The same for `updateRoom`. -/
def UpdateHeading (w₀ w : World) (k : UpdateCall) : UpdatePc → Prop
  | .after pc => Reported w₀ w (.inr k) pc
  | _ => Untouched w₀ w

theorem within_updateRooms {w₀ w : World} (h : Untouched w₀ w) (r : String) (dto : UpdateRoomDto) :
    Within w₀ { w with db.rooms := updateRooms w.db.rooms r dto } r := by
  refine ⟨h.events, fun r' hne => not_affects ?_ fun u => by rw [h.db]⟩
  simp only [face, updateRooms]
  rw [Table.find_updateWhere w.db.rooms (·.id == r) (·.id == r') dto.apply _ fun _ => rfl, ← h.db]
  cases hf : w.db.rooms.find (·.id == r') with
  | none => rfl
  | some x =>
    have hid : x.id = r' := by simpa using (Table.find_some hf).2
    have hno : x.id ≠ r := hid ▸ hne
    simp [hno]

theorem updateHeading_step {json : Json} {c : Choice} {r a : String} {dto : UpdateRoomDto}
    {w₀ w w' : World} {pc pc' : UpdatePc} (h : UpdateHeading w₀ w (.updateRoom r a dto) pc)
    (hs : updateStep json c r a dto w pc = some (w', pc')) :
    UpdateHeading w₀ w' (.updateRoom r a dto) pc' := by
  cases pc <;> simp only [updateStep] at hs
  case guard => cases hs; split <;> first | exact h | trivial
  case room role =>
    cases hs
    split
    · trivial
    · split
      · trivial
      · unfold afterChecks
        split <;> exact h
  case avatar room i => cases hs; split <;> first | exact h | trivial
  case update room =>
    split at hs <;> cases hs
    · refine telling_proceed ((within_updateRooms h r dto).telling .active ?_ ?_ fun u hu => ?_)
      · intro event y hy
        rcases List.mem_append.1 hy with hy | hy
        · rcases List.mem_append.1 hy with hy | hy <;> split at hy
          · split at hy <;> simp at hy
          all_goals simp at hy
        · simp_all
      · exact ⟨.ROOM_UPDATED, by simp⟩
      · exact mem_getActiveMemberIds.2 (hu.elim id fun hrow => absurd (by rw [h.db]) hrow)
    · trivial
  case after pc =>
    cases pc with
    | tail r' task todo tp result =>
      obtain ⟨⟨w₁, pc₁⟩, ht, he⟩ := Option.map_eq_some_iff.1 hs
      cases he
      exact telling_tail h ht
    | _ => cases hs

/-! ## Somebody comes back to a direct room -/

/-- The room has its old members back, and nobody has heard. -/
def Quietly (w₀ w : World) (r : String) (ids : List String) : Prop :=
  w.events = w₀.events ∧ w.db.roomMembers = reactivateMembers w₀.db.roomMembers r ids

/-- How far `createRoom` is, where the direct room is there. -/
def Returning (w₀ w : World) (r : String) (ids : List String) : Pc → Prop
  | .activeUsers | .directRoom => Untouched w₀ w
  | .reactivate r' => Untouched w₀ w ∧ r' = r
  | .tail _ task todo _ _ => Quietly w₀ w r ids ∧ (∃ u, task = .view u) ∧ todo = []
  | .done (.ok _) => Quietly w₀ w r ids
  | .done (.error _) => True
  | _ => False

section Returning
variable {json : Json} {c : Choice} {w₀ w w' : World} {pc pc' : Pc} {a : String}
  {dto : CreateRoomDto} {room : Room}

theorem find_directKey {t : Table Room} {key : String} (hroom : room ∈ t.rows)
    (hkey : room.directKey = some key) : t.find (·.directKey == some key) = some room :=
  Table.find_eq hroom (by simpa using hkey) fun x hx hk =>
    t.unique hx hroom (c := .directKey) (by decide)
      (by simp_all [Row.clash, sameKey])

theorem returning_step (htype : dto.type = .DIRECT) (hroom : room ∈ w₀.db.rooms.rows)
    (hkey : room.directKey = some (directKey a dto.otherId))
    (h : Returning w₀ w room.id [a, dto.otherId] pc)
    (hs : step json c (.createRoom a dto) w pc = some (w', pc')) :
    Returning w₀ w' room.id [a, dto.otherId] pc' := by
  cases pc with
  | tail r task todo tp result =>
    obtain ⟨hq, ⟨u, rfl⟩, rfl⟩ := h
    cases tp with
    | view vp =>
      obtain ⟨vp', hv, he⟩ := Option.map_eq_some_iff.1 hs
      split at he <;> cases he
      · exact hq
      · trivial
      · exact ⟨hq, ⟨u, rfl⟩, rfl⟩
    | _ => cases hs
  | activeUsers =>
    simp only [step, createStep, htype, Option.some.injEq] at hs
    cases hs
    exact orFail_rule (fun _ _ => h) fun _ _ => trivial
  | directRoom =>
    simp only [step, createStep, Option.some.injEq] at hs
    cases hs
    have hw : Untouched w₀ w := h
    rw [hw.db, find_directKey hroom hkey]
    exact ⟨hw, rfl⟩
  | reactivate r =>
    obtain ⟨hw, rfl⟩ := h
    cases hs
    exact ⟨⟨hw.events, by rw [hw.db]⟩, ⟨a, rfl⟩, rfl⟩
  | done x => cases hs
  | _ => exact h.elim

theorem returning_start :
    Returning w w room.id [a, dto.otherId] (createStart a dto) := by
  rcases createStart_cases a dto with he | ⟨e, he⟩ <;> rw [he]
  · exact .refl w
  · trivial

theorem Returning.tick {r : String} {ids : List String} (h : Returning w₀ w r ids pc) (ms : Nat) :
    Returning w₀ (w.tick ms) r ids pc := by
  cases pc with
  | activeUsers | directRoom => exact Untouched.tick h ms
  | reactivate r' => exact ⟨h.1.tick ms, h.2⟩
  | done x => cases x <;> exact h
  | _ => exact h

/-- Who comes back is affected, and nobody hears. -/
theorem Quietly.not_allHeard {m : RoomMember} (h : Quietly w₀ w room.id [a, dto.otherId])
    (hm : m ∈ w₀.db.roomMembers.rows) (hr : m.roomId = room.id)
    (hu : m.userId = a ∨ m.userId = dto.otherId) (hl : m.leftAt ≠ none) : ¬ AllHeard w₀ w := by
  intro hinf
  have hrow : row w₀.db.roomMembers room.id m.userId = some m := find_isMember.2 ⟨hm, hr, rfl⟩
  have haffects : Affects w₀ w room.id := by
    refine .inr ⟨m.userId, ?_⟩
    have hnew : row w.db.roomMembers room.id m.userId =
        some (({ leftAt := some none : MemberData }).apply m) := by
      rw [h.2]
      refine find_isMember.2 ⟨Table.mem_updateWhere.2 ⟨m, hm, if_pos ?_⟩, hr, rfl⟩
      simp [hr, hu, Option.isSome_iff_ne_none, hl]
    rw [standing, standing, hrow, hnew]
    simp [MemberData.apply, hl.symm]
  obtain ⟨emitted, hev, e, he, -⟩ := hinf room.id haffects
  rw [h.1, List.self_eq_append_right] at hev
  rw [hev] at he
  cases he

end Returning

/-! ## Whole requests -/

/-- Where a lone request of the service is. -/
def Headed (w₀ w : World) : RoomsCall → ChatPc → Prop
  | .inl call, .inr (.inl pc) => Heading w₀ w call pc
  | .inr k, .inr (.inr pc) => UpdateHeading w₀ w k pc
  | _, _ => False

section Runs
variable {cfg : AppConfig} {json : Json} {c : Choice} {k : RoomsCall} {w₀ w w' : World}
  {pc pc' : ChatPc}

theorem headed_start (w : World) (k : RoomsCall) :
    Headed w w k ((chat cfg json).start (.inr k)) := by
  rcases k with call | call
  · cases call with
    | createRoom a dto =>
      show Heading w w _ (createStart a dto)
      rcases createStart_cases a dto with he | ⟨e, he⟩ <;> rw [he]
      · exact .refl w
      · trivial
    | _ => exact .refl w
  · exact .refl w

theorem headed_step (hh : Housed w₀) (h : Headed w₀ w k pc)
    (hs : (chat cfg json).step c (.inr k) w pc = some (w', pc')) : Headed w₀ w' k pc' := by
  cases acts_of_chat hs with
  | room hr => exact heading_step hh h hr
  | update hu => exact updateHeading_step h hu

theorem Reported.tick {pc : Pc} (h : Reported w₀ w k pc) (ms : Nat) :
    Reported w₀ (w.tick ms) k pc := by
  have hk : Kept w (w.tick ms) := ⟨rfl, rfl⟩
  cases pc with
  | tail r task todo tp result => exact ⟨h.1.kept hk List.prefix_rfl, h.2⟩
  | done x =>
    cases x with
    | ok res => exact h.imp fun r hr => hr.kept hk List.prefix_rfl
    | error e => trivial
  | _ => exact h

theorem headed_tick (h : Headed w₀ w k pc) (ms : Nat) : Headed w₀ (w.tick ms) k pc := by
  have hwithin : ∀ {r}, Within w₀ w r → Within w₀ (w.tick ms) r := fun h => ⟨h.events, h.others⟩
  have hleaving : ∀ {r t}, Leaving w₀ w r t → Leaving w₀ (w.tick ms) r t := fun h =>
    ⟨hwithin h.toWithin, h.active⟩
  unfold Headed at h ⊢
  split at h
  · rename_i call pc
    unfold Heading at h ⊢
    split at h
    case h_1 | h_2 => exact Reported.tick h ms
    case h_7 => exact ⟨hwithin h.toWithin, h.active, h.nobody⟩
    case h_11 => exact hleaving h
    case h_12 => exact ⟨hleaving h.1, h.2⟩
    case h_13 => exact Untouched.tick h ms
    all_goals exact ⟨h.1.tick ms, h.2⟩
  · rename_i k pc
    cases pc with
    | after pc => exact Reported.tick h ms
    | _ => exact Untouched.tick h ms
  · exact h.elim

theorem telling_of_headed (h : Headed w₀ w k pc) (hok : outcome pc = some (.ok ())) :
    ∃ r, Telling w₀ w k r [] := by
  unfold Headed at h
  split at h
  · rename_i call pc
    cases pc with
    | done x =>
      cases x with
      | ok res => cases call <;> exact h
      | error e => cases hok
    | _ => cases hok
  · rename_i k pc
    cases pc with
    | after pc =>
      cases pc with
      | done x =>
        cases x with
        | ok res => exact h
        | error e => cases hok
      | _ => cases hok
    | _ => cases hok
  · exact h.elim

theorem quietly_of_solo {a : String} {dto : CreateRoomDto} {room : Room}
    (htype : dto.type = .DIRECT) (hroom : room ∈ w.db.rooms.rows)
    (hkey : room.directKey = some (directKey a dto.otherId))
    (h : Solo (chat cfg json) (.inr (.inl (.createRoom a dto))) w
      ((chat cfg json).start (.inr (.inl (.createRoom a dto)))) w' pc)
    (hok : outcome pc = some (.ok ())) : Quietly w w' room.id [a, dto.otherId] := by
  have hI := h.invariant
    (fun w' pc => ∃ q, pc = .inr (.inl q) ∧ Returning w w' room.id [a, dto.otherId] q)
    ⟨_, rfl, returning_start⟩ (fun hI hs => ?_) (fun ms _ _ hI => ?_)
  · obtain ⟨q, rfl, hq⟩ := hI
    cases q with
    | done x =>
      cases x with
      | ok res => exact hq
      | error e => cases hok
    | _ => cases hok
  · obtain ⟨q, rfl, hq⟩ := hI
    cases acts_of_chat hs with
    | room hr => exact ⟨_, rfl, returning_step htype hroom hkey hq hr⟩
  · obtain ⟨q, rfl, hq⟩ := hI
    exact ⟨q, rfl, hq.tick ms⟩

/-- **Everybody affected is notified**, but of a return to a direct room. In a database whose
memberships have their rooms, a request of the service that runs alone and succeeds has told, of
each room that is new or looks different and of each in which a role or a `leftAt` has changed, all
who are in the room then and all whose row has changed, if and only if it is no `createRoom` that
finds the direct room of the two and one of them gone. -/
theorem everybody_notified (cfg : AppConfig) (json : Json) (k : RoomsCall) (w : World) {w' : World}
    {pc : ChatPc} (hh : Housed w)
    (h : Solo (chat cfg json) (.inr k) w ((chat cfg json).start (.inr k)) w' pc)
    (hok : outcome pc = some (.ok ())) : AllHeard w w' ↔ ¬ Reactivates k w := by
  have hheaded := h.invariant (Headed w · k) (headed_start w k) (headed_step hh)
    fun ms _ _ hI => headed_tick hI ms
  constructor
  · rintro hinf hre
    cases k with
    | inr k => exact hre
    | inl call =>
      cases call with
      | createRoom a dto =>
        obtain ⟨htype, room, hroom, hkey, m, hm, hr, hu, hl⟩ := hre
        have hq := quietly_of_solo htype hroom hkey h hok
        exact hq.not_allHeard hm hr hu hl hinf
      | _ => exact hre
  · intro hno r ha
    obtain ⟨r', ht⟩ := telling_of_headed hheaded hok
    have hr : r = r' := by_contra fun hne => ht.others r hne ha
    subst hr
    rcases ht.told.resolve_left hno ha with hheard | ⟨event, x, hx⟩
    · exact hheard
    · cases hx

end Runs

/-- The direct room of `a` and `b`, which `a` may have left. -/
def directR1 (leftAt : Option Nat := none) : World where
  db.users := usersAB
  db.rooms := ⟨[{ id := "r1", type := .DIRECT, createdBy := "a", directKey := some "a:b" }],
    by decide⟩
  db.roomMembers := ⟨[{ roomId := "r1", userId := "a", joinedAt := 0, leftAt },
                      { roomId := "r1", userId := "b", joinedAt := 0 }], by
    simp [Compatible, Row.constraints, Row.clash]⟩

theorem directR1_housed (leftAt : Option Nat) : Housed (directR1 leftAt) := by
  simp [Housed, RoomThere, directR1]

/-- When `b` leaves, both hear of it. -/
theorem everybody_notified_r1 : ∃ w' pc, Solo (chat {} noJson)
      (.inr (.inl (.removeMember "r1" "b" "b"))) (directR1)
      ((chat {} noJson).start (.inr (.inl (.removeMember "r1" "b" "b")))) w' pc ∧
    outcome pc = some (.ok ()) ∧ AllHeard (directR1) w' := by
  let call : ChatCall := .inr (.inl (.removeMember "r1" "b" "b"))
  have hexec : ((chat {} noJson).exec always (fun _ : Unit => call)
      ((chat {} noJson).initial (fun _ => call) (directR1)) (turns () 7)).any (fun P =>
        outcome (P.pcs ()) == some (.ok ())) = true := by decide
  obtain ⟨P, hrun, hP⟩ := Machine.exec_reaches_free hexec
  have hok := beq_iff_eq.1 hP
  exact ⟨P.shared, P.pcs (), hrun.solo, hok,
    (everybody_notified {} noJson _ _ (directR1_housed none) hrun.solo hok).2 id⟩

/-- `a` comes back to the room with `b`, who does not hear of it. -/
theorem return_unheard : ¬ ∀ (cfg : AppConfig) (json : Json) (k : RoomsCall) (w w' : World)
    (pc : ChatPc), Housed w →
    Solo (chat cfg json) (.inr k) w ((chat cfg json).start (.inr k)) w' pc →
    outcome pc = some (.ok ()) → AllHeard w w' := by
  intro h
  let dto : CreateRoomDto := { type := .DIRECT, memberUserIds := ["b"] }
  let call : ChatCall := .inr (.inl (.createRoom "a" dto))
  have hexec : ((chat {} noJson).exec always (fun _ : Unit => call)
      ((chat {} noJson).initial (fun _ => call) (directR1 (some 1))) (turns () 5)).any (fun P =>
        outcome (P.pcs ()) == some (.ok ())) = true := by decide
  obtain ⟨P, hrun, hP⟩ := Machine.exec_reaches_free hexec
  have hok := beq_iff_eq.1 hP
  have hq := quietly_of_solo rfl List.mem_cons_self (by decide) hrun.solo hok
  exact hq.not_allHeard List.mem_cons_self rfl (.inl rfl) (by decide)
    (h {} noJson _ _ _ _ (directR1_housed (some 1)) hrun.solo hok)

end Intaktok.Rooms
