import Intaktok.Realtime.MediaProvenance
import Intaktok.Rooms.Ownership
import Intaktok.Lib.Growth
/-
# The book of rooms

No request removes a room, and none makes another of it: what a room is, and for which pair, is
settled as it is opened (`rooms_extend`). Its name and its avatar are not; but a direct room has
none, and those of a group are changed by who has been found in charge of it (`wears_by_right`).
-/

namespace Intaktok

/-! ## What an action does to the rooms -/

namespace Rooms

open Tables

/-- The room `createRoom` opens at its insert. -/
def opened (a : String) (dto : CreateRoomDto) (id : String) (now : Nat) : Pc → Option Room
  | .insertDirect => some { id, type := .DIRECT, createdBy := a, createdAt := now,
                            directKey := some (directKey a dto.otherId) }
  | .insertGroup => some { id, type := .GROUP, name := dto.name, avatarMediaId := dto.avatarMediaId,
                           createdBy := a, createdAt := now }
  | _ => none

theorem opened_of_step {json : Messages.Json} {c : Choice} {call : Call} {w w' : World}
    {pc pc' : Pc} (h : step json c call w pc = some (w', pc')) :
    roomStubs w'.db = roomStubs w.db ∨ ∃ a dto room, call = .createRoom a dto ∧
      opened a dto c.id w.now pc = some room ∧ (∀ x ∈ roomStubs w.db, x.id ≠ room.id) ∧
      roomStubs w'.db = roomStubs w.db ++ [room] := by
  unfold step at h
  split at h
  · exact .inl (tail_step h).1.rooms
  cases call with
  | createRoom a dto =>
    cases pc <;> simp only [createStep] at h
    case insertDirect | insertGroup =>
      split at h
      · rename_i hfresh
        split at h <;> cases h
        · rename_i hins
          exact .inr ⟨a, dto, _, rfl, rfl, fun _ hx => ne_of_freshRoomId hfresh hx,
            roomStubs_insertRoom hins⟩
        all_goals exact .inl rfl
      · cases h
    all_goals cases h <;> exact .inl rfl
  | addMembers r a userIds => exact .inl (by rw [roomStubs, (acts_of_addMembers h).rooms]; rfl)
  | updateMemberRole r a t role =>
    exact .inl (by rw [roomStubs, (acts_of_updateMemberRole h).rooms]; rfl)
  | removeMember r a t => exact .inl (by rw [roomStubs, (acts_of_removeMember h).rooms]; rfl)

end Rooms

namespace Realtime

open Interleave Tables Growth
open Rooms (roomStub roomStubs HasType crew)

/-- What an action leaves of the rooms: all as they were; one more; or one of them with another
face. -/
inductive Furnishes (c : Choice) (w w' : World) : ServerCall → ServerPc → Prop
  | same {k l} : roomStubs w'.db = roomStubs w.db → Furnishes c w w' k l
  | opened {a dto pc room} : Rooms.opened a dto c.id w.now pc = some room →
      (∀ x ∈ roomStubs w.db, x.id ≠ room.id) → roomStubs w'.db = roomStubs w.db ++ [room] →
      Furnishes c w w' (.inr ⟨.rooms, .createRoom a dto⟩) (.inr ⟨.rooms, pc⟩)
  | updated {r a dto room} : roomStubs w'.db =
        (roomStubs w.db).map (fun x => if x.id == r then Rooms.UpdateRoomDto.apply dto x else x) →
      Furnishes c w w' (.inr ⟨.roomUpdates, .updateRoom r a dto⟩)
        (.inr ⟨.roomUpdates, .update room⟩)

theorem furnishes_of_step {cfg : AppConfig} {decode : String → Option Jwt} {json : Messages.Json}
    {c : Choice} {h h' : Hub} {k : ServerCall} {l l' : ServerPc}
    (hs : (server cfg decode json).step c k h l = some (h', l')) :
    Furnishes c h.world h'.world k l := by
  cases writes_of_step hs with
  | media hm =>
    obtain ⟨_, _, hw⟩ := MediaService.step_db hm
    exact .same (by rw [hw]; rfl)
  | profile hp =>
    obtain ⟨_, hw⟩ := ProfileService.step_db hp
    exact .same (by rw [hw]; rfl)
  | rooms hr =>
    rcases Rooms.opened_of_step hr with hsame | ⟨a, dto, room, rfl, hroom, hfresh, hstubs⟩
    · exact .same hsame
    · exact .opened hroom hfresh hstubs
  | roomUpdates hr =>
    rcases Rooms.stubs_of_updateStep hr with hsame | ⟨⟨room, rfl⟩, hstubs⟩
    · exact .same hsame
    · exact .updated hstubs
  | other _ _ _ hr => exact .same hr

/-! ## Rooms stay what they are -/

/-- The same room, with another face at most; a direct room keeps its own. -/
structure SameRoom (x y : Room) : Prop where
  id : y.id = x.id
  type : y.type = x.type
  createdBy : y.createdBy = x.createdBy
  createdAt : y.createdAt = x.createdAt
  directKey : y.directKey = x.directKey
  face : x.type = .DIRECT → y = x

theorem SameRoom.refl (x : Room) : SameRoom x x := ⟨rfl, rfl, rfl, rfl, rfl, fun _ => rfl⟩

theorem SameRoom.trans (x y z : Room) (h : SameRoom x y) (h' : SameRoom y z) : SameRoom x z where
  id := h'.id.trans h.id
  type := h'.type.trans h.type
  createdBy := h'.createdBy.trans h.createdBy
  createdAt := h'.createdAt.trans h.createdAt
  directKey := h'.directKey.trans h.directKey
  face ht := (h'.face (h.type.trans ht)).trans (h.face ht)

/-- A direct room is of a pair, one of which has opened it, and has no face of its own; a group is
of no pair. -/
structure Proper (x : Room) : Prop where
  direct : x.type = .DIRECT → (∃ other, x.directKey = some (Rooms.directKey x.createdBy other)) ∧
    x.name = none ∧ x.avatarMediaId = none
  group : x.type = .GROUP → x.directKey = none

theorem Proper.same (x y : Room) (hx : Proper x) (h : SameRoom x y) : Proper y where
  direct ht := by
    have hxt := h.type.symm.trans ht
    rw [h.face hxt]
    exact hx.direct hxt
  group ht := h.directKey.trans (hx.group (h.type.symm.trans ht))

theorem proper_of_opened {a : String} {dto : Rooms.CreateRoomDto} {id : String} {now : Nat}
    {pc : Rooms.Pc} {room : Room} (h : Rooms.opened a dto id now pc = some room) : Proper room := by
  unfold Rooms.opened at h
  split at h <;> cases h
  · exact ⟨fun _ => ⟨⟨dto.otherId, rfl⟩, rfl, rfl⟩, (nomatch ·)⟩
  · exact ⟨(nomatch ·), fun _ => rfl⟩

theorem sameRoom_apply (dto : Rooms.UpdateRoomDto) {x : Room} (ht : x.type = .GROUP) :
    SameRoom x (dto.apply x) :=
  ⟨rfl, rfl, rfl, rfl, rfl, fun hd => by rw [ht] at hd; cases hd⟩

section Runs
variable {ι : Type} [DecidableEq ι] {cfg : AppConfig} {decode : String → Option Jwt}
  {json : Messages.Json} {calls : ι → ServerCall} {hub : Hub} {Q R : Pool Hub ServerPc ι}

/-- A request about to change a room has found it to be a group. -/
theorem group_of_update
    (hrun : Reached cfg decode json calls ((server cfg decode json).initial calls hub) R) {i : ι}
    {r a : String} {dto : Rooms.UpdateRoomDto} {room : Room}
    (hcall : calls i = .inr ⟨.roomUpdates, .updateRoom r a dto⟩)
    (hpc : R.pcs i = .inr ⟨.roomUpdates, .update room⟩) : HasType R.shared.world.db r .GROUP := by
  have hchecked := (checked_run (initial_checked cfg decode json calls hub) hrun i).2
  rw [hcall, hpc] at hchecked
  exact hchecked.2

/-- **The book of rooms.** In every run rooms are only added, each as one of its kind, and stay what
they are; direct rooms stay altogether as they are. -/
theorem rooms_extend
    (hrun : Run (server cfg decode json) Discipline.free calls
      ((server cfg decode json).initial calls hub) Q) :
    Grown SameRoom Proper (roomStubs hub.world.db) (roomStubs Q.shared.world.db) := by
  refine hrun.invariant (fun R => Grown SameRoom Proper (roomStubs hub.world.db)
    (roomStubs R.shared.world.db)) (.refl SameRoom.refl _) ?_ ?_
  · intro R i c h' l' hr hI _ hs
    refine Grown.trans SameRoom.trans Proper.same hI ?_
    generalize hk : calls i = k at hs
    generalize hl : R.pcs i = l at hs
    cases furnishes_of_step hs with
    | same hsame => rw [hsame]; exact .refl SameRoom.refl _
    | opened hroom _ hstubs =>
      rw [hstubs]
      refine .append SameRoom.refl _ fun x hx => ?_
      rw [List.mem_singleton.1 hx]
      exact proper_of_opened hroom
    | @updated r a dto room hstubs =>
      obtain ⟨y, hy, hyid, hyt⟩ := group_of_update hr hk hl
      rw [hstubs]
      refine .map fun x hx => ?_
      split
      · rename_i hid
        obtain rfl := Rooms.roomStubs_eq_of_id hy hx (hyid.trans (beq_iff_eq.1 hid).symm)
        exact sameRoom_apply dto hyt
      · exact .refl x
  · intro R e hI
    have hdb : ((server cfg decode json).env e R.shared).world.db = R.shared.world.db :=
      db_env cfg e R.shared
    show Grown _ _ _ (roomStubs ((server cfg decode json).env e R.shared).world.db)
    rwa [hdb]

/-! ## Whose the face is -/

/-- The name and the avatar of the room. -/
def Wears (db : Db) (r : String) (name avatarMediaId : Option String) : Prop :=
  ∃ x ∈ roomStubs db, x.id = r ∧ x.name = name ∧ x.avatarMediaId = avatarMediaId

variable (cfg decode json calls hub) in
/-- The request of `i` gives the room its face: as it opens it, or as one in charge of it. -/
inductive GivesFace (r : String) (name avatarMediaId : Option String) (R : Pool Hub ServerPc ι)
    (i : ι) : Prop
  | opens {a dto} : calls i = .inr ⟨.rooms, .createRoom a dto⟩ →
      (∀ x ∈ roomStubs R.shared.world.db, x.id ≠ r) →
      name = none ∧ avatarMediaId = none ∨ name = dto.name ∧ avatarMediaId = dto.avatarMediaId →
      GivesFace r name avatarMediaId R i
  | updates {a dto} : calls i = .inr ⟨.roomUpdates, .updateRoom r a dto⟩ →
      HasType R.shared.world.db r .GROUP →
      Met (server cfg decode json) Discipline.free calls
        ((server cfg decode json).initial calls hub) (Admits i r a) R →
      (dto.name = some name ∨ dto.name = none ∧ ∃ m, Wears R.shared.world.db r name m) →
      (dto.avatarMediaId = some avatarMediaId ∨
        dto.avatarMediaId = none ∧ ∃ n, Wears R.shared.world.db r n avatarMediaId) →
      GivesFace r name avatarMediaId R i

/-- **The face of a room by right.** Whatever is in flight: a room looks as who has opened it has
said, or as somebody has whom the guard has found in charge of the group. -/
theorem wears_by_right
    (hrun : Run (server cfg decode json) Discipline.free calls
      ((server cfg decode json).initial calls hub) Q) {r : String}
    {name avatarMediaId : Option String} (hbefore : ¬ Wears hub.world.db r name avatarMediaId)
    (hv : Wears Q.shared.world.db r name avatarMediaId) :
    Brought (server cfg decode json) Discipline.free calls
      ((server cfg decode json).initial calls hub)
      (fun h => Wears h.world.db r name avatarMediaId)
      (GivesFace cfg decode json calls hub r name avatarMediaId) Q := by
  refine hrun.brought hbefore ?_ ?_ hv
  · rintro R i c h' l' hr _ hs hno ⟨x, hx, rfl, rfl, rfl⟩
    generalize hk : calls i = k at hs
    generalize hl : R.pcs i = l at hs
    cases furnishes_of_step hs with
    | same hsame => exact absurd ⟨x, hsame ▸ hx, rfl, rfl, rfl⟩ hno
    | @opened a dto pc room hroom hfresh hstubs =>
      rw [hstubs] at hx
      rcases List.mem_append.1 hx with hx | hx
      · exact absurd ⟨x, hx, rfl, rfl, rfl⟩ hno
      obtain rfl := List.mem_singleton.1 hx
      refine .opens hk hfresh ?_
      unfold Rooms.opened at hroom
      split at hroom <;> cases hroom
      · exact .inl ⟨rfl, rfl⟩
      · exact .inr ⟨rfl, rfl⟩
    | @updated r a dto room hstubs =>
      rw [hstubs] at hx
      obtain ⟨y, hy, rfl⟩ := List.mem_map.1 hx
      split at hno
      · rename_i hid
        obtain rfl := beq_iff_eq.1 hid
        simp only [beq_self_eq_true, if_true]
        have hadmits := guarded_run hk (by simp only [Machine.initial, hk]; rfl) hr hl
        refine .updates hk (group_of_update hr hk hl) hadmits ?_ ?_
        · cases hname : dto.name with
          | none => exact .inr ⟨rfl, _, y, hy, rfl, by simp [Rooms.UpdateRoomDto.apply, hname], rfl⟩
          | some n => exact .inl (by simp [Rooms.UpdateRoomDto.apply, hname])
        · cases havatar : dto.avatarMediaId with
          | none =>
            exact .inr ⟨rfl, _, y, hy, rfl, rfl, by simp [Rooms.UpdateRoomDto.apply, havatar]⟩
          | some m => exact .inl (by simp [Rooms.UpdateRoomDto.apply, havatar])
      · rename_i hid
        exact absurd ⟨y, hy, by simp⟩ hno
  · intro e h hyes
    have hdb : ((server cfg decode json).env e h).world.db = h.world.db := db_env cfg e h
    rwa [hdb] at hyes

end Runs

/-! ### A group is renamed -/

def hubNamed : Hub := { world := Rooms.groupR1 }

/-- `a`, who owns the group, gives it a name. -/
def rename : Unit → ServerCall :=
  fun _ => .inr ⟨.roomUpdates, .updateRoom "r1" "a" { name := some (some "x") }⟩

def wears (db : Db) (r : String) (name avatarMediaId : Option String) : Bool :=
  db.rooms.rows.any fun x => x.id == r && x.name == name && x.avatarMediaId == avatarMediaId

theorem wears_of_wears {db : Db} {r : String} {name avatarMediaId : Option String}
    (h : wears db r name avatarMediaId = true) : Wears db r name avatarMediaId := by
  obtain ⟨x, hx, hp⟩ := List.any_eq_true.1 h
  simp only [Bool.and_eq_true, beq_iff_eq] at hp
  exact ⟨roomStub x, Rooms.roomStub_mem hx, hp.1.1, hp.1.2, hp.2⟩

theorem renamed : ∃ Q : Pool Hub ServerPc Unit,
    Run (server {} (fun _ => none) Messages.noJson) Discipline.free rename
      ((server {} (fun _ => none) Messages.noJson).initial rename hubNamed) Q ∧
    Wears Q.shared.world.db "r1" (some "x") none := by
  have hexec : ((server {} (fun _ => none) Messages.noJson).exec always rename
      ((server {} (fun _ => none) Messages.noJson).initial rename hubNamed)
      (List.replicate 3 (.step () {}))).any
        (fun Q => wears Q.shared.world.db "r1" (some "x") none) = true := by decide
  obtain ⟨Q, hrun, hQ⟩ := Machine.exec_reaches_free hexec
  exact ⟨Q, hrun, wears_of_wears hQ⟩

theorem rooms_extend_r1 : ∃ Q : Pool Hub ServerPc Unit,
    Wears Q.shared.world.db "r1" (some "x") none ∧
      Grown SameRoom Proper (roomStubs hubNamed.world.db) (roomStubs Q.shared.world.db) := by
  obtain ⟨Q, hrun, hQ⟩ := renamed
  exact ⟨Q, hQ, rooms_extend hrun⟩

theorem wears_by_right_r1 : ∃ Q : Pool Hub ServerPc Unit,
    Wears Q.shared.world.db "r1" (some "x") none ∧
      Brought (server {} (fun _ => none) Messages.noJson) Discipline.free rename
        ((server {} (fun _ => none) Messages.noJson).initial rename hubNamed)
        (fun h => Wears h.world.db "r1" (some "x") none)
        (GivesFace {} (fun _ => none) Messages.noJson rename hubNamed "r1" (some "x") none) Q := by
  obtain ⟨Q, hrun, hQ⟩ := renamed
  refine ⟨Q, hQ, wears_by_right hrun ?_ hQ⟩
  rintro ⟨x, hx, -, hname, -⟩
  rw [List.mem_singleton.1 hx] at hname
  cases hname

end Realtime

end Intaktok
