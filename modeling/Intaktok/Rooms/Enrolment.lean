import Intaktok.Rooms.Actions
/-
# Who has a row in a room

`enrolled` are the memberships without what becomes of them: a leave keeps the row of the one who
leaves. `Enrols` says which rows an action of `RoomsService` adds to it and to the rooms.
-/

namespace Intaktok.Rooms

open Tables Messages

/-! ## The rows -/

/-- The memberships, of those who have left as well. -/
def enrolled (t : Table RoomMember) : List (String × String) :=
  t.rows.map fun m => (m.roomId, m.userId)

theorem enrolled_updateWhere (t : Table RoomMember) (p : RoomMember → Bool) (d : MemberData)
    {keeps} : enrolled (t.updateWhere p d.apply keeps) = enrolled t :=
  Table.map_updateWhere t p d.apply keeps _ fun _ => rfl

theorem enrolled_updateMember {t t' : Table RoomMember} {r u : String} {d : MemberData}
    (h : updateMember t r u d = some t') : enrolled t' = enrolled t := by
  unfold updateMember at h
  split at h <;> cases h
  exact enrolled_updateWhere ..

theorem enrolled_reactivate (t : Table RoomMember) (r : String) (userIds : List String) :
    enrolled (reactivateMembers t r userIds) = enrolled t :=
  Table.map_updateWhere t _ _ _ _ fun _ => rfl

theorem enrolled_setRole {t t' : Table RoomMember} {r a u : String} {role : MemberRole}
    (h : setRole t r a u role = some t') : enrolled t' = enrolled t := by
  obtain ⟨t₁, h₁, h₂⟩ := Option.bind_eq_some_iff.1 h
  split at h₂
  · rw [enrolled_updateMember h₂, enrolled_updateMember h₁]
  · cases h₂; exact enrolled_updateMember h₁

theorem enrolled_joinMember {r u : String} {head : Nat} {existing : List RoomMember} {w : World}
    {t : Table RoomMember} (h : joinMember r u head existing w = .ok t) :
    enrolled t = enrolled w.db.roomMembers ∨
      enrolled t = enrolled w.db.roomMembers ++ [(r, u)] := by
  simp only [joinMember] at h
  split at h
  · split at h <;> cases h
    rename_i hu; exact .inl (enrolled_updateMember hu)
  · split at h
    · cases h
    · rename_i hi
      split at h <;> cases h
      exact .inr (by simp [enrolled, (Table.insert_ok hi).2])

theorem enrolled_insertRoom {room : Room} {ms : List RoomMember} {w w' : World}
    (h : insertRoom room ms w = .ok w') : enrolled w'.db.roomMembers =
      enrolled w.db.roomMembers ++ ms.map fun m => (m.roomId, m.userId) := by
  obtain ⟨rooms, roomMembers, -, hm, rfl⟩ := insertRoom_ok h
  simp [enrolled, insertMembers_ok hm]

/-- The ids of all who have a row in the room. -/
def rowIds (t : Table RoomMember) (r : String) : List String :=
  (t.findMany (·.roomId == r)).map (·.userId)

theorem mem_rowIds {t : Table RoomMember} {r u : String} :
    u ∈ rowIds t r ↔ (r, u) ∈ enrolled t := by
  simp only [rowIds, enrolled, List.mem_map, Table.mem_findMany, beq_iff_eq, Prod.mk.injEq]
  constructor
  · rintro ⟨m, ⟨hm, hr⟩, hu⟩; exact ⟨m, hm, hr, hu⟩
  · rintro ⟨m, hm, hr, hu⟩; exact ⟨m, ⟨hm, hr⟩, hu⟩

theorem nodup_rowIds (t : Table RoomMember) (r : String) : (rowIds t r).Nodup := by
  refine Table.nodup_findMany (c := ()) (by simp [Row.constraints]) fun a b ha hb he => ?_
  rw [beq_iff_eq] at ha hb
  simp [Row.clash, ha, hb, he]

/-- New memberships are accepted. -/
theorem insertMembers_fresh {t : Table RoomMember} {ms : List RoomMember}
    (hnodup : (ms.map fun m => (m.roomId, m.userId)).Nodup)
    (hno : ∀ m ∈ ms, (m.roomId, m.userId) ∉ enrolled t) : ∃ t', insertMembers t ms = .ok t' := by
  induction ms generalizing t with
  | nil => exact ⟨t, rfl⟩
  | cons m ms ih =>
    rw [List.map_cons, List.nodup_cons] at hnodup
    simp only [insertMembers]
    split
    · rename_i t₁ ht
      refine ih hnodup.2 fun x hx => ?_
      rw [enrolled, (Table.insert_ok ht).2, List.map_append, List.mem_append, not_or]
      refine ⟨hno x (List.mem_cons_of_mem _ hx), fun hxm => hnodup.1 ?_⟩
      rw [List.map_singleton, List.mem_singleton] at hxm
      exact hxm ▸ List.mem_map_of_mem hx
    · rename_i k hk
      obtain ⟨x, hx, hclash⟩ := Table.violated_some (Table.insert_error hk)
      simp only [Row.clash, Bool.and_eq_true, beq_iff_eq] at hclash
      refine absurd (List.mem_map.2 ⟨x, hx, ?_⟩) (hno m List.mem_cons_self)
      rw [hclash.1, hclash.2]

/-! ## What an action adds -/

/-- The rows an action adds to the memberships and to the rooms. -/
inductive Enrols (call : Call) (w : World) (pc : Pc) (w' : World) : Prop
  | nobody : enrolled w'.db.roomMembers = enrolled w.db.roomMembers →
      roomStubs w'.db = roomStubs w.db → Enrols call w pc w'
  | joined {r a u userIds head existing todo added} : call = .addMembers r a userIds →
      pc = .write head existing todo added →
      enrolled w'.db.roomMembers = enrolled w.db.roomMembers ++ [(r, u)] →
      roomStubs w'.db = roomStubs w.db → Enrols call w pc w'
  | direct {room : Room} {a b : String} : freshRoomId w.db room.id = true → room.type = .DIRECT →
      room.directKey = some (directKey a b) →
      enrolled w'.db.roomMembers =
        enrolled w.db.roomMembers ++ [(room.id, a), (room.id, b)] →
      roomStubs w'.db = roomStubs w.db ++ [roomStub room] → Enrols call w pc w'
  | group {room : Room} (ids : List String) : freshRoomId w.db room.id = true →
      room.type = .GROUP → room.directKey = none →
      enrolled w'.db.roomMembers =
        enrolled w.db.roomMembers ++ ids.map (room.id, ·) →
      roomStubs w'.db = roomStubs w.db ++ [roomStub room] → Enrols call w pc w'

/-- The row `createDirect` inserts. -/
def directRow (id creatorId otherId : String) (now : Nat) : Room where
  id := id
  type := .DIRECT
  createdBy := creatorId
  createdAt := now
  directKey := some (directKey creatorId otherId)

/-- The insert makes the room, has lost the race, or fails for another reason. -/
theorem insertDirect_cases {json : Json} {c : Choice} {a : String} {dto : CreateRoomDto}
    {w w' : World} {pc' : Pc} (h : createStep json c a dto w .insertDirect = some (w', pc')) :
    freshRoomId w.db c.id = true ∧
      ((insertRoom (directRow c.id a dto.otherId w.now)
          (directMembers c.id w.now a dto.otherId) w = .ok w' ∧
        pc' = proceed json c.id none
          [.view a, .lifecycle .ROOM_CREATED (.fixed [a, dto.otherId])]) ∨
      w' = w ∧ ∃ e, insertRoom (directRow c.id a dto.otherId w.now)
          (directMembers c.id w.now a dto.otherId) w = .error e ∧
        ((∃ t, e = .uniqueConstraint t) ∧ pc' = .winner e ∨
          (∀ t, e ≠ .uniqueConstraint t) ∧ pc' = .done (.error e))) := by
  simp only [createStep] at h
  split at h
  · rename_i hfresh
    refine ⟨hfresh, ?_⟩
    split at h <;> cases h
    · rename_i hins
      exact .inl ⟨hins, rfl⟩
    · rename_i t hins
      exact .inr ⟨rfl, _, hins, .inl ⟨⟨t, rfl⟩, rfl⟩⟩
    · rename_i e hno hins
      exact .inr ⟨rfl, e, hins, .inr ⟨fun t ht => hno t ht, rfl⟩⟩
  · cases h

theorem Kept.enrols {call : Call} {w w' : World} {pc : Pc} (h : Kept w w') :
    Enrols call w pc w' := .nobody (by rw [h.members]) h.rooms

theorem enrols_of_createRoom {json : Json} {c : Choice} {a : String} {dto : CreateRoomDto}
    {w w' : World} {pc pc' : Pc} (h : createStep json c a dto w pc = some (w', pc')) :
    Enrols (.createRoom a dto) w pc w' := by
  cases acts_of_createRoom h with
  | insertedDirect =>
    obtain ⟨hfresh, ⟨hins, -⟩ | ⟨rfl, -⟩⟩ := insertDirect_cases h
    · exact @Enrols.direct _ _ _ _ (directRow c.id a dto.otherId w.now) a dto.otherId hfresh rfl rfl
        (enrolled_insertRoom hins) (roomStubs_insertRoom hins)
    · exact .nobody rfl rfl
  | insertedGroup hfresh hid htype hkey hins _ =>
    refine .group (dto.memberIds a) (hid ▸ hfresh) htype hkey ((enrolled_insertRoom hins).trans ?_)
      (roomStubs_insertRoom hins)
    rw [groupMembers, List.map_map, hid]
    rfl
  | reactivated => exact .nobody (enrolled_reactivate ..) rfl
  | _ => exact .nobody rfl rfl

/-- An action makes a room with its rows, adds a row to a group, or adds none. -/
theorem enrols_of_step {json : Json} {c : Choice} {call : Call} {w w' : World} {pc pc' : Pc}
    (h : step json c call w pc = some (w', pc')) : Enrols call w pc w' := by
  unfold step at h
  split at h
  · exact (tail_step h).1.enrols
  · cases call with
    | createRoom a dto => exact enrols_of_createRoom h
    | addMembers r a userIds =>
      cases acts_of_addMembers h with
      | joined hj _ =>
        rcases enrolled_joinMember hj with he | he
        · exact .nobody he rfl
        · exact .joined rfl rfl he rfl
      | _ => exact .nobody rfl rfl
    | updateMemberRole r a t role =>
      cases acts_of_updateMemberRole h with
      | set hs _ => exact .nobody (enrolled_setRole hs) rfl
      | _ => exact .nobody rfl rfl
    | removeMember r a t =>
      cases acts_of_removeMember h with
      | left hu _ => exact .nobody (enrolled_updateMember hu) rfl
      | promoted hu _ => exact .nobody (enrolled_updateMember hu) rfl
      | _ => exact .nobody rfl rfl

theorem Enrols.stubs_mono {call : Call} {w w' : World} {pc : Pc} (h : Enrols call w pc w')
    {x : Room} (hx : x ∈ roomStubs w.db) : x ∈ roomStubs w'.db := by
  cases h with
  | nobody _ hs => rwa [hs]
  | joined _ _ _ hs => rwa [hs]
  | direct _ _ _ _ hs => rw [hs]; exact List.mem_append_left _ hx
  | group _ _ _ _ _ hs => rw [hs]; exact List.mem_append_left _ hx

end Intaktok.Rooms
