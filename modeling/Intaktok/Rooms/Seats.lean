import Intaktok.Rooms.Actions
/-
# Seats

The seat of a user in a room is the role in which he is a member of it, if he is. Each write of
`RoomsService` gives another seat to one user of one room or to the users of a new room; `Reseats`
lists which request does so where, and to which seat.
-/

namespace Intaktok.Rooms

open Tables

def seat (db : Db) (roomId userId : String) : Option MemberRole :=
  (crew db.roomMembers roomId userId).map (·.role)

/-- An action of the request gives `u` the seat. -/
inductive Reseats (w : World) (r u : String) : Call → Pc → Option MemberRole → Prop
  | foundsDirect {a dto} : (∀ x ∈ w.db.rooms.rows, x.id ≠ r) → u = a ∨ u = dto.otherId →
      Reseats w r u (.createRoom a dto) .insertDirect (some .MEMBER)
  | foundsGroup {a dto} : (∀ x ∈ w.db.rooms.rows, x.id ≠ r) → u ∈ dto.memberIds a →
      Reseats w r u (.createRoom a dto) .insertGroup (some (if u = a then .OWNER else .MEMBER))
  | returns {a dto m} : u = a ∨ u = dto.otherId →
      w.db.roomMembers.find (isMember r u) = some m →
      Reseats w r u (.createRoom a dto) (.reactivate r) (some m.role)
  | joins {a userIds head existing todo added} :
      Reseats w r u (.addMembers r a userIds) (.write head existing (u :: todo) added)
        (some .MEMBER)
  | ranks {a role} : Reseats w r u (.updateMemberRole r a u role) .setRole (some role)
  | yields {t} : Reseats w r u (.updateMemberRole r u t .OWNER) .setRole (some .ADMIN)
  | leaves {a type role} : Reseats w r u (.removeMember r a u) (.leave type role) none
  | inherits {a t} : Reseats w r u (.removeMember r a t) (.promote u) (some .OWNER)

section Crew
variable {t t' : Table RoomMember} {r u r' u' : String}

theorem crew_append {ms : List RoomMember} (h : t'.rows = t.rows ++ ms) :
    crew t' r u = crew t r u ∨ ∃ m ∈ ms, m.roomId = r ∧ m.userId = u ∧ crew t' r u = some m := by
  cases hnew : crew t' r u with
  | none =>
    refine .inl (Eq.symm (Option.eq_none_iff_forall_ne_some.2 fun m hm => ?_))
    obtain ⟨hin, hrest⟩ := crew_eq_some.1 hm
    have hm' : crew t' r u = some m := crew_eq_some.2 ⟨h ▸ List.mem_append_left _ hin, hrest⟩
    rw [hnew] at hm'
    cases hm'
  | some m =>
    obtain ⟨hin, hr, hu, hl⟩ := crew_eq_some.1 hnew
    rw [h] at hin
    rcases List.mem_append.1 hin with hin | hin
    · exact .inl (crew_eq_some.2 ⟨hin, hr, hu, hl⟩).symm
    · exact .inr ⟨m, hin, hr, hu, rfl⟩

theorem crew_reactivate {k : String} (userIds : List String) :
    crew (reactivateMembers t k userIds) r u = crew t r u ∨
      r = k ∧ u ∈ userIds ∧ ∃ m, t.find (isMember r u) = some m ∧
        (crew (reactivateMembers t k userIds) r u).map (·.role) = some m.role := by
  have hfind := Table.find_updateWhere t
    (fun m => m.roomId == k && userIds.contains m.userId && m.leftAt.isSome) (isMember r u)
    ({ leftAt := some none : MemberData }).apply (fun _ _ _ => rfl) fun _ => rfl
  change (reactivateMembers t k userIds).find (isMember r u) = _ at hfind
  cases hf : t.find (isMember r u) with
  | none => exact .inl (by rw [crew, crew, hfind, hf]; rfl)
  | some m =>
    obtain ⟨-, hmr, hmu⟩ := find_isMember.1 hf
    rw [hf, Option.map_some] at hfind
    split at hfind
    · rename_i hp
      simp only [Bool.and_eq_true, beq_iff_eq, List.contains_iff_mem] at hp
      refine .inr ⟨hmr.symm.trans hp.1.1, hmu ▸ hp.1.2, m, rfl, ?_⟩
      rw [crew, hfind]
      rfl
    · exact .inl (by rw [crew, crew, hfind, hf])

theorem role_updateMember {role : MemberRole}
    (h : updateMember t r' u' { role := some role } = some t') :
    (crew t' r u).map (·.role) = (crew t r u).map (·.role) ∨
      r = r' ∧ u = u' ∧ (crew t' r u).map (·.role) = some role := by
  by_cases hr : r = r'
  · subst hr
    rw [crew_change h rfl]
    by_cases hu : u = u'
    · subst hu
      rw [Function.update_self]
      cases crew t r u with
      | none => exact .inl rfl
      | some m => exact .inr ⟨rfl, rfl, rfl⟩
    · rw [Function.update_of_ne hu]
      exact .inl rfl
  · rw [crew_updateMember h, if_neg hr]
    exact .inl rfl

end Crew

section Acts
variable {c : Choice} {w w' : World} {pc pc' : Pc} {r u : String}

theorem ne_id_of_freshRoomId (h : freshRoomId w.db c.id = true) :
    ∀ x ∈ w.db.rooms.rows, x.id ≠ c.id :=
  fun x hx => ne_of_freshRoomId (x := roomStub x) h (roomStub_mem hx)

theorem seat_insertRoom {room : Room} {ms : List RoomMember} (h : insertRoom room ms w = .ok w') :
    seat w'.db r u = seat w.db r u ∨
      ∃ m ∈ ms, m.roomId = r ∧ m.userId = u ∧ seat w'.db r u = some m.role := by
  obtain ⟨rooms, roomMembers, -, hm, rfl⟩ := insertRoom_ok h
  rcases crew_append (r := r) (u := u) (insertMembers_ok hm) with hsame | ⟨m, hin, hr, hu, hnew⟩
  · exact .inl (congrArg (Option.map _) hsame)
  · exact .inr ⟨m, hin, hr, hu, congrArg (Option.map _) hnew⟩

theorem reseats_of_createRoom {a : String} {dto : CreateRoomDto}
    (h : CreateRoomActs c a dto w pc w' pc') :
    seat w'.db r u = seat w.db r u ∨ Reseats w r u (.createRoom a dto) pc (seat w'.db r u) := by
  cases h with
  | insertedDirect hfresh hid _ _ hins =>
    refine (seat_insertRoom hins).imp_right ?_
    rintro ⟨m, hm, rfl, rfl, hseat⟩
    obtain ⟨v, hv, rfl⟩ := List.mem_map.1 hm
    rw [hseat]
    exact .foundsDirect (ne_id_of_freshRoomId hfresh) (by simpa using hv)
  | insertedGroup hfresh hid _ _ hins =>
    refine (seat_insertRoom hins).imp_right ?_
    rintro ⟨m, hm, rfl, rfl, hseat⟩
    obtain ⟨v, hv, rfl⟩ := List.mem_map.1 hm
    rw [hseat]
    exact .foundsGroup (ne_id_of_freshRoomId hfresh) hv
  | @reactivated roomId _ _ =>
    rcases crew_reactivate (t := w.db.roomMembers) (r := r) (u := u) (k := roomId)
      [a, dto.otherId] with hsame | ⟨rfl, hu, m, hf, hrole⟩
    · exact .inl (congrArg (Option.map _) hsame)
    · refine .inr ?_
      rw [seat, hrole]
      exact .returns (by simpa using hu) hf
  | _ => exact .inl rfl

theorem reseats_of_addMembers {r₁ a : String} {userIds : List String}
    (h : AddMembersActs r₁ a userIds w pc w' pc') :
    seat w'.db r u = seat w.db r u ∨
      Reseats w r u (.addMembers r₁ a userIds) pc (seat w'.db r u) := by
  cases h with
  | @joined head existing v todo added t _ hj _ =>
    by_cases hr : r = r₁
    · subst hr
      obtain ⟨m, hrole, hcrew⟩ := crew_joinMember hj
      by_cases hu : u = v
      · subst hu
        refine .inr ?_
        rw [seat, hcrew, Function.update_self, Option.map_some, hrole]
        exact .joins
      · refine .inl ?_
        rw [seat, hcrew, Function.update_of_ne hu]
        rfl
    · exact .inl (by rw [seat, (elsewhere_joinMember hj).crew hr]; rfl)
  | _ => exact .inl rfl

theorem reseats_of_updateMemberRole {r₁ a t : String} {role : MemberRole}
    (h : UpdateRoleActs r₁ a t role w pc w' pc') :
    seat w'.db r u = seat w.db r u ∨
      Reseats w r u (.updateMemberRole r₁ a t role) pc (seat w'.db r u) := by
  cases h with
  | set hset _ =>
    obtain ⟨t₁, h₁, h₂⟩ := Option.bind_eq_some_iff.1 hset
    have htarget := role_updateMember (r := r) (u := u) h₁
    split at h₂
    · rename_i howner
      subst howner
      rcases role_updateMember (r := r) (u := u) h₂ with hsame | ⟨rfl, rfl, hnew⟩
      · rcases htarget with hsame' | ⟨rfl, rfl, hnew⟩
        · exact .inl (hsame.trans hsame')
        · refine .inr ?_
          rw [seat, hsame, hnew]
          exact .ranks
      · refine .inr ?_
        rw [seat, hnew]
        exact .yields
    · cases h₂
      refine htarget.imp_right ?_
      rintro ⟨rfl, rfl, hnew⟩
      rw [seat, hnew]
      exact .ranks
  | _ => exact .inl rfl

theorem reseats_of_removeMember {r₁ a t : String} (h : RemoveMemberActs c r₁ a t w pc w' pc') :
    seat w'.db r u = seat w.db r u ∨
      Reseats w r u (.removeMember r₁ a t) pc (seat w'.db r u) := by
  cases h with
  | left hu _ =>
    by_cases hr : r = r₁
    · subst hr
      by_cases hut : u = t
      · subst hut
        refine .inr ?_
        rw [seat, crew_leave hu, Function.update_self]
        exact .leaves
      · refine .inl ?_
        rw [seat, crew_leave hu, Function.update_of_ne hut]
        rfl
    · exact .inl (by rw [seat, (elsewhere_updateMember hu).crew hr]; rfl)
  | promoted hu _ =>
    refine (role_updateMember (r := r) (u := u) hu).imp_right ?_
    rintro ⟨rfl, rfl, hnew⟩
    rw [seat, hnew]
    exact .inherits
  | _ => exact .inl rfl

/-- An action of a request leaves a seat as it is, or is one of those that give another. -/
theorem reseats_of_step {json : Messages.Json} {call : Call}
    (h : step json c call w pc = some (w', pc')) :
    seat w'.db r u = seat w.db r u ∨ Reseats w r u call pc (seat w'.db r u) := by
  rcases step_cases h with ⟨-, -, hkept⟩ | hacts
  · exact .inl (by rw [seat, hkept.members]; rfl)
  · cases call with
    | createRoom => exact reseats_of_createRoom hacts
    | addMembers => exact reseats_of_addMembers hacts
    | updateMemberRole => exact reseats_of_updateMemberRole hacts
    | removeMember => exact reseats_of_removeMember hacts

end Acts

end Intaktok.Rooms
