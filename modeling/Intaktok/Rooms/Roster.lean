import Intaktok.Rooms.Service
import Intaktok.Lib.Leadership
/-
# The crew of a room

A room as its rules see it: the active members by user id, each with its row. `crew` reads it off
the table, and each write of `RoomsService` is one change of one person of one crew
(`crew_updateMember`, `crew_insert`) or makes the crew of a new room, and leaves the rows of every
other room alone (`Elsewhere`).
-/

namespace Intaktok.Rooms

open Tables Leadership

/-- The active members of a room. -/
def crew (t : Table RoomMember) (roomId : String) : String → Option RoomMember := fun userId =>
  (t.find (isMember roomId userId)).filter (·.leftAt.isNone)

/-- In charge of a group. -/
def owner (m : RoomMember) : Prop := m.role = .OWNER

theorem leads_owner_iff {f : String → Option RoomMember} {u : String} :
    Leads owner f u ↔ (f u).any (·.role == .OWNER) = true := by
  simp [Leads, owner, Option.any_eq_true]

theorem isMember_iff {r u : String} {m : RoomMember} :
    isMember r u m = true ↔ m.roomId = r ∧ m.userId = u := by
  simp [isMember]

theorem find_isMember {t : Table RoomMember} {r u : String} {m : RoomMember} :
    t.find (isMember r u) = some m ↔ m ∈ t.rows ∧ m.roomId = r ∧ m.userId = u := by
  constructor
  · intro h
    obtain ⟨hm, hp⟩ := Table.find_some h
    exact ⟨hm, isMember_iff.1 hp⟩
  · rintro ⟨hm, rfl, rfl⟩
    refine Table.find_eq hm (isMember_iff.2 ⟨rfl, rfl⟩) fun x hx hp => ?_
    obtain ⟨hr, hu⟩ := isMember_iff.1 hp
    exact members_eq_of_key hx hm hr hu

theorem crew_eq_some {t : Table RoomMember} {r u : String} {m : RoomMember} :
    crew t r u = some m ↔ m ∈ t.rows ∧ m.roomId = r ∧ m.userId = u ∧ m.leftAt = none := by
  rw [crew, Option.filter_eq_some_iff, find_isMember]
  simp only [Option.isNone_iff_eq_none, and_assoc]

/-! ## Other rooms -/

/-- The memberships of all other rooms are the same. -/
def Elsewhere (r : String) (t t' : Table RoomMember) : Prop :=
  ∀ m, m.roomId ≠ r → (m ∈ t'.rows ↔ m ∈ t.rows)

theorem Elsewhere.trans {r : String} {t t' t'' : Table RoomMember} (h : Elsewhere r t t')
    (h' : Elsewhere r t' t'') : Elsewhere r t t'' :=
  fun m hm => (h' m hm).trans (h m hm)

theorem Elsewhere.crew {r r' : String} {t t' : Table RoomMember} (h : Elsewhere r t t')
    (hr : r' ≠ r) : crew t' r' = crew t r' := by
  funext u
  ext m
  rw [crew_eq_some, crew_eq_some]
  constructor
  · rintro ⟨hm, rfl, hrest⟩
    exact ⟨(h m hr).1 hm, rfl, hrest⟩
  · rintro ⟨hm, rfl, hrest⟩
    exact ⟨(h m hr).2 hm, rfl, hrest⟩

theorem elsewhere_append {r : String} {t t' : Table RoomMember} {ms : List RoomMember}
    (h : t'.rows = t.rows ++ ms) (hms : ∀ m ∈ ms, m.roomId = r) : Elsewhere r t t' := by
  intro m hm
  rw [h, List.mem_append, or_iff_left fun hin => hm (hms m hin)]

theorem elsewhere_updateWhere {r : String} {t : Table RoomMember} {p : RoomMember → Bool}
    {f : RoomMember → RoomMember} {keeps} (hp : ∀ m, p m = true → m.roomId = r)
    (hf : ∀ m, (f m).roomId = m.roomId) : Elsewhere r t (t.updateWhere p f keeps) := by
  intro m hm
  rw [Table.mem_updateWhere]
  constructor
  · rintro ⟨x, hx, rfl⟩
    split at hm
    · rename_i hpx; rw [hf] at hm; exact absurd (hp x hpx) hm
    · rename_i hpx; rwa [if_neg hpx]
  · exact fun hin => ⟨m, hin, by rw [if_neg fun hpm => hm (hp m hpm)]⟩

theorem elsewhere_updateMember {r u : String} {t t' : Table RoomMember} {d : MemberData}
    (h : updateMember t r u d = some t') : Elsewhere r t t' := by
  unfold updateMember at h
  split at h <;> cases h
  exact elsewhere_updateWhere (fun m hm => (isMember_iff.1 hm).1) fun _ => rfl

theorem elsewhere_setRole {r a u : String} {t t' : Table RoomMember} {role : MemberRole}
    (h : setRole t r a u role = some t') : Elsewhere r t t' := by
  obtain ⟨t₁, h₁, h₂⟩ := Option.bind_eq_some_iff.1 h
  split at h₂
  · exact (elsewhere_updateMember h₁).trans (elsewhere_updateMember h₂)
  · cases h₂; exact elsewhere_updateMember h₁

theorem elsewhere_joinMember {r u : String} {head : Nat} {existing : List RoomMember} {w : World}
    {t : Table RoomMember} (h : joinMember r u head existing w = .ok t) :
    Elsewhere r w.db.roomMembers t := by
  simp only [joinMember] at h
  split at h
  · split at h <;> cases h
    rename_i hu; exact elsewhere_updateMember hu
  · split at h
    · cases h
    · rename_i hi
      split at h <;> cases h
      refine elsewhere_append (Table.insert_ok hi).2 fun m hm => ?_
      rw [List.mem_singleton.1 hm]

theorem elsewhere_reactivate (t : Table RoomMember) (r : String) (userIds : List String) :
    Elsewhere r t (reactivateMembers t r userIds) :=
  elsewhere_updateWhere (fun m hm => by
    simp only [Bool.and_eq_true, beq_iff_eq] at hm
    exact hm.1.1) fun _ => rfl

/-! ## Updates -/

theorem find_updateMember {t t' : Table RoomMember} {r u : String} {d : MemberData}
    (h : updateMember t r u d = some t') (r' u' : String) :
    t'.find (isMember r' u') = if r' = r ∧ u' = u then (t.find (isMember r u)).map d.apply
      else t.find (isMember r' u') := by
  unfold updateMember at h
  split at h
  · cases h
    have hfind := Table.find_updateWhere t (isMember r u) (isMember r' u') d.apply
      (fun _ _ _ => rfl) fun _ => rfl
    refine hfind.trans ?_
    split
    · rename_i hk
      rw [hk.1, hk.2]
      cases hf : t.find (isMember r u) with
      | none => rfl
      | some m => simp [(Table.find_some hf).2]
    · rename_i hk
      cases hf : t.find (isMember r' u') with
      | none => rfl
      | some m =>
        obtain ⟨hr, hu⟩ := isMember_iff.1 (Table.find_some hf).2
        have hno : isMember r u m = false := by
          rw [Bool.eq_false_iff, ne_eq, isMember_iff]
          rintro ⟨rfl, rfl⟩
          exact hk ⟨hr.symm, hu.symm⟩
        simp [hno]
  · cases h

theorem updateMember_ne_none {t : Table RoomMember} {r u : String} {m : RoomMember}
    (h : crew t r u = some m) (d : MemberData) : updateMember t r u d ≠ none := by
  obtain ⟨hm, hr, hu, -⟩ := crew_eq_some.1 h
  rw [updateMember, if_pos (List.any_eq_true.2 ⟨m, hm, isMember_iff.2 ⟨hr, hu⟩⟩)]
  exact Option.some_ne_none _

theorem updateMember_some {t t' : Table RoomMember} {r u : String} {d : MemberData}
    (h : updateMember t r u d = some t') : ∃ m, t.find (isMember r u) = some m := by
  unfold updateMember at h
  split at h
  · rename_i hany
    exact Option.isSome_iff_exists.1 (List.find?_isSome.2 (List.any_eq_true.1 hany))
  · cases h

/-- An update of one membership is a change of one person of one crew. -/
theorem crew_updateMember {t t' : Table RoomMember} {r u : String} {d : MemberData}
    (h : updateMember t r u d = some t') (r' : String) :
    crew t' r' = if r' = r then Function.update (crew t r) u
        (((t.find (isMember r u)).map d.apply).filter (·.leftAt.isNone))
      else crew t r' := by
  funext u'
  rw [crew, find_updateMember h]
  by_cases hr : r' = r
  · subst hr
    rw [if_pos rfl]
    by_cases hu : u' = u
    · subst hu; simp
    · simp [hu, crew]
  · simp [hr, crew]

/-- An update that leaves `leftAt` alone. -/
theorem crew_change {t t' : Table RoomMember} {r u : String} {d : MemberData}
    (h : updateMember t r u d = some t') (hd : d.leftAt = none) :
    crew t' r = Function.update (crew t r) u ((crew t r u).map d.apply) := by
  rw [crew_updateMember h, if_pos rfl]
  congr 1
  rw [crew]
  cases t.find (isMember r u) with
  | none => rfl
  | some m => cases hl : m.leftAt <;> simp [Option.filter, MemberData.apply, hd, hl]

theorem crew_setRole {t t' : Table RoomMember} {r a u : String} {role : MemberRole}
    (h : setRole t r a u role = some t') (hne : u ≠ a) :
    crew t' r = if role = .OWNER then
        Function.update
          (Function.update (crew t r) u ((crew t r u).map { role := some role : MemberData }.apply))
          a ((crew t r a).map { role := some .ADMIN : MemberData }.apply)
      else
        Function.update (crew t r) u
          ((crew t r u).map { role := some role : MemberData }.apply) := by
  obtain ⟨t₁, h₁, h₂⟩ := Option.bind_eq_some_iff.1 h
  split at h₂
  · rename_i hrole
    rw [if_pos hrole, crew_change h₂ rfl, crew_change h₁ rfl, Function.update_of_ne hne.symm]
  · rename_i hrole
    cases h₂
    rw [if_neg hrole, crew_change h₁ rfl]

theorem crew_leave {t t' : Table RoomMember} {r u : String} {now : Nat}
    (h : updateMember t r u { leftAt := some (some now) } = some t') :
    crew t' r = Function.update (crew t r) u none := by
  rw [crew_updateMember h, if_pos rfl]
  congr 1
  cases t.find (isMember r u) <;> simp [Option.filter, MemberData.apply]

theorem crew_return {t t' : Table RoomMember} {r u : String} {d : MemberData}
    (h : updateMember t r u d = some t') (hd : d.leftAt = some none) :
    ∃ m, crew t' r = Function.update (crew t r) u (some (d.apply m)) := by
  obtain ⟨m, hm⟩ := updateMember_some h
  refine ⟨m, ?_⟩
  rw [crew_updateMember h, if_pos rfl, hm]
  simp [Option.filter, MemberData.apply, hd]

/-! ## Inserts -/

theorem crew_insert {t t' : Table RoomMember} {m : RoomMember} (h : t.insert m = .ok t')
    (hm : m.leftAt = none) (r : String) :
    crew t' r = if r = m.roomId then Function.update (crew t r) m.userId (some m)
      else crew t r := by
  have hno : t.find (isMember m.roomId m.userId) = none := by
    rw [Table.find_none]
    intro x hx
    have hfresh := Table.insert_fresh h hx () (by simp [Row.constraints])
    rw [Bool.eq_false_iff, ne_eq, isMember_iff]
    rintro ⟨hr, hu⟩
    simp [Row.clash, hr, hu] at hfresh
  funext u
  rw [crew, Table.find_insert h]
  by_cases hr : r = m.roomId
  · rw [if_pos hr, hr]
    by_cases hu : u = m.userId
    · simp [hu, hno, isMember, hm]
    · have hk : isMember m.roomId u m = false := by
        simpa [isMember] using fun he => hu he.symm
      simp [hu, hk, crew]
  · rw [if_neg hr]
    have hk : isMember r u m = false := by
      simpa [isMember] using fun he => absurd he.symm hr
    simp [hk, crew]

/-- Whoever joins is an ordinary member. -/
theorem crew_joinMember {r u : String} {head : Nat} {existing : List RoomMember} {w : World}
    {t : Table RoomMember} (h : joinMember r u head existing w = .ok t) :
    ∃ m, m.role = .MEMBER ∧ crew t r = Function.update (crew w.db.roomMembers r) u (some m) := by
  simp only [joinMember] at h
  split at h
  · split at h <;> cases h
    rename_i hu
    obtain ⟨m, hm⟩ := crew_return hu rfl
    exact ⟨_, rfl, hm⟩
  · split at h
    · cases h
    · rename_i hi
      split at h <;> cases h
      exact ⟨_, rfl, by rw [crew_insert hi rfl, if_pos rfl]⟩

theorem insertMembers_ok {t t' : Table RoomMember} {ms : List RoomMember}
    (h : insertMembers t ms = .ok t') : t'.rows = t.rows ++ ms := by
  induction ms generalizing t with
  | nil => simp only [insertMembers, Except.ok.injEq] at h; simp [h]
  | cons m ms ih =>
    simp only [insertMembers] at h
    split at h
    · rename_i t₁ ht
      rw [ih h, (Table.insert_ok ht).2, List.append_assoc]
      rfl
    · cases h

theorem directMembers_room {room creatorId otherId : String} {now : Nat} :
    ∀ m ∈ directMembers room now creatorId otherId, m.roomId = room ∧ m.role = .MEMBER := by
  intro m hm
  obtain ⟨u, -, rfl⟩ := List.mem_map.1 hm
  exact ⟨rfl, rfl⟩

theorem groupMembers_room {room creatorId : String} {now : Nat} {ids : List String} :
    ∀ m ∈ groupMembers room now creatorId ids, m.roomId = room := by
  intro m hm
  obtain ⟨u, -, rfl⟩ := List.mem_map.1 hm
  rfl

theorem insertRoom_ok {room : Room} {members : List RoomMember} {w w' : World}
    (h : insertRoom room members w = .ok w') :
    ∃ rooms roomMembers, w.db.rooms.insert room = .ok rooms ∧
      insertMembers w.db.roomMembers members = .ok roomMembers ∧
      w' = { w with db.rooms := rooms, db.roomMembers := roomMembers } := by
  unfold insertRoom at h
  split at h
  · cases h
  · cases h
  · rename_i rooms hr
    split at h
    · cases h
    · rename_i roomMembers hm
      split at h <;> cases h
      exact ⟨rooms, roomMembers, hr, hm, rfl⟩

/-! ## Rooms -/

/-- The columns of a room that a message leaves alone. -/
def roomStub (x : Room) : Room := { x with lastMessageAt := none }

def roomStubs (db : Db) : List Room := db.rooms.rows.map roomStub

/-- The room exists and is of the type. -/
def HasType (db : Db) (roomId : String) (type : RoomType) : Prop :=
  ∃ x ∈ roomStubs db, x.id = roomId ∧ x.type = type

theorem roomStub_mem {db : Db} {x : Room} (h : x ∈ db.rooms.rows) : roomStub x ∈ roomStubs db :=
  List.mem_map_of_mem h

theorem roomStubs_eq_of_id {db : Db} {x y : Room} (hx : x ∈ roomStubs db) (hy : y ∈ roomStubs db)
    (h : x.id = y.id) : x = y := by
  obtain ⟨a, ha, rfl⟩ := List.mem_map.1 hx
  obtain ⟨b, hb, rfl⟩ := List.mem_map.1 hy
  rw [rooms_eq_of_id ha hb h]

theorem HasType.unique {db : Db} {r : String} {type type' : RoomType} (h : HasType db r type)
    (h' : HasType db r type') : type = type' := by
  obtain ⟨x, hx, hid, rfl⟩ := h
  obtain ⟨y, hy, hid', rfl⟩ := h'
  rw [roomStubs_eq_of_id hx hy (hid.trans hid'.symm)]

theorem roomStubs_insertRoom {room : Room} {members : List RoomMember} {w w' : World}
    (h : insertRoom room members w = .ok w') :
    roomStubs w'.db = roomStubs w.db ++ [roomStub room] := by
  obtain ⟨rooms, roomMembers, hr, -, rfl⟩ := insertRoom_ok h
  simp [roomStubs, (Table.insert_ok hr).2]

theorem ne_of_freshRoomId {db : Db} {id : String} (h : freshRoomId db id = true) {x : Room}
    (hx : x ∈ roomStubs db) : x.id ≠ id := by
  obtain ⟨y, hy, rfl⟩ := List.mem_map.1 hx
  simp only [freshRoomId, Bool.and_eq_true, Bool.not_eq_true', List.any_eq_false, beq_iff_eq] at h
  exact h.2 y hy

theorem requireGroup_ok {db : Db} {r : String} {room : Room} (h : requireGroup db r = .ok room) :
    room ∈ db.rooms.rows ∧ room.id = r ∧ room.type = .GROUP := by
  unfold requireGroup at h
  split at h
  · cases h
  · rename_i x hf
    split at h
    · cases h
    · rename_i ht
      cases h
      obtain ⟨hx, hid⟩ := Table.find_some hf
      exact ⟨hx, by simpa using hid, not_not.1 ht⟩

theorem canActivate_ok {db : Db} {r u : String} {role : MemberRole}
    (h : canActivate db r u = .ok role) :
    ∃ m, crew db.roomMembers r u = some m ∧ m.role = role := by
  unfold canActivate at h
  split at h
  · cases h
  · split at h
    · cases h
    · split at h
      · rename_i m hm; cases h; exact ⟨m, hm, rfl⟩
      · cases h

end Intaktok.Rooms
