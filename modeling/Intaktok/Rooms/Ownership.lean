import Intaktok.Rooms.Actions
import Intaktok.Messages.Numbers
/-
# Ownership is singular

The guard reads the actor's role and `updateMemberRole` and `removeMember` read their target before
they write, and a departing owner names his successor in a second write. `Undisturbed r` is what
these reads would have to be worth when the writes come: under it every action is one turn of the
crew of the group (`turn_of_step`), at most one removal is busy with a succession, and a group
without an owner is one whose succession is still owed (`owner_always`). Without it a transfer
overlapping with the departure of its target leaves the group without an owner for good
(`ownership_lost`).
-/

namespace Intaktok.Rooms

open Interleave Tables Leadership Messages

/-! ## What the reads are worth -/

/-- The group exists. -/
def IsGroup (db : Db) (r : String) : Prop :=
  ∃ x ∈ roomStubs db, x.id = r ∧ x.type = .GROUP ∧ x.directKey = none

/-- The action finds the group `r` as the request believes it to be: who hands over the ownership
has it, and who takes it is there; nobody else's role is the owner's; who leaves is the owner if
and only if he was when he was looked up; the successor is there; and who joins comes to somebody,
and is not the owner already. -/
structure Undisturbed (r : String) (call : Call) (w : World) (pc : Pc) : Prop where
  transfer : ∀ a t, call = .updateMemberRole r a t .OWNER → pc = .setRole →
    Leads owner (crew w.db.roomMembers r) a ∧ ∃ m, crew w.db.roomMembers r t = some m
  change : ∀ a t role, call = .updateMemberRole r a t role → role ≠ .OWNER → pc = .setRole →
    ¬ Leads owner (crew w.db.roomMembers r) t
  leave : ∀ a t type role, call = .removeMember r a t → pc = .leave type role →
    (role = .OWNER ↔ Leads owner (crew w.db.roomMembers r) t)
  promote : ∀ a t u, call = .removeMember r a t → pc = .promote u →
    ∃ m, crew w.db.roomMembers r u = some m
  join : ∀ a us head existing u todo added, call = .addMembers r a us →
    pc = .write head existing (u :: todo) added →
    Manned (crew w.db.roomMembers r) ∧ ¬ Leads owner (crew w.db.roomMembers r) u

def undisturbed (r : String) : Discipline World Call Pc :=
  ⟨Undisturbed r, fun _ _ _ _ _ => True⟩

/-- The request still has to name an owner. -/
def Succeeding (r : String) (call : Call) (pc : Pc) : Prop :=
  (∃ a t, call = .removeMember r a t) ∧ (pc = .candidates ∨ ∃ u, pc = .promote u)

/-- What a request knows about the group. -/
structure Informed (r : String) (call : Call) (pc : Pc) : Prop where
  direct : ∀ creatorId dto r', call = .createRoom creatorId dto → pc = .reactivate r' → r' ≠ r
  target : ∀ a t role, call = .updateMemberRole r a t role → pc = .setRole → t ≠ a
  group : ∀ a t type role, call = .removeMember r a t →
    pc = .target role type ∨ pc = .leave type role → type = .GROUP

theorem not_succeeding_past {r : String} {call : Call} {pc : Pc} (h : past pc = true) :
    ¬ Succeeding r call pc := by
  rintro ⟨-, rfl | ⟨u, rfl⟩⟩ <;> cases h

theorem not_succeeding_at {r : String} {call : Call} {pc : Pc} (h₁ : pc ≠ .candidates)
    (h₂ : ∀ u, pc ≠ .promote u) : ¬ Succeeding r call pc := by
  rintro ⟨-, rfl | ⟨u, rfl⟩⟩
  · exact h₁ rfl
  · exact h₂ u rfl

/-- Only a removal from the group is in a succession there. -/
theorem not_succeeding_call {r : String} {call : Call} (h : ∀ a t, call ≠ .removeMember r a t)
    (pc : Pc) : ¬ Succeeding r call pc := by
  rintro ⟨⟨a, t, rfl⟩, -⟩
  exact h a t rfl

/-- The pcs about which something has to be known. -/
def knowing : Pc → Bool
  | .reactivate _ | .setRole | .target _ _ | .leave _ _ => true
  | _ => false

theorem informed_of {r : String} {call : Call} {pc : Pc} (h : knowing pc = false) :
    Informed r call pc where
  direct _ _ _ _ hpc := by subst hpc; cases h
  target _ _ _ _ hpc := by subst hpc; cases h
  group _ _ _ _ _ hpc := by rcases hpc with rfl | rfl <;> cases h

theorem knowing_past {pc : Pc} (h : past pc = true) : knowing pc = false := by
  cases pc <;> simp_all [past, knowing]

theorem informed_past {r : String} {call : Call} {pc : Pc} (h : past pc = true) :
    Informed r call pc := informed_of (knowing_past h)

/-- A removal that has seen the type of the room. -/
theorem informed_group {r r₁ a t : String} {type : RoomType} {role : MemberRole} {pc : Pc}
    (hpc : pc = .target role type ∨ pc = .leave type role) (h : r = r₁ → type = .GROUP) :
    Informed r (.removeMember r₁ a t) pc where
  direct _ _ _ hc _ := by cases hc
  target _ _ _ hc _ := by cases hc
  group _ _ _ _ hc hpc' := by
    cases hc
    rcases hpc with rfl | rfl <;> rcases hpc' with hpc' | hpc' <;> cases hpc' <;> exact h rfl

/-! ## Turns of a crew -/

/-- What one action does to the crew of the group, and to the succession. -/
inductive Turn (r : String) (call : Call) (pc pc' : Pc) (f : String → Option RoomMember) :
    (String → Option RoomMember) → Prop
  | idle : (Succeeding r call pc' ↔ Succeeding r call pc) → Turn r call pc pc' f f
  | deserted : ¬ Manned f → ¬ Succeeding r call pc' → Turn r call pc pc' f f
  | follower {u x} : ¬ Succeeding r call pc → ¬ Succeeding r call pc' → ¬ Leads owner f u →
      (∀ m, x = some m → ¬ owner m) → (x ≠ none → Manned f) →
      Turn r call pc pc' f (Function.update f u x)
  | transfer {a t m m'} : ¬ Succeeding r call pc → ¬ Succeeding r call pc' → Leads owner f a →
      t ≠ a → owner m → ¬ owner m' →
      Turn r call pc pc' f (Function.update (Function.update f t (some m)) a (some m'))
  | departed {u} : Succeeding r call pc' → Leads owner f u →
      Turn r call pc pc' f (Function.update f u none)
  | succeeded {u m} : Succeeding r call pc → ¬ Succeeding r call pc' → owner m →
      Turn r call pc pc' f (Function.update f u (some m))

theorem Turn.still {r : String} {call : Call} {pc pc' : Pc} {f : String → Option RoomMember}
    (h : ¬ Succeeding r call pc) (h' : ¬ Succeeding r call pc') : Turn r call pc pc' f f :=
  .idle (iff_of_false h' h)

/-- Between turns of an undisturbed group at most one member is its owner. -/
theorem Turn.atMostOne {r : String} {call : Call} {pc pc' : Pc} {f f' : String → Option RoomMember}
    (h : Turn r call pc pc' f f') (hone : AtMostOne owner f)
    (hun : Succeeding r call pc → ¬ Led owner f) : AtMostOne owner f' := by
  cases h with
  | idle _ => exact hone
  | deserted _ _ => exact hone
  | follower _ _ _ hx _ => exact hone.update hx
  | departed _ _ => exact hone.update (fun m h => nomatch h)
  | succeeded hs _ _ => exact atMostOne_update fun v hv => absurd ⟨v, hv⟩ (hun hs)
  | transfer _ _ ha hne _ hm' => exact hone.transfer ha hne hm'

/-- A succession begins when the owner is gone. -/
theorem Turn.not_led {r : String} {call : Call} {pc pc' : Pc} {f f' : String → Option RoomMember}
    (h : Turn r call pc pc' f f') (hone : AtMostOne owner f)
    (hun : Succeeding r call pc → ¬ Led owner f) (hs : Succeeding r call pc') : ¬ Led owner f' := by
  cases h with
  | idle hiff => exact hun (hiff.1 hs)
  | departed _ hu => exact hone.not_led hu
  | deserted _ hno => exact absurd hs hno
  | follower _ hno => exact absurd hs hno
  | transfer _ hno => exact absurd hs hno
  | succeeded _ hno => exact absurd hs hno

/-- Another succession stays the only one, and its group without an owner. -/
theorem Turn.beside {r : String} {call call₂ : Call} {pc pc' pc₂ : Pc}
    {f f' : String → Option RoomMember} (h : Turn r call pc pc' f f')
    (hun : Succeeding r call₂ pc₂ → ¬ Led owner f)
    (hapart : Succeeding r call pc → ¬ Succeeding r call₂ pc₂) (hs : Succeeding r call₂ pc₂) :
    ¬ Led owner f' ∧ ¬ Succeeding r call pc' := by
  have hno := hun hs
  cases h with
  | idle hiff => exact ⟨hno, fun h => hapart (hiff.1 h) hs⟩
  | deserted _ hd => exact ⟨hno, hd⟩
  | @follower u x _ hd _ hx _ =>
    refine ⟨?_, hd⟩
    rintro ⟨v, hv⟩
    by_cases hvu : v = u
    · subst hvu
      obtain ⟨m, hm, hl⟩ := leads_update_self.1 hv
      exact hx m hm hl
    · exact hno ⟨v, (leads_update_ne hvu).1 hv⟩
  | transfer _ _ ha => exact absurd ⟨_, ha⟩ hno
  | departed _ hu => exact absurd ⟨_, hu⟩ hno
  | succeeded hd => exact absurd hs (hapart hd)

/-- A group is left without an owner only by a request that goes on to name one. -/
theorem Turn.owed {r : String} {call : Call} {pc pc' : Pc} {f f' : String → Option RoomMember}
    (h : Turn r call pc pc' f f') (ho : Orphaned owner f') :
    Succeeding r call pc' ∨ (Orphaned owner f ∧ ¬ Succeeding r call pc) := by
  cases h with
  | idle hiff =>
    by_cases hs : Succeeding r call pc
    · exact .inl (hiff.2 hs)
    · exact .inr ⟨ho, hs⟩
  | deserted hm _ => exact absurd ho.1 hm
  | follower hs _ hu _ hm => exact .inr ⟨orphaned_of_update hu hm ho, hs⟩
  | transfer _ _ _ hne hm _ =>
    refine absurd ⟨_, (leads_update_ne hne).2 (leads_update_self.2 ⟨_, rfl, hm⟩)⟩ ho.2
  | departed hs _ => exact .inl hs
  | succeeded _ _ hm => exact absurd ⟨_, leads_update_self.2 ⟨_, rfl, hm⟩⟩ ho.2

/-! ## Every undisturbed action is a turn -/

theorem IsGroup.insertRoom {room : Room} {members : List RoomMember} {w w' : World} {r : String}
    (hg : IsGroup w.db r) (h : insertRoom room members w = .ok w') : IsGroup w'.db r := by
  obtain ⟨x, hx, hrest⟩ := hg
  exact ⟨x, by rw [roomStubs_insertRoom h]; exact List.mem_append_left _ hx, hrest⟩

theorem IsGroup.ne_fresh {db : Db} {r id : String} (hg : IsGroup db r)
    (h : freshRoomId db id = true) : r ≠ id := by
  obtain ⟨x, hx, rfl, -⟩ := hg
  exact ne_of_freshRoomId h hx

theorem IsGroup.hasType {db : Db} {r : String} {type : RoomType} (hg : IsGroup db r)
    (h : HasType db r type) : type = .GROUP := by
  obtain ⟨x, hx, hid, ht, -⟩ := hg
  exact h.unique ⟨x, hx, hid, ht⟩

theorem IsGroup.of_rooms {db db' : Db} {r : String} (hg : IsGroup db r)
    (h : db'.rooms = db.rooms) : IsGroup db' r := by
  rw [IsGroup, roomStubs, h]; exact hg

theorem Kept.isGroup {w w' : World} (h : Kept w w') {r : String} (hg : IsGroup w.db r) :
    IsGroup w'.db r := by
  rw [IsGroup, h.rooms]; exact hg

/-- Creating or reopening a room leaves another group alone. -/
theorem turn_of_createRoom {c : Choice} {creatorId : String} {dto : CreateRoomDto} {w w' : World}
    {pc pc' : Pc} {r : String} (h : CreateRoomActs c creatorId dto w pc w' pc')
    (hg : IsGroup w.db r) (hi : Informed r (.createRoom creatorId dto) pc) :
    crew w'.db.roomMembers r = crew w.db.roomMembers r ∧ IsGroup w'.db r ∧
      Informed r (.createRoom creatorId dto) pc' := by
  cases h with
  | refused => exact ⟨rfl, hg, informed_past rfl⟩
  | @existing pc room hm hkey =>
    refine ⟨rfl, hg, ⟨fun _ _ r' _ hpc => ?_, (fun _ _ _ h => nomatch h),
      (fun _ _ _ _ h => nomatch h)⟩⟩
    cases hpc
    rintro rfl
    obtain ⟨x, hx, hid, -, hno⟩ := hg
    rw [roomStubs_eq_of_id hx (roomStub_mem hm) hid] at hno
    rw [show room.directKey = none from hno] at hkey
    cases hkey
  | insertedDirect hf hid _ _ hins hp =>
    obtain ⟨rooms, members, -, hms, rfl⟩ := insertRoom_ok hins
    have hel := elsewhere_append (insertMembers_ok hms) fun m hm => (directMembers_room m hm).1
    exact ⟨hel.crew (hg.ne_fresh hf), hg.insertRoom hins, informed_past hp⟩
  | insertedGroup hf hid _ _ hins hp =>
    obtain ⟨rooms, members, -, hms, rfl⟩ := insertRoom_ok hins
    have hel := elsewhere_append (insertMembers_ok hms) groupMembers_room
    exact ⟨hel.crew (hg.ne_fresh hf), hg.insertRoom hins, informed_past hp⟩
  | @reactivated roomId pc' hp =>
    exact ⟨(elsewhere_reactivate _ _ _).crew (hi.direct _ _ _ rfl rfl).symm, hg,
      informed_past hp⟩
  | group _ hpc =>
    refine ⟨rfl, hg, ?_⟩
    rcases hpc with rfl | ⟨i, rfl⟩ <;> exact informed_of rfl
  | _ => exact ⟨rfl, hg, informed_of rfl⟩

theorem turn_of_addMembers {r₁ a : String} {userIds : List String} {w w' : World} {pc pc' : Pc}
    {r : String} (h : AddMembersActs r₁ a userIds w pc w' pc')
    (hu : Undisturbed r (.addMembers r₁ a userIds) w pc) :
    Turn r (.addMembers r₁ a userIds) pc pc' (crew w.db.roomMembers r)
      (crew w'.db.roomMembers r) ∧ knowing pc' = false := by
  have hno : ∀ pc, ¬ Succeeding r (.addMembers r₁ a userIds) pc := not_succeeding_call (by simp)
  have idle : ∀ pc pc' f, Turn r (.addMembers r₁ a userIds) pc pc' f f := fun pc pc' f =>
    .still (hno _) (hno _)
  have known : ∀ {existing todo pc}, Looping existing todo pc → knowing pc = false := by
    rintro _ _ pc (hp | ⟨_, _, _, _, rfl, -⟩)
    · exact knowing_past hp
    · rfl
  cases h with
  | existing hl => exact ⟨idle _ _ _, known hl⟩
  | @joined head existing u todo added t pc' hj hl =>
    refine ⟨?_, known hl⟩
    obtain ⟨m, hm, hcrew⟩ := crew_joinMember hj
    by_cases hr : r = r₁
    · subst hr
      obtain ⟨hman, hnot⟩ := hu.join _ _ _ _ _ _ _ rfl rfl
      rw [hcrew]
      refine .follower (hno _) (hno _) hnot ?_ fun _ => hman
      rintro _ h ho
      cases h
      rw [owner, hm] at ho
      cases ho
    · rw [(elsewhere_joinMember hj).crew hr]
      exact idle _ _ _
  | _ => exact ⟨idle _ _ _, rfl⟩

theorem turn_of_updateMemberRole {r₁ a t : String} {role : MemberRole} {w w' : World} {pc pc' : Pc}
    {r : String} (h : UpdateRoleActs r₁ a t role w pc w' pc')
    (hu : Undisturbed r (.updateMemberRole r₁ a t role) w pc)
    (hi : Informed r (.updateMemberRole r₁ a t role) pc) :
    Turn r (.updateMemberRole r₁ a t role) pc pc' (crew w.db.roomMembers r)
      (crew w'.db.roomMembers r) ∧ Informed r (.updateMemberRole r₁ a t role) pc' := by
  have hno : ∀ pc, ¬ Succeeding r (.updateMemberRole r₁ a t role) pc :=
    not_succeeding_call (by simp)
  have idle : ∀ pc pc' f, Turn r (.updateMemberRole r₁ a t role) pc pc' f f := fun pc pc' f =>
    .still (hno _) (hno _)
  cases h with
  | group =>
    exact ⟨idle _ _ _, ⟨(fun _ _ _ h => nomatch h), (fun _ _ _ _ h => nomatch h),
      (fun _ _ _ _ h => nomatch h)⟩⟩
  | target _ hne =>
    refine ⟨idle _ _ _, ⟨(fun _ _ _ h => nomatch h), fun _ _ _ hc _ => ?_,
      (fun _ _ _ _ h => nomatch h)⟩⟩
    cases hc
    exact hne
  | @set t' pc' hs hp =>
    refine ⟨?_, informed_past hp⟩
    by_cases hr : r = r₁
    · subst hr
      have hne := hi.target _ _ _ rfl rfl
      rw [crew_setRole hs hne]
      split
      · rename_i hrole
        subst hrole
        obtain ⟨⟨ma, ha, hl⟩, m, hm⟩ := hu.transfer _ _ rfl rfl
        rw [hm, ha]
        exact .transfer (hno _) (hno _) ⟨ma, ha, hl⟩ hne rfl (by simp [owner, MemberData.apply])
      · rename_i hrole
        refine .follower (hno _) (hno _) (hu.change _ _ _ rfl hrole rfl) ?_ ?_
        · intro m hm
          obtain ⟨x, -, rfl⟩ := Option.map_eq_some_iff.1 hm
          simpa [owner, MemberData.apply] using hrole
        · intro hsome
          obtain ⟨m, hm⟩ := Option.ne_none_iff_exists'.1 hsome
          obtain ⟨x, hx, -⟩ := Option.map_eq_some_iff.1 hm
          exact ⟨t, x, hx⟩
    · rw [(elsewhere_setRole hs).crew hr]
      exact idle _ _ _
  | refused => exact ⟨idle _ _ _, informed_past rfl⟩
  | entered => exact ⟨idle _ _ _, informed_of rfl⟩

theorem turn_of_removeMember {c : Choice} {r₁ a t : String} {w w' : World} {pc pc' : Pc}
    {r : String} (h : RemoveMemberActs c r₁ a t w pc w' pc')
    (hu : Undisturbed r (.removeMember r₁ a t) w pc) (hg : IsGroup w.db r)
    (hi : Informed r (.removeMember r₁ a t) pc) :
    Turn r (.removeMember r₁ a t) pc pc' (crew w.db.roomMembers r) (crew w'.db.roomMembers r) ∧
      Informed r (.removeMember r₁ a t) pc' := by
  -- a removal from another room is in no succession here
  have other : r ≠ r₁ → ∀ pc pc' f, Turn r (.removeMember r₁ a t) pc pc' f f := fun hr pc pc' f =>
    have hno := not_succeeding_call fun _ _ he => hr (Call.removeMember.inj he).1.symm
    .still (hno pc) (hno pc')
  have reads : ∀ {pc pc' f}, pc ≠ .candidates → (∀ u, pc ≠ .promote u) → pc' ≠ .candidates →
      (∀ u, pc' ≠ .promote u) → Turn r (.removeMember r₁ a t) pc pc' f f := fun h₁ h₂ h₁' h₂' =>
    .still (not_succeeding_at h₁ h₂) (not_succeeding_at h₁' h₂')
  cases h with
  | refused h₁ h₂ =>
    exact ⟨.still (not_succeeding_at h₁ h₂) (not_succeeding_past rfl), informed_past rfl⟩
  | entered => exact ⟨reads (by simp) (by simp) (by simp) (by simp), informed_of rfl⟩
  | @room role type ht =>
    exact ⟨reads (by simp) (by simp) (by simp) (by simp),
      informed_group (.inl rfl) fun hr => hg.hasType (hr ▸ ht)⟩
  | @target role type m hm _ =>
    refine ⟨reads (by simp) (by simp) (by simp) (by simp), informed_group (.inr rfl) fun hr => ?_⟩
    subst hr
    exact hi.group _ _ _ _ rfl (.inl rfl)
  | @left type role t' pc' hup hpc =>
    by_cases hr : r = r₁
    · subst hr
      have htype := hi.group _ _ _ _ rfl (.inr rfl)
      have hiff := hu.leave _ _ _ _ rfl rfl
      rw [crew_leave hup]
      by_cases hrole : role = .OWNER
      · rw [if_pos ⟨hrole, htype⟩] at hpc
        subst hpc
        exact ⟨.departed ⟨⟨a, t, rfl⟩, .inl rfl⟩ (hiff.1 hrole), informed_of rfl⟩
      · rw [if_neg fun h => hrole h.1] at hpc
        refine ⟨?_, informed_past hpc⟩
        exact .follower (not_succeeding_at (by simp) (by simp)) (not_succeeding_past hpc)
          (fun h => hrole (hiff.2 h)) (by simp) (by simp)
    · rw [(elsewhere_updateMember hup).crew hr]
      refine ⟨other hr _ _ _, ?_⟩
      split at hpc
      · subst hpc; exact informed_of rfl
      · exact informed_past hpc
  | @chosen next _ _ _ =>
    refine ⟨.idle ⟨fun ⟨hc, _⟩ => ⟨hc, .inl rfl⟩, fun ⟨hc, _⟩ => ⟨hc, .inr ⟨_, rfl⟩⟩⟩,
      informed_of rfl⟩
  | @deserted pc' hnone hp =>
    refine ⟨?_, informed_past hp⟩
    by_cases hr : r = r₁
    · subst hr
      exact .deserted (fun ⟨u, m, hm⟩ => by rw [hnone u] at hm; cases hm) (not_succeeding_past hp)
    · exact other hr _ _ _
  | @promoted u t' pc' hup hp =>
    refine ⟨?_, informed_past hp⟩
    by_cases hr : r = r₁
    · subst hr
      obtain ⟨m, hm⟩ := hu.promote _ _ _ rfl rfl
      rw [crew_change hup rfl, hm]
      exact .succeeded ⟨⟨a, t, rfl⟩, .inr ⟨u, rfl⟩⟩ (not_succeeding_past hp) rfl
    · rw [(elsewhere_updateMember hup).crew hr]
      exact other hr _ _ _
  | @unpromoted u e hup =>
    refine ⟨?_, informed_past rfl⟩
    by_cases hr : r = r₁
    · subst hr
      obtain ⟨m, hm⟩ := hu.promote _ _ _ rfl rfl
      exact absurd hup (updateMember_ne_none hm _)
    · exact other hr _ _ _

/-- An undisturbed action is a turn of the crew. -/
theorem turn_of_step {json : Json} {c : Choice} {call : Call} {w w' : World} {pc pc' : Pc}
    {r : String} (h : step json c call w pc = some (w', pc')) (hu : Undisturbed r call w pc)
    (hg : IsGroup w.db r) (hi : Informed r call pc) :
    Turn r call pc pc' (crew w.db.roomMembers r) (crew w'.db.roomMembers r) ∧
      IsGroup w'.db r ∧ Informed r call pc' := by
  rcases step_cases h with ⟨hp, hp', hk⟩ | ha
  · rw [hk.members]
    exact ⟨.still (not_succeeding_past hp) (not_succeeding_past hp'), hk.isGroup hg,
      informed_past hp'⟩
  · cases call with
    | createRoom creatorId dto =>
      obtain ⟨hcrew, hg', hi'⟩ := turn_of_createRoom ha hg hi
      have hno : ∀ pc, ¬ Succeeding r (.createRoom creatorId dto) pc :=
        not_succeeding_call (by simp)
      rw [hcrew]
      exact ⟨.still (hno _) (hno _), hg', hi'⟩
    | addMembers r₁ a userIds =>
      obtain ⟨ht, hknow⟩ := turn_of_addMembers ha hu
      exact ⟨ht, hg.of_rooms (AddMembersActs.rooms ha), informed_of hknow⟩
    | updateMemberRole r₁ a t role =>
      obtain ⟨ht, hi'⟩ := turn_of_updateMemberRole ha hu hi
      exact ⟨ht, hg.of_rooms (UpdateRoleActs.rooms ha), hi'⟩
    | removeMember r₁ a t =>
      obtain ⟨ht, hi'⟩ := turn_of_removeMember ha hu hg hi
      exact ⟨ht, hg.of_rooms (RemoveMemberActs.rooms ha), hi'⟩

/-! ## Runs -/

/-- At most one owner; a group in a succession has none; and there is one succession at a time. -/
def ownership (r : String) : Outline World Call Pc where
  glob w := IsGroup w.db r ∧ AtMostOne owner (crew w.db.roomMembers r)
  own call w pc := Informed r call pc ∧
    (Succeeding r call pc → ¬ Led owner (crew w.db.roomMembers r))
  apart call pc call₂ pc₂ := Succeeding r call pc → ¬ Succeeding r call₂ pc₂

theorem ownership_valid {json : Json} {r : String} :
    (ownership r).Valid (machine json) (undisturbed r) Outline.top where
  move {c call w pc w' pc'} a := by
    obtain ⟨hg, hone⟩ := a.glob
    obtain ⟨hi, hun⟩ := a.own
    obtain ⟨ht, hg', hi'⟩ := turn_of_step a.step a.alone hg hi
    exact ⟨⟨hg', ht.atMostOne hone hun⟩, hi', ht.not_led hone hun⟩
  keep {c call w pc w' pc' call₂ pc₂} a b := by
    obtain ⟨hi₂, hun₂⟩ := b.own
    obtain ⟨ht, -, -⟩ := turn_of_step a.step a.alone a.glob.1 a.own.1
    exact ⟨⟨hi₂, fun hs => (ht.beside hun₂ b.apart hs).1⟩,
      fun hs hs₂ => (ht.beside hun₂ b.apart hs₂).2 hs⟩
  symm h hs hs₂ := h hs₂ hs
  env ms {w} hg := ⟨hg, fun ho => ho⟩

theorem knowing_start (call : Call) : knowing (start call) = false := by
  cases call with
  | createRoom creatorId dto =>
    rcases createStart_cases creatorId dto with h | ⟨e, h⟩ <;> rw [start, h] <;> rfl
  | _ => rfl

theorem not_succeeding_start (r : String) (call : Call) : ¬ Succeeding r call (start call) := by
  rintro ⟨⟨a, t, rfl⟩, h | ⟨u, h⟩⟩ <;> cases h

section Runs
variable {ι : Type} [DecidableEq ι] {json : Json} {calls : ι → Call} {w : World} {r : String}
  {P : Pool World Pc ι}

theorem ownership_run (hg : IsGroup w.db r) (hone : AtMostOne owner (crew w.db.roomMembers r))
    (hrun : Run (machine json) (undisturbed r) calls ((machine json).initial calls w) P) :
    (ownership r).Holds calls P :=
  ownership_valid.run (fun _ => Outline.top_holds _ _)
    ⟨⟨hg, hone⟩, fun i => ⟨informed_of (knowing_start (calls i)),
      fun hs => absurd hs (not_succeeding_start r (calls i))⟩,
      fun i _ _ hs => absurd hs (not_succeeding_start r (calls i))⟩ hrun

/-- **A lost owner is a debt.** Whenever the group has members and no owner, some removal is still
going to name one. -/
theorem succession_owed (hg : IsGroup w.db r)
    (hgov : Governed owner (crew w.db.roomMembers r))
    (hrun : Run (machine json) (undisturbed r) calls ((machine json).initial calls w) P) :
    Orphaned owner (crew P.shared.db.roomMembers r) → ∃ i, Succeeding r (calls i) (P.pcs i) := by
  refine hrun.owed (fun w : World => Orphaned owner (crew w.db.roomMembers r)) (Succeeding r)
    (fun h => absurd h hgov.2) ?_ fun _ h => h
  intro Q i c s' l' hr ha hs hd
  have hQ := ownership_run hg hgov.1 hr
  obtain ⟨ht, -, -⟩ := turn_of_step hs ha.1 hQ.glob.1 (hQ.own i).1
  exact ht.owed hd

/-- **Ownership is singular.** A group that has had exactly one owner, or nobody in it, is found so
whenever no request is in flight, if every action on the way has found it undisturbed. -/
theorem owner_always (json : Json) (calls : ι → Call) (w : World) (r : String)
    (hg : IsGroup w.db r) (hgov : Manned (crew w.db.roomMembers r) →
      ∃! u, Leads owner (crew w.db.roomMembers r) u)
    (hrun : Run (machine json) (undisturbed r) calls ((machine json).initial calls w) P)
    (hquiet : ∀ i, P.pcs i = start (calls i) ∨ ∃ x, P.pcs i = .done x) :
    Manned (crew P.shared.db.roomMembers r) →
      ∃! u, Leads owner (crew P.shared.db.roomMembers r) u := by
  rw [← governed_iff] at hgov ⊢
  refine ⟨(ownership_run hg hgov.1 hrun).glob.2, fun ho => ?_⟩
  obtain ⟨i, hs⟩ := succession_owed hg hgov hrun ho
  rcases hquiet i with h | ⟨x, h⟩ <;> rw [h] at hs
  · exact not_succeeding_start r _ hs
  · exact not_succeeding_past rfl hs

end Runs

/-! ### A transfer and a departure -/

/-- The group `r1` as `a` has created it with `b`. -/
def groupR1 : World where
  db.users := usersAB
  db.rooms := roomsR1
  db.roomMembers := ⟨[{ roomId := "r1", userId := "a", role := .OWNER, joinedAt := 0 },
                      { roomId := "r1", userId := "b", joinedAt := 0 }], by decide⟩

/-- `a` hands the group over to `b`, who leaves. -/
def handOver : Bool → Call
  | false => .updateMemberRole "r1" "a" "b" .OWNER
  | true => .removeMember "r1" "b" "b"

/-- The insert of a system message `id` and what follows it, up to `n` more actions. -/
def announce {ι : Type} (i : ι) (id : String) (n : Nat) : List (Move ι Choice Nat) :=
  [turn i { id }, turn i] ++ [0, 1, 2].map (fun pick => turn i { pick }) ++ turns i n

def isDone : Pc → Bool
  | .done _ => true
  | _ => false

theorem isDone_done {pc : Pc} (h : isDone pc = true) : ∃ x, pc = .done x := by
  cases pc with
  | done x => exact ⟨x, rfl⟩
  | _ => cases h

def finished (P : Pool World Pc Bool) : Bool := isDone (P.pcs false) && isDone (P.pcs true)

theorem finished_quiet {P : Pool World Pc Bool} (h : finished P = true) (i : Bool) :
    ∃ x, P.pcs i = .done x := by
  rw [finished, Bool.and_eq_true] at h
  cases i
  · exact isDone_done h.1
  · exact isDone_done h.2

theorem groupR1_isGroup : IsGroup groupR1.db "r1" :=
  ⟨_, List.mem_singleton_self _, rfl, rfl, rfl⟩

theorem groupR1_owned : ∃! u, Leads owner (crew groupR1.db.roomMembers "r1") u := by
  refine ⟨"a", leads_owner_iff.2 (by decide), fun u ⟨m, hm, hl⟩ => ?_⟩
  obtain ⟨hmem, -, rfl, -⟩ := crew_eq_some.1 hm
  simp only [groupR1, List.mem_cons, List.not_mem_nil, or_false] at hmem
  rcases hmem with rfl | rfl
  · rfl
  · cases hl

/-- **A lost owner.** The transfer has looked `b` up when `b` leaves, not yet an owner: `b` takes
the ownership with him. -/
theorem ownership_lost : ¬ ∀ (ι : Type) [DecidableEq ι] (json : Json) (calls : ι → Call) (w : World)
    (r : String), IsGroup w.db r → (Manned (crew w.db.roomMembers r) →
      ∃! u, Leads owner (crew w.db.roomMembers r) u) → ∀ P : Pool World Pc ι,
    Run (machine json) Discipline.free calls ((machine json).initial calls w) P →
    (∀ i, P.pcs i = start (calls i) ∨ ∃ x, P.pcs i = .done x) →
    Manned (crew P.shared.db.roomMembers r) →
      ∃! u, Leads owner (crew P.shared.db.roomMembers r) u := by
  intro h
  let schedule := turns false 3 ++ turns true 4 ++ [turn false] ++
    (turns false 4 ++ announce false "m1" 5) ++ (turns true 2 ++ announce true "m2" 3)
  have hexec : ((machine noJson).exec always handOver ((machine noJson).initial handOver groupR1)
      schedule).any (fun P => finished P && (crew P.shared.db.roomMembers "r1" "a").isSome &&
        P.shared.db.roomMembers.rows.all fun m => m.role != .OWNER || m.leftAt.isSome) = true := by
    decide
  obtain ⟨P, hrun, hP⟩ := Machine.exec_reaches_free hexec
  simp only [Bool.and_eq_true, List.all_eq_true, Bool.or_eq_true, bne_iff_ne] at hP
  obtain ⟨⟨hfin, hman⟩, hno⟩ := hP
  obtain ⟨m, hm⟩ := Option.isSome_iff_exists.1 hman
  obtain ⟨u, ⟨x, hx, hl⟩, -⟩ := h Bool noJson handOver groupR1 "r1" groupR1_isGroup
    (fun _ => groupR1_owned) P hrun (fun i => .inr (finished_quiet hfin i)) ⟨_, m, hm⟩
  obtain ⟨hmem, -, -, hleft⟩ := crew_eq_some.1 hx
  rcases hno x hmem with h | h
  · exact h hl
  · rw [hleft] at h; cases h

/-- `Undisturbed` for a schedule. -/
def undisturbedOk (r : String) (call : Call) (w : World) (pc : Pc) : Bool :=
  let crew := crew w.db.roomMembers r
  let leads u := (crew u).any (·.role == .OWNER)
  match call, pc with
  | .updateMemberRole _ a t role, .setRole =>
    if role = .OWNER then leads a && (crew t).isSome else !leads t
  | .removeMember _ _ t, .leave _ role => (role == .OWNER) == leads t
  | .removeMember _ _ _, .promote u => (crew u).isSome
  | .addMembers _ _ _, .write _ _ _ _ => false
  | _, _ => true

theorem undisturbedOk_allows {r : String} {ι : Type} {calls : ι → Call} {P : Pool World Pc ι}
    {i : ι} (h : undisturbedOk r (calls i) P.shared (P.pcs i) = true) :
    (undisturbed r).allows calls P i := by
  refine ⟨?_, fun _ _ => trivial⟩
  revert h
  generalize calls i = call
  generalize P.pcs i = pc
  intro h
  constructor
  · rintro a t rfl rfl
    simpa [undisturbedOk, leads_owner_iff, Option.isSome_iff_exists] using h
  · rintro a t role rfl hrole rfl
    simpa [undisturbedOk, leads_owner_iff, hrole] using h
  · rintro a t type role rfl rfl
    simp only [undisturbedOk, beq_iff_eq] at h
    rw [leads_owner_iff, ← h, beq_iff_eq]
  · rintro a t u rfl rfl
    simpa [undisturbedOk, Option.isSome_iff_exists] using h
  · rintro a us head existing u todo added rfl rfl
    cases h

/-- The same requests in another order: `b` is the owner when his departure looks him up. -/
theorem owner_always_r1 : ∃ P, Run (machine noJson) (undisturbed "r1") handOver
    ((machine noJson).initial handOver groupR1) P ∧
    ∃! u, Leads owner (crew P.shared.db.roomMembers "r1") u := by
  let row : RoomMember := { roomId := "r1", userId := "a", role := .ADMIN, joinedAt := 0 }
  let schedule := turns true 2 ++ turns false 4 ++ turns true 2 ++
    [turn true { members := [row] }, turn true] ++
    (turns false 4 ++ announce false "m1" 5) ++ (turns true 2 ++ announce true "m2" 3)
  have hexec : ((machine noJson).exec
      (fun P i => undisturbedOk "r1" (handOver i) P.shared (P.pcs i)) handOver
      ((machine noJson).initial handOver groupR1) schedule).any (fun P => finished P &&
        (crew P.shared.db.roomMembers "r1" "a").isSome) = true := by
    decide
  obtain ⟨P, hrun, hP⟩ := Machine.exec_reaches (D := undisturbed "r1") undisturbedOk_allows hexec
  rw [Bool.and_eq_true] at hP
  obtain ⟨m, hm⟩ := Option.isSome_iff_exists.1 hP.2
  exact ⟨P, hrun, owner_always noJson handOver groupR1 "r1" groupR1_isGroup
    (fun _ => groupR1_owned) hrun (fun i => .inr (finished_quiet hP.1 i)) ⟨"a", m, hm⟩⟩

end Intaktok.Rooms
