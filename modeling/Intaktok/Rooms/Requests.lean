import Intaktok.Rooms.Actions
/-
# What a whole request does

A request that runs with no other in between has one of the effects `Effect` lists, on the rooms and
memberships as its start found them. `Midway` follows it there: it reads (`Knows` is what it has
learned), `addMembers` then writes member by member, and a departing owner writes twice; whatever
comes after the last write leaves the effect as it is (`effect_of_complete`).
-/

namespace Intaktok.Rooms

open Interleave Tables Leadership Messages

/-- What the rules of rooms are about. -/
structure Roster where
  rooms : List Room
  members : Table RoomMember

def roster (w : World) : Roster := ⟨roomStubs w.db, w.db.roomMembers⟩

theorem Kept.roster {w w' : World} (h : Kept w w') : roster w' = roster w := by
  rw [Rooms.roster, h.members, h.rooms]; rfl

def Roster.Is (S : Roster) (r : String) (type : RoomType) : Prop :=
  ∃ x ∈ S.rooms, x.id = r ∧ x.type = type

/-! ## Effects -/

/-- People have joined a room: who was there still is as he was, and the others are members. -/
structure Joined (r : String) (t t' : Table RoomMember) : Prop where
  stays : ∀ u m, crew t r u = some m → crew t' r u = some m
  comes : ∀ u m, crew t' r u = some m → crew t r u = none → m.role = .MEMBER
  elsewhere : Elsewhere r t t'

/-- The owner `a` of the group `r` has left it. -/
structure Departed (S : Roster) (r a : String) (t : Table RoomMember) : Prop where
  group : S.Is r .GROUP
  owner : Leads owner (crew S.members r) a
  left : ∃ now, updateMember S.members r a { leftAt := some (some now) } = some t

/-- `transferOwnership` may pick `next`. -/
def Elected (t : Table RoomMember) (r : String) (next : RoomMember) : Prop :=
  ∃ candidates, candidates.Perm (t.findMany fun m => m.roomId == r && m.leftAt.isNone) ∧
    candidates.Pairwise senior ∧ successor candidates = some next

/-- The effects of the requests. -/
inductive Effect (S : Roster) : Call → Roster → Prop
  | unchanged {call} : Effect S call S
  | direct {creatorId dto room now t} : (∀ x ∈ S.rooms, x.id ≠ room.id) → room.type = .DIRECT →
      t.rows = S.members.rows ++ directMembers room.id now creatorId dto.otherId →
      Effect S (.createRoom creatorId dto) ⟨S.rooms ++ [room], t⟩
  | group {creatorId dto room now t} : (∀ x ∈ S.rooms, x.id ≠ room.id) → room.type = .GROUP →
      room.directKey = none →
      t.rows = S.members.rows ++ groupMembers room.id now creatorId (dto.memberIds creatorId) →
      Effect S (.createRoom creatorId dto) ⟨S.rooms ++ [room], t⟩
  | reopened {creatorId dto room} : room ∈ S.rooms → room.directKey ≠ none →
      Effect S (.createRoom creatorId dto)
        ⟨S.rooms, reactivateMembers S.members room.id [creatorId, dto.otherId]⟩
  | joined {r a userIds t m} : S.Is r .GROUP → crew S.members r a = some m →
      Joined r S.members t → Effect S (.addMembers r a userIds) ⟨S.rooms, t⟩
  | role {r a u role t m} : S.Is r .GROUP → Leads owner (crew S.members r) a → u ≠ a →
      crew S.members r u = some m → setRole S.members r a u role = some t →
      Effect S (.updateMemberRole r a u role) ⟨S.rooms, t⟩
  | left {r a u type now t ma m} : S.Is r type → crew S.members r a = some ma →
      crew S.members r u = some m → assertMayRemove a ma.role u m = .ok () →
      ¬ (m.role = .OWNER ∧ type = .GROUP) →
      updateMember S.members r u { leftAt := some (some now) } = some t →
      Effect S (.removeMember r a u) ⟨S.rooms, t⟩
  | deserted {r a t} : Departed S r a t → (∀ u, crew t r u = none) →
      Effect S (.removeMember r a a) ⟨S.rooms, t⟩
  | succeeded {r a t next t'} : Departed S r a t → Elected t r next →
      updateMember t r next.userId { role := some .OWNER } = some t' →
      Effect S (.removeMember r a a) ⟨S.rooms, t'⟩

theorem Joined.refl (r : String) (t : Table RoomMember) : Joined r t t :=
  ⟨fun _ _ h => h, (fun _ _ h h' => by rw [h'] at h; cases h), fun _ _ => Iff.rfl⟩

theorem Joined.trans {r : String} {t t' t'' : Table RoomMember} (h : Joined r t t')
    (h' : Joined r t' t'') : Joined r t t'' where
  stays u m hm := h'.stays u m (h.stays u m hm)
  comes u m hm hno := by
    cases hmid : crew t' r u with
    | none => exact h'.comes u m hm hmid
    | some x =>
      have hx := h'.stays u x hmid
      rw [hm] at hx
      cases hx
      exact h.comes u m hmid hno
  elsewhere := h.elsewhere.trans h'.elsewhere

theorem joined_joinMember {r u : String} {head : Nat} {existing : List RoomMember} {w : World}
    {t : Table RoomMember} (h : joinMember r u head existing w = .ok t)
    (hu : crew w.db.roomMembers r u = none) : Joined r w.db.roomMembers t := by
  obtain ⟨x, hx, hcrew⟩ := crew_joinMember h
  refine ⟨fun v m hm => ?_, fun v m hm hno => ?_, elsewhere_joinMember h⟩ <;> rw [hcrew] at *
  · have hvu : v ≠ u := by rintro rfl; rw [hu] at hm; cases hm
    rwa [Function.update_of_ne hvu]
  · by_cases hvu : v = u
    · subst hvu; rw [Function.update_self] at hm; cases hm; exact hx
    · rw [Function.update_of_ne hvu, hno] at hm; cases hm

theorem successor_eq_some {candidates : List RoomMember} {next : RoomMember}
    (h : successor candidates = some next) :
    candidates.find? (·.role == .ADMIN) = some next ∨
      (candidates.find? (·.role == .ADMIN) = none ∧ candidates.head? = some next) := by
  unfold successor at h
  cases hf : candidates.find? (·.role == .ADMIN) <;> rw [hf] at h
  · exact .inr ⟨rfl, h⟩
  · exact .inl h

/-- The one elected is there. -/
theorem Elected.active {t : Table RoomMember} {r : String} {next : RoomMember}
    (h : Elected t r next) : crew t r next.userId = some next := by
  obtain ⟨candidates, hp, -, hs⟩ := h
  have hin : next ∈ candidates := by
    rcases successor_eq_some hs with h | ⟨-, h⟩
    · exact List.mem_of_find?_eq_some h
    · exact List.mem_of_mem_head? h
  have hf := hp.mem_iff.1 hin
  simp only [Table.mem_findMany, Bool.and_eq_true, beq_iff_eq, Option.isNone_iff_eq_none] at hf
  exact crew_eq_some.2 ⟨hf.1, hf.2.1, rfl, hf.2.2⟩

theorem Departed.crew_eq {S : Roster} {r a : String} {t : Table RoomMember}
    (h : Departed S r a t) : crew t r = Function.update (crew S.members r) a none := by
  obtain ⟨now, hu⟩ := h.left
  exact crew_leave hu

theorem Departed.elsewhere {S : Roster} {r a : String} {t : Table RoomMember}
    (h : Departed S r a t) : Elsewhere r S.members t := by
  obtain ⟨now, hu⟩ := h.left
  exact elsewhere_updateMember hu

/-! ## On the way -/

/-- What a request has read before its first write. -/
def Knows (S : Roster) : Call → Pc → Prop
  | .createRoom _ _, .reactivate id => ∃ x ∈ S.rooms, x.id = id ∧ x.directKey ≠ none
  | .addMembers r a _, .room _ => ∃ m, crew S.members r a = some m
  | .addMembers r a _, .activeUsers | .addMembers r a _, .head | .addMembers r a _, .existing _ =>
    S.Is r .GROUP ∧ ∃ m, crew S.members r a = some m
  | .addMembers _ _ _, .write _ _ _ _ => False
  | .updateMemberRole r a _ _, .room role => ∃ m, crew S.members r a = some m ∧ m.role = role
  | .updateMemberRole r a _ _, .target _ _ => S.Is r .GROUP ∧ Leads owner (crew S.members r) a
  | .updateMemberRole r a u _, .setRole => S.Is r .GROUP ∧ Leads owner (crew S.members r) a ∧
      u ≠ a ∧ ∃ m, crew S.members r u = some m
  | .removeMember r a _, .room role => ∃ m, crew S.members r a = some m ∧ m.role = role
  | .removeMember r a _, .target role type =>
    S.Is r type ∧ ∃ m, crew S.members r a = some m ∧ m.role = role
  | .removeMember r a u, .leave type role => S.Is r type ∧ ∃ ma m, crew S.members r a = some ma ∧
      crew S.members r u = some m ∧ m.role = role ∧ assertMayRemove a ma.role u m = .ok ()
  | .removeMember _ _ _, .candidates | .removeMember _ _ _, .promote _ => False
  | _, _ => True

/-- The loop of `addMembers` before a user: nobody to come is active unless the loop knows, and the
next one is not. -/
structure Joining (existing : List RoomMember) (r : String) (t : Table RoomMember)
    (todo : List String) : Prop where
  nodup : todo.Nodup
  known : ∀ u ∈ todo, ∀ m, crew t r u = some m → ∃ x ∈ existing, x.userId = u ∧ x.leftAt = none

/-- A request on its way from a state with the roster `S`. -/
inductive Midway (S : Roster) (call : Call) (w : World) (pc : Pc) : Prop
  | reading : roster w = S → Knows S call pc → Midway S call w pc
  | joining {r a userIds head existing u todo added t m} : call = .addMembers r a userIds →
      pc = .write head existing (u :: todo) added → roster w = ⟨S.rooms, t⟩ → S.Is r .GROUP →
      crew S.members r a = some m → Joined r S.members t → Joining existing r t (u :: todo) →
      (∀ x ∈ existing, x.userId = u → x.leftAt ≠ none) → Midway S call w pc
  | leaving {r a t} : call = .removeMember r a a → pc = .candidates → roster w = ⟨S.rooms, t⟩ →
      Departed S r a t → Midway S call w pc
  | naming {r a t next} : call = .removeMember r a a → pc = .promote next.userId →
      roster w = ⟨S.rooms, t⟩ → Departed S r a t → Elected t r next → Midway S call w pc
  | settled : past pc = true → Effect S call (roster w) → Midway S call w pc

theorem Midway.congr {S : Roster} {call : Call} {w w' : World} {pc : Pc}
    (h : Midway S call w pc) (hw : roster w' = roster w) : Midway S call w' pc := by
  cases h with
  | reading h hk => exact .reading (hw.trans h) hk
  | joining hc hp h h₁ h₂ h₃ h₄ h₅ => exact .joining hc hp (hw.trans h) h₁ h₂ h₃ h₄ h₅
  | leaving hc hp h h₁ => exact .leaving hc hp (hw.trans h) h₁
  | naming hc hp h h₁ h₂ => exact .naming hc hp (hw.trans h) h₁ h₂
  | settled hp he => exact .settled hp (hw ▸ he)

theorem Joining.absent {existing : List RoomMember} {r u : String} {t : Table RoomMember}
    {todo : List String} (h : Joining existing r t (u :: todo))
    (hnext : ∀ x ∈ existing, x.userId = u → x.leftAt ≠ none) : crew t r u = none := by
  rw [Option.eq_none_iff_forall_not_mem]
  intro x hx
  obtain ⟨y, hy, hyu, hyl⟩ := h.known u List.mem_cons_self x hx
  exact hnext y hy hyu hyl

section Midway
variable {S : Roster} {call : Call} {w : World} {pc : Pc} {r a u : String}

/-- Before its first write a request knows what it has read. -/
theorem Midway.reads (h : Midway S call w pc) (hp : past pc = false)
    (hwrite : ∀ head existing todo added, pc ≠ .write head existing todo added)
    (hcandidates : pc ≠ .candidates) (hpromote : ∀ v, pc ≠ .promote v) :
    roster w = S ∧ Knows S call pc := by
  cases h with
  | reading hw hk => exact ⟨hw, hk⟩
  | joining _ he => exact absurd he (hwrite _ _ _ _)
  | leaving _ he => exact absurd he hcandidates
  | naming _ he => exact absurd he (hpromote _)
  | settled he _ => rw [hp] at he; cases he

theorem Midway.joins {userIds : List String} {head : Nat} {existing : List RoomMember}
    {todo added : List String}
    (h : Midway S (.addMembers r a userIds) w (.write head existing (u :: todo) added)) :
    crew w.db.roomMembers r u = none := by
  cases h with
  | reading _ hk => exact hk.elim
  | joining hc hp hw _ _ _ hto hnext =>
    cases hc
    cases hp
    obtain rfl := congrArg Roster.members hw
    exact hto.absent hnext
  | leaving _ hp | naming _ hp | settled hp _ => cases hp

theorem Midway.leaves (h : Midway S (.removeMember r a u) w .candidates) :
    u = a ∧ Departed S r a w.db.roomMembers := by
  cases h with
  | reading _ hk => exact hk.elim
  | leaving hc _ hw hd =>
    cases hc
    obtain rfl := congrArg Roster.members hw
    exact ⟨rfl, hd⟩
  | joining _ hp | naming _ hp | settled hp _ => cases hp

theorem Midway.names {v : String} (h : Midway S (.removeMember r a u) w (.promote v)) :
    u = a ∧ Departed S r a w.db.roomMembers ∧
      ∃ next, v = next.userId ∧ Elected w.db.roomMembers r next := by
  cases h with
  | reading _ hk => exact hk.elim
  | naming hc hp hw hd he =>
    cases hc
    cases hp
    obtain rfl := congrArg Roster.members hw
    exact ⟨rfl, hd, _, rfl, he⟩
  | joining _ hp | leaving _ hp | settled hp _ => cases hp

/-- Until its tail a request leaves the rooms alone. -/
theorem Midway.rooms (h : Midway S call w pc) (hp : past pc = false) :
    roomStubs w.db = S.rooms := by
  cases h with
  | reading hw _ => exact congrArg Roster.rooms hw
  | joining _ _ hw | leaving _ _ hw _ | naming _ _ hw _ _ => exact congrArg Roster.rooms hw
  | settled he _ => rw [hp] at he; cases he

end Midway

/-! ## From read to read -/

theorem nodup_eraseDups : ∀ ids : List String, ids.eraseDups.Nodup
  | [] => List.nodup_nil
  | id :: ids => by
    rw [List.eraseDups_cons, List.nodup_cons]
    exact ⟨by simp [List.mem_eraseDups], nodup_eraseDups _⟩
termination_by ids => ids.length
decreasing_by exact Nat.lt_succ_of_le (List.length_filter_le _ _)

theorem roster_insertRoom {room : Room} {ms : List RoomMember} {w w' : World}
    (h : insertRoom room ms w = .ok w') :
    ∃ t, roster w' = ⟨(roster w).rooms ++ [roomStub room], t⟩ ∧
      t.rows = (roster w).members.rows ++ ms := by
  have hrooms := roomStubs_insertRoom h
  obtain ⟨rooms, members, -, hms, rfl⟩ := insertRoom_ok h
  exact ⟨members, congrArg (Roster.mk · members) hrooms, insertMembers_ok hms⟩

section Reading
variable {c : Choice} {w w' : World} {pc pc' : Pc}

theorem midway_createRoom {creatorId : String} {dto : CreateRoomDto}
    (h : CreateRoomActs c creatorId dto w pc w' pc')
    (hk : Knows (roster w) (.createRoom creatorId dto) pc) :
    Midway (roster w) (.createRoom creatorId dto) w' pc' := by
  cases h with
  | refused => exact .settled rfl .unchanged
  | group _ hpc => rcases hpc with rfl | ⟨i, rfl⟩ <;> exact .reading rfl trivial
  | @existing _ room hm hkey =>
    exact .reading rfl ⟨roomStub room, roomStub_mem hm, rfl, by simp [roomStub, hkey]⟩
  | @insertedDirect room _ _ hf hid htype hkey hins hp =>
    obtain ⟨t, hw, ht⟩ := roster_insertRoom hins
    rw [← hid] at hf ht
    exact .settled hp (hw ▸ .direct (fun _ hx => ne_of_freshRoomId hf hx) htype ht)
  | @insertedGroup room _ _ hf hid htype hkey hins hp =>
    obtain ⟨t, hw, ht⟩ := roster_insertRoom hins
    rw [← hid] at hf ht
    exact .settled hp (hw ▸ .group (fun _ hx => ne_of_freshRoomId hf hx) htype hkey ht)
  | reactivated hp =>
    obtain ⟨x, hx, rfl, hkey⟩ := hk
    exact .settled hp (.reopened hx hkey)
  | _ => exact .reading rfl trivial

theorem midway_addMembers {r a : String} {userIds : List String}
    (h : AddMembersActs r a userIds w pc w' pc')
    (hk : Knows (roster w) (.addMembers r a userIds) pc) :
    Midway (roster w) (.addMembers r a userIds) w' pc' := by
  cases h with
  | refused => exact .settled rfl .unchanged
  | entered hm => exact .reading rfl ⟨_, hm⟩
  | group ht _ => exact .reading rfl ⟨ht, hk⟩
  | checked => exact .reading rfl hk
  | head => exact .reading rfl hk
  | @existing n _ hl =>
    obtain ⟨hgroup, m, hm⟩ := hk
    rcases hl with hp | ⟨head, u, rest, added, rfl, hsuf, hnot⟩
    · exact .settled hp .unchanged
    · refine .joining rfl rfl rfl hgroup hm (.refl _ _)
        ⟨(nodup_eraseDups _).sublist hsuf.sublist, fun v hv x hx => ?_⟩ hnot
      obtain ⟨hin, hr, hu, hl⟩ := crew_eq_some.1 hx
      have hv' : v ∈ userIds := List.mem_eraseDups.1 (hsuf.subset hv)
      exact ⟨x, by simp [hin, hr, hu, hv'], hu, hl⟩
  | joined => exact hk.elim

theorem midway_updateMemberRole {r a t : String} {role : MemberRole}
    (h : UpdateRoleActs r a t role w pc w' pc')
    (hk : Knows (roster w) (.updateMemberRole r a t role) pc) :
    Midway (roster w) (.updateMemberRole r a t role) w' pc' := by
  cases h with
  | refused => exact .settled rfl .unchanged
  | entered hm => exact .reading rfl ⟨_, hm, rfl⟩
  | group ht => obtain ⟨m, hm, hrole⟩ := hk; exact .reading rfl ⟨ht, m, hm, hrole⟩
  | target hm hne => exact .reading rfl ⟨hk.1, hk.2, hne, _, hm⟩
  | set hs hp =>
    obtain ⟨hgroup, hl, hne, m, hm⟩ := hk
    exact .settled hp (.role hgroup hl hne hm hs)

/-- Nobody else removes an owner. -/
theorem assertMayRemove_owner {a t : String} {role : MemberRole} {m : RoomMember}
    (h : assertMayRemove a role t m = .ok ()) (hm : m.role = .OWNER) : t = a := by
  by_contra hne
  simp only [assertMayRemove, if_neg hne, hm] at h
  split at h <;> cases h

theorem midway_removeMember {r a t : String} (h : RemoveMemberActs c r a t w pc w' pc')
    (hk : Knows (roster w) (.removeMember r a t) pc) :
    Midway (roster w) (.removeMember r a t) w' pc' := by
  cases h with
  | refused => exact .settled rfl .unchanged
  | entered hm => exact .reading rfl ⟨_, hm, rfl⟩
  | room ht => exact .reading rfl ⟨ht, hk⟩
  | target hm hok =>
    obtain ⟨htype, ma, hma, rfl⟩ := hk
    exact .reading rfl ⟨htype, ma, _, hma, hm, rfl, hok⟩
  | left hu hpc =>
    obtain ⟨htype, ma, m, hma, hm, rfl, hok⟩ := hk
    split at hpc
    · rename_i hown
      obtain ⟨howner, rfl⟩ := hown
      obtain rfl := assertMayRemove_owner hok howner
      exact .leaving rfl hpc rfl ⟨htype, ⟨m, hm, howner⟩, _, hu⟩
    · rename_i hown
      exact .settled hpc (.left htype hma hm hok hown hu)
  | chosen => exact hk.elim
  | deserted => exact hk.elim
  | promoted => exact hk.elim
  | unpromoted => exact hk.elim

end Reading

/-! ## From write to write -/

theorem Joining.rest {existing : List RoomMember} {r u : String} {t t' : Table RoomMember}
    {todo rest : List String} {x : RoomMember} (h : Joining existing r t (u :: todo))
    (hcrew : crew t' r = Function.update (crew t r) u (some x)) (hsuf : rest <:+ todo) :
    Joining existing r t' rest := by
  obtain ⟨hnot, hnodup⟩ := List.nodup_cons.1 h.nodup
  refine ⟨hnodup.sublist hsuf.sublist, fun v hv m hm => ?_⟩
  have hvu : v ≠ u := by rintro rfl; exact hnot (hsuf.subset hv)
  rw [hcrew, Function.update_of_ne hvu] at hm
  exact h.known v (List.mem_cons_of_mem _ (hsuf.subset hv)) m hm

/-- A request keeps to its way. -/
theorem midway_step {json : Json} {S : Roster} {c : Choice} {call : Call} {w w' : World}
    {pc pc' : Pc} (hm : Midway S call w pc) (h : step json c call w pc = some (w', pc')) :
    Midway S call w' pc' := by
  cases hm with
  | reading hw hk =>
    subst hw
    rcases step_cases h with ⟨-, hp, hkept⟩ | ha
    · exact .settled hp (hkept.roster ▸ .unchanged)
    · cases call with
      | createRoom creatorId dto => exact midway_createRoom ha hk
      | addMembers r a userIds => exact midway_addMembers ha hk
      | updateMemberRole r a t role => exact midway_updateMemberRole ha hk
      | removeMember r a t => exact midway_removeMember ha hk
  | @joining r a userIds head existing u todo added t m hc hp hw hgroup hm hj hto hnext =>
    subst hc hp
    rcases step_cases h with ⟨hp, -⟩ | ha
    · cases hp
    obtain ⟨hrooms, rfl⟩ := Roster.mk.inj hw
    cases ha with
    | refused => exact .settled rfl (hw ▸ .joined hgroup hm hj)
    | @joined _ _ _ _ _ t' _ hjoin hl =>
      have hj' := hj.trans (joined_joinMember hjoin (hto.absent hnext))
      have hw' : roster { w with db.roomMembers := t' } = ⟨S.rooms, t'⟩ := by rw [← hrooms]; rfl
      rcases hl with hp | ⟨head, v, rest, added, rfl, hsuf, hnext'⟩
      · exact .settled hp (hw' ▸ .joined hgroup hm hj')
      · obtain ⟨x, -, hcrew⟩ := crew_joinMember hjoin
        exact .joining rfl rfl hw' hgroup hm hj' (hto.rest hcrew hsuf) hnext'
  | @leaving r a t hc hp hw hd =>
    subst hc hp
    rcases step_cases h with ⟨hp, -⟩ | ha
    · cases hp
    obtain ⟨hrooms, rfl⟩ := Roster.mk.inj hw
    cases ha with
    | refused h₁ => exact absurd rfl h₁
    | chosen hperm hsorted hs => exact .naming rfl rfl hw hd ⟨_, hperm, hsorted, hs⟩
    | deserted hnone hp => exact .settled hp (hw ▸ .deserted hd hnone)
  | @naming r a t next hc hp hw hd he =>
    subst hc hp
    rcases step_cases h with ⟨hp, -⟩ | ha
    · cases hp
    obtain ⟨hrooms, rfl⟩ := Roster.mk.inj hw
    cases ha with
    | refused _ h₂ => exact absurd rfl (h₂ _)
    | @promoted _ t' _ hu hp =>
      refine .settled hp ?_
      rw [show roster { w with db.roomMembers := t' } = ⟨S.rooms, t'⟩ by rw [← hrooms]; rfl]
      exact .succeeded hd he hu
    | unpromoted hu => exact absurd hu (updateMember_ne_none he.active _)
  | settled hp he =>
    obtain ⟨hkept, hp'⟩ := step_past h hp
    exact .settled hp' (hkept.roster ▸ he)

theorem knows_start (S : Roster) (call : Call) : Knows S call (start call) := by
  cases call with
  | createRoom creatorId dto =>
    rcases createStart_cases creatorId dto with h | ⟨e, h⟩ <;> rw [start, h] <;> trivial
  | _ => trivial

/-- At its end a request has had one of its effects. -/
theorem Midway.effect {S : Roster} {call : Call} {w : World} {x : Except Failure (Option RoomView)}
    (h : Midway S call w (.done x)) : Effect S call (roster w) := by
  cases h with
  | reading hw _ => exact hw ▸ .unchanged
  | joining _ hp => cases hp
  | leaving _ hp => cases hp
  | naming _ hp => cases hp
  | settled _ he => exact he

/-- The request has run from its start to its end, alone. -/
def Complete (json : Json) (call : Call) (w w' : World) : Prop :=
  ∃ x, Solo (machine json) call w (start call) w' (.done x)

/-- **A request is one of its effects.** -/
theorem effect_of_complete {json : Json} {call : Call} {w w' : World}
    (h : Complete json call w w') : Effect (roster w) call (roster w') := by
  obtain ⟨x, h⟩ := h
  have hm : Midway (roster w) call w' (.done x) :=
    h.invariant (fun w₁ : World => Midway (roster w) call w₁)
      (.reading rfl (knows_start _ _)) midway_step fun _ _ _ hm => hm.congr rfl
  exact hm.effect

end Intaktok.Rooms
