import Mathlib.Data.List.Perm.Subperm
import Intaktok.Rooms.Seats
/-
# Rights

What a request to `RoomsService` looks at before it writes, and what it lets pass: the guard's role
of the actor, the users it is to add, the member it is about. Each check has the places that lie
past it (`AddCleared`, `Call.invited`, `Departing`, …), and a step lemma that says that a request
comes there by the check only.
-/

namespace Intaktok.Rooms

open Tables

/-! ## What is looked at -/

/-- The user has an account that is not suspended. -/
def ActiveUser (db : Db) (userId : String) : Prop :=
  ∃ x ∈ db.users.rows, x.id = userId ∧ x.status = .ACTIVE

/-- Counting the active users with the ids is asking for each of them. -/
theorem active_of_assertActiveUsers {db : Db} {ids : List String}
    (h : assertActiveUsers db ids = .ok ()) {u : String} (hu : u ∈ ids) : ActiveUser db u := by
  unfold assertActiveUsers at h
  dsimp only at h
  split at h
  · cases h
  rename_i hlen
  rw [not_not] at hlen
  have hnodup : ((db.users.findMany fun x =>
      ids.eraseDups.contains x.id && x.status == .ACTIVE).map (·.id)).Nodup :=
    Table.nodup_findMany (c := .id) (by simp [Row.constraints]) fun a b _ _ he => by
      simp [Row.clash, he]
  have hsub : (db.users.findMany fun x =>
      ids.eraseDups.contains x.id && x.status == .ACTIVE).map (·.id) ⊆ ids.eraseDups := by
    intro v hv
    obtain ⟨x, hx, rfl⟩ := List.mem_map.1 hv
    simp only [Table.mem_findMany, Bool.and_eq_true, List.contains_iff_mem] at hx
    exact hx.2.1
  have hperm := (List.Nodup.subperm hnodup hsub).perm_of_length_le (by rw [List.length_map, hlen])
  obtain ⟨x, hx, hid⟩ := List.mem_map.1 (hperm.mem_iff.2 (List.mem_eraseDups.2 hu))
  simp only [Table.mem_findMany, Bool.and_eq_true, beq_iff_eq] at hx
  exact ⟨x, hx.1, hid, hx.2.2⟩

/-- Whom a request makes members, from where `assertActiveUsers` has found them on. -/
def Call.invited : Call → Pc → List String
  | .createRoom a dto, .directRoom | .createRoom a dto, .insertDirect
  | .createRoom a dto, .winner _ | .createRoom a dto, .reactivate _ => [a, dto.otherId]
  | .createRoom a dto, .avatar _ | .createRoom a dto, .insertGroup => dto.memberIds a
  | .addMembers _ _ userIds, .head | .addMembers _ _ userIds, .existing _
  | .addMembers _ _ userIds, .write _ _ _ _ => userIds
  | _, _ => []

theorem invited_of_past {call : Call} {pc : Pc} (h : past pc = true) : call.invited pc = [] := by
  cases call <;> cases pc <;> first | rfl | cases h

theorem active_of_step {json : Messages.Json} {c : Choice} {call : Call} {w w' : World} {pc' : Pc}
    (h : step json c call w .activeUsers = some (w', pc')) {u : String}
    (hu : u ∈ call.invited pc') : ActiveUser w.db u := by
  have hcheck : ∀ {ids next}, u ∈ call.invited (orFail (assertActiveUsers w.db ids) next) →
      (u ∈ call.invited (next ()) → u ∈ ids) → ActiveUser w.db u := by
    intro ids next hu hids
    cases hactive : assertActiveUsers w.db ids with
    | error e =>
      rw [hactive, invited_of_past rfl] at hu
      cases hu
    | ok _ =>
      rw [hactive] at hu
      exact active_of_assertActiveUsers hactive (hids hu)
  cases call with
  | createRoom a dto =>
    cases h
    cases htype : dto.type with
    | DIRECT =>
      rw [htype] at hu
      exact hcheck hu id
    | GROUP =>
      rw [htype] at hu
      refine hcheck hu fun hu => ?_
      split at hu <;> exact hu
  | addMembers r a userIds => cases h; exact hcheck hu id
  | updateMemberRole => cases h
  | removeMember => cases h

/-- `assertMayRemove` lets people go, and lets higher ranks remove lower ones. -/
def Outranks (a t : MemberRole) : Prop :=
  a = .OWNER ∧ t ≠ .OWNER ∨ a = .ADMIN ∧ t = .MEMBER

theorem outranks_of_assertMayRemove {actorId targetUserId : String} {actorRole : MemberRole}
    {target : RoomMember} (h : assertMayRemove actorId actorRole targetUserId target = .ok ()) :
    targetUserId = actorId ∨ Outranks actorRole target.role := by
  unfold assertMayRemove at h
  split at h
  · exact .inl ‹_›
  · rename_i hne
    refine .inr ?_
    split at h
    · cases h
    · split at h
      · cases h
      · split at h
        · cases h
        · rename_i hm ho ha
          cases hr : actorRole with
          | OWNER => exact .inl ⟨rfl, ho⟩
          | MEMBER => exact absurd hr hm
          | ADMIN =>
            refine .inr ⟨rfl, ?_⟩
            cases ht : target.role with
            | OWNER => exact absurd ht ho
            | ADMIN => exact absurd ⟨hr, ht⟩ ha
            | MEMBER => rfl

/-! ## Checkpoints -/

/-- The guard of the request finds `a` in the room, in a role with `ρ`. -/
def GuardFinds (r a : String) (ρ : MemberRole → Prop) (w : World) (pc : Pc) : Prop :=
  pc = .guard ∧ ∃ role, seat w.db r a = some role ∧ ρ role

/-- The request is about `t`, and finds him in the room, in a role with `ρ`. -/
def TargetFinds (r t : String) (ρ : MemberRole → MemberRole → Prop) (w : World) (pc : Pc) : Prop :=
  ∃ actorRole type, pc = .target actorRole type ∧
    ∃ role, seat w.db r t = some role ∧ ρ actorRole role

theorem guardFinds_of_crew {w : World} {r a : String} {m : RoomMember} {ρ : MemberRole → Prop}
    (hm : crew w.db.roomMembers r a = some m) (hρ : ρ m.role) : GuardFinds r a ρ w .guard :=
  ⟨rfl, m.role, by rw [seat, hm]; rfl, hρ⟩

theorem targetFinds_of_crew {w : World} {r t : String} {m : RoomMember} {actorRole : MemberRole}
    {type : RoomType} {ρ : MemberRole → MemberRole → Prop}
    (hm : crew w.db.roomMembers r t = some m) (hρ : ρ actorRole m.role) :
    TargetFinds r t ρ w (.target actorRole type) :=
  ⟨actorRole, type, rfl, m.role, by rw [seat, hm]; rfl, hρ⟩

/-- Once it has written a request passes no checkpoint. -/
theorem passed_of_acts {json : Messages.Json} {call : Call} {p : Pc → Prop}
    {φ : World → Pc → Prop} (hpast : ∀ pc, p pc → past pc = false)
    (hacts : ∀ {c w w' pc pc'}, Acts c call w pc w' pc' → ¬ past pc' = true → p pc' →
      p pc ∨ φ w pc)
    {c : Choice} {w w' : World} {pc pc' : Pc} (h : step json c call w pc = some (w', pc'))
    (hp : p pc') : p pc ∨ φ w pc := by
  have hno : ¬ past pc' = true := by rw [hpast pc' hp]; exact Bool.false_ne_true
  exact hacts ((step_cases h).resolve_left fun hk => hno hk.2.1) hno hp

def InCharge (role : MemberRole) : Prop := role = .OWNER ∨ role = .ADMIN

/-- `addMembers` has found its actor in charge. -/
def AddCleared : Pc → Prop
  | .room role => InCharge role
  | .activeUsers | .head | .existing _ | .write _ _ _ _ => True
  | _ => False

/-- `updateMemberRole` has found its actor to be the owner. -/
def RoleCleared : Pc → Prop
  | .room role => role = .OWNER
  | .target _ _ | .setRole => True
  | _ => False

/-- `removeMember` has found its actor in the role. -/
def RemoveCleared (role : MemberRole) : Pc → Prop
  | .room role' | .target role' _ => role' = role
  | _ => False

theorem not_past_of {passed : Pc → Prop} (htail : ∀ r task todo pc result,
    ¬ passed (.tail r task todo pc result)) (hdone : ∀ x, ¬ passed (.done x)) (pc : Pc)
    (hp : passed pc) : past pc = false := by
  cases pc with
  | tail => exact absurd hp (htail _ _ _ _ _)
  | done => exact absurd hp (hdone _)
  | _ => rfl

/-- The loop of `addMembers` has `u` before it. -/
def Awaits (u : String) : Pc → Prop
  | .write _ _ todo _ => u ∈ todo
  | _ => False

/-- The target of `removeMember` has been found in the role. -/
def Departing (role : MemberRole) : Pc → Prop
  | .leave _ role' => role' = role
  | _ => False

/-- It has been found to be the owner. -/
def Vacating : Pc → Prop
  | .leave _ role => role = .OWNER
  | .candidates | .promote _ => True
  | _ => False

section Steps
variable {json : Messages.Json} {c : Choice} {w w' : World} {pc pc' : Pc} {r a t : String}

theorem addCleared_of_step {userIds : List String}
    (h : step json c (.addMembers r a userIds) w pc = some (w', pc')) (hp : AddCleared pc') :
    AddCleared pc ∨ GuardFinds r a InCharge w pc := by
  refine passed_of_acts (not_past_of (fun _ _ _ _ _ => id) fun _ => id) ?_ h hp
  intro c w w' pc pc' hacts hno hp
  cases (show AddMembersActs r a userIds w pc w' pc' from hacts) with
  | entered hm => exact .inr (guardFinds_of_crew hm hp)
  | group _ hrole => exact .inl hrole
  | refused => exact hp.elim
  | _ => exact .inl trivial

theorem roleCleared_of_step {role : MemberRole}
    (h : step json c (.updateMemberRole r a t role) w pc = some (w', pc')) (hp : RoleCleared pc') :
    RoleCleared pc ∨ GuardFinds r a (· = .OWNER) w pc := by
  refine passed_of_acts (not_past_of (fun _ _ _ _ _ => id) fun _ => id) ?_ h hp
  intro c w w' pc pc' hacts hno hp
  cases (show UpdateRoleActs r a t role w pc w' pc' from hacts) with
  | entered hm => exact .inr (guardFinds_of_crew hm hp)
  | group => exact .inl rfl
  | refused => exact hp.elim
  | _ => exact .inl trivial

theorem removeCleared_of_step {role : MemberRole}
    (h : step json c (.removeMember r a t) w pc = some (w', pc')) (hp : RemoveCleared role pc') :
    RemoveCleared role pc ∨ GuardFinds r a (· = role) w pc := by
  refine passed_of_acts (not_past_of (fun _ _ _ _ _ => id) fun _ => id) ?_ h hp
  intro c w w' pc pc' hacts hno hp
  cases (show RemoveMemberActs c r a t w pc w' pc' from hacts) with
  | entered hm => exact .inr (guardFinds_of_crew hm hp)
  | room => exact .inl hp
  | left hu hpc' =>
    split at hpc'
    · rw [hpc'] at hp
      exact hp.elim
    · exact absurd hpc' hno
  | deserted _ hpc' | promoted _ hpc' =>
    exact absurd hpc' hno
  | _ => exact hp.elim

theorem setRole_of_step {role : MemberRole}
    (h : step json c (.updateMemberRole r a t role) w pc = some (w', pc')) (hp : pc' = .setRole) :
    pc = .setRole ∨ TargetFinds r t (fun _ _ => t ≠ a) w pc := by
  refine passed_of_acts (p := (· = .setRole)) ?_ ?_ h hp
  · rintro _ rfl
    rfl
  intro c w w' pc pc' hacts hno hp
  cases (show UpdateRoleActs r a t role w pc w' pc' from hacts) with
  | target hm hne => exact .inr (targetFinds_of_crew hm hne)
  | set hset hpc' => exact absurd hpc' hno
  | _ => cases hp

theorem departing_of_step {role : MemberRole}
    (h : step json c (.removeMember r a t) w pc = some (w', pc')) (hp : Departing role pc') :
    Departing role pc ∨ TargetFinds r t (fun actorRole role' => role' = role ∧
      (t = a ∨ Outranks actorRole role)) w pc := by
  refine passed_of_acts (not_past_of (fun _ _ _ _ _ => id) fun _ => id) ?_ h hp
  intro c w w' pc pc' hacts hno hp
  cases (show RemoveMemberActs c r a t w pc w' pc' from hacts) with
  | target hm hmay =>
    have hrole : _ = role := hp
    exact .inr (targetFinds_of_crew hm ⟨hrole, hrole ▸ outranks_of_assertMayRemove hmay⟩)
  | left hu hpc' =>
    split at hpc'
    · rw [hpc'] at hp
      exact hp.elim
    · exact absurd hpc' hno
  | deserted _ hpc' | promoted _ hpc' =>
    exact absurd hpc' hno
  | _ => exact hp.elim

/-- Only the owner himself vacates his place. -/
theorem vacating_of_step (h : step json c (.removeMember r a t) w pc = some (w', pc'))
    (hp : Vacating pc') :
    Vacating pc ∨ TargetFinds r t (fun _ role => role = .OWNER ∧ t = a) w pc := by
  refine passed_of_acts (not_past_of (fun _ _ _ _ _ => id) fun _ => id) ?_ h hp
  intro c w w' pc pc' hacts hno hp
  cases (show RemoveMemberActs c r a t w pc w' pc' from hacts) with
  | target hm hmay =>
    have hrole : _ = MemberRole.OWNER := hp
    refine .inr (targetFinds_of_crew hm ⟨hrole, ?_⟩)
    rcases outranks_of_assertMayRemove hmay with hself | ⟨-, hno⟩ | ⟨-, hmember⟩
    · exact hself
    · exact absurd hrole hno
    · rw [hrole] at hmember
      cases hmember
  | left hu hpc' =>
    split at hpc'
    · rename_i howner
      exact .inl howner.1
    · exact absurd hpc' hno
  | chosen => exact .inl trivial
  | deserted _ hpc' | promoted _ hpc' =>
    exact absurd hpc' hno
  | _ => exact hp.elim

theorem mem_of_successor {members : List RoomMember} {m : RoomMember}
    (h : successor members = some m) : m ∈ members := by
  unfold successor at h
  cases hf : members.find? (·.role == .ADMIN) with
  | some x =>
    rw [hf] at h
    cases h
    exact List.mem_of_find?_eq_some hf
  | none =>
    rw [hf] at h
    exact List.mem_of_mem_head? h

/-- The successor is one of the members. -/
theorem promote_of_step {u : String} (h : step json c (.removeMember r a t) w pc = some (w', pc'))
    (hp : pc' = .promote u) :
    pc = .promote u ∨ (pc = .candidates ∧ ∃ role, seat w.db r u = some role) := by
  refine passed_of_acts (p := (· = .promote u))
    (φ := fun w pc => pc = .candidates ∧ ∃ role, seat w.db r u = some role) ?_ ?_ h hp
  · rintro _ rfl
    rfl
  intro c w w' pc pc' hacts hno hp
  cases (show RemoveMemberActs c r a t w pc w' pc' from hacts) with
  | @chosen next hperm _ hnext =>
    cases hp
    have hin := hperm.mem_iff.1 (mem_of_successor hnext)
    simp only [Table.mem_findMany, Bool.and_eq_true, beq_iff_eq, Option.isNone_iff_eq_none] at hin
    refine .inr ⟨rfl, next.role, ?_⟩
    rw [seat, crew_eq_some.2 ⟨hin.1, hin.2.1, rfl, hin.2.2⟩]
    rfl
  | left hu hpc' =>
    rw [hp] at hpc'
    split at hpc' <;> cases hpc'
  | deserted _ hpc' | promoted _ hpc' => exact absurd hpc' hno
  | _ => cases hp

theorem invited_of_step {call : Call} (h : step json c call w pc = some (w', pc')) {u : String}
    (hu : u ∈ call.invited pc') :
    u ∈ call.invited pc ∨ (pc = .activeUsers ∧ ActiveUser w.db u) := by
  have hno : ¬ past pc' = true := by
    intro hpast
    rw [invited_of_past hpast] at hu
    cases hu
  by_cases hat : pc = .activeUsers
  · subst hat
    exact .inr ⟨rfl, active_of_step h hu⟩
  refine .inl ?_
  cases call with
  | createRoom a dto =>
    cases pc with
    | tail => exact absurd (tail_step h).2 hno
    | activeUsers => exact absurd rfl hat
    | directRoom => cases h; split at hu <;> exact hu
    | winner =>
      cases h
      split at hu
      · exact hu
      · cases hu
    | insertDirect =>
      simp only [step, createStep] at h
      split at h
      · split at h <;> cases h
        · exact absurd (past_proceed ..) hno
        · exact hu
        · cases hu
      · cases h
    | reactivate => cases h; exact absurd (past_proceed ..) hno
    | avatar =>
      cases h
      unfold orFail at hu
      split at hu
      · exact hu
      · cases hu
    | insertGroup =>
      simp only [step, createStep] at h
      split at h
      · split at h <;> cases h
        · exact absurd (past_proceed ..) hno
        · cases hu
      · cases h
    | _ => cases h
  | addMembers r₁ a₁ userIds =>
    have hacts : AddMembersActs r₁ a₁ userIds w pc w' pc' :=
      (step_cases h).resolve_left fun hk => hno hk.2.1
    cases hacts with
    | checked => exact absurd rfl hat
    | head => exact hu
    | existing hl | joined _ hl =>
      obtain ⟨_, _, _, _, rfl, -⟩ := hl.resolve_left hno
      exact hu
    | _ => cases hu
  | updateMemberRole | removeMember => cases pc' <;> cases hu

/-- The loop comes to those only whom the request names. -/
theorem awaits_of_step {userIds : List String} {u : String}
    (h : step json c (.addMembers r a userIds) w pc = some (w', pc')) (hp : Awaits u pc') :
    Awaits u pc ∨ u ∈ userIds := by
  refine passed_of_acts (p := Awaits u) (φ := fun _ _ => u ∈ userIds)
    (not_past_of (fun _ _ _ _ _ => id) fun _ => id) ?_ h hp
  intro c w w' pc pc' hacts hno hp
  have hloop : ∀ {existing todo}, Looping existing todo pc' → u ∈ todo := by
    rintro existing todo (hpc' | ⟨head, v, rest, added, rfl, hsuffix, -⟩)
    · exact absurd hpc' hno
    · exact hsuffix.mem hp
  cases (show AddMembersActs r a userIds w pc w' pc' from hacts) with
  | existing hl => exact .inr (List.mem_eraseDups.1 (hloop hl))
  | joined _ hl => exact .inl (List.mem_cons_of_mem _ (hloop hl))
  | _ => exact hp.elim

/-- The room that is reactivated is that of the pair. -/
theorem reactivate_of_step {dto : CreateRoomDto}
    (h : step json c (.createRoom a dto) w pc = some (w', pc')) (hp : pc' = .reactivate r) :
    pc = .reactivate r ∨ ∃ x ∈ w.db.rooms.rows, x.id = r ∧
      x.directKey = some (directKey a dto.otherId) := by
  refine passed_of_acts (p := (· = .reactivate r)) (φ := fun w _ => ∃ x ∈ w.db.rooms.rows,
    x.id = r ∧ x.directKey = some (directKey a dto.otherId)) ?_ ?_ h hp
  · rintro _ rfl
    rfl
  intro c w w' pc pc' hacts hno hp
  cases (show CreateRoomActs c a dto w pc w' pc' from hacts) with
  | @existing _ room hroom hkey =>
    cases hp
    exact .inr ⟨room, hroom, rfl, hkey⟩
  | group _ hpc' =>
    rcases hpc' with rfl | ⟨_, rfl⟩ <;> cases hp
  | insertedDirect _ _ _ _ _ hpc' | reactivated hpc' | insertedGroup _ _ _ _ _ hpc' =>
    exact absurd hpc' hno
  | _ => cases hp

end Steps

end Intaktok.Rooms
