import Intaktok.Realtime.RestRoutes
/-
# The guards of the controllers

| here | there |
| --- | --- |
| `isAdminIdentity` | `common/admin.util.ts:11` |
| `requireAdmin` | `AdminGuard.canActivate` (`common/guards/admin.guard.ts:22`) |
| `Guard.check` | what stands behind `JwtAuthGuard` in a `@UseGuards`; `OnboardedGuard` and `RoomMemberGuard` are `requireOnboarded` and `Rooms.canActivate` |
| `Thrown` | what a guard, a pipe or a handler throws |

`JwtAuthGuard` reads twice, the clock and the account, and is a part of the request in `Front.lean`.
-/

namespace Intaktok.Http

open Tables

/-! ## Who is an admin -/

def isAdminIdentity (adminIds : List String) (userId : String) (kakaoId : Option String) : Bool :=
  if adminIds.isEmpty || userId == "" then false
  else adminIds.contains userId || (truthy kakaoId).any adminIds.contains

def requireAdmin (adminIds : List String) (db : Db) (userId : String) : Option AppException :=
  let forbidden := Errors.forbidden "관리자 권한이 필요합니다."
  if userId == "" || adminIds.isEmpty then some forbidden
  else if isAdminIdentity adminIds userId none then none
  else
    let dbUser := db.users.find (·.id == userId)
    if isAdminIdentity adminIds userId (dbUser.map (·.kakaoId)) then none else some forbidden

/-- The caller, or the Kakao account behind his, is among `ADMIN_USER_IDS`. -/
def IsAdmin (adminIds : List String) (db : Db) (userId : String) : Prop :=
  userId ≠ "" ∧ (userId ∈ adminIds ∨
    ∃ user ∈ db.users.rows, user.id = userId ∧ user.kakaoId ≠ "" ∧ user.kakaoId ∈ adminIds)

theorem isAdminIdentity_iff {adminIds : List String} {userId : String} {kakaoId : Option String} :
    isAdminIdentity adminIds userId kakaoId = true ↔ userId ≠ "" ∧
      (userId ∈ adminIds ∨ ∃ k, kakaoId = some k ∧ k ≠ "" ∧ k ∈ adminIds) := by
  unfold isAdminIdentity
  split
  · rename_i h
    simp only [Bool.or_eq_true, List.isEmpty_iff, beq_iff_eq] at h
    rcases h with rfl | rfl <;> simp
  · rename_i h
    simp only [Bool.or_eq_true, List.isEmpty_iff, beq_iff_eq, not_or] at h
    simp only [Bool.or_eq_true, List.contains_iff_mem, Option.any_eq_true, truthy_eq_some,
      ne_eq, h.2, not_false_eq_true, true_and, and_assoc]

theorem find_user {db : Db} {user : User} (h : user ∈ db.users.rows) :
    db.users.find (·.id == user.id) = some user :=
  Table.find_eq h (beq_self_eq_true _) fun _ hy hid => users_eq_of_id hy h (beq_iff_eq.1 hid)

/-- The guard lets the admins pass. -/
theorem requireAdmin_iff {adminIds : List String} {db : Db} {userId : String} :
    requireAdmin adminIds db userId = none ↔ IsAdmin adminIds db userId := by
  have hfound : ∀ k, (db.users.find (·.id == userId)).map (·.kakaoId) = some k ↔
      ∃ user ∈ db.users.rows, user.id = userId ∧ user.kakaoId = k := by
    intro k
    rw [Option.map_eq_some_iff]
    constructor
    · rintro ⟨user, hf, rfl⟩
      obtain ⟨hmem, hid⟩ := Table.find_some hf
      exact ⟨user, hmem, beq_iff_eq.1 hid, rfl⟩
    · rintro ⟨user, hmem, rfl, rfl⟩
      exact ⟨user, find_user hmem, rfl⟩
  have hdb : isAdminIdentity adminIds userId
      ((db.users.find (·.id == userId)).map (·.kakaoId)) = true ↔ IsAdmin adminIds db userId := by
    rw [isAdminIdentity_iff, IsAdmin]
    simp only [hfound]
    grind
  unfold requireAdmin
  split
  · rename_i h
    refine iff_of_false (nomatch ·) fun hadmin => ?_
    simp only [Bool.or_eq_true, beq_iff_eq, List.isEmpty_iff] at h
    rcases h with h | rfl
    · exact hadmin.1 h
    · rcases hadmin.2 with hmem | ⟨_, -, -, -, hmem⟩ <;> cases hmem
  · split
    · rename_i hfast
      obtain ⟨hne, hmem | ⟨_, hk, -⟩⟩ := isAdminIdentity_iff.1 hfast
      · exact iff_of_true rfl ⟨hne, .inl hmem⟩
      · cases hk
    · rw [← hdb]
      dsimp only
      split <;> rename_i hslow
      · exact iff_of_true rfl hslow
      · exact iff_of_false (nomatch ·) hslow

/-! ## Guards -/

inductive Guard where
  | onboarded | admin | roomMember
deriving DecidableEq, Repr

/-- `none`: the request may pass. -/
def Guard.check (adminIds : List String) (db : Db) (userId roomId : String) :
    Guard → Option AppException
  | .onboarded => Realtime.requireOnboarded db userId
  | .admin => requireAdmin adminIds db userId
  | .roomMember => match Rooms.canActivate db roomId userId with
    | .error e => some e
    | .ok _ => none

inductive Thrown where
  | failure (f : Failure)
  /-- An exception of Nest's own; `errors` is a `message` that is an array. -/
  | builtin (status : Nat) (message : String) (errors : Option (List String))
deriving DecidableEq, Repr

end Intaktok.Http
