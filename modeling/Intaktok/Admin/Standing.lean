import Intaktok.Admin.Service
import Intaktok.Auth.Accounts
/-
# Who changes the status of an account

`standing` is the status of the account behind a Kakao id. Three actions write it: the transaction
of `kakaoLogin`, and in `AdminService.update` the two updates of `enforceBlock` and `reactivate`,
which name the account by the id of a user read before.
-/

namespace Intaktok.Admin

open Interleave Tables

def standing (db : Db) (kakaoId : String) : Option UserStatus :=
  (db.users.find (·.kakaoId == kakaoId)).map (·.status)

theorem standing_of_users {db db' : Db} (h : db'.users = db.users) (k : String) :
    standing db' k = standing db k := by rw [standing, standing, h]

/-- Setting the status of one user changes the standing of his account. -/
theorem standing_setUserStatus {w : World} {uid k : String} {status : UserStatus} :
    standing { w.db with users := Auth.setUserStatus w.db.users (·.id == uid) status } k =
      standing w.db k ∨
    (uid, k) ∈ Auth.userKeys w ∧
      standing { w.db with users := Auth.setUserStatus w.db.users (·.id == uid) status } k =
        some status := by
  have hfind := Table.find_updateWhere w.db.users (·.id == uid) (·.kakaoId == k)
    (fun u => { u with status := status }) (fun c _ _ => by cases c <;> rfl) fun _ => rfl
  change (Auth.setUserStatus w.db.users (·.id == uid) status).find _ = _ at hfind
  simp only [standing, hfind]
  cases hf : w.db.users.find (·.kakaoId == k) with
  | none => exact .inl rfl
  | some u =>
    obtain ⟨hmem, hk⟩ := Table.find_some hf
    simp only [Option.map_some]
    split
    · rename_i hid
      exact .inr ⟨Auth.mem_userKeys.2 ⟨u, hmem, beq_iff_eq.1 hid, beq_iff_eq.1 hk⟩, rfl⟩
    · exact .inl rfl

/-! ## A login -/

theorem standing_of_upsertUser {w w' : World} {kakaoId id : String} {u : User}
    (h : Auth.upsertUser w kakaoId id = some (w', u)) :
    standing w'.db kakaoId = some .ACTIVE ∧
      ∀ k, k ≠ kakaoId → standing w'.db k = standing w.db k := by
  simp only [Auth.upsertUser] at h
  split at h
  · rename_i v hv
    cases h
    have hfind := fun k => Table.find_updateWhere w.db.users (·.kakaoId == kakaoId)
      (·.kakaoId == k) (fun u => { u with status := .ACTIVE }) (fun c _ _ => by cases c <;> rfl)
      fun _ => rfl
    change ∀ k, (Auth.setUserStatus w.db.users _ _).find _ = _ at hfind
    refine ⟨?_, fun k hk => ?_⟩
    · rw [standing, hfind, hv, Option.map_some, if_pos (Table.find_some hv).2]
      rfl
    · rw [standing, hfind, standing]
      cases hf : w.db.users.find (·.kakaoId == k) with
      | none => rfl
      | some x =>
        have hx := beq_iff_eq.1 (Table.find_some hf).2
        rw [Option.map_some, if_neg (by simpa [hx] using hk)]
  · rename_i hv
    split at h
    · rename_i t ht
      split at h <;> cases h
      have hfind := fun k => Table.find_insert ht (·.kakaoId == k)
      refine ⟨?_, fun k hk => ?_⟩
      · rw [standing, hfind, hv, if_pos (beq_self_eq_true _)]
        rfl
      · rw [standing, hfind, if_neg (by simpa using Ne.symm hk), Option.or_none, standing]
    · cases h

/-- The transaction of a login does what its upsert does, or nothing. -/
theorem users_of_enroll {w w' : World} {info : Auth.KakaoUserInfo} {row : Whitelist} {id : String}
    {r : Except Failure User} (h : Auth.enroll w info row id = some (w', r)) :
    w' = w ∨ ∃ w₁ u, Auth.upsertUser w info.kakaoId id = some (w₁, u) ∧
      w'.db.users = w₁.db.users := by
  simp only [Auth.enroll] at h
  split at h
  · cases h
  · rename_i w₁ u hu
    split at h
    · split at h <;> cases h
      · exact .inr ⟨w₁, u, hu, rfl⟩
      · exact .inl rfl
    · cases h
      exact .inr ⟨_, u, hu, rfl⟩

/-- Only the transaction of a login writes, and only the account of the person. -/
theorem standing_of_login {cfg : AppConfig} {c : Choice} {w w' : World} {call : Auth.Call}
    {pc pc' : Auth.Pc} (h : Auth.Acts cfg c w call pc w' pc') (k : String) :
    standing w'.db k = standing w.db k ∨ ∃ info row, call = .kakaoLogin info ∧
      pc = .enroll row ∧ info.kakaoId = k ∧ standing w'.db k = some .ACTIVE := by
  have hwrites : ∀ {info row r}, Auth.enroll w info row c.id = some (w', r) →
      standing w'.db k = standing w.db k ∨
        info.kakaoId = k ∧ standing w'.db k = some .ACTIVE := by
    intro info row r he
    rcases users_of_enroll he with rfl | ⟨w₁, u, hu, husers⟩
    · exact .inl rfl
    · obtain ⟨hmine, hothers⟩ := standing_of_upsertUser hu
      rw [standing_of_users husers]
      by_cases hk : k = info.kakaoId
      · exact .inr ⟨hk.symm, hk ▸ hmine⟩
      · exact .inl (hothers k hk)
  cases h with
  | enroll he | enrollFailed he =>
    exact (hwrites he).imp_right fun ⟨hk, hs⟩ => ⟨_, _, rfl, rfl, hk, hs⟩
  | record hu =>
    obtain ⟨t, rfl⟩ := Auth.upsertAccessRequest_world hu
    exact .inl rfl
  | sweep hs | swept hs =>
    rcases sweepStep_world hs with rfl | ⟨key, rfl⟩ <;> exact .inl rfl
  | _ => exact .inl rfl

/-! ## A block and its end -/

/-- The action that writes the status of a user, and the status. -/
def writesStatus : Pc → Option (User × UserStatus)
  | .suspend _ user => some (user, .SUSPENDED)
  | .activate _ user => some (user, .ACTIVE)
  | _ => none

theorem standing_of_update {c : Choice} {w w' : World} {id : String} {dto : UpdateWhitelistDto}
    {pc pc' : Pc} (h : Acts c w id dto pc w' pc') (k : String) :
    standing w'.db k = standing w.db k ∨ ∃ user status, writesStatus pc = some (user, status) ∧
      (user.id, k) ∈ Auth.userKeys w ∧ standing w'.db k = some status := by
  cases h with
  | suspend | activate =>
    exact standing_setUserStatus.imp_right fun ⟨hk, hs⟩ => ⟨_, _, rfl, hk, hs⟩
  | sweep hs | swept hs =>
    rcases sweepStep_world hs with rfl | ⟨key, rfl⟩ <;> exact .inl rfl
  | _ => exact .inl rfl

/-- An update leaves the columns that name an account alone. -/
theorem userKeys_of_update {c : Choice} {w w' : World} {id : String} {dto : UpdateWhitelistDto}
    {pc pc' : Pc} (h : Acts c w id dto pc w' pc') : Auth.userKeys w' = Auth.userKeys w := by
  cases h with
  | suspend | activate => exact Auth.userKeys_setUserStatus w _ _
  | sweep hs | swept hs =>
    rcases sweepStep_world hs with rfl | ⟨key, rfl⟩ <;> rfl
  | _ => rfl

/-- The entry by which an update is about to look for the user, and what it will set. -/
def seeksUser : Pc → Option (Whitelist × UserStatus)
  | .linkedUser updated => some (updated, .SUSPENDED)
  | .suspendedUser updated => some (updated, .ACTIVE)
  | _ => none

/-- The status a request sets decides what becomes of the account. -/
def UpdateWhitelistDto.Sets (dto : UpdateWhitelistDto) (status : UserStatus) : Prop :=
  dto.status = some (some .BLOCKED) ∧ status = .SUSPENDED ∨
    (dto.status = some (some .INVITED) ∨ dto.status = some (some .ACTIVE)) ∧ status = .ACTIVE

/-- Where an update goes once its row is written. -/
theorem afterWrite_cases {dto : UpdateWhitelistDto} {existing updated : Whitelist} :
    writesStatus (afterWrite dto existing updated) = none ∧
      ∀ u status, seeksUser (afterWrite dto existing updated) = some (u, status) →
        u = updated ∧ dto.Sets status := by
  unfold afterWrite
  split
  · rename_i hs _
    refine ⟨rfl, fun u status h => ?_⟩
    cases h
    exact ⟨rfl, .inl ⟨hs, rfl⟩⟩
  · rename_i hs _
    split
    · refine ⟨rfl, fun u status h => ?_⟩
      cases h
      exact ⟨rfl, .inr ⟨.inl hs, rfl⟩⟩
    · exact ⟨rfl, fun _ _ h => by cases h⟩
  · rename_i hs _
    split
    · refine ⟨rfl, fun u status h => ?_⟩
      cases h
      exact ⟨rfl, .inr ⟨.inr hs, rfl⟩⟩
    · exact ⟨rfl, fun _ _ h => by cases h⟩
  · exact ⟨rfl, fun _ _ h => by cases h⟩

theorem writesStatus_of_step {c : Choice} {w w' : World} {id : String} {dto : UpdateWhitelistDto}
    {pc pc' : Pc} {user : User} {status : UserStatus} (h : Acts c w id dto pc w' pc')
    (hp : writesStatus pc' = some (user, status)) :
    ∃ updated, seeksUser pc = some (updated, status) ∧
      w.db.users.find (some ·.kakaoId == updated.kakaoId) = some user := by
  cases h with
  | linked hf => cases hp; exact ⟨_, rfl, hf⟩
  | suspended hf => cases hp; exact ⟨_, rfl, hf⟩
  | write => rw [afterWrite_cases.1] at hp; cases hp
  | _ => cases hp

theorem seeksUser_of_step {c : Choice} {w w' : World} {id : String} {dto : UpdateWhitelistDto}
    {pc pc' : Pc} {updated : Whitelist} {status : UserStatus} (h : Acts c w id dto pc w' pc')
    (hp : seeksUser pc' = some (updated, status)) :
    dto.Sets status ∧ ∃ row ∈ w.db.whitelist.rows, row.id = id ∧
      row.kakaoId = updated.kakaoId := by
  cases h with
  | @write existing row hf =>
    obtain ⟨hmem, hid⟩ := Table.find_some hf
    obtain ⟨rfl, hsets⟩ := afterWrite_cases.2 _ _ hp
    exact ⟨hsets, row, hmem, beq_iff_eq.1 hid, rfl⟩
  | _ => cases hp

end Intaktok.Admin
