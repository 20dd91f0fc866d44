import Intaktok.Auth.Service
/-
# `AdminService.update` cut at its await points

| here | there |
| --- | --- |
| `UpdateWhitelistDto` | `admin/dto/whitelist.dto.ts:25`; a field is absent, null or a value (`@IsOptional` lets null through) |
| `Pc.find`, `Pc.write`, `afterWrite` | `update` (`admin.service.ts:59`) |
| `Pc.linkedUser` … `Pc.revoke` | `enforceBlock` (`:87`) |
| `Pc.suspendedUser`, `Pc.activate` | `reactivate` (`:100`) |
-/

namespace Intaktok.Admin

open Interleave Tables

structure UpdateWhitelistDto where
  status : Option (Option WhitelistStatus) := none
  note : Option (Option String) := none
deriving DecidableEq, Repr

inductive Call where
  | update (id : String) (dto : UpdateWhitelistDto)
deriving DecidableEq, Repr

inductive Pc where
  | find
  | write (existing : Whitelist)
  | linkedUser (updated : Whitelist)
  | suspend (updated : Whitelist) (user : User)
  | revoke (updated : Whitelist) (userId : String) (sweep : Sweep)
  | suspendedUser (updated : Whitelist)
  | activate (updated : Whitelist) (user : User)
  | done (r : Except Failure Whitelist)

/-- The `data` of the write: only the fields the request names. -/
def UpdateWhitelistDto.apply (dto : UpdateWhitelistDto) (row : Whitelist) : Whitelist :=
  { row with
    status := (dto.status.getD none).getD row.status
    note := dto.note.getD row.note }

def updateWhitelist (t : Table Whitelist) (id : String) (dto : UpdateWhitelistDto) :
    Table Whitelist :=
  t.updateWhere (·.id == id) dto.apply (fun c _ _ => by cases c <;> rfl)

/-- Where `update` goes once the row is written. -/
def afterWrite (dto : UpdateWhitelistDto) (existing updated : Whitelist) : Pc :=
  match dto.status, truthy updated.kakaoId with
  | some (some .BLOCKED), some _ => .linkedUser updated
  | some (some .INVITED), some _ | some (some .ACTIVE), some _ =>
    if existing.status = .BLOCKED then .suspendedUser updated else .done (.ok updated)
  | _, _ => .done (.ok updated)

def updateStep (c : Choice) (id : String) (dto : UpdateWhitelistDto) (w : World) :
    Pc → Option (World × Pc)
  | .find =>
    match w.db.whitelist.find (·.id == id) with
    | none => some (w, .done (.error (.app (Errors.notFound "화이트리스트 항목을 찾을 수 없습니다."))))
    | some existing => some (w, .write existing)
  | .write existing =>
    -- the column is not nullable
    if dto.status = some none then some (w, .done (.error .invalidValue))
    else match w.db.whitelist.find (·.id == id) with
      | none => some (w, .done (.error .recordNotFound))
      | some row =>
        some ({ w with db.whitelist := updateWhitelist w.db.whitelist id dto },
          afterWrite dto existing (dto.apply row))
  | .linkedUser updated =>
    match w.db.users.find (some ·.kakaoId == updated.kakaoId) with
    | none => some (w, .done (.ok updated))
    | some user => some (w, .suspend updated user)
  | .suspend updated user =>
    if w.db.users.rows.any (·.id == user.id) then
      some ({ w with db.users := Auth.setUserStatus w.db.users (·.id == user.id) .SUSPENDED },
        .revoke updated user.id .scan)
    else some (w, .done (.error .recordNotFound))
  | .revoke updated userId sweep =>
    (sweepStep c (Auth.sessionPattern userId) w sweep).map fun
      | (w', some sweep') => (w', .revoke updated userId sweep')
      | (w', none) => (w'.emit (.sessionRevoked userId), .done (.ok updated))
  | .suspendedUser updated =>
    match w.db.users.find (some ·.kakaoId == updated.kakaoId) with
    | some user =>
      some (w, if user.status = .SUSPENDED then .activate updated user else .done (.ok updated))
    | none => some (w, .done (.ok updated))
  | .activate updated user =>
    if w.db.users.rows.any (·.id == user.id) then
      some ({ w with db.users := Auth.setUserStatus w.db.users (·.id == user.id) .ACTIVE },
        .done (.ok updated))
    else some (w, .done (.error .recordNotFound))
  | .done _ => none

def step (c : Choice) (call : Call) (w : World) (pc : Pc) : Option (World × Pc) :=
  match call with
  | .update id dto => updateStep c id dto w pc

/-- Only time passes by itself. -/
def machine : Machine World Call Pc Choice Nat where
  start _ := .find
  step := step
  env := World.tick

/-! ## What one action does -/

/-- Every action of an update, as a relation. -/
inductive Acts (c : Choice) (w : World) (id : String) (dto : UpdateWhitelistDto) :
    Pc → World → Pc → Prop
  | missing (e : AppException) : w.db.whitelist.find (·.id == id) = none →
      Acts c w id dto .find w (.done (.error (.app e)))
  | found {existing} : w.db.whitelist.find (·.id == id) = some existing →
      Acts c w id dto .find w (.write existing)
  | nullStatus {existing} : dto.status = some none →
      Acts c w id dto (.write existing) w (.done (.error .invalidValue))
  | gone {existing} : w.db.whitelist.find (·.id == id) = none →
      Acts c w id dto (.write existing) w (.done (.error .recordNotFound))
  | write {existing row} : w.db.whitelist.find (·.id == id) = some row →
      Acts c w id dto (.write existing)
        { w with db.whitelist := updateWhitelist w.db.whitelist id dto }
        (afterWrite dto existing (dto.apply row))
  | unlinked {updated} : w.db.users.find (some ·.kakaoId == updated.kakaoId) = none →
      Acts c w id dto (.linkedUser updated) w (.done (.ok updated))
  | linked {updated user} : w.db.users.find (some ·.kakaoId == updated.kakaoId) = some user →
      Acts c w id dto (.linkedUser updated) w (.suspend updated user)
  | suspend {updated user} : Acts c w id dto (.suspend updated user)
      { w with db.users := Auth.setUserStatus w.db.users (·.id == user.id) .SUSPENDED }
      (.revoke updated user.id .scan)
  | noUser {updated user} : w.db.users.rows.any (·.id == user.id) = false →
      Acts c w id dto (.suspend updated user) w (.done (.error .recordNotFound))
  | sweep {updated userId sw sw' w'} :
      sweepStep c (Auth.sessionPattern userId) w sw = some (w', some sw') →
      Acts c w id dto (.revoke updated userId sw) w' (.revoke updated userId sw')
  | swept {updated userId sw w'} :
      sweepStep c (Auth.sessionPattern userId) w sw = some (w', none) →
      Acts c w id dto (.revoke updated userId sw) (w'.emit (.sessionRevoked userId))
        (.done (.ok updated))
  | suspended {updated user} : w.db.users.find (some ·.kakaoId == updated.kakaoId) = some user →
      user.status = .SUSPENDED →
      Acts c w id dto (.suspendedUser updated) w (.activate updated user)
  | notSuspended {updated} : Acts c w id dto (.suspendedUser updated) w (.done (.ok updated))
  | activate {updated user} : Acts c w id dto (.activate updated user)
      { w with db.users := Auth.setUserStatus w.db.users (·.id == user.id) .ACTIVE }
      (.done (.ok updated))
  | activateNoUser {updated user} :
      Acts c w id dto (.activate updated user) w (.done (.error .recordNotFound))

theorem acts_of_step {c : Choice} {id : String} {dto : UpdateWhitelistDto} {w w' : World}
    {pc pc' : Pc} (h : step c (.update id dto) w pc = some (w', pc')) :
    Acts c w id dto pc w' pc' := by
  cases pc <;> simp only [step, updateStep] at h
  case find =>
    split at h
    · rename_i hf; cases h; exact .missing _ hf
    · rename_i existing hf; cases h; exact .found hf
  case write existing =>
    split at h
    · rename_i hn; cases h; exact .nullStatus hn
    · split at h
      · rename_i hf; cases h; exact .gone hf
      · rename_i row hf; cases h; exact .write hf
  case linkedUser updated =>
    split at h
    · rename_i hf; cases h; exact .unlinked hf
    · rename_i user hf; cases h; exact .linked hf
  case suspend updated user =>
    split at h
    · cases h; exact .suspend
    · rename_i hno; cases h; exact .noUser (by simpa using hno)
  case revoke updated userId sw =>
    obtain ⟨⟨w₁, n⟩, hs, he⟩ := Option.map_eq_some_iff.1 h
    cases n with
    | none => cases he; exact .swept hs
    | some sw' => cases he; exact .sweep hs
  case suspendedUser updated =>
    split at h
    · rename_i user hf
      cases h
      split
      · rename_i hsus; exact .suspended hf hsus
      · exact .notSuspended
    · cases h; exact .notSuspended
  case activate updated user =>
    split at h
    · cases h; exact .activate
    · cases h; exact .activateNoUser
  case done r => cases h

end Intaktok.Admin
