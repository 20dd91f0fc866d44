import Intaktok.Media.Service
import Intaktok.Rooms.Service
/-
# `ProfileService` cut at its await points

| here | there |
| --- | --- |
| `CreateProfileDto`, `UpdateProfileDto` | `profile/dto/profile.dto.ts`; a field is absent, null or a value (`@IsOptional` lets null through) |
| `createStep` | `create` (`profile.service.ts:16`) |
| `updateStep` | `update` (`:42`) |
| `Pc.resolve` | the `resolveAvatarUrl` at the end of both |
-/

namespace Intaktok.ProfileService

open Interleave Tables

structure CreateProfileDto where
  nickname : String
  statusMessage : Option String := none
  avatarMediaId : Option String := none
deriving DecidableEq, Repr

structure UpdateProfileDto where
  nickname : Option (Option String) := none
  statusMessage : Option (Option String) := none
  avatarMediaId : Option (Option String) := none
deriving DecidableEq, Repr

inductive Call where
  | create (userId : String) (dto : CreateProfileDto)
  | update (userId : String) (dto : UpdateProfileDto)
deriving DecidableEq, Repr

abbrev Result := Except Failure (Profile × Option MediaService.Url)

inductive Pc where
  | existing
  | avatar (mediaId : String)
  | write
  | resolve (profile : Profile) (mediaId : String)
  | done (r : Result)

def Pc.fail (e : AppException) : Pc := .done (.error (.app e))

/-- The media a request names as avatar, `none` where `assertOwnedMediaOrNull` has nothing to do. -/
def Call.media : Call → Option String
  | .create _ dto => truthy dto.avatarMediaId
  | .update _ dto => truthy (dto.avatarMediaId.getD none)

/-- On to the avatar, if one is named. -/
def afterExisting (call : Call) : Pc :=
  match call.media with
  | some mediaId => .avatar mediaId
  | none => .write

/-- What follows the write. -/
def afterWrite (profile : Profile) : Pc :=
  match truthy profile.avatarMediaId with
  | some mediaId => .resolve profile mediaId
  | none => .done (.ok (profile, none))

/-- The `update` of the upsert, which sets all that its `create` does. -/
def CreateProfileDto.apply (dto : CreateProfileDto) (now : Nat) (row : Profile) : Profile :=
  { row with
    nickname := dto.nickname
    statusMessage := dto.statusMessage
    avatarMediaId := dto.avatarMediaId
    onboardedAt := some now }

/-- The `data` of the write: only the fields the request names. -/
def UpdateProfileDto.apply (dto : UpdateProfileDto) (row : Profile) : Profile :=
  { row with
    nickname := (dto.nickname.getD none).getD row.nickname
    statusMessage := dto.statusMessage.getD row.statusMessage
    avatarMediaId := dto.avatarMediaId.getD row.avatarMediaId }

def updateProfile (t : Table Profile) (userId : String) (f : Profile → Profile)
    (keeps : ∀ p, (f p).userId = p.userId) : Table Profile :=
  t.updateWhere (·.userId == userId) f fun _ a b => by simp [Row.clash, keeps a]

def createStep (userId : String) (dto : CreateProfileDto) (w : World) :
    Pc → Option (World × Pc)
  | .existing =>
    some (w, if (w.db.profiles.find (·.userId == userId)).any (·.onboardedAt.isSome) then
        .fail (Errors.conflict "이미 온보딩이 완료된 사용자입니다.")
      else afterExisting (.create userId dto))
  | .write =>
    match w.db.profiles.find (·.userId == userId) with
    | some row =>
      let t := updateProfile w.db.profiles userId (dto.apply w.now) fun _ => rfl
      some ({ w with db.profiles := t }, afterWrite (dto.apply w.now row))
    | none =>
      let row : Profile :=
        { userId, nickname := dto.nickname, statusMessage := dto.statusMessage,
          avatarMediaId := dto.avatarMediaId, onboardedAt := some w.now }
      match w.db.profiles.insert row with
      | .error _ => some (w, .done (.error (.uniqueConstraint ["userId"])))
      | .ok t =>
        if w.db.users.rows.any (·.id == userId) then
          some ({ w with db.profiles := t }, afterWrite row)
        else some (w, .done (.error .foreignKey))
  | _ => none

def updateStep (userId : String) (dto : UpdateProfileDto) (w : World) : Pc → Option (World × Pc)
  | .existing =>
    some (w, if (w.db.profiles.find (·.userId == userId)).isNone then
        .fail (Errors.notFound "프로필을 찾을 수 없습니다.")
      else afterExisting (.update userId dto))
  | .write =>
    -- the column is not nullable
    if dto.nickname = some none then some (w, .done (.error .invalidValue))
    else match w.db.profiles.find (·.userId == userId) with
      | none => some (w, .done (.error .recordNotFound))
      | some row =>
        let t := updateProfile w.db.profiles userId dto.apply fun _ => rfl
        some ({ w with db.profiles := t }, afterWrite (dto.apply row))
  | _ => none

def Call.userId : Call → String
  | .create userId _ | .update userId _ => userId

def step (cfg : AppConfig) (call : Call) (w : World) (pc : Pc) : Option (World × Pc) :=
  match pc with
  | .avatar mediaId =>
    some (w, match MediaService.assertOwnedMedia w.db mediaId call.userId with
      | .ok () => .write
      | .error e => .fail e)
  | .resolve profile mediaId =>
    some (w, .done (.ok (profile, MediaService.resolveAvatarUrl cfg w.db mediaId)))
  | pc => match call with
    | .create userId dto => createStep userId dto w pc
    | .update userId dto => updateStep userId dto w pc

/-- Only time passes by itself. -/
def machine (cfg : AppConfig) : Machine World Call Pc Choice Nat where
  start _ := .existing
  step _ := step cfg
  env := World.tick

end Intaktok.ProfileService
