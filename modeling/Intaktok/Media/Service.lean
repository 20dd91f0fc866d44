import Intaktok.World
import Intaktok.Lib.Interleave
/-
# `MediaService` cut at its await points

| here | there |
| --- | --- |
| `Url`, `getReadUrl` | the URLs of `StorageService` (`storage.service.ts:81`); what a presigned one looks like is up to the SDK |
| `extFor`, `isAnimatedMime`, `storageKey` | `media.service.ts:37`, `:41`, `:58` |
| `Call.createUploadUrl`, `Pc.create`, `Pc.uploadUrl` | `createUploadUrl` (`:48`) |
| `Call.complete`, `Pc.find` … `Pc.ready` | `complete` (`:82`) |
| `Call.getMedia`, `Pc.media` … `Pc.roomAvatar` | `getMedia` (`:101`) with `canAccess` (`:119`) |
| `serialize` | `serialize` (`:147`) |
| `assertOwnedMedia` | `assertOwnedMedia` (`:165`) |
| `resolveAvatarUrl`, `resolveAvatarUrls` | `resolveAvatarUrl` (`:186`), and `resolveAvatarUrls` (`:196`) for ids without repetition |
| `Call.putObject` | a client's `PUT` to a presigned upload URL |
-/

namespace Intaktok.MediaService

open Interleave Tables

/-! ## Storage -/

inductive Url where
  | put (key contentType : String)
  | get (key : String)
  | cdn (url : String)
deriving DecidableEq, Repr

/-- `replace(/\/$/, '')`. -/
def stripSlash (s : String) : String := if s.endsWith "/" then (s.dropEnd 1).toString else s

def getReadUrl (cfg : AppConfig) (key : String) : Url :=
  if cfg.cdnBaseUrl = "" then .get key else .cdn (stripSlash cfg.cdnBaseUrl ++ "/" ++ key)

/-- `none` when there is no such object. -/
def headObject (w : World) (key : String) : Option (Option Nat) := w.objects.lookup key

/-! ## Uploads -/

structure CreateUploadUrlDto where
  mimeType : String
  byteSize : Nat
  width : Option Nat := none
  height : Option Nat := none
  durationMs : Option Nat := none
deriving DecidableEq, Repr

/-- The `Int` columns hold the numbers. -/
def CreateUploadUrlDto.storable (dto : CreateUploadUrlDto) : Bool :=
  dto.byteSize < intEnd && dto.width.all (· < intEnd) && dto.height.all (· < intEnd) &&
    dto.durationMs.all (· < intEnd)

def extFor : String → String
  | "image/jpeg" => "jpg"
  | "image/png" => "png"
  | "image/gif" => "gif"
  | "image/webp" => "webp"
  | "image/apng" => "apng"
  | "video/mp4" => "mp4"
  | "video/webm" => "webm"
  | "video/quicktime" => "mov"
  | _ => "bin"

def isAnimatedMime (mime : String) : Bool :=
  ["image/gif", "image/webp", "image/apng"].contains mime || mime.startsWith "video/"

/-- The year and the month of a day since 1970, counted from March on. -/
def utcYearMonth (days : Nat) : Nat × Nat :=
  let z := days + 719468
  let doe := z % 146097
  let yoe := (doe - doe / 1460 + doe / 36524 - doe / 146096) / 365
  let doy := doe - (365 * yoe + yoe / 4 - yoe / 100)
  let mp := (5 * doy + 2) / 153
  let month := if mp < 10 then mp + 3 else mp - 9
  (yoe + z / 146097 * 400 + (if month ≤ 2 then 1 else 0), month)

example : utcYearMonth (1709164800000 / 86400000) = (2024, 2) := by decide

def storageKey (now : Nat) (uuid mimeType : String) : String :=
  let (year, month) := utcYearMonth (now / 86400000)
  "media/" ++ toString year ++ "/" ++ (if month < 10 then "0" else "") ++ toString month ++ "/" ++
    uuid ++ "." ++ extFor mimeType

structure MediaView where
  mediaId : String
  url : Url
  thumbnailUrl : Option Url
  mimeType : String
  isAnimated : Bool
  width : Option Nat
  height : Option Nat
  durationMs : Option Nat
deriving DecidableEq, Repr

def serialize (cfg : AppConfig) (media : Media) (url : Url) : MediaView where
  mediaId := media.id
  url := url
  thumbnailUrl := (truthy media.thumbnailKey).map (getReadUrl cfg)
  mimeType := media.mimeType
  isAnimated := media.isAnimated
  width := media.width
  height := media.height
  durationMs := media.durationMs

def assertOwnedMedia (db : Db) (mediaId userId : String) : Except AppException Unit :=
  match db.media.find (·.id == mediaId) with
  | none => .error (Errors.notFound "미디어를 찾을 수 없습니다.")
  | some m =>
    if m.uploaderId ≠ userId then
      .error (Errors.forbidden "본인이 업로드한 미디어만 사용할 수 있습니다.")
    else .ok ()

def resolveAvatarUrl (cfg : AppConfig) (db : Db) (mediaId : String) : Option Url :=
  (db.media.find (·.id == mediaId)).map fun media => getReadUrl cfg media.storageKey

/-- The media the map has a URL for. -/
def resolveAvatarUrls (db : Db) (ids : List String) : List String :=
  (db.media.findMany fun m => ids.contains m.id).map (·.id)

/-! ## Access -/

/-- The requester is an active member of the room. -/
def inRoom (db : Db) (roomId requesterId : String) : Bool :=
  db.roomMembers.rows.any fun m =>
    m.roomId == roomId && m.userId == requesterId && m.leftAt.isNone

/-- A message with the media in a room of the requester. -/
def sharedMessage (db : Db) (mediaId requesterId : String) : Option Message :=
  db.messages.find fun m => m.mediaId == some mediaId && inRoom db m.roomId requesterId

def asAvatar (db : Db) (mediaId : String) : Option Profile :=
  db.profiles.find (·.avatarMediaId == some mediaId)

def asRoomAvatar (db : Db) (mediaId requesterId : String) : Option Room :=
  db.rooms.find fun r => r.avatarMediaId == some mediaId && inRoom db r.id requesterId

/-! ## The machine -/

inductive Call where
  | createUploadUrl (uploaderId : String) (dto : CreateUploadUrlDto)
  | complete (mediaId requesterId : String)
  | getMedia (mediaId requesterId : String)
  | putObject (storageKey : String) (contentLength : Nat)
deriving DecidableEq, Repr

inductive Result where
  | upload (mediaId : String) (uploadUrl : Url) (storageKey : String)
  | view (media : MediaView)
  | void
deriving DecidableEq, Repr

inductive Pc where
  | create
  | uploadUrl (media : Media)
  | find
  | head (media : Media)
  | ready (media : Media) (contentLength : Option Nat)
  | media
  | message (media : Media)
  | avatar (media : Media)
  | roomAvatar (media : Media)
  | url (media : Media)
  | put
  | done (r : Except Failure Result)

def Pc.fail (e : AppException) : Pc := .done (.error (.app e))

def start (cfg : AppConfig) : Call → Pc
  | .createUploadUrl _ dto =>
    if cfg.mediaMaxBytes < dto.byteSize then
      .fail { Errors.validation "파일 크기가 허용 한도를 초과했습니다." with
        details := [("maxBytes", [toString cfg.mediaMaxBytes])] }
    else .create
  | .complete _ _ => .find
  | .getMedia _ _ => .media
  | .putObject _ _ => .put

/-- A `cuid()` no media has. -/
def freshMediaId (db : Db) (id : String) : Bool :=
  id != "" && isCuid id && !db.media.rows.any (·.id == id)

def createStep (c : Choice) (uploaderId : String) (dto : CreateUploadUrlDto) (w : World) :
    Pc → Option (World × Pc)
  | .create =>
    if !dto.storable then some (w, .done (.error .invalidValue))
    else if freshMediaId w.db c.id && isUuid c.uuid then
      let media : Media :=
        { id := c.id, uploaderId, storageKey := storageKey w.now c.uuid dto.mimeType,
          mimeType := dto.mimeType, byteSize := dto.byteSize, width := dto.width,
          height := dto.height, durationMs := dto.durationMs,
          isAnimated := isAnimatedMime dto.mimeType, createdAt := w.now }
      match w.db.media.insert media with
      -- a `uuidv4()` is drawn once
      | .error _ => none
      | .ok t =>
        if w.db.users.rows.any (·.id == uploaderId) then
          some ({ w with db.media := t }, .uploadUrl media)
        else some (w, .done (.error .foreignKey))
    else none
  | .uploadUrl media =>
    let uploadUrl := .put media.storageKey media.mimeType
    some (w, .done (.ok (.upload media.id uploadUrl media.storageKey)))
  | _ => none

/-- The `data` of the update in `complete`. -/
def setReady (byteSize : Nat) (media : Media) : Media := { media with status := .READY, byteSize }

def updateMedia (t : Table Media) (mediaId : String) (byteSize : Nat) : Table Media :=
  t.updateWhere (·.id == mediaId) (setReady byteSize) fun c _ _ => by cases c <;> rfl

theorem mem_updateMedia {t : Table Media} {mediaId : String} {byteSize : Nat} {x : Media} :
    x ∈ (updateMedia t mediaId byteSize).rows ↔
      ∃ m ∈ t.rows, (if m.id == mediaId then setReady byteSize m else m) = x :=
  List.mem_map

def completeStep (mediaId requesterId : String) (w : World) : Pc → Option (World × Pc)
  | .find => some (w, match w.db.media.find (·.id == mediaId) with
    | none => .fail (Errors.notFound "미디어를 찾을 수 없습니다.")
    | some media => if media.uploaderId ≠ requesterId then .fail Errors.forbidden else .head media)
  | .head media => some (w, match headObject w media.storageKey with
    | none => .fail (Errors.validation "업로드된 객체를 찾을 수 없습니다.")
    | some contentLength => .ready media contentLength)
  | .ready media contentLength =>
    let byteSize := contentLength.getD media.byteSize
    if intEnd ≤ byteSize then some (w, .done (.error .invalidValue))
    else match w.db.media.find (·.id == mediaId) with
    | none => some (w, .done (.error .recordNotFound))
    | some row =>
      some ({ w with db.media := updateMedia w.db.media mediaId byteSize },
        .url (setReady byteSize row))
  | _ => none

def getStep (mediaId requesterId : String) (w : World) : Pc → Option (World × Pc)
  | .media => some (w, match w.db.media.find (·.id == mediaId) with
    | none => .fail (Errors.notFound "미디어를 찾을 수 없습니다.")
    | some media => if media.uploaderId = requesterId then .url media else .message media)
  | .message media =>
    some (w, if (sharedMessage w.db media.id requesterId).isSome then .url media else .avatar media)
  | .avatar media =>
    some (w, if (asAvatar w.db media.id).isSome then .url media else .roomAvatar media)
  | .roomAvatar media =>
    some (w, if (asRoomAvatar w.db media.id requesterId).isSome then .url media
      else .fail (Errors.forbidden "미디어에 접근할 권한이 없습니다."))
  | _ => none

def step (cfg : AppConfig) (c : Choice) (call : Call) (w : World) (pc : Pc) :
    Option (World × Pc) :=
  match call, pc with
  | _, .url media => some (w, .done (.ok (.view (serialize cfg media (.get media.storageKey)))))
  | .createUploadUrl uploaderId dto, pc => createStep c uploaderId dto w pc
  | .complete mediaId requesterId, pc => completeStep mediaId requesterId w pc
  | .getMedia mediaId requesterId, pc => getStep mediaId requesterId w pc
  | .putObject key contentLength, .put =>
    if w.db.media.rows.any (·.storageKey == key) then
      some ({ w with objects := (key, some contentLength) :: w.objects }, .done (.ok .void))
    else none
  | _, _ => none

/-- Only time passes by itself. -/
def machine (cfg : AppConfig) : Machine World Call Pc Choice Nat where
  start := start cfg
  step := step cfg
  env := World.tick

/-! ## What an action does -/

/-- The row a completion has read. -/
def Pc.seen : Pc → Option Media
  | .head m => some m
  | .ready m _ => some m
  | _ => none

/-- What an action does to the media and to what is known of them. -/
inductive Acts (w : World) : Call → Pc → World → Pc → Prop
  | aside {call : Call} {pc pc' : Pc} (objects : List (String × Option Nat))
      (hready : ∀ media contentLength, pc ≠ .ready media contentLength) (hseen : pc'.seen = none)
      (hcreate : pc' ≠ .create) : Acts w call pc { w with objects := objects } pc'
  | created {uploaderId : String} {dto : CreateUploadUrlDto} {media : Media} {t : Table Media}
      (hid : media.id ≠ "") (hsize : media.byteSize = dto.byteSize)
      (hstatus : media.status = .PENDING) (hins : w.db.media.insert media = .ok t) :
      Acts w (.createUploadUrl uploaderId dto) .create { w with db.media := t } (.uploadUrl media)
  | found {mediaId requesterId : String} {media : Media}
      (hfind : w.db.media.find (·.id == mediaId) = some media) :
      Acts w (.complete mediaId requesterId) .find w (.head media)
  | measured {mediaId requesterId : String} {media : Media} (contentLength : Option Nat) :
      Acts w (.complete mediaId requesterId) (.head media) w (.ready media contentLength)
  | refused {mediaId requesterId : String} {media : Media} {contentLength : Option Nat}
      {e : Failure} (h : intEnd ≤ contentLength.getD media.byteSize ∨
        w.db.media.find (·.id == mediaId) = none) :
      Acts w (.complete mediaId requesterId) (.ready media contentLength) w (.done (.error e))
  | completed {mediaId requesterId : String} {media row : Media} {contentLength : Option Nat}
      (hfits : contentLength.getD media.byteSize < intEnd)
      (hfind : w.db.media.find (·.id == mediaId) = some row) :
      Acts w (.complete mediaId requesterId) (.ready media contentLength)
        { w with
          db.media := updateMedia w.db.media mediaId (contentLength.getD media.byteSize) }
        (.url (setReady (contentLength.getD media.byteSize) row))

theorem acts_of_createStep {c : Choice} {uploaderId : String} {dto : CreateUploadUrlDto}
    {w w' : World} {pc pc' : Pc} (h : createStep c uploaderId dto w pc = some (w', pc')) :
    Acts w (.createUploadUrl uploaderId dto) pc w' pc' := by
  cases pc <;> simp only [createStep] at h
  case create =>
    split at h
    · cases h
      exact .aside _ (by simp) rfl (by simp)
    · split at h
      · rename_i hfresh
        simp only [freshMediaId, Bool.and_eq_true, bne_iff_ne] at hfresh
        split at h
        · cases h
        · rename_i t hins
          split at h <;> cases h
          · exact .created hfresh.1.1.1 rfl rfl hins
          · exact .aside _ (by simp) rfl (by simp)
      · cases h
  case uploadUrl media =>
    cases h
    exact .aside _ (by simp) rfl (by simp)
  all_goals cases h

theorem acts_of_completeStep {mediaId requesterId : String} {w w' : World} {pc pc' : Pc}
    (h : completeStep mediaId requesterId w pc = some (w', pc')) :
    Acts w (.complete mediaId requesterId) pc w' pc' := by
  cases pc <;> simp only [completeStep] at h
  case find =>
    cases h
    split
    · exact .aside _ (by simp) rfl (by simp [Pc.fail])
    · rename_i media hfind
      split
      · exact .aside _ (by simp) rfl (by simp [Pc.fail])
      · exact .found hfind
  case head media =>
    cases h
    split
    · exact .aside _ (by simp) rfl (by simp [Pc.fail])
    · exact .measured _
  case ready media contentLength =>
    split at h
    · rename_i hbig
      cases h
      exact .refused (.inl hbig)
    · rename_i hfits
      split at h <;> cases h
      · exact .refused (.inr ‹_›)
      · exact .completed (Nat.not_le.1 hfits) ‹_›
  all_goals cases h

theorem acts_of_getStep {mediaId requesterId : String} {w w' : World} {pc pc' : Pc}
    (h : getStep mediaId requesterId w pc = some (w', pc')) :
    Acts w (.getMedia mediaId requesterId) pc w' pc' := by
  cases pc <;> simp only [getStep] at h <;> cases h
  case media =>
    split
    · exact .aside _ (by simp) rfl (by simp [Pc.fail])
    · split <;> exact .aside _ (by simp) rfl (by simp)
  all_goals split <;> exact .aside _ (by simp) rfl (by simp [Pc.fail])

theorem acts_of_step {cfg : AppConfig} {c : Choice} {call : Call} {w w' : World} {pc pc' : Pc}
    (h : step cfg c call w pc = some (w', pc')) : Acts w call pc w' pc' := by
  unfold step at h
  split at h
  · cases h
    exact .aside _ (by simp) rfl (by simp)
  · exact acts_of_createStep h
  · exact acts_of_completeStep h
  · exact acts_of_getStep h
  · split at h <;> cases h
    exact .aside _ (by simp) rfl (by simp)
  · cases h

end Intaktok.MediaService
