import Intaktok.Presence.Service
import Intaktok.Lib.Interleave
/-
# `PushService` cut at its await points

| here | there |
| --- | --- |
| `RegisterTokenDto` | `push/dto/push.dto.ts:4` |
| `Call.registerToken`, `upsertToken` | `registerToken` (`push.service.ts:21`) |
| `Call.removeToken` | `removeToken` (`:36`) |
| `recipientIds`, `Pc.online` … `Pc.purge` | the listener `onMessageCreated` (`:46`) |
| `sendToTokens` | `FcmService.sendToTokens` (`fcm.service.ts:78`) |

`isOnline` is asked for all recipients at once: one `SCARD` after the other on one connection.
Whatever the listener throws it catches and logs.
-/

namespace Intaktok.Push

open Interleave Tables

structure RegisterTokenDto where
  fcmToken : String
  platform : String
  deviceId : Option String := none
deriving DecidableEq, Repr

inductive Call where
  | registerToken (userId : String) (dto : RegisterTokenDto)
  | removeToken (userId tokenId : String)
  /-- The fields of `MessageCreatedEvent`. -/
  | onMessageCreated (message : SerializedMessage) (memberUserIds : List String)
      (preview roomTitle : String)
deriving DecidableEq, Repr

inductive Result where
  | registered (id platform : String)
  | void
deriving DecidableEq, Repr

inductive Pc where
  | upsert
  | deleteMany
  | online (todo offline : List String)
  | muted (offline : List String)
  | tokens (targets : List String)
  | send (tokens : List String)
  | purge (invalidTokens : List String)
  | done (r : Except Failure Result)

/-- The listener returns. -/
def Pc.handled : Pc := .done (.ok .void)

/-! ## `registerToken` -/

/-- A `cuid()` no token has. -/
def freshTokenId (db : Db) (id : String) : Bool :=
  id != "" && isCuid id && !db.pushTokens.rows.any (·.id == id)

/-- The `update` of the upsert. -/
def reassign (userId : String) (dto : RegisterTokenDto) (row : PushToken) : PushToken :=
  { row with userId, platform := dto.platform, deviceId := dto.deviceId }

/-- Gives a token that is registered to the user, whoever had it. -/
def upsertToken (c : Choice) (userId : String) (dto : RegisterTokenDto) (w : World) :
    Option (World × Pc) :=
  if w.db.users.rows.any (·.id == userId) then
    match w.db.pushTokens.find (·.fcmToken == dto.fcmToken) with
    | some row =>
      let t := w.db.pushTokens.updateWhere (·.fcmToken == dto.fcmToken) (reassign userId dto)
        fun c _ _ => by cases c <;> rfl
      some ({ w with db.pushTokens := t }, .done (.ok (.registered row.id dto.platform)))
    | none =>
      if freshTokenId w.db c.id then
        match w.db.pushTokens.insert
            { id := c.id, userId, deviceId := dto.deviceId, fcmToken := dto.fcmToken,
              platform := dto.platform } with
        | .ok t =>
          some ({ w with db.pushTokens := t }, .done (.ok (.registered c.id dto.platform)))
        | .error _ => none
      else none
  else some (w, .done (.error .foreignKey))

/-! ## `onMessageCreated` -/

def recipientIds (message : SerializedMessage) (memberUserIds : List String) : List String :=
  memberUserIds.filter (· != message.senderId)

/-- Whether a recipient has muted the room. -/
def isMuted (w : World) (roomId userId : String) : Bool :=
  w.db.roomMembers.rows.any fun m =>
    m.roomId == roomId && m.userId == userId && m.mutedUntil.any (w.now < ·)

def userTokens (db : Db) (targets : List String) : List String :=
  (db.pushTokens.findMany fun t => targets.contains t.userId).map (·.fcmToken)

/-- Ask FCM, which names the tokens that are not valid; `none`: it throws. -/
def sendToTokens (cfg : AppConfig) (c : Choice) (multicast : Multicast) (w : World) :
    Option (World × List String) :=
  if !cfg.fcmEnabled || multicast.tokens.isEmpty then some (w, [])
  -- `sendEachForMulticast` refuses more than 500 tokens
  else if 500 < multicast.tokens.length then none
  else some ({ w with pushed := w.pushed ++ [multicast] },
    multicast.tokens.filter (c.keys.contains ·))

/-! ## The machine -/

def start : Call → Pc
  | .registerToken _ _ => .upsert
  | .removeToken _ _ => .deleteMany
  | .onMessageCreated message memberUserIds _ _ =>
    if message.type = .SYSTEM then .handled
    else match recipientIds message memberUserIds with
      | [] => .handled
      | todo => .online todo []

/-- On with the offline recipients, if there are any. -/
def afterOnline : List String → Pc
  | [] => .handled
  | offline => .muted offline

def handleStep (cfg : AppConfig) (c : Choice) (message : SerializedMessage)
    (preview roomTitle : String) (w : World) : Pc → Option (World × Pc)
  | .online [] _ => none
  | .online (userId :: todo) offline => some (w, match Presence.isOnline w userId with
    | none => .handled
    | some online =>
      let offline' := if online then offline else offline ++ [userId]
      if todo.isEmpty then afterOnline offline' else .online todo offline')
  | .muted offline =>
    let targets := offline.filter (!isMuted w message.roomId ·)
    some (w, if targets.isEmpty then .handled else .tokens targets)
  | .tokens targets =>
    let tokens := userTokens w.db targets
    some (w, if tokens.isEmpty then .handled else .send tokens)
  | .send tokens =>
    let multicast : Multicast :=
      { tokens, title := roomTitle, body := preview, roomId := message.roomId,
        messageId := message.id, type := message.type }
    match sendToTokens cfg c multicast w with
    | none => some (w, .handled)
    | some (w', invalidTokens) =>
      some (w', if invalidTokens.isEmpty then .handled else .purge invalidTokens)
  | .purge invalidTokens =>
    let t := w.db.pushTokens.deleteWhere fun t => invalidTokens.contains t.fcmToken
    some ({ w with db.pushTokens := t }, .handled)
  | _ => none

def step (cfg : AppConfig) (c : Choice) (call : Call) (w : World) (pc : Pc) :
    Option (World × Pc) :=
  match call, pc with
  | .registerToken userId dto, .upsert => upsertToken c userId dto w
  | .removeToken userId tokenId, .deleteMany =>
    let mine := fun t : PushToken => t.id == tokenId && t.userId == userId
    if w.db.pushTokens.rows.any mine then
      some ({ w with db.pushTokens := w.db.pushTokens.deleteWhere mine }, .done (.ok .void))
    else some (w, .done (.error (.app (Errors.notFound "푸시 토큰을 찾을 수 없습니다."))))
  | .onMessageCreated message _ preview roomTitle, pc =>
    handleStep cfg c message preview roomTitle w pc
  | _, _ => none

/-- Only time passes by itself. -/
def machine (cfg : AppConfig) : Machine World Call Pc Choice Nat where
  start := start
  step := step cfg
  env := World.tick

end Intaktok.Push
