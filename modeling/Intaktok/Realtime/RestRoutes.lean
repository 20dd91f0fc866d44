import Intaktok.Realtime.Platform
import Intaktok.Messages.Effects
/-
# One request at two front ends

| here | there |
| --- | --- |
| `Request.call` | what `MessagesController` (`messages.controller.ts:41`–`:88`) asks the service for |
| `Request.event` | the event that asks the gateway for the same |
| `SendMessageDto`, `Request.valid` | `messages/dto/message.dto.ts`, as `ValidationPipe` checks it |
| `authenticate` | `JwtStrategy.validate` (`auth/strategies/jwt.strategy.ts:22`) with `JwtAuthGuard`, for a valid access token of the user |
| `requireOnboarded` | `OnboardedGuard.canActivate` (`common/guards/onboarded.guard.ts:14`) |
| `RoutePc`, `routeStep` | the guards of the controller in their order, the pipe, then the handler |

The throttler is left out.
-/

namespace Intaktok.Realtime

open Interleave Tables
open Messages (JsNumber)

structure SendMessageDto where
  clientMessageId : JsValue := .absent
  /-- `none` is a value outside the enumeration. -/
  type : Option MessageType := none
  content : JsValue := .absent
  mediaId : JsValue := .absent
  replyToId : JsValue := .absent
deriving DecidableEq, Repr

inductive Request where
  | send (roomId : String) (dto : SendMessageDto)
  | remove (roomId messageId : String)
  /-- `lastReadSeq` is the value of `Number(lastReadSeq)`. -/
  | read (roomId : String) (lastReadSeq : JsNumber)
deriving DecidableEq, Repr

def Request.roomId : Request → String
  | .send roomId _ | .remove roomId _ | .read roomId _ => roomId

/-- The body of `message:send`. -/
def SendMessageDto.payload (dto : SendMessageDto) (roomId : String) : SendPayload where
  clientMessageId := dto.clientMessageId
  roomId := .str roomId
  type := dto.type
  content := dto.content
  mediaId := dto.mediaId
  replyToId := dto.replyToId

def Request.call (userId : String) : Request → Messages.Call
  | .send roomId dto => .createMessage ((dto.payload roomId).params (some userId))
  | .remove roomId messageId => .softDelete roomId messageId userId
  | .read roomId lastReadSeq => .markRead (.str roomId) (.str userId) lastReadSeq

def Request.event (id : String) : Request → ServerCall
  | .send roomId dto => .inl (.inr (.messageSend id (some (dto.payload roomId))))
  | .remove roomId messageId =>
    .inl (.inr (.messageDelete id (some { roomId := .str roomId, messageId := .str messageId })))
  | .read roomId lastReadSeq =>
    .inl (.inl (.messageRead id (some { roomId := .str roomId, lastReadSeq })))

/-- The fields hold strings where the interfaces say so, or nothing where they may. -/
def Request.typed : Request → Bool
  | .send _ dto => dto.clientMessageId.isText && dto.content.isText && dto.mediaId.isText &&
      dto.replyToId.isText
  | _ => true

/-! ## The guards -/

def authenticate (db : Db) (userId : String) : Option AppException :=
  if (db.users.find (·.id == userId)).any (·.status == .ACTIVE) then none
  else some (Errors.unauthorized "유효하지 않거나 만료된 토큰입니다.")

def requireOnboarded (db : Db) (userId : String) : Option AppException :=
  if userId = "" then some Errors.unauthorized
  else if (db.profiles.find (·.userId == userId)).any (·.onboardedAt.isSome) then none
  else some (Errors.forbidden "프로필 온보딩이 필요합니다." [("reason", ["ONBOARDING_REQUIRED"])])

/-- `@IsString()` and `@MaxLength(max)`. -/
def isShort (len : String → Nat) (max : Nat) : JsValue → Bool
  | .str s => decide (len s ≤ max)
  | _ => false

/-- `len` is the length `class-validator` counts. -/
def Request.valid (len : String → Nat) : Request → Bool
  | .send _ dto =>
    (dto.clientMessageId == .absent || isShort len 64 dto.clientMessageId) && dto.type.isSome &&
      (dto.type != some .TEXT || isShort len 8000 dto.content) &&
      dto.mediaId.isText && dto.replyToId.isText
  | .remove _ _ => true
  | .read _ (.int n) => decide (0 ≤ n)
  | .read _ .other => false

/-- An empty parameter makes another path. -/
def Request.routed : Request → Bool
  | .remove roomId messageId => roomId != "" && messageId != ""
  | req => req.roomId != ""

def Request.route : Request → String
  | .send roomId _ => "POST /api/v1/rooms/" ++ roomId ++ "/messages"
  | .remove roomId messageId => "DELETE /api/v1/rooms/" ++ roomId ++ "/messages/" ++ messageId
  | .read roomId _ => "POST /api/v1/rooms/" ++ roomId ++ "/read"

/-! ## The routes -/

inductive RoutePc where
  | validate
  | onboarded
  | member
  | handle (pc : Messages.Pc)
  | rejected (e : AppException)

def RoutePc.orRejected (check : Option AppException) (next : RoutePc) : RoutePc :=
  match check with
  | some e => .rejected e
  | none => next

def routeStart (req : Request) : RoutePc :=
  if req.routed then .validate else .rejected (Errors.notFound ("Cannot " ++ req.route))

def routeStep (cfg : AppConfig) (json : Messages.Json) (len : String → Nat) (c : Choice)
    (userId : String) (req : Request) (w : World) : RoutePc → Option (World × RoutePc)
  | .validate => some (w, .orRejected (authenticate w.db userId) .onboarded)
  | .onboarded => some (w, .orRejected (requireOnboarded w.db userId) .member)
  | .member => some (w, match Rooms.canActivate w.db req.roomId userId with
    | .error e => .rejected e
    | .ok _ =>
      if req.valid len then .handle (Messages.start (req.call userId))
      else .rejected (Errors.validation "입력값이 올바르지 않습니다."))
  | .handle pc => (Messages.step cfg json c (req.call userId) w pc).map fun r => (r.1, .handle r.2)
  | .rejected _ => none

/-- The user and his requests. -/
def routes (cfg : AppConfig) (json : Messages.Json) (len : String → Nat) :
    Machine World (String × Request) RoutePc Choice Nat where
  start k := routeStart k.2
  step c k := routeStep cfg json len c k.1 k.2
  env := World.tick

def RoutePc.refused : RoutePc → Bool
  | .rejected _ => true
  | .handle pc => pc.failed
  | _ => false

/-- The request passes the guards and the pipe. -/
def admitted (len : String → Nat) (db : Db) (userId : String) (req : Request) : Bool :=
  req.routed && (authenticate db userId).isNone && (requireOnboarded db userId).isNone &&
    (Rooms.canActivate db req.roomId userId).isOk && req.valid len

end Intaktok.Realtime
