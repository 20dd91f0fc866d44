import Intaktok.Realtime.Gateway
/-
# `RealtimeGateway`: sending, unsending, joining a room, hanging up

| here | there |
| --- | --- |
| `SendPayload`, `DeletePayload` | the interfaces at the head of `realtime.gateway.ts` (`:30`), as nothing checks them |
| `SendPc`, `onSendStep` | `onSend` (`:145`) |
| `DeletePc`, `onDeleteStep` | `onDelete` (`:178`) |
| `JoinPc`, `onRoomJoinStep` | `onRoomJoin` (`:208`) |
| `DisconnectPc`, `disconnectStep` | `handleDisconnect` (`:105`) with `broadcastPresence` (`:293`) and `coMemberIds` (`:300`) |

A body holds any JSON values. The services see them through stand-ins (`JsValue.text`) that agree
with them on truth, and `SendPayload.throws` says where a value that is no string ends the call.
-/

namespace Intaktok.Realtime

open Interleave Tables
open Messages (CreateMessageParams CreatePc createStart createStep assertActiveMember deleteStep)

/-- A field of a body. -/
inductive JsValue where
  /-- `undefined` or `null`. -/
  | absent
  | str (s : String)
  /-- A number, a boolean, an array or an object. -/
  | other (truthy : Bool)
deriving DecidableEq, Repr

def JsValue.isStr : JsValue → Bool
  | .str _ => true
  | _ => false

/-- A nullable column takes the value. -/
def JsValue.isText : JsValue → Bool
  | .other _ => false
  | _ => true

def JsValue.text : JsValue → Option String
  | .absent => none
  | .str s => some s
  | .other true => some "?"
  | .other false => some ""

/-! ## `onSend` -/

structure SendPayload where
  clientMessageId : JsValue := .absent
  roomId : JsValue := .absent
  /-- `none` is a value outside the enumeration. -/
  type : Option MessageType := none
  content : JsValue := .absent
  mediaId : JsValue := .absent
  replyToId : JsValue := .absent
deriving DecidableEq, Repr

def SendPayload.params (b : SendPayload) (userId : Option String) : CreateMessageParams where
  roomId := b.roomId.text.getD ""
  senderId := userId.getD ""
  type := b.type
  content := b.content.text
  mediaId := b.mediaId.text
  replyToId := b.replyToId.text
  clientMessageId := b.clientMessageId.text

/-- What an action throws on values of the wrong type. -/
def SendPayload.throws (b : SendPayload) (userId : Option String) (db : Db) :
    CreatePc → Option Failure
  | .lookup _ => if b.roomId.isStr && b.clientMessageId.isStr then none else some .invalidValue
  | .member =>
    if !b.roomId.isStr || userId.isNone then some .invalidValue
    -- `content.trim` is no function
    else if (assertActiveMember db (b.roomId.text.getD "") (userId.getD "")).isNone &&
      b.type == some .TEXT && b.content == .other true then some .js
    else none
  | .media _ => if b.mediaId.isStr then none else some .invalidValue
  | .reply _ => if b.replyToId.isStr then none else some .invalidValue
  | .insert _ _ =>
    if b.content.isText && b.mediaId.isText && b.replyToId.isText && b.clientMessageId.isText then
      none
    else some .invalidValue
  | _ => none

inductive SendPc where
  | received
  | createMessage (userId : Option String) (pc : CreatePc)
  | done (ack : Ack)

/-- What the handler does once `createMessage` is about to do `pc`. -/
def sendReturns (userId : Option String) : CreatePc → SendPc
  | .done (.ok res) => .done (.sent res.message.id res.message.seq res.message.createdAt)
  | .done (.error e) => .done (errAck e)
  | pc => .createMessage userId pc

def onSendStep (json : Messages.Json) (c : Choice) (id : String) (body : Option SendPayload)
    (h : Hub) : SendPc → Option (Hub × SendPc)
  | .received =>
    let userId := (h.sockets id).userId
    some (h, match body with
    -- `body.roomId` throws
    | none => .done (errAck .js)
    | some b => .createMessage userId (createStart (b.params userId)))
  | .createMessage userId pc =>
    let b := body.getD {}
    match b.throws userId h.world.db pc with
    | some e => some (h, .done (errAck e))
    | none => (createStep json c (b.params userId) h.world pc).map fun (world, pc') =>
        ({ h with world := world }, sendReturns userId pc')
  | .done _ => none

/-! ## `onDelete` -/

structure DeletePayload where
  roomId : JsValue := .absent
  messageId : JsValue := .absent
deriving DecidableEq, Repr

inductive DeletePc where
  | received
  | softDelete (userId : Option String) (pc : Messages.DeletePc)
  | done (ack : Ack)

/-- The error of `softDelete` when the room is no string or the requester unknown. -/
def deleteThrows (db : Db) (roomId : JsValue) (messageId : String) : AppException :=
  match db.messages.find (·.id == messageId) with
  | none => Errors.notFound "메시지를 찾을 수 없습니다."
  | some m =>
    if roomId ≠ .str m.roomId then Errors.notFound "메시지를 찾을 수 없습니다."
    else if m.type = .SYSTEM then Errors.forbidden
    else Errors.forbidden "본인이 보낸 메시지만 삭제할 수 있습니다."

def deleteReturns (userId : Option String) : Messages.DeletePc → DeletePc
  | .done (.ok ()) => .done .ok
  | .done (.error e) => .done (errAck e)
  | pc => .softDelete userId pc

def onDeleteStep (cfg : AppConfig) (id : String) (body : Option DeletePayload) (h : Hub) :
    DeletePc → Option (Hub × DeletePc)
  | .received => some (h, match body with
    | none => .done (errAck .js)
    | some _ => .softDelete (h.sockets id).userId .find)
  | .softDelete userId pc =>
    let b := body.getD {}
    match b.messageId, b.roomId, userId with
    | .str messageId, .str roomId, some userId =>
      (deleteStep cfg roomId messageId userId h.world pc).map fun (world, pc') =>
        ({ h with world := world }, deleteReturns (some userId) pc')
    | .str messageId, roomId, _ =>
      some (h, .done (errAck (.app (deleteThrows h.world.db roomId messageId))))
    | _, _, _ => some (h, .done (errAck .invalidValue))
  | .done _ => none

/-! ## `onRoomJoin` -/

inductive JoinPc where
  | received
  | member (userId : Option String)
  | join (roomId : String)
  /-- `none`: the handler has thrown. -/
  | done (ack : Option Ack)

/-- `roomId` is `body.roomId`. -/
def onRoomJoinStep (id : String) (roomId : JsValue) (h : Hub) : JoinPc → Option (Hub × JoinPc)
  | .received => some (h, .member (h.sockets id).userId)
  | .member userId => some (h, match roomId, userId with
    | .str roomId, some userId =>
      if (assertActiveMember h.world.db roomId userId).isNone then .join roomId
      else .done (some (.error .FORBIDDEN "방 멤버가 아닙니다."))
    | _, _ => .done none)
  | .join roomId => some (h.join id [roomId], .done (some (.joined roomId)))
  | .done _ => none

/-! ## `handleDisconnect` -/

inductive DisconnectPc where
  | left
  | presence (userId : String) (pc : Presence.RemovePc)
  | myRooms (userId : String)
  | coMembers (userId : String) (roomIds : List String)
  | done

/-- Socket.IO takes the socket out of its rooms before it tells the gateway. -/
def disconnectStep (id : String) (h : Hub) : DisconnectPc → Option (Hub × DisconnectPc)
  | .left =>
    some ((h.disconnect id).update id fun s => { s with heartbeat := false },
      match truthy (h.sockets id).userId with
      | some userId => .presence userId .srem
      | none => .done)
  | .presence userId pc => (Presence.removeStep userId id h.world pc).map fun (world, pc') =>
      ({ h with world := world }, match pc' with
        | .done (.ok true) => .myRooms userId
        | .done _ => .done
        | pc' => .presence userId pc')
  | .myRooms userId =>
    let myRooms := h.world.db.roomMembers.findMany fun m => m.userId == userId && m.leftAt.isNone
    if myRooms.isEmpty then some (h, .done)
    else some (h, .coMembers userId (myRooms.map (·.roomId)))
  | .coMembers userId roomIds =>
    let members := h.world.db.roomMembers.findMany fun m =>
      roomIds.contains m.roomId && m.leftAt.isNone && m.userId != userId
    some (emitToUsers h (members.map (·.userId)).eraseDups (.presence userId .offline), .done)
  | .done => none

/-! ## The machine -/

inductive EventCall where
  | messageSend (id : String) (body : Option SendPayload)
  | messageDelete (id : String) (body : Option DeletePayload)
  | roomJoin (id : String) (roomId : JsValue)
  | disconnect (id : String)

inductive EventPc where
  | send (pc : SendPc)
  | delete (pc : DeletePc)
  | join (pc : JoinPc)
  | disconnect (pc : DisconnectPc)

def eventStart : EventCall → EventPc
  | .messageSend _ _ => .send .received
  | .messageDelete _ _ => .delete .received
  | .roomJoin _ _ => .join .received
  | .disconnect _ => .disconnect .left

def eventStep (cfg : AppConfig) (json : Messages.Json) (c : Choice) (call : EventCall) (h : Hub)
    (pc : EventPc) : Option (Hub × EventPc) :=
  match call, pc with
  | .messageSend id body, .send pc => (onSendStep json c id body h pc).map fun r => (r.1, .send r.2)
  | .messageDelete id body, .delete pc =>
    (onDeleteStep cfg id body h pc).map fun r => (r.1, .delete r.2)
  | .roomJoin id roomId, .join pc => (onRoomJoinStep id roomId h pc).map fun r => (r.1, .join r.2)
  | .disconnect id, .disconnect pc => (disconnectStep id h pc).map fun r => (r.1, .disconnect r.2)
  | _, _ => none

def eventMachine (cfg : AppConfig) (json : Messages.Json) :
    Machine Hub EventCall EventPc Choice Env where
  start := eventStart
  step := eventStep cfg json
  env := env cfg

/-! ## What an action does -/

/-- An action of `onSend` is one of `createMessage`, or leaves the hub alone. -/
inductive SendActs (json : Messages.Json) (c : Choice) (id : String) (body : Option SendPayload)
    (h : Hub) : SendPc → Hub → SendPc → Prop
  | refused {e} : body = none → SendActs json c id body h .received h (.done (errAck e))
  | received {b} : body = some b → SendActs json c id body h .received h
      (.createMessage (h.sockets id).userId (createStart (b.params (h.sockets id).userId)))
  | thrown {userId pc e} : SendActs json c id body h (.createMessage userId pc) h
      (.done (errAck e))
  | create {userId pc w pc'} :
      createStep json c ((body.getD {}).params userId) h.world pc = some (w, pc') →
      SendActs json c id body h (.createMessage userId pc) { h with world := w }
        (sendReturns userId pc')

theorem acts_of_send {json : Messages.Json} {c : Choice} {id : String} {body : Option SendPayload}
    {h h' : Hub} {pc pc' : SendPc} (hs : onSendStep json c id body h pc = some (h', pc')) :
    SendActs json c id body h pc h' pc' := by
  cases pc with
  | received =>
    cases hs
    cases body with
    | none => exact .refused rfl
    | some b => exact .received rfl
  | createMessage userId pc =>
    simp only [onSendStep] at hs
    split at hs
    · cases hs
      exact .thrown
    · obtain ⟨⟨w, pc₁⟩, hcreate, he⟩ := Option.map_eq_some_iff.1 hs
      cases he
      exact .create hcreate
  | done ack => cases hs

/-- An action of `onDelete` is one of `softDelete`, or leaves the hub alone. -/
inductive DeleteActs (cfg : AppConfig) (id : String) (body : Option DeletePayload) (h : Hub) :
    DeletePc → Hub → DeletePc → Prop
  | refused {pc e} : DeleteActs cfg id body h pc h (.done (errAck e))
  | received : DeleteActs cfg id body h .received h (.softDelete (h.sockets id).userId .find)
  | delete {messageId roomId userId pc w pc'} : (body.getD {}).messageId = .str messageId →
      deleteStep cfg roomId messageId userId h.world pc = some (w, pc') →
      DeleteActs cfg id body h (.softDelete (some userId) pc) { h with world := w }
        (deleteReturns (some userId) pc')

theorem acts_of_delete {cfg : AppConfig} {id : String} {body : Option DeletePayload} {h h' : Hub}
    {pc pc' : DeletePc} (hs : onDeleteStep cfg id body h pc = some (h', pc')) :
    DeleteActs cfg id body h pc h' pc' := by
  cases pc with
  | received =>
    cases hs
    cases body with
    | none => exact .refused
    | some b => exact .received
  | softDelete userId pc =>
    simp only [onDeleteStep] at hs
    split at hs
    · rename_i hm _
      obtain ⟨⟨w, pc₁⟩, hdelete, he⟩ := Option.map_eq_some_iff.1 hs
      cases he
      exact .delete hm hdelete
    · cases hs
      exact .refused
    · cases hs
      exact .refused
  | done ack => cases hs

/-- An action of an event is one of its handler. -/
inductive EventActs (cfg : AppConfig) (json : Messages.Json) (c : Choice) (h : Hub) :
    EventCall → EventPc → Hub → EventPc → Prop
  | send {id body pc h' pc'} : SendActs json c id body h pc h' pc' →
      EventActs cfg json c h (.messageSend id body) (.send pc) h' (.send pc')
  | delete {id body pc h' pc'} : DeleteActs cfg id body h pc h' pc' →
      EventActs cfg json c h (.messageDelete id body) (.delete pc) h' (.delete pc')
  | join {id roomId pc h' pc'} : onRoomJoinStep id roomId h pc = some (h', pc') →
      EventActs cfg json c h (.roomJoin id roomId) (.join pc) h' (.join pc')
  | leave {id pc h' pc'} : disconnectStep id h pc = some (h', pc') →
      EventActs cfg json c h (.disconnect id) (.disconnect pc) h' (.disconnect pc')

theorem acts_of_event {cfg : AppConfig} {json : Messages.Json} {c : Choice} {call : EventCall}
    {h h' : Hub} {pc pc' : EventPc} (hs : eventStep cfg json c call h pc = some (h', pc')) :
    EventActs cfg json c h call pc h' pc' := by
  unfold eventStep at hs
  split at hs
  · obtain ⟨⟨h₁, pc₁⟩, hsend, he⟩ := Option.map_eq_some_iff.1 hs
    cases he
    exact .send (acts_of_send hsend)
  · obtain ⟨⟨h₁, pc₁⟩, hdelete, he⟩ := Option.map_eq_some_iff.1 hs
    cases he
    exact .delete (acts_of_delete hdelete)
  · obtain ⟨⟨h₁, pc₁⟩, hjoin, he⟩ := Option.map_eq_some_iff.1 hs
    cases he
    exact .join hjoin
  · obtain ⟨⟨h₁, pc₁⟩, hleave, he⟩ := Option.map_eq_some_iff.1 hs
    cases he
    exact .leave hleave
  · cases hs

end Intaktok.Realtime
