import Intaktok.Messages.Service
import Intaktok.Presence.Service
/-
# `RealtimeGateway`: the handshake of a socket and its events

| here | there |
| --- | --- |
| `Socket` | what Socket.IO keeps of a connection, with `client.data` |
| `ConnectPc`, `connectStep` | `handleConnection` (`realtime.gateway.ts:69`) with `authenticate` (`:116`), `broadcastPresence` (`:293`) and `coMemberIds` (`:300`) |
| `bearerFromHeader`, `userRoom`, `emitToUsers`, `errAck` | the functions of those names (`:135`, `:267`, `:276`, `:314`) |
| `ReadPc`, `onReadStep` | `onRead` (`:167`) |
| `Env.heartbeat` | one firing of the interval set at `:83` |

Nest hands an event to its handler without waiting for `handleConnection`, so that the two are
processes over one `Hub`. `client.data.userId` is what it is when the event arrives: `undefined`
until the handshake has come past `authenticate`.
-/

namespace Intaktok.Realtime

open Interleave Tables

/-! ## Sockets -/

/-- What a client presents: `handshake.auth.token` and the `Authorization` header. -/
structure Handshake where
  token : Option String := none
  authorization : Option String := none

structure Socket where
  /-- `client.data.userId`. -/
  userId : Option String := none
  heartbeat : Bool := false
  rooms : List String := []
  connected : Bool := true
deriving DecidableEq, Repr

inductive PresenceStatus where
  | online | offline
deriving DecidableEq, Repr

inductive ServerEvent where
  /-- `none` is a text of a library. -/
  | error (code : ErrorCode) (message : Option String)
  | presence (userId : String) (status : PresenceStatus)
  | messageNew (message : SerializedMessage)
  /-- `none` is a field that is no string. -/
  | messageRead (roomId userId : Option String) (lastReadSeq : Nat)
  | messageDeleted (roomId messageId : String)
  | roomCreated (room : RoomView)
  | roomUpdated (room : RoomView)
deriving DecidableEq, Repr

structure Emission where
  rooms : List String
  event : ServerEvent
deriving DecidableEq, Repr

/-- The state the services share and the sockets of this server. -/
structure Hub where
  world : World := {}
  sockets : String → Socket := fun _ => {}
  emitted : List Emission := []

def Hub.update (h : Hub) (id : String) (f : Socket → Socket) : Hub :=
  { h with sockets := Function.update h.sockets id (f (h.sockets id)) }

def Hub.emit (h : Hub) (rooms : List String) (event : ServerEvent) : Hub :=
  { h with emitted := h.emitted ++ [⟨rooms, event⟩] }

def Hub.join (h : Hub) (id : String) (rooms : List String) : Hub :=
  h.update id fun s => { s with rooms := s.rooms ++ rooms.filter (!s.rooms.contains ·) }

def Hub.disconnect (h : Hub) (id : String) : Hub :=
  h.update id fun s => { s with rooms := [], connected := false }

def userRoom (userId : String) : String := "user:" ++ userId

def emitToUsers (h : Hub) (userIds : List String) (event : ServerEvent) : Hub :=
  if userIds.isEmpty then h else h.emit (userIds.map userRoom) event

/-! ## `handleConnection` -/

inductive ConnectPc where
  | verify
  | user (sub : String)
  | joinUser (userId : String)
  | memberships (userId : String)
  | joinRooms (userId : String) (roomIds : List String)
  | presence (userId : String) (pc : Presence.AddPc)
  | myRooms (userId : String)
  | coMembers (userId : String) (roomIds : List String)
  | accepted (userId : String)
  | rejected (userId : Option String)

def bearerFromHeader (header : Option String) : Option String :=
  match (truthy header).map (·.splitOn " ") with
  | some (scheme :: value :: _) => if scheme.toLower = "bearer" then some value else none
  | _ => none

/-- The `catch` of `handleConnection`. -/
def reject (h : Hub) (id : String) (message : Option String) : Hub :=
  (h.emit [id] (.error .UNAUTHORIZED message)).disconnect id

/-- `decode` reads a token. -/
def connectStep (cfg : AppConfig) (decode : String → Option Jwt) (id : String) (hs : Handshake)
    (h : Hub) : ConnectPc → Option (Hub × ConnectPc)
  | .verify =>
    match truthy (hs.token <|> bearerFromHeader hs.authorization) with
    | none => some (reject h id (some "토큰이 없습니다."), .rejected none)
    | some token =>
      match (decode token).filter (h.world.verifyAsync · cfg.accessSecret) with
      | none => some (reject h id none, .rejected none)
      | some payload =>
        if payload.type = .access then some (h, .user payload.sub)
        else some (reject h id (some "잘못된 토큰 타입입니다."), .rejected none)
  | .user sub =>
    if (h.world.db.users.find (·.id == sub)).any (·.status == .ACTIVE) then
      some (h.update id fun s => { s with userId := some sub }, .joinUser sub)
    else some (reject h id (some "비활성화된 계정입니다."), .rejected none)
  | .joinUser userId => some (h.join id [userRoom userId], .memberships userId)
  | .memberships userId =>
    let active := h.world.db.roomMembers.findMany fun m => m.userId == userId && m.leftAt.isNone
    if active.isEmpty then some (h, .presence userId .sadd)
    else some (h, .joinRooms userId (active.map (·.roomId)))
  | .joinRooms userId roomIds => some (h.join id roomIds, .presence userId .sadd)
  | .presence userId pc => (Presence.addStep cfg userId id h.world pc).map fun (world, pc') =>
      let h' := { h with world := world }
      match pc' with
      | .done (.ok becameOnline) =>
        (h'.update id fun s => { s with heartbeat := true },
          if becameOnline then .myRooms userId else .accepted userId)
      | .done (.error _) => (reject h' id none, .rejected (some userId))
      | pc' => (h', .presence userId pc')
  | .myRooms userId =>
    let myRooms := h.world.db.roomMembers.findMany fun m => m.userId == userId && m.leftAt.isNone
    if myRooms.isEmpty then some (h, .accepted userId)
    else some (h, .coMembers userId (myRooms.map (·.roomId)))
  | .coMembers userId roomIds =>
    let members := h.world.db.roomMembers.findMany fun m =>
      roomIds.contains m.roomId && m.leftAt.isNone && m.userId != userId
    some (emitToUsers h (members.map (·.userId)).eraseDups (.presence userId .online),
      .accepted userId)
  | .accepted _ | .rejected _ => none

/-! ## `onRead` -/

inductive Ack where
  | ok
  | sent (id : String) (seq createdAt : Nat)
  | joined (roomId : String)
  | error (code : ErrorCode) (message : String)
deriving DecidableEq, Repr

def errAck : Failure → Ack
  | .app e => .error e.code e.message
  | _ => .error .INTERNAL "처리 중 오류가 발생했습니다."

/-- `lastReadSeq` is the value of `Number(body.lastReadSeq)`. -/
structure ReadPayload where
  roomId : Messages.WhereString := .undefined
  lastReadSeq : Messages.JsNumber := .other

inductive ReadPc where
  | received
  | markRead (roomId userId : Messages.WhereString) (lastReadSeq : Messages.JsNumber)
      (pc : Messages.ReadPc)
  | done (ack : Ack)

def whereUser : Option String → Messages.WhereString
  | none => .undefined
  | some userId => .str userId

def onReadStep (id : String) (body : Option ReadPayload) (h : Hub) : ReadPc → Option (Hub × ReadPc)
  | .received => some (h, match body with
    -- `body.roomId` throws
    | none => .done (errAck .js)
    | some b => .markRead b.roomId (whereUser (h.sockets id).userId) b.lastReadSeq .update)
  | .markRead r u n pc => (Messages.readStep r u n h.world pc).map fun (world, pc') =>
      ({ h with world := world }, match pc' with
        | .done (.ok ()) => .done .ok
        | .done (.error e) => .done (errAck e)
        | pc' => .markRead r u n pc')
  | .done _ => none

/-! ## The machine -/

inductive Call where
  | connect (id : String) (handshake : Handshake)
  | messageRead (id : String) (body : Option ReadPayload)

inductive Pc where
  | connect (pc : ConnectPc)
  | read (pc : ReadPc)

def start : Call → Pc
  | .connect _ _ => .connect .verify
  | .messageRead _ _ => .read .received

def step (cfg : AppConfig) (decode : String → Option Jwt) (call : Call) (h : Hub) (pc : Pc) :
    Option (Hub × Pc) :=
  match call, pc with
  | .connect id hs, .connect pc =>
    (connectStep cfg decode id hs h pc).map fun r => (r.1, .connect r.2)
  | .messageRead id body, .read pc => (onReadStep id body h pc).map fun r => (r.1, .read r.2)
  | _, _ => none

inductive Env where
  | tick (ms : Nat)
  | heartbeat (id : String)

def env (cfg : AppConfig) : Env → Hub → Hub
  | .tick ms, h => { h with world := h.world.tick ms }
  | .heartbeat id, h => match h.sockets id with
    | ⟨some userId, true, _, _⟩ => { h with world := Presence.refresh cfg userId h.world }
    | _ => h

def machine (cfg : AppConfig) (decode : String → Option Jwt) :
    Machine Hub Call Pc Choice Env where
  start := start
  step _ := step cfg decode
  env := env cfg

/-! ## What an action does -/

/-- An action of a socket is one of its handshake, or one of `onRead`. -/
inductive SocketActs (cfg : AppConfig) (decode : String → Option Jwt) (h : Hub) :
    Call → Pc → Hub → Pc → Prop
  | connect {id hs pc h' pc'} : connectStep cfg decode id hs h pc = some (h', pc') →
      SocketActs cfg decode h (.connect id hs) (.connect pc) h' (.connect pc')
  | read {id body pc h' pc'} : onReadStep id body h pc = some (h', pc') →
      SocketActs cfg decode h (.messageRead id body) (.read pc) h' (.read pc')

theorem acts_of_socket {cfg : AppConfig} {decode : String → Option Jwt} {call : Call} {h h' : Hub}
    {pc pc' : Pc} (hs : step cfg decode call h pc = some (h', pc')) :
    SocketActs cfg decode h call pc h' pc' := by
  unfold step at hs
  split at hs
  · obtain ⟨⟨h₁, pc₁⟩, hconnect, he⟩ := Option.map_eq_some_iff.1 hs
    cases he
    exact .connect hconnect
  · obtain ⟨⟨h₁, pc₁⟩, hread, he⟩ := Option.map_eq_some_iff.1 hs
    cases he
    exact .read hread
  · cases hs

/-- An action of `onRead` is one of `markRead`, or leaves the hub alone. -/
theorem onReadStep_cases {id : String} {body : Option ReadPayload} {h h' : Hub} {pc pc' : ReadPc}
    (hs : onReadStep id body h pc = some (h', pc')) :
    h' = h ∨ ∃ r u n q w q', Messages.readStep r u n h.world q = some (w, q') ∧
      h' = { h with world := w } := by
  cases pc with
  | received => cases hs; exact .inl rfl
  | markRead r u n q =>
    obtain ⟨⟨w, q'⟩, hmark, he⟩ := Option.map_eq_some_iff.1 hs
    cases he
    exact .inr ⟨r, u, n, q, w, q', hmark, rfl⟩
  | done ack => cases hs

end Intaktok.Realtime
