import Intaktok.Http.Queries
/-
# The program seen from outside: controllers, sockets and what the process does by itself

| here | there |
| --- | --- |
| `Route` | the methods of the controllers, with what they take from the path, the query and the body |
| `Route.guards` | `@UseGuards` of the class and of the method, behind `JwtAuthGuard`; `none`: there is no guard |
| `Route.handler` | the call in the body of the method |
| `FrontPc.token`, `FrontPc.account` | `JwtAuthGuard` (`common/guards/jwt-auth.guard.ts`) with `JwtStrategy` (`auth/strategies/jwt.strategy.ts`) |
| `Deps.pipe` | what the global `ValidationPipe` (`main.ts:54`) has against a body |
| `throttled` | the `ThrottlerGuard` (`app.module.ts:83`), which counts by itself |
| `TypingPc`, `typingStep` | `relayTyping` (`realtime.gateway.ts:281`) behind `typing:start` and `typing:stop` |
| `FrontCall.boot`, `.listener` | `onApplicationBootstrap`, and the listener of `PushService` |

A request that changes a room is handed to the service as it is if its body is valid, for the model
of these requests begins with the read of `RoomMemberGuard`. The health checks are left out.
-/

namespace Intaktok.Http

open Interleave Tables Realtime

/-! ## Routes -/

inductive Route where
  | kakao (info : Auth.KakaoUserInfo)
  | refresh (refreshToken : String)
  | logout (refreshToken : String)
  | me
  | createWhitelist (dto : Admin.CreateWhitelistDto)
  | listWhitelist (dto : Admin.ListWhitelistDto)
  | updateWhitelist (id : String) (dto : Admin.UpdateWhitelistDto)
  | removeWhitelist (id : String)
  | listAccessRequests (dto : Admin.CursorPaginationDto)
  | approve (id : String)
  | dismiss (id : String)
  | search (dto : UsersService.SearchUsersDto)
  | listRooms (cursor : Option String) (limit : Nat)
  | createRoom (dto : Rooms.CreateRoomDto)
  | detail (roomId : String)
  | updateRoom (roomId : String) (dto : Rooms.UpdateRoomDto)
  | addMembers (roomId : String) (userIds : List String)
  | updateMemberRole (roomId userId : String) (role : MemberRole)
  | removeMember (roomId userId : String)
  | listMessages (roomId : String) (cursor : Option String) (limit : Nat)
  | message (req : Realtime.Request)
  | createUploadUrl (dto : MediaService.CreateUploadUrlDto)
  | complete (mediaId : String)
  | getMedia (mediaId : String)
  | registerToken (dto : Push.RegisterTokenDto)
  | removeToken (tokenId : String)
  | createProfile (dto : ProfileService.CreateProfileDto)
  | updateProfile (dto : ProfileService.UpdateProfileDto)
  | getProfile (userId : String)

/-- `:roomId` in the path. -/
def Route.roomId : Route → String
  | .detail roomId | .updateRoom roomId _ | .addMembers roomId _ | .updateMemberRole roomId _ _
  | .removeMember roomId _ | .listMessages roomId _ _ => roomId
  | .message req => req.roomId
  | _ => ""

def Route.guards : Route → Option (List Guard)
  | .kakao _ | .refresh _ | .logout _ => none
  | .me | .registerToken _ | .removeToken _ | .createProfile _ | .updateProfile _ => some []
  | .createWhitelist _ | .listWhitelist _ | .updateWhitelist _ _ | .removeWhitelist _
  | .listAccessRequests _ | .approve _ | .dismiss _ => some [.admin]
  | .search _ | .listRooms _ _ | .createRoom _ | .createUploadUrl _ | .complete _ | .getMedia _
  | .getProfile _ => some [.onboarded]
  | .detail _ | .updateRoom _ _ | .addMembers _ _ | .updateMemberRole _ _ _ | .removeMember _ _
  | .listMessages _ _ _ | .message _ => some [.onboarded, .roomMember]

/-- The request begins with the read of `RoomMemberGuard`. -/
def Route.guardsItself : Route → Bool
  | .updateRoom _ _ | .addMembers _ _ | .updateMemberRole _ _ _ | .removeMember _ _ => true
  | _ => false

/-- What a method of a controller does. -/
inductive Handler where
  | serve (s : Service) (call : s.Call)
  | query (query : Query)
  /-- It is over at once. -/
  | ended (r : Option AppException)

structure Request where
  /-- What `ExtractJwt.fromAuthHeaderAsBearerToken` finds. -/
  bearer : Option String := none
  route : Route

/-- What the program is configured with, and the libraries it asks. -/
structure Deps extends QueryDeps where
  /-- Reads a token. -/
  decode : String → Option Jwt := fun _ => none
  /-- `none`: the body is valid. -/
  pipe : Route → Option (List String) := fun _ => none

variable (d : Deps)

def Request.jwt (req : Request) : Option Jwt := req.bearer.bind d.decode

/-- `req.user.userId`, once the token has been accepted. -/
def Request.userId (req : Request) : String := ((req.jwt d).map (·.sub)).getD ""

def Route.handler (userId : String) : Route → Handler
  | .kakao info => .serve .auth (.kakaoLogin info)
  | .refresh refreshToken => match d.decode refreshToken with
    | some token => .serve .auth (.refresh token)
    | none => .ended (some (Errors.unauthorized "유효하지 않은 리프레시 토큰입니다."))
  | .logout refreshToken => match d.decode refreshToken with
    | some token => .serve .auth (.logout token)
    | none => .ended none
  | .me => .query (.me userId)
  | .createWhitelist dto => .serve .whitelist (.create dto userId)
  | .listWhitelist dto => .query (.list dto)
  | .updateWhitelist id dto => .serve .admin (.update id dto)
  | .removeWhitelist id => .serve .whitelist (.remove id)
  | .listAccessRequests dto => .query (.listAccessRequests dto)
  | .approve id => .serve .whitelist (.approveAccessRequest id userId)
  | .dismiss id => .serve .whitelist (.dismissAccessRequest id)
  | .search dto => .query (.search userId dto)
  | .listRooms cursor limit => .query (.listRooms userId cursor limit)
  | .createRoom dto => .serve .rooms (.createRoom userId dto)
  | .detail roomId => .query (.getRoomView roomId userId)
  | .updateRoom roomId dto => .serve .roomUpdates (.updateRoom roomId userId dto)
  | .addMembers roomId userIds => .serve .rooms (.addMembers roomId userId userIds)
  | .updateMemberRole roomId target role =>
    .serve .rooms (.updateMemberRole roomId userId target role)
  | .removeMember roomId target => .serve .rooms (.removeMember roomId userId target)
  | .listMessages roomId cursor limit => .query (.listMessages roomId cursor limit)
  | .message req => .serve .messages (req.call userId)
  | .createUploadUrl dto => .serve .media (.createUploadUrl userId dto)
  | .complete mediaId => .serve .media (.complete mediaId userId)
  | .getMedia mediaId => .serve .media (.getMedia mediaId userId)
  | .registerToken dto => .serve .push (.registerToken userId dto)
  | .removeToken tokenId => .serve .push (.removeToken userId tokenId)
  | .createProfile dto => .serve .profile (.create userId dto)
  | .updateProfile dto => .serve .profile (.update userId dto)
  | .getProfile target => .query (.getProfile target userId)

def Request.handler (req : Request) : Handler := req.route.handler d (req.userId d)

/-! ## Typing -/

/-- A `typing` event, and the rooms of Socket.IO it is sent to. -/
structure Typing where
  rooms : List String
  roomId : String
  userId : String
  isTyping : Bool
deriving DecidableEq, Repr

/-- The hub, and the typing the gateway has relayed. -/
structure Site where
  hub : Hub := {}
  typed : List Typing := []

inductive TypingPc where
  | received
  | member (userId : Option String)
  | recipients (roomId userId : String)
  | done

/-- `roomId` is `body.roomId`. -/
def typingStep (id : String) (roomId : JsValue) (isTyping : Bool) (s : Site) :
    TypingPc → Option (Site × TypingPc)
  | .received => some (s, .member (s.hub.sockets id).userId)
  | .member userId => some (s, match roomId, userId with
    | .str roomId, some userId =>
      if (Messages.assertActiveMember s.hub.world.db roomId userId).isNone then
        .recipients roomId userId
      else .done
    -- the query throws
    | _, _ => .done)
  | .recipients roomId userId =>
    let recipients :=
      (Messages.getActiveMemberIds s.hub.world.db roomId).filter (· != userId)
    some (if recipients.isEmpty then s
      else { s with typed := s.typed ++ [⟨recipients.map userRoom, roomId, userId, isTyping⟩] },
      .done)
  | .done => none

/-! ## The program -/

inductive FrontCall where
  | socket (call : Realtime.Call ⊕ EventCall)
  | typing (id : String) (roomId : JsValue) (isTyping : Bool)
  | http (req : Request)
  | boot (kakaoIds : List String)
  | listener (message : SerializedMessage) (memberUserIds : List String)
      (preview roomTitle : String)
  /-- A client's `PUT` to the storage. -/
  | put (storageKey : String) (contentLength : Nat)

inductive FrontPc where
  | throttle
  | token
  | account
  | guards (todo : List Guard)
  | server (pc : ServerPc)
  | query (pc : QueryPc)
  | typing (pc : TypingPc)
  | ended (r : Option Thrown)

structure FrontChoice where
  throttled : Bool := false
  choice : Choice := {}
  orders : Orders := {}

/-- A call that returns at once. -/
def idle : ServerCall := .inr ⟨.whitelist, .onApplicationBootstrap []⟩

/-- The call behind, if any. -/
def FrontCall.call : FrontCall → ServerCall
  | .socket call => .inl call
  | .typing _ _ _ => idle
  | .http req => match req.handler d with
    | .serve s call => .inr ⟨s, call⟩
    | _ => idle
  | .boot kakaoIds => .inr ⟨.whitelist, .onApplicationBootstrap kakaoIds⟩
  | .listener message memberUserIds preview roomTitle =>
    .inr ⟨.push, .onMessageCreated message memberUserIds preview roomTitle⟩
  | .put storageKey contentLength => .inr ⟨.media, .putObject storageKey contentLength⟩

def back : Machine Hub ServerCall ServerPc Choice Realtime.Env :=
  Realtime.server d.cfg d.decode d.json

def FrontCall.start : FrontCall → FrontPc
  | .http _ => .throttle
  | .typing _ _ _ => .typing .received
  | k => .server ((back d).start (k.call d))

/-- The method is called. -/
def enter (req : Request) : FrontPc :=
  match req.handler d with
  | .serve s call => .server ((back d).start (.inr ⟨s, call⟩))
  | .query q => .query q.start
  | .ended r => .ended (r.map fun e => .failure (.app e))

/-- On to the pipe, once the guards are passed, and to the method. -/
def passed (req : Request) : FrontPc :=
  match d.pipe req.route with
  | some errors => .ended (some (.builtin 400 "Bad Request Exception" (some errors)))
  | none => enter d req

def proceed (req : Request) : List Guard → FrontPc
  | [] => passed d req
  | todo => .guards todo

/-- The guards that are asked before the method is called: all of `Route.guards`, but for
`RoomMemberGuard` where a valid request is handed on to the service with its read still to come. -/
def Request.guards (req : Request) : List Guard :=
  let guards := req.route.guards.getD []
  if req.route.guardsItself && (d.pipe req.route).isNone then guards.erase .roomMember else guards

def FrontPc.refused (e : AppException) : FrontPc := .ended (some (.failure (.app e)))

def refuseToken : FrontPc :=
  .refused (Errors.unauthorized "유효하지 않거나 만료된 토큰입니다.")

/-- What the guards and the pipe do; nothing of it writes. -/
def guardStep (c : FrontChoice) (req : Request) (w : World) : FrontPc → Option FrontPc
  | .throttle =>
    some (if c.throttled then
        .ended (some (.builtin 429 "ThrottlerException: Too Many Requests" none))
      else if req.route.guards.isSome then .token else passed d req)
  | .token => some (match (req.jwt d).filter (w.verifyAsync · d.cfg.accessSecret) with
    | none => refuseToken
    | some payload => if payload.type = .access then .account else refuseToken)
  | .account => some (match authenticate w.db (req.userId d) with
    | some e => .refused e
    | none => proceed d req (req.guards d))
  | .guards (g :: todo) =>
    some (match g.check d.adminIds w.db (req.userId d) req.route.roomId with
      | some e => .refused e
      | none => proceed d req todo)
  | _ => none

def frontStep (c : FrontChoice) (k : FrontCall) (s : Site) : FrontPc → Option (Site × FrontPc)
  | .server pc => ((back d).step c.choice (k.call d) s.hub pc).map fun r =>
      ({ s with hub := r.1 }, .server r.2)
  | .typing pc => match k with
    | .typing id roomId isTyping =>
      (typingStep id roomId isTyping s pc).map fun r => (r.1, .typing r.2)
    | _ => none
  | .query pc => match k with
    | .http req => match req.handler d with
      | .query q => (queryStep d.toQueryDeps c.orders q s.hub.world pc).map fun pc' =>
          (s, .query pc')
      | _ => none
    | _ => none
  | pc => match k with
    | .http req => (guardStep d c req s.hub.world pc).map fun pc' => (s, pc')
    | _ => none

def front : Machine Site FrontCall FrontPc FrontChoice Realtime.Env where
  start := FrontCall.start d
  step := frontStep d
  env e s := { s with hub := Realtime.env d.cfg e s.hub }

end Intaktok.Http
