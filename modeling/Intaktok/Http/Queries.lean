import Intaktok.Http.Guards
import Intaktok.Http.Lists
import Intaktok.Messages.History
/-
# What a request only reads

| here | there |
| --- | --- |
| `Query.me`, `QueryPc.user`, `QueryPc.meAvatar` | `AuthService.me` (`auth.service.ts:190`) |
| `Query.getProfile`, `shareRoom`, `QueryPc.profile` | `UsersService.getProfile` (`users.service.ts:36`) with `shareRoom` (`:22`) |
| `Query.search` | `UsersService.search` behind `GET users/search` |
| `Query.listRooms` | `RoomsService.listRooms` behind `GET rooms` |
| `Query.getRoomView` | `RoomsService.getRoomView` behind `GET rooms/:roomId` |
| `Query.listMessages` | `MessagesService.listMessages` behind `GET rooms/:roomId/messages` |
| `Query.list`, `Query.listAccessRequests` | `AdminService.list` and `listAccessRequests` |

`limit` is that of the request, the default of its DTO included.
-/

namespace Intaktok.Http

open Tables

inductive Query where
  | me (userId : String)
  | getProfile (targetUserId requesterId : String)
  | search (requesterId : String) (dto : UsersService.SearchUsersDto)
  | listRooms (userId : String) (cursor : Option String) (limit : Nat)
  | getRoomView (roomId requesterId : String)
  | listMessages (roomId : String) (cursor : Option String) (limit : Nat)
  | list (dto : Admin.ListWhitelistDto)
  | listAccessRequests (dto : Admin.CursorPaginationDto)

/-- What the tables do not say about an answer. -/
structure QueryDeps where
  cfg : AppConfig := {}
  adminIds : List String := []
  json : Messages.Json := Messages.noJson
  /-- What `Number` makes of a cursor that is no row of digits. -/
  other : String → Messages.Numeric := fun _ => .notFinite
  /-- What `Date` makes of a cursor that is no `toISOString()`. -/
  dates : String → Option Int := fun _ => none
  /-- The order of ids in the database. -/
  ids : LinearOrder String := inferInstance
  fold : UsersService.Folding := UsersService.ascii

/-- In what order the database gives the rows it may give in any. -/
structure Orders where
  rooms : (db : Db) → Rooms.Sorting db := Rooms.Sorting.stable
  whitelist : Paging.Sorting Whitelist.createdAt := .stable _
  accessRequests : Paging.Sorting AccessRequest.createdAt := .stable _

/-- The `profile` of `me`. -/
structure OwnProfile where
  nickname : String
  statusMessage : Option String
  avatarMediaId : Option String
  avatarUrl : Option MediaService.Url
deriving DecidableEq, Repr

structure Me where
  id : String
  kakaoId : String
  isOnboarded : Bool
  isAdmin : Bool
  profile : Option OwnProfile
deriving DecidableEq, Repr

structure UserProfile where
  id : String
  nickname : String
  statusMessage : Option String
  avatarUrl : Option MediaService.Url
  lastSeenAt : Option Nat
deriving DecidableEq, Repr

inductive Answer where
  | me (me : Me)
  | profile (profile : UserProfile)
  | users (page : Messages.Paginated UsersService.PublicUser)
  | rooms (page : Messages.Paginated RoomView)
  | room (room : RoomView)
  | messages (page : Messages.Paginated Messages.ListedMessage)
  | whitelist (page : Messages.Paginated Whitelist)
  | accessRequests (page : Messages.Paginated AccessRequest)

inductive QueryPc where
  | user
  | meAvatar (user : User) (profile : Profile) (mediaId : String)
  | share
  | profile
  | profileAvatar (profile : Profile) (lastSeenAt : Option Nat) (mediaId : String)
  | users (pc : UsersService.SearchPc)
  | rooms (pc : Rooms.ListPc)
  | room (pc : Rooms.ViewPc)
  | messages (pc : Messages.ListPc)
  | whitelist
  | accessRequests
  | done (r : Except Failure Answer)

def QueryPc.fail (e : AppException) : QueryPc := .done (.error (.app e))

def Query.start : Query → QueryPc
  | .me _ => .user
  | .getProfile targetUserId requesterId => if requesterId = targetUserId then .profile else .share
  | .search _ _ => .users .rows
  | .listRooms _ _ _ => .rooms .rows
  | .getRoomView _ _ => .room .room
  | .listMessages _ _ _ => .messages .rows
  | .list _ => .whitelist
  | .listAccessRequests _ => .accessRequests

/-! ## `me` -/

def meAnswer (adminIds : List String) (user : User) (profile : Option Profile)
    (avatarUrl : Option MediaService.Url) : Me where
  id := user.id
  kakaoId := user.kakaoId
  isOnboarded := profile.any (·.onboardedAt.isSome)
  isAdmin := isAdminIdentity adminIds user.id (some user.kakaoId)
  profile := profile.map fun p => ⟨p.nickname, p.statusMessage, p.avatarMediaId, avatarUrl⟩

def meStep (cfg : AppConfig) (adminIds : List String) (userId : String) (db : Db) :
    QueryPc → Option QueryPc
  | .user => some (match db.users.find (·.id == userId) with
    | none => .fail (Errors.notFound "사용자를 찾을 수 없습니다.")
    | some user =>
      let profile := db.profiles.find (·.userId == userId)
      match profile, truthy (profile.bind (·.avatarMediaId)) with
      | some p, some mediaId => .meAvatar user p mediaId
      | _, _ => .done (.ok (.me (meAnswer adminIds user profile none))))
  | .meAvatar user profile mediaId =>
    let avatarUrl := MediaService.resolveAvatarUrl cfg db mediaId
    some (.done (.ok (.me (meAnswer adminIds user (some profile) avatarUrl))))
  | _ => none

/-! ## `getProfile` -/

/-- The query of `shareRoom`, for two users. -/
def shareRoom (db : Db) (a b : String) : Bool :=
  db.roomMembers.rows.any fun m => m.userId == a && m.leftAt.isNone &&
    db.roomMembers.rows.any (fun m' => m'.roomId == m.roomId && m'.userId == b && m'.leftAt.isNone)

def profileAnswer (userId : String) (p : Profile) (avatarUrl : Option MediaService.Url)
    (lastSeenAt : Option Nat) : UserProfile :=
  ⟨userId, p.nickname, p.statusMessage, avatarUrl, lastSeenAt⟩

def getProfileStep (cfg : AppConfig) (targetUserId requesterId : String) (db : Db) :
    QueryPc → Option QueryPc
  | .share =>
    some (if shareRoom db requesterId targetUserId then .profile
      else .fail (Errors.forbidden "해당 사용자의 프로필을 조회할 권한이 없습니다."))
  | .profile => some (match db.profiles.find (·.userId == targetUserId) with
    | none => .fail (Errors.notFound "프로필을 찾을 수 없습니다.")
    | some p =>
      let lastSeenAt := db.lastSeenAt.lookup targetUserId
      match truthy p.avatarMediaId with
      | some mediaId => .profileAvatar p lastSeenAt mediaId
      | none => .done (.ok (.profile (profileAnswer targetUserId p none lastSeenAt))))
  | .profileAvatar p lastSeenAt mediaId =>
    let avatarUrl := MediaService.resolveAvatarUrl cfg db mediaId
    some (.done (.ok (.profile (profileAnswer targetUserId p avatarUrl lastSeenAt))))
  | _ => none

/-! ## Queries -/

def answered {α : Type} (answer : α → Answer) (r : Except Failure α) : QueryPc :=
  .done (r.map answer)

def usersNext : UsersService.SearchPc → QueryPc
  | .done r => answered .users r
  | pc => .users pc

def roomsNext : Rooms.ListPc → QueryPc
  | .done r => answered .rooms r
  | pc => .rooms pc

def roomNext : Rooms.ViewPc → QueryPc
  | .done r => answered .room r
  | pc => .room pc

def messagesNext : Messages.ListPc → QueryPc
  | .done r => answered .messages r
  | pc => .messages pc

/-- Ids in the order of the database. -/
def QueryDeps.collation (d : QueryDeps) : letI := d.ids; UsersService.Collation String :=
  letI := d.ids; ⟨id, Function.injective_id⟩

def queryStep (d : QueryDeps) (orders : Orders) (query : Query) (w : World) (pc : QueryPc) :
    Option QueryPc :=
  match query, pc with
  | .me userId, pc => meStep d.cfg d.adminIds userId w.db pc
  | .getProfile targetUserId requesterId, pc =>
    getProfileStep d.cfg targetUserId requesterId w.db pc
  | .search requesterId dto, .users pc =>
    letI := d.ids
    (UsersService.searchStep d.collation d.fold requesterId dto w.db pc).map usersNext
  | .listRooms userId cursor limit, .rooms pc =>
    (Rooms.listStep d.json d.dates orders.rooms userId cursor limit w.db pc).map roomsNext
  | .getRoomView roomId requesterId, .room pc =>
    (Rooms.viewStep d.json roomId requesterId w pc).map roomNext
  | .listMessages roomId cursor limit, .messages pc =>
    (Messages.listStep d.other roomId cursor limit w pc).map messagesNext
  | .list dto, .whitelist =>
    some (answered .whitelist (Admin.list d.dates orders.whitelist w.db dto))
  | .listAccessRequests dto, .accessRequests =>
    some (answered .accessRequests
      (Admin.listAccessRequests d.dates orders.accessRequests w.db dto))
  | _, _ => none

end Intaktok.Http
