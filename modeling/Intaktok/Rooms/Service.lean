import Intaktok.Rooms.View
/-
# `RoomsService` cut at its await points

| here | there |
| --- | --- |
| `canActivate` | `RoomMemberGuard.canActivate` (`room-member.guard.ts:28`) |
| `directKey`, `assertActiveUsers`, `requireGroup`, `requireRole` | the methods of those names (`rooms.service.ts:54`, `:58`, `:442`, `:449`) |
| `createStep` | `createRoom` with `createDirect` (`:82`), `reactivateDirect` (`:127`) and `createGroup` (`:139`) |
| `addStep` | `addMembers` (`:276`), `Pc.write` being one turn of its loop |
| `roleStep` | `updateMemberRole` (`:330`), `Pc.setRole` being the `$transaction` |
| `removeStep` | `removeMember` (`:374`) with `transferOwnership` (`:425`) |
| `Task`, `tailStep` | what a request does once it has written: `createSystemMessage`, `emitLifecycle` (`:453`), `getRoomView`, one after the other |

A request on a room begins with the guard's read of the actor's membership. `updateRoom` is in
`UpdateRoom.lean`; the queries are left out.
-/

namespace Intaktok.Rooms

open Interleave Tables Messages

structure CreateRoomDto where
  type : RoomType
  name : Option String := none
  avatarMediaId : Option String := none
  memberUserIds : List String

inductive Call where
  | createRoom (creatorId : String) (dto : CreateRoomDto)
  | addMembers (roomId actorId : String) (userIds : List String)
  | updateMemberRole (roomId actorId targetUserId : String) (role : MemberRole)
  | removeMember (roomId actorId targetUserId : String)

/-! ## Members -/

def isMember (roomId userId : String) (m : RoomMember) : Bool :=
  m.roomId == roomId && m.userId == userId

/-- The `data` of an update of a membership; `none` leaves the column alone. -/
structure MemberData where
  role : Option MemberRole := none
  joinedAt : Option Nat := none
  lastReadSeq : Option Nat := none
  leftAt : Option (Option Nat) := none

def MemberData.apply (d : MemberData) (m : RoomMember) : RoomMember :=
  { m with
    role := d.role.getD m.role
    joinedAt := d.joinedAt.getD m.joinedAt
    lastReadSeq := d.lastReadSeq.getD m.lastReadSeq
    leftAt := d.leftAt.getD m.leftAt }

/-- `roomMember.update`; `none` if there is no such row. -/
def updateMember (t : Table RoomMember) (roomId userId : String) (d : MemberData) :
    Option (Table RoomMember) :=
  if t.rows.any (isMember roomId userId) then
    some (t.updateWhere (isMember roomId userId) d.apply fun _ _ _ => rfl)
  else none

/-! ## Checks -/

def canActivate (db : Db) (roomId userId : String) : Except AppException MemberRole :=
  if userId = "" then .error Errors.unauthorized
  else if roomId = "" then .error (Errors.validation "roomId가 필요합니다.")
  else match (db.roomMembers.find (isMember roomId userId)).filter (·.leftAt.isNone) with
    | some membership => .ok membership.role
    | none => .error (Errors.forbidden "해당 채팅방에 접근할 권한이 없습니다.")

def requireGroup (db : Db) (roomId : String) : Except AppException Room :=
  match db.rooms.find (·.id == roomId) with
  | none => .error (Errors.notFound "채팅방을 찾을 수 없습니다.")
  | some room =>
    if room.type ≠ .GROUP then .error (Errors.forbidden "그룹 채팅에서만 가능합니다.") else .ok room

def requireRole (role : MemberRole) (allowed : List MemberRole) : Except AppException Unit :=
  if allowed.contains role then .ok ()
  else .error (Errors.forbidden "해당 작업을 수행할 권한이 없습니다.")

def assertActiveUsers (db : Db) (userIds : List String) : Except AppException Unit :=
  let ids := userIds.eraseDups
  let users := db.users.findMany fun u => ids.contains u.id && u.status == .ACTIVE
  if users.length ≠ ids.length then
    .error (Errors.forbidden "등록되지 않았거나 비활성화된 사용자가 포함되어 있습니다."
      [("invalid", ids.filter fun id => !users.any (·.id == id))])
  else .ok ()

/-- The UTF-16 units by which JavaScript orders strings. -/
def utf16 (s : String) : List Nat :=
  s.toList.flatMap fun c =>
    if c.toNat < 0x10000 then [c.toNat]
    else [0xD800 + (c.toNat - 0x10000) / 0x400, 0xDC00 + (c.toNat - 0x10000) % 0x400]

/-- `[a, b].sort().join(':')`. -/
def directKey (a b : String) : String :=
  if utf16 b < utf16 a then b ++ ":" ++ a else a ++ ":" ++ b

/-! ## What follows the writes -/

inductive Lifecycle where
  | ROOM_CREATED | ROOM_UPDATED
deriving DecidableEq, Repr

def Lifecycle.event (roomId : String) (memberUserIds : List String) (room : RoomView) :
    Lifecycle → DomainEvent
  | .ROOM_CREATED => .roomCreated room roomId memberUserIds
  | .ROOM_UPDATED => .roomUpdated room roomId memberUserIds

/-- Who hears of a lifecycle event: a list known beforehand, the members active by then, or these
and one more. -/
inductive Recipients where
  | fixed (memberUserIds : List String)
  | active
  | activeAnd (userId : String)

inductive Task where
  | system (actorId : String) (payload : SystemMessagePayload)
  | lifecycle (event : Lifecycle) (recipients : Recipients)
  | view (requesterId : String)

inductive TailPc where
  | system (pc : Messages.CreatePc)
  | recipients
  | lifecycle (memberUserIds : List String) (pc : ViewPc)
  | view (pc : ViewPc)

inductive Pc where
  | guard
  | activeUsers
  | directRoom
  | insertDirect
  | winner (e : Failure)
  | reactivate (roomId : String)
  | avatar (mediaId : String)
  | insertGroup
  | room (role : MemberRole)
  | head
  | existing (head : Nat)
  | write (head : Nat) (existing : List RoomMember) (todo added : List String)
  | target (role : MemberRole) (type : RoomType)
  | setRole
  | leave (type : RoomType) (role : MemberRole)
  | candidates
  | promote (userId : String)
  | tail (roomId : String) (task : Task) (todo : List Task) (pc : TailPc) (result : Option RoomView)
  | done (r : Except Failure (Option RoomView))

def Pc.fail (e : AppException) : Pc := .done (.error (.app e))

def orFail {α : Type} (x : Except AppException α) (next : α → Pc) : Pc :=
  match x with
  | .ok a => next a
  | .error e => .fail e

def Task.start (json : Json) (roomId : String) : Task → TailPc
  | .system actorId payload => .system (createStart (systemParams json roomId actorId payload))
  | .lifecycle _ (.fixed memberUserIds) => .lifecycle memberUserIds .room
  | .lifecycle _ _ => .recipients
  | .view _ => .view .room

def proceed (json : Json) (roomId : String) (result : Option RoomView) : List Task → Pc
  | [] => .done (.ok result)
  | task :: todo => .tail roomId task todo (task.start json roomId) result

def recipientsOf (db : Db) (roomId : String) : Recipients → List String
  | .fixed memberUserIds => memberUserIds
  | .active => getActiveMemberIds db roomId
  | .activeAnd userId => (getActiveMemberIds db roomId ++ [userId]).eraseDups

def tailStep (json : Json) (c : Choice) (roomId : String) (task : Task) (todo : List Task)
    (result : Option RoomView) (w : World) : TailPc → Option (World × Pc)
  | .system pc => match task with
    | .system actorId payload =>
      (Messages.createStep json c (systemParams json roomId actorId payload) w pc).map fun r =>
        (r.1, match r.2 with
          | .done (.ok _) => proceed json roomId result todo
          | .done (.error e) => .done (.error e)
          | pc' => .tail roomId task todo (.system pc') result)
    | _ => none
  | .recipients => match task with
    | .lifecycle _ recipients =>
      let memberUserIds := recipientsOf w.db roomId recipients
      some (w, .tail roomId task todo (.lifecycle memberUserIds .room) result)
    | _ => none
  | .lifecycle memberUserIds pc => match task with
    | .lifecycle event _ =>
      (viewStep json roomId (memberUserIds.headD roomId) w pc).map fun
        | .done (.ok room) =>
          (w.emit (event.event roomId memberUserIds room), proceed json roomId result todo)
        | .done (.error e) => (w, .done (.error e))
        | pc' => (w, .tail roomId task todo (.lifecycle memberUserIds pc') result)
    | _ => none
  | .view pc => match task with
    | .view requesterId => (viewStep json roomId requesterId w pc).map fun
        | .done (.ok room) => (w, proceed json roomId (some room) todo)
        | .done (.error e) => (w, .done (.error e))
        | pc' => (w, .tail roomId task todo (.view pc') result)
    | _ => none

/-! ## `createRoom` -/

def createStart (creatorId : String) (dto : CreateRoomDto) : Pc :=
  match dto.type with
  | .DIRECT => match dto.memberUserIds with
    | [otherId] =>
      if otherId = creatorId then
        .fail (Errors.validation "자기 자신과는 방을 만들 수 없습니다.")
      else .activeUsers
    | _ => .fail (Errors.validation "1:1 방은 상대 1명을 지정해야 합니다.")
  | .GROUP => .activeUsers

/-- The other side of a direct room. -/
def CreateRoomDto.otherId (dto : CreateRoomDto) : String := dto.memberUserIds.headD ""

/-- `[...new Set([creatorId, ...dto.memberUserIds])]`. -/
def CreateRoomDto.memberIds (dto : CreateRoomDto) (creatorId : String) : List String :=
  (creatorId :: dto.memberUserIds).eraseDups

/-- A `cuid()` no room has. -/
def freshRoomId (db : Db) (id : String) : Bool :=
  id != "" && isCuid id && !db.rooms.rows.any (·.id == id)

def insertMembers (t : Table RoomMember) : List RoomMember → Except Failure (Table RoomMember)
  | [] => .ok t
  | m :: ms => match t.insert m with
    | .ok t' => insertMembers t' ms
    | .error _ => .error (.uniqueConstraint ["roomId", "userId"])

/-- `room.create` with its nested members, in one transaction. -/
def insertRoom (room : Room) (members : List RoomMember) (w : World) : Except Failure World :=
  match w.db.rooms.insert room with
  | .error .id => .error (.uniqueConstraint ["id"])
  | .error .directKey => .error (.uniqueConstraint ["directKey"])
  | .ok rooms => match insertMembers w.db.roomMembers members with
    | .error e => .error e
    | .ok roomMembers =>
      if members.all fun m => w.db.users.rows.any (·.id == m.userId) then
        .ok { w with db.rooms := rooms, db.roomMembers := roomMembers }
      else .error .foreignKey

def directMembers (roomId : String) (now : Nat) (creatorId otherId : String) : List RoomMember :=
  [creatorId, otherId].map fun userId => { roomId, userId, role := .MEMBER, joinedAt := now }

def groupMembers (roomId : String) (now : Nat) (creatorId : String) (memberIds : List String) :
    List RoomMember :=
  memberIds.map fun userId =>
    { roomId, userId, role := if userId = creatorId then .OWNER else .MEMBER, joinedAt := now }

/-- The update of `reactivateDirect`. -/
def reactivateMembers (t : Table RoomMember) (roomId : String) (userIds : List String) :
    Table RoomMember :=
  t.updateWhere (fun m => m.roomId == roomId && userIds.contains m.userId && m.leftAt.isSome)
    ({ leftAt := some none : MemberData }).apply fun _ _ _ => rfl

def createStep (json : Json) (c : Choice) (creatorId : String) (dto : CreateRoomDto) (w : World) :
    Pc → Option (World × Pc)
  | .activeUsers => some (w, match dto.type with
    | .DIRECT => orFail (assertActiveUsers w.db [creatorId, dto.otherId]) fun _ => .directRoom
    | .GROUP => orFail (assertActiveUsers w.db (dto.memberIds creatorId)) fun _ =>
      match truthy dto.avatarMediaId with
      | some mediaId => .avatar mediaId
      | none => .insertGroup)
  | .directRoom =>
    some (w, match w.db.rooms.find (·.directKey == some (directKey creatorId dto.otherId)) with
    | some existing => .reactivate existing.id
    | none => .insertDirect)
  | .insertDirect =>
    if freshRoomId w.db c.id then
      let room : Room := { id := c.id, type := .DIRECT, createdBy := creatorId, createdAt := w.now,
                           directKey := some (directKey creatorId dto.otherId) }
      match insertRoom room (directMembers c.id w.now creatorId dto.otherId) w with
      | .ok w' => some (w', proceed json c.id none
          [.view creatorId, .lifecycle .ROOM_CREATED (.fixed [creatorId, dto.otherId])])
      | .error (.uniqueConstraint target) => some (w, .winner (.uniqueConstraint target))
      | .error e => some (w, .done (.error e))
    else none
  | .winner e =>
    some (w, match w.db.rooms.find (·.directKey == some (directKey creatorId dto.otherId)) with
    | some winner => .reactivate winner.id
    | none => .done (.error e))
  | .reactivate roomId =>
    let roomMembers := reactivateMembers w.db.roomMembers roomId [creatorId, dto.otherId]
    some ({ w with db.roomMembers := roomMembers }, proceed json roomId none [.view creatorId])
  | .avatar mediaId =>
    some (w, orFail (MediaService.assertOwnedMedia w.db mediaId creatorId) fun _ => .insertGroup)
  | .insertGroup =>
    if freshRoomId w.db c.id then
      let room : Room := { id := c.id, type := .GROUP, name := dto.name,
                           avatarMediaId := dto.avatarMediaId, createdBy := creatorId,
                           createdAt := w.now }
      let memberIds := dto.memberIds creatorId
      match insertRoom room (groupMembers c.id w.now creatorId memberIds) w with
      | .ok w' => some (w', proceed json c.id none
          [.lifecycle .ROOM_CREATED (.fixed memberIds),
            .system creatorId (.roomCreated creatorId), .view creatorId])
      | .error e => some (w, .done (.error e))
    else none
  | _ => none

/-! ## `addMembers` -/

/-- On to the next user of the loop who is not an active member already. -/
def nextWrite (json : Json) (roomId actorId : String) (head : Nat) (existing : List RoomMember)
    (todo added : List String) : Pc :=
  match todo.dropWhile fun userId =>
    existing.any fun m => m.userId == userId && m.leftAt.isNone with
  | [] => proceed json roomId none (if added.isEmpty then [.view actorId] else
      [.lifecycle .ROOM_UPDATED .active, .system actorId (.memberJoined actorId added),
        .view actorId])
  | todo => .write head existing todo added

/-- What the loop writes for one user. -/
def joinMember (roomId userId : String) (head : Nat) (existing : List RoomMember) (w : World) :
    Except Failure (Table RoomMember) :=
  if existing.any (·.userId == userId) then
    let data : MemberData := { leftAt := some none, role := some .MEMBER, joinedAt := some w.now,
                               lastReadSeq := some head }
    match updateMember w.db.roomMembers roomId userId data with
    | some t => .ok t
    | none => .error .recordNotFound
  else
    match w.db.roomMembers.insert { roomId, userId, joinedAt := w.now, lastReadSeq := head } with
    | .error _ => .error (.uniqueConstraint ["roomId", "userId"])
    | .ok t =>
      if w.db.rooms.rows.any (·.id == roomId) && w.db.users.rows.any (·.id == userId) then .ok t
      else .error .foreignKey

def addStep (json : Json) (roomId actorId : String) (userIds : List String) (w : World) :
    Pc → Option (World × Pc)
  | .guard => some (w, orFail (canActivate w.db roomId actorId) .room)
  | .room role => some (w, orFail (requireGroup w.db roomId) fun _ =>
      orFail (requireRole role [.OWNER, .ADMIN]) fun _ => .activeUsers)
  | .activeUsers => some (w, orFail (assertActiveUsers w.db userIds) fun _ => .head)
  | .head => some (w, .existing (dbMaxSeq w.db roomId))
  | .existing head =>
    let existing := w.db.roomMembers.findMany fun m =>
      m.roomId == roomId && userIds.contains m.userId
    some (w, nextWrite json roomId actorId head existing userIds.eraseDups [])
  | .write head existing todo added => match todo with
    | [] => none
    | userId :: todo => match joinMember roomId userId head existing w with
      | .ok roomMembers => some ({ w with db.roomMembers := roomMembers },
          nextWrite json roomId actorId head existing todo (added ++ [userId]))
      | .error e => some (w, .done (.error e))
  | _ => none

/-! ## `updateMemberRole` -/

/-- The `$transaction`: ownership is singular. -/
def setRole (t : Table RoomMember) (roomId actorId targetUserId : String) (role : MemberRole) :
    Option (Table RoomMember) :=
  (updateMember t roomId targetUserId { role := some role }).bind fun t =>
    if role = .OWNER then updateMember t roomId actorId { role := some .ADMIN } else some t

def roleStep (json : Json) (roomId actorId targetUserId : String) (role : MemberRole) (w : World) :
    Pc → Option (World × Pc)
  | .guard => some (w, orFail (canActivate w.db roomId actorId) .room)
  | .room actorRole => some (w, orFail (requireGroup w.db roomId) fun room =>
      orFail (requireRole actorRole [.OWNER]) fun _ => .target actorRole room.type)
  | .target _ _ =>
    some (w, match w.db.roomMembers.find (isMember roomId targetUserId) with
    | some target =>
      if target.leftAt.isSome then .fail (Errors.notFound "대상 멤버를 찾을 수 없습니다.")
      else if targetUserId = actorId then
        .fail (Errors.validation "본인 권한은 변경할 수 없습니다.")
      else .setRole
    | none => .fail (Errors.notFound "대상 멤버를 찾을 수 없습니다."))
  | .setRole => match setRole w.db.roomMembers roomId actorId targetUserId role with
    | some roomMembers => some ({ w with db.roomMembers := roomMembers }, proceed json roomId none
        [.system actorId (.roleChanged actorId targetUserId role),
          .lifecycle .ROOM_UPDATED .active, .view actorId])
    | none => some (w, .done (.error .recordNotFound))
  | _ => none

/-! ## `removeMember` -/

/-- Kicking someone else requires OWNER or ADMIN and proper rank. -/
def assertMayRemove (actorId : String) (actorRole : MemberRole) (targetUserId : String)
    (target : RoomMember) : Except AppException Unit :=
  if targetUserId = actorId then .ok ()
  else if actorRole = .MEMBER then .error (Errors.forbidden "멤버를 내보낼 권한이 없습니다.")
  else if target.role = .OWNER then .error (Errors.forbidden "소유자는 내보낼 수 없습니다.")
  else if actorRole = .ADMIN ∧ target.role = .ADMIN then
    .error (Errors.forbidden "관리자는 다른 관리자를 내보낼 수 없습니다.")
  else .ok ()

def afterRemoval (json : Json) (roomId actorId targetUserId : String) (type : RoomType) : Pc :=
  let payload : SystemMessagePayload :=
    if targetUserId = actorId then .memberLeft actorId else .memberKicked actorId targetUserId
  let lifecycle := .lifecycle .ROOM_UPDATED (.activeAnd targetUserId)
  proceed json roomId none
    (if type = .GROUP then [.system actorId payload, lifecycle] else [lifecycle])

/-- `orderBy: [{ role: 'asc' }, { joinedAt: 'asc' }]`. -/
def senior (a b : RoomMember) : Prop :=
  a.role.rank < b.role.rank ∨ (a.role.rank = b.role.rank ∧ a.joinedAt ≤ b.joinedAt)

instance (a b : RoomMember) : Decidable (senior a b) := inferInstanceAs (Decidable (_ ∨ _))

/-- Whom `transferOwnership` picks. -/
def successor (candidates : List RoomMember) : Option RoomMember :=
  (candidates.find? (·.role == .ADMIN)) <|> candidates.head?

def removeStep (json : Json) (c : Choice) (roomId actorId targetUserId : String) (w : World) :
    Pc → Option (World × Pc)
  | .guard => some (w, orFail (canActivate w.db roomId actorId) .room)
  | .room actorRole => some (w, match w.db.rooms.find (·.id == roomId) with
    | none => .fail (Errors.notFound "채팅방을 찾을 수 없습니다.")
    | some room => .target actorRole room.type)
  | .target actorRole type =>
    some (w, match w.db.roomMembers.find (isMember roomId targetUserId) with
    | some target =>
      if target.leftAt.isSome then .fail (Errors.notFound "대상 멤버를 찾을 수 없습니다.")
      else orFail (assertMayRemove actorId actorRole targetUserId target) fun _ =>
        .leave type target.role
    | none => .fail (Errors.notFound "대상 멤버를 찾을 수 없습니다."))
  | .leave type role =>
    match updateMember w.db.roomMembers roomId targetUserId { leftAt := some (some w.now) } with
    | some roomMembers => some ({ w with db.roomMembers := roomMembers },
        if role = .OWNER ∧ type = .GROUP then .candidates
        else afterRemoval json roomId actorId targetUserId type)
    | none => some (w, .done (.error .recordNotFound))
  | .candidates =>
    let found := w.db.roomMembers.findMany fun m => m.roomId == roomId && m.leftAt.isNone
    -- rows that tie come back in any order
    if c.members.isPerm found && decide (c.members.Pairwise senior) then
      some (w, match successor c.members with
        | some next => .promote next.userId
        | none => afterRemoval json roomId actorId targetUserId .GROUP)
    else none
  | .promote userId =>
    match updateMember w.db.roomMembers roomId userId { role := some .OWNER } with
    | some roomMembers => some ({ w with db.roomMembers := roomMembers },
        afterRemoval json roomId actorId targetUserId .GROUP)
    | none => some (w, .done (.error .recordNotFound))
  | _ => none

/-! ## The machine -/

def start : Call → Pc
  | .createRoom creatorId dto => createStart creatorId dto
  | _ => .guard

def step (json : Json) (c : Choice) (call : Call) (w : World) (pc : Pc) : Option (World × Pc) :=
  match pc with
  | .tail roomId task todo pc result => tailStep json c roomId task todo result w pc
  | pc => match call with
    | .createRoom creatorId dto => createStep json c creatorId dto w pc
    | .addMembers roomId actorId userIds => addStep json roomId actorId userIds w pc
    | .updateMemberRole roomId actorId targetUserId role =>
      roleStep json roomId actorId targetUserId role w pc
    | .removeMember roomId actorId targetUserId =>
      removeStep json c roomId actorId targetUserId w pc

/-- Only time passes by itself. -/
def machine (json : Json) : Machine World Call Pc Choice Nat where
  start := start
  step := step json
  env := World.tick

end Intaktok.Rooms
