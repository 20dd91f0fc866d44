import Intaktok.Media.Service
import Intaktok.Messages.Service
/-
# The view of a room

| here | there |
| --- | --- |
| `loadRoom` | the `include` of `getRoomView` (`rooms.service.ts:215`) |
| `avatarIds` | the media `collectAvatars` (`:463`) asks for |
| `buildView` | `buildView` (`:472`) |
| `ViewPc`, `viewStep` | `getRoomView`: the room, then the avatars if there are any, then the unread count of a member |
-/

namespace Intaktok.Rooms

open Tables Messages

structure RoomWithMembers where
  room : Room
  members : List (RoomMember × Option Profile)
  last : Option Message

def loadRoom (db : Db) (roomId : String) : Option RoomWithMembers :=
  (db.rooms.find (·.id == roomId)).map fun room =>
    let members := db.roomMembers.findMany fun m => m.roomId == roomId && m.leftAt.isNone
    { room
      members := members.map fun m => (m, db.profiles.find (·.userId == m.userId))
      last := db.messages.find fun m => m.roomId == roomId && m.seq == dbMaxSeq db roomId }

def avatarIds (r : RoomWithMembers) : List String :=
  ((truthy r.room.avatarMediaId).toList ++
    r.members.flatMap fun m => (truthy (m.2.bind (·.avatarMediaId))).toList).eraseDups

def avatarUrl (found : List String) (mediaId : Option String) : Option String :=
  (truthy mediaId).filter (found.contains ·)

/-- `none` when the preview of the last message throws. -/
def buildView (json : Json) (r : RoomWithMembers) (found : List String) (unreadCount : Nat) :
    Option RoomView :=
  let view := fun lastMessage => {
    id := r.room.id
    type := r.room.type
    name := r.room.name
    avatarUrl := avatarUrl found r.room.avatarMediaId
    createdBy := r.room.createdBy
    createdAt := r.room.createdAt
    lastMessageAt := r.room.lastMessageAt
    members := r.members.map fun m =>
      ⟨m.1.userId, m.2.map (·.nickname), avatarUrl found (m.2.bind (·.avatarMediaId)), m.1.role⟩
    lastMessage
    unreadCount }
  match r.last with
  | none => some (view none)
  | some m =>
    let preview := if m.deletedAt.isSome then some "삭제된 메시지입니다."
      else messagePreview json m.type m.content
    preview.map fun preview => view (some ⟨m.seq, m.type, preview, m.createdAt⟩)

inductive ViewPc where
  | room
  | avatars (r : RoomWithMembers) (ids : List String)
  | unread (r : RoomWithMembers) (found : List String) (lastReadSeq : Nat)
  | done (r : Except Failure RoomView)

def built (json : Json) (r : RoomWithMembers) (found : List String) (unreadCount : Nat) : ViewPc :=
  .done (match buildView json r found unreadCount with
    | some view => .ok view
    | none => .error .js)

/-- What follows the avatars. -/
def afterAvatars (json : Json) (requesterId : String) (r : RoomWithMembers)
    (found : List String) : ViewPc :=
  match r.members.find? (·.1.userId == requesterId) with
  | some membership => .unread r found membership.1.lastReadSeq
  | none => built json r found 0

def viewStep (json : Json) (roomId requesterId : String) (w : World) : ViewPc → Option ViewPc
  | .room => some (match loadRoom w.db roomId with
    | none => .done (.error (.app (Errors.notFound "채팅방을 찾을 수 없습니다.")))
    | some r =>
      let ids := avatarIds r
      if ids.isEmpty then afterAvatars json requesterId r [] else .avatars r ids)
  | .avatars r ids =>
    some (afterAvatars json requesterId r (MediaService.resolveAvatarUrls w.db ids))
  | .unread r found lastReadSeq =>
    some (built json r found (countUnread w.db roomId requesterId lastReadSeq))
  | .done _ => none

end Intaktok.Rooms
