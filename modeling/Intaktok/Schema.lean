import Intaktok.Lib.Table
/-
# The database schema

| here | there |
| --- | --- |
| the enumerations | `enum` declarations of `prisma/schema.prisma`, and the values of `Media.status` |
| `User` … `PushToken` | the `model` of the same name; columns no modelled function reads or writes are left out |
| the constraint types | the `@id`, `@unique` and `@@unique` attributes, in the order in which the migration creates the indexes and Postgres checks them |
| `Db` | the tables together, with the one column of `users` that presence writes by itself; `messageFk` is what the foreign keys of `Message` ask of a new row |

A null never clashes with anything under a unique constraint (`Whitelist.kakaoId`,
`Room.directKey`, `Message.clientMessageId`). Times are milliseconds. `seq` and `lastReadSeq` are
natural numbers: `main.ts` states that they stay within the integers a JavaScript number holds.
-/

namespace Intaktok

open Tables

/-- `2 ^ 63`, the first number a `BigInt` column cannot hold. -/
def bigIntEnd : Nat := 9223372036854775808

/-- `2 ^ 31`, the first number an `Int` column cannot hold. -/
def intEnd : Nat := 2147483648

inductive UserStatus where
  | ACTIVE | SUSPENDED | DELETED
deriving DecidableEq, Repr

inductive WhitelistStatus where
  | INVITED | ACTIVE | BLOCKED
deriving DecidableEq, Repr

inductive RoomType where
  | DIRECT | GROUP
deriving DecidableEq, Repr

inductive MemberRole where
  | OWNER | ADMIN | MEMBER
deriving DecidableEq, Repr

/-- Postgres orders an enumeration as it is declared. -/
def MemberRole.rank : MemberRole → Nat
  | .OWNER => 0
  | .ADMIN => 1
  | .MEMBER => 2

inductive MessageType where
  | TEXT | IMAGE | GIF | VIDEO | FILE | SYSTEM
deriving DecidableEq, Repr

/-! ## Rows -/

structure Whitelist where
  id : String
  kakaoId : Option String
  identifier : Option String := none
  status : WhitelistStatus
  invitedBy : Option String := none
  note : Option String := none
  createdAt : Nat := 0
deriving DecidableEq, Repr

structure AccessRequest where
  id : String
  kakaoId : String
  nickname : Option String
  profileImageUrl : Option String
  attempts : Nat
  createdAt : Nat
deriving DecidableEq, Repr

structure User where
  id : String
  kakaoId : String
  status : UserStatus
deriving DecidableEq, Repr

structure Profile where
  userId : String
  nickname : String
  statusMessage : Option String := none
  avatarMediaId : Option String := none
  onboardedAt : Option Nat := none
deriving DecidableEq, Repr

structure Room where
  id : String
  type : RoomType
  name : Option String := none
  avatarMediaId : Option String := none
  createdBy : String
  createdAt : Nat := 0
  lastMessageAt : Option Nat := none
  directKey : Option String := none
deriving DecidableEq, Repr

structure RoomMember where
  roomId : String
  userId : String
  role : MemberRole := .MEMBER
  joinedAt : Nat
  lastReadSeq : Nat := 0
  /-- Nothing of the server sets it. -/
  mutedUntil : Option Nat := none
  leftAt : Option Nat := none
deriving DecidableEq, Repr

structure Message where
  id : String
  roomId : String
  senderId : String
  seq : Nat
  type : MessageType
  content : Option String
  mediaId : Option String
  replyToId : Option String
  clientMessageId : Option String
  createdAt : Nat
  editedAt : Option Nat := none
  deletedAt : Option Nat := none
deriving DecidableEq, Repr

inductive MediaStatus where
  | PENDING | READY
deriving DecidableEq, Repr

structure Media where
  id : String
  uploaderId : String
  storageKey : String
  mimeType : String
  byteSize : Nat
  width : Option Nat := none
  height : Option Nat := none
  durationMs : Option Nat := none
  isAnimated : Bool := false
  /-- Nothing of the server sets it. -/
  thumbnailKey : Option String := none
  status : MediaStatus := .PENDING
  createdAt : Nat := 0
deriving DecidableEq, Repr

structure PushToken where
  id : String
  userId : String
  deviceId : Option String := none
  fcmToken : String
  platform : String
deriving DecidableEq, Repr

/-! ## Unique constraints -/

/-- Equality of two nullable columns as a unique index sees it. -/
def sameKey (a b : Option String) : Bool := a.isSome && a == b

theorem sameKey_comm (a b : Option String) : sameKey a b = sameKey b a := by
  cases a <;> cases b <;> simp [sameKey, BEq.comm]

inductive WhitelistKey where
  | id | kakaoId
deriving DecidableEq, Repr

/-- `meta.target` of the P2002 error Prisma raises for the constraint. -/
def WhitelistKey.target : WhitelistKey → List String
  | .id => ["id"]
  | .kakaoId => ["kakaoId"]

instance : Row Whitelist WhitelistKey where
  constraints := [.id, .kakaoId]
  clash
    | .id, a, b => a.id == b.id
    | .kakaoId, a, b => sameKey a.kakaoId b.kakaoId
  clash_comm c a b := by cases c <;> simp [sameKey_comm, BEq.comm]

inductive AccountKey where
  | id | kakaoId
deriving DecidableEq, Repr

instance : Row AccessRequest AccountKey where
  constraints := [.id, .kakaoId]
  clash
    | .id, a, b => a.id == b.id
    | .kakaoId, a, b => a.kakaoId == b.kakaoId
  clash_comm c a b := by cases c <;> simp [BEq.comm]

instance : Row User AccountKey where
  constraints := [.id, .kakaoId]
  clash
    | .id, a, b => a.id == b.id
    | .kakaoId, a, b => a.kakaoId == b.kakaoId
  clash_comm c a b := by cases c <;> simp [BEq.comm]

instance : Row Profile Unit where
  constraints := [()]
  clash _ a b := a.userId == b.userId
  clash_comm _ a b := by simp [BEq.comm]

inductive RoomKey where
  | id | directKey
deriving DecidableEq, Repr

instance : Row Room RoomKey where
  constraints := [.id, .directKey]
  clash
    | .id, a, b => a.id == b.id
    | .directKey, a, b => sameKey a.directKey b.directKey
  clash_comm c a b := by cases c <;> simp [sameKey_comm, BEq.comm]

instance : Row RoomMember Unit where
  constraints := [()]
  clash _ a b := a.roomId == b.roomId && a.userId == b.userId
  clash_comm _ a b := by simp [BEq.comm]

inductive MessageKey where
  | id | roomSeq | roomClientMessageId
deriving DecidableEq, Repr

/-- `meta.target` of the P2002 error Prisma raises for the constraint. -/
def MessageKey.target : MessageKey → List String
  | .id => ["id"]
  | .roomSeq => ["roomId", "seq"]
  | .roomClientMessageId => ["roomId", "clientMessageId"]

instance : Row Message MessageKey where
  constraints := [.id, .roomSeq, .roomClientMessageId]
  clash
    | .id, a, b => a.id == b.id
    | .roomSeq, a, b => a.roomId == b.roomId && a.seq == b.seq
    | .roomClientMessageId, a, b => a.roomId == b.roomId &&
        sameKey a.clientMessageId b.clientMessageId
  clash_comm c a b := by cases c <;> simp [sameKey_comm, BEq.comm]

inductive MediaKey where
  | id | storageKey
deriving DecidableEq, Repr

instance : Row Media MediaKey where
  constraints := [.id, .storageKey]
  clash
    | .id, a, b => a.id == b.id
    | .storageKey, a, b => a.storageKey == b.storageKey
  clash_comm c a b := by cases c <;> simp [BEq.comm]

inductive PushTokenKey where
  | id | fcmToken
deriving DecidableEq, Repr

instance : Row PushToken PushTokenKey where
  constraints := [.id, .fcmToken]
  clash
    | .id, a, b => a.id == b.id
    | .fcmToken, a, b => a.fcmToken == b.fcmToken
  clash_comm c a b := by cases c <;> simp [BEq.comm]

/-! ## The tables -/

structure Db where
  users : Table User := .empty
  whitelist : Table Whitelist := .empty
  accessRequests : Table AccessRequest := .empty
  profiles : Table Profile := .empty
  rooms : Table Room := .empty
  roomMembers : Table RoomMember := .empty
  messages : Table Message := .empty
  media : Table Media := .empty
  pushTokens : Table PushToken := .empty
  /-- The column `lastSeenAt` of `users`, by id. -/
  lastSeenAt : List (String × Nat) := []

/-- A user has been seen. -/
def Db.updateLastSeenAt (db : Db) (userId : String) (at_ : Nat) : Db :=
  { db with lastSeenAt := (userId, at_) :: db.lastSeenAt.filter (·.1 != userId) }

/-- The rows a new message refers to exist. -/
def Db.messageFk (db : Db) (m : Message) : Bool :=
  db.rooms.rows.any (·.id == m.roomId) && db.users.rows.any (·.id == m.senderId) &&
    m.mediaId.all (fun i => db.media.rows.any (·.id == i)) &&
    m.replyToId.all (fun i => db.messages.rows.any (·.id == i))

/-! ## Keys identify rows -/

theorem users_eq_of_kakaoId {t : Table User} {a b : User} (ha : a ∈ t.rows) (hb : b ∈ t.rows)
    (h : a.kakaoId = b.kakaoId) : a = b :=
  t.unique ha hb (c := .kakaoId) (by decide) (by simpa [Row.clash] using h)

theorem users_eq_of_id {t : Table User} {a b : User} (ha : a ∈ t.rows) (hb : b ∈ t.rows)
    (h : a.id = b.id) : a = b :=
  t.unique ha hb (c := .id) (by decide) (by simpa [Row.clash] using h)

theorem whitelist_eq_of_id {t : Table Whitelist} {a b : Whitelist} (ha : a ∈ t.rows)
    (hb : b ∈ t.rows) (h : a.id = b.id) : a = b :=
  t.unique ha hb (c := .id) (by decide) (by simpa [Row.clash] using h)

theorem rooms_eq_of_id {t : Table Room} {a b : Room} (ha : a ∈ t.rows) (hb : b ∈ t.rows)
    (h : a.id = b.id) : a = b :=
  t.unique ha hb (c := .id) (by decide) (by simpa [Row.clash] using h)

theorem members_eq_of_key {t : Table RoomMember} {a b : RoomMember} (ha : a ∈ t.rows)
    (hb : b ∈ t.rows) (hr : a.roomId = b.roomId) (hu : a.userId = b.userId) : a = b :=
  t.unique ha hb (c := ()) (by decide) (by simp [Row.clash, hr, hu])

theorem media_eq_of_id {t : Table Media} {a b : Media} (ha : a ∈ t.rows) (hb : b ∈ t.rows)
    (h : a.id = b.id) : a = b :=
  t.unique ha hb (c := .id) (by decide) (by simpa [Row.clash] using h)

theorem messages_eq_of_id {t : Table Message} {a b : Message} (ha : a ∈ t.rows)
    (hb : b ∈ t.rows) (h : a.id = b.id) : a = b :=
  t.unique ha hb (c := .id) (by decide) (by simpa [Row.clash] using h)

theorem messages_eq_of_clientMessageId {t : Table Message} {a b : Message} (ha : a ∈ t.rows)
    (hb : b ∈ t.rows) (hr : a.roomId = b.roomId) {k : String} (hka : a.clientMessageId = some k)
    (hkb : b.clientMessageId = some k) : a = b :=
  t.unique ha hb (c := .roomClientMessageId) (by decide)
    (by simp [Row.clash, sameKey, hr, hka, hkb])

theorem pushTokens_eq_of_fcmToken {t : Table PushToken} {a b : PushToken} (ha : a ∈ t.rows)
    (hb : b ∈ t.rows) (h : a.fcmToken = b.fcmToken) : a = b :=
  t.unique ha hb (c := .fcmToken) (by decide) (by simpa [Row.clash] using h)

end Intaktok
