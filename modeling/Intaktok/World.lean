import Intaktok.Schema
import Intaktok.Lib.KeyValue
/-
# Errors, events, Redis and the state the services share

| here | there |
| --- | --- |
| `AppException`, `Errors` | `src/common/errors.ts` |
| `Failure` | what a call can reject with: an `AppException`, or the error of a library passed on |
| `SerializedMessage`, `DomainEvent` | `src/common/events.ts`; `World.events` is the log of what `EventEmitter2` emitted |
| `RoomView` | the interfaces at the head of `src/rooms/rooms.service.ts` |
| `Multicast`, `World.pushed` | what `FcmService.sendToTokens` (`src/push/fcm.service.ts:78`) hands to `firebase-admin` |
| `AppConfig` | the settings of `src/config/configuration.ts` the modelled code reads |
| `Jwt`, `World.issued`, `World.verifyAsync` | `@nestjs/jwt`: a token verifies if the server signed it with that secret and it has not expired |
| `World.exists` … `World.scard` | `src/redis/redis.service.ts`, one atomic command each (`delByPattern` is in `DelByPattern.lean`) |
| `World` | database, Redis, events and clock: everything an await point can read or write |
| `Choice` | what the environment decides in one step: generated ids, the result of a `SCAN`, the order of equal rows |
-/

namespace Intaktok

open Tables

/-! ## Errors -/

inductive ErrorCode where
  | UNAUTHORIZED | FORBIDDEN | NOT_ALLOWED | NOT_FOUND | VALIDATION_ERROR | RATE_LIMITED
  | CONFLICT | INTERNAL
deriving DecidableEq, Repr

structure AppException where
  status : Nat
  code : ErrorCode
  message : String
  details : List (String × List String) := []
deriving DecidableEq, Repr

namespace Errors

def unauthorized (message : String := "인증이 필요합니다.") : AppException :=
  ⟨401, .UNAUTHORIZED, message, []⟩
def forbidden (message : String := "권한이 없습니다.")
    (details : List (String × List String) := []) : AppException :=
  ⟨403, .FORBIDDEN, message, details⟩
def notAllowed : AppException := ⟨403, .NOT_ALLOWED, "등록된 사용자만 이용할 수 있습니다.", []⟩
def notFound (message : String) : AppException := ⟨404, .NOT_FOUND, message, []⟩
def validation (message : String) : AppException := ⟨400, .VALIDATION_ERROR, message, []⟩
def conflict (message : String) : AppException := ⟨409, .CONFLICT, message, []⟩

end Errors

/-- What a call rejects with. -/
inductive Failure where
  | app (e : AppException)
  /-- `PrismaClientKnownRequestError` P2002, with `meta.target`. -/
  | uniqueConstraint (target : List String)
  /-- P2003: a foreign key names no row. -/
  | foreignKey
  /-- P2025: the row to update does not exist. -/
  | recordNotFound
  /-- A value Prisma, its driver or the database does not take. -/
  | invalidValue
  | redis
  /-- The database or Redis does not answer, or breaks off. -/
  | connection
  /-- A JavaScript `TypeError`, `RangeError` or `SyntaxError`. -/
  | js
deriving DecidableEq, Repr

/-! ## Events -/

structure SerializedMessage where
  id : String
  roomId : String
  senderId : String
  seq : Nat
  type : MessageType
  content : Option String
  mediaId : Option String
  replyToId : Option String
  clientMessageId : Option String
  createdAt : Nat
  editedAt : Option Nat
  deletedAt : Option Nat
deriving DecidableEq, Repr

structure MemberView where
  userId : String
  nickname : Option String
  avatarUrl : Option String
  role : MemberRole
deriving DecidableEq, Repr

structure LastMessageView where
  seq : Nat
  type : MessageType
  preview : String
  createdAt : Nat
deriving DecidableEq, Repr

/-- The URL of an avatar stands by the id of its media row. -/
structure RoomView where
  id : String
  type : RoomType
  name : Option String
  avatarUrl : Option String
  createdBy : String
  createdAt : Nat
  lastMessageAt : Option Nat
  members : List MemberView
  lastMessage : Option LastMessageView
  unreadCount : Nat
deriving DecidableEq, Repr

inductive DomainEvent where
  | messageCreated (message : SerializedMessage) (memberUserIds : List String) (preview : String)
      (roomTitle : String)
  /-- `none` is a field that is no string. -/
  | messageRead (roomId userId : Option String) (lastReadSeq : Nat) (memberUserIds : List String)
  | messageDeleted (roomId messageId : String) (memberUserIds : List String)
  | roomCreated (room : RoomView) (roomId : String) (memberUserIds : List String)
  | roomUpdated (room : RoomView) (roomId : String) (memberUserIds : List String)
  | sessionRevoked (userId : String)
deriving DecidableEq, Repr

/-! ## Pushes -/

/-- One `sendEachForMulticast`: who gets it, the notification and the data. -/
structure Multicast where
  tokens : List String
  title : String
  body : String
  roomId : String
  messageId : String
  type : MessageType
deriving DecidableEq, Repr

/-! ## Tokens -/

inductive TokenType where
  | access | refresh
deriving DecidableEq, Repr

/-- A signed token; `exp` is in seconds. -/
structure Jwt where
  secret : String
  sub : String
  type : TokenType
  jti : String
  exp : Nat
deriving DecidableEq, Repr

/-- The settings with their defaults; durations in seconds. -/
structure AppConfig where
  accessSecret : String := "change-me-access"
  refreshSecret : String := "change-me-refresh"
  accessTtl : Nat := 1800
  refreshTtl : Nat := 2592000
  messageUnsendWindowSec : Nat := 300
  presenceTtlSec : Nat := 60
  mediaMaxBytes : Nat := 52428800
  cdnBaseUrl : String := ""
  /-- Credentials for FCM are configured. -/
  fcmEnabled : Bool := true

/-! ## The shared state -/

inductive RedisValue where
  | str (s : String)
  | num (n : Nat)
  | set (members : List String)
deriving DecidableEq, Repr

structure World where
  db : Db := {}
  redis : KeyValue.Store RedisValue := []
  events : List DomainEvent := []
  /-- What FCM has been asked to deliver. -/
  pushed : List Multicast := []
  /-- The keys of the objects in storage, and their lengths as far as known. -/
  objects : List (String × Option Nat) := []
  /-- The tokens the server has signed. -/
  issued : List Jwt := []
  /-- Milliseconds. -/
  now : Nat := 0

structure Choice where
  id : String := ""
  uuid : String := ""
  keys : List String := []
  members : List RoomMember := []
  pick : Nat := 0
deriving DecidableEq, Repr

/-- The shape of a `cuid()`: letters and digits only. -/
def isCuid (s : String) : Bool := s.toList.all Char.isAlphanum

/-- There is always another one. -/
theorem exists_cuid (ids : List String) : ∃ id, id ≠ "" ∧ isCuid id = true ∧ id ∉ ids := by
  let n := (ids.map String.length).max?.getD 0
  refine ⟨String.ofList (List.replicate (n + 1) 'a'), ?_, ?_, fun hmem => ?_⟩
  · intro h
    have hl := congrArg String.length h
    simp at hl
  · simp [isCuid]
  · -- it is longer than each of them
    have hlen := List.mem_map_of_mem (f := String.length) hmem
    obtain ⟨x, hx⟩ := Option.isSome_iff_exists.1 (List.isSome_max?_of_mem hlen)
    have hle := (List.max?_eq_some_iff.1 hx).2 _ hlen
    simp only [n, hx, String.length_ofList, List.length_replicate, Option.getD_some] at hle
    omega

/-- The shape of a `uuid`: letters, digits and dashes. -/
def isUuid (s : String) : Bool := s.toList.all fun c => c.isAlphanum || c == '-'

/-- A JavaScript string that is neither `null` nor empty. -/
def truthy (s : Option String) : Option String := s.filter (· != "")

theorem truthy_some {s : String} (h : s ≠ "") : truthy (some s) = some s := by
  simp [truthy, Option.filter, h]

theorem truthy_eq_some {s : Option String} {x : String} :
    truthy s = some x ↔ s = some x ∧ x ≠ "" := by
  simp [truthy, Option.filter_eq_some_iff]

namespace World

def tick (ms : Nat) (w : World) : World := { w with now := w.now + ms }

def emit (w : World) (e : DomainEvent) : World := { w with events := w.events ++ [e] }

def verifyAsync (w : World) (token : Jwt) (secret : String) : Bool :=
  w.issued.contains token && token.secret == secret && decide (w.now / 1000 < token.exp)

/-! ### `RedisService` -/

def lookup (w : World) (key : String) : Option RedisValue := KeyValue.get w.now key w.redis

def exists? (w : World) (key : String) : Bool := (w.lookup key).isSome

/-- `if (ttlSec) SET … EX else SET`: a zero time to live means none. -/
def set (w : World) (key : String) (value : RedisValue) (ttlSec : Nat := 0) : World :=
  let expireAt := if ttlSec = 0 then none else some (w.now + ttlSec * 1000)
  { w with redis := KeyValue.put key ⟨value, expireAt⟩ w.redis }

def setNx (w : World) (key : String) (value : RedisValue) : World :=
  if w.exists? key then w else w.set key value

def del (w : World) (key : String) : World := { w with redis := KeyValue.del key w.redis }

/-- `INCR` keeps the time of expiry and fails on a key that holds no number. The reply is the number
itself; what JavaScript makes of it is in `Messages/Doubles.lean`. -/
def incr (w : World) (key : String) : Option (World × Nat) :=
  match KeyValue.entry w.now key w.redis with
  | none => some (w.set key (.num 1), 1)
  | some ⟨.num n, ttl⟩ =>
    some ({ w with redis := KeyValue.put key ⟨.num (n + 1), ttl⟩ w.redis }, n + 1)
  | some _ => none

/-- `SADD` keeps the time of expiry and fails on a key that holds no set. -/
def sadd (w : World) (key member : String) : Option World :=
  match KeyValue.entry w.now key w.redis with
  | none => some (w.set key (.set [member]))
  | some ⟨.set members, ttl⟩ =>
    let members' := if members.contains member then members else members ++ [member]
    some { w with redis := KeyValue.put key ⟨.set members', ttl⟩ w.redis }
  | some _ => none

def expire (w : World) (key : String) (ttlSec : Nat) : World :=
  match KeyValue.entry w.now key w.redis with
  | none => w
  | some ⟨value, _⟩ =>
    { w with redis := KeyValue.put key ⟨value, some (w.now + ttlSec * 1000)⟩ w.redis }

/-- `SREM` keeps the time of expiry, and a set that has become empty is gone. -/
def srem (w : World) (key member : String) : Option World :=
  match KeyValue.entry w.now key w.redis with
  | none => some w
  | some ⟨.set members, ttl⟩ =>
    let members' := members.filter (· != member)
    if members'.isEmpty then some (w.del key)
    else some { w with redis := KeyValue.put key ⟨.set members', ttl⟩ w.redis }
  | some _ => none

def scard (w : World) (key : String) : Option Nat :=
  match w.lookup key with
  | none => some 0
  | some (.set members) => some members.length
  | some _ => none

@[simp] theorem lookup_del_self (w : World) (key : String) : (w.del key).lookup key = none :=
  KeyValue.get_del_self _ _ _

@[simp] theorem lookup_del_ne (w : World) {j key : String} (h : j ≠ key) :
    (w.del key).lookup j = w.lookup j := KeyValue.get_del_ne _ h _

@[simp] theorem lookup_set_ne (w : World) {j key : String} (h : j ≠ key) (v : RedisValue)
    (ttl : Nat) : (w.set key v ttl).lookup j = w.lookup j := KeyValue.get_put_ne _ h _ _

theorem exists?_eq_false {w : World} {key : String} :
    w.exists? key = false ↔ w.lookup key = none := by
  simp [exists?]

theorem exists?_eq_true {w : World} {key : String} :
    w.exists? key = true ↔ ∃ v, w.lookup key = some v := by
  simp [exists?, Option.isSome_iff_exists]

/-- No command but a `SET` or an `INCR` of the key makes it appear, and neither does time. -/
theorem lookup_del_none {w : World} {j : String} (h : w.lookup j = none) (key : String) :
    (w.del key).lookup j = none := KeyValue.get_del_none _ h

theorem lookup_tick_none {w : World} {j : String} (h : w.lookup j = none) (ms : Nat) :
    (w.tick ms).lookup j = none := KeyValue.get_later_none (Nat.le_add_right _ _) h

/-! ### What commands on sets touch -/

/-- Nothing but Redis. -/
theorem sadd_world {w w' : World} {key member : String} (h : w.sadd key member = some w') :
    ∃ redis, w' = { w with redis } := by
  simp only [sadd] at h
  split at h <;> cases h <;> exact ⟨_, rfl⟩

theorem srem_world {w w' : World} {key member : String} (h : w.srem key member = some w') :
    ∃ redis, w' = { w with redis } := by
  simp only [srem] at h
  split at h
  · cases h; exact ⟨w.redis, rfl⟩
  · split at h <;> cases h <;> exact ⟨_, rfl⟩
  · cases h

theorem expire_world (w : World) (key : String) (ttlSec : Nat) :
    ∃ redis, w.expire key ttlSec = { w with redis } := by
  unfold expire
  split
  · exact ⟨w.redis, rfl⟩
  · exact ⟨_, rfl⟩

/-! ### Keys without a time of expiry -/

theorem lookup_set_self (w : World) (key : String) (v : RedisValue) :
    (w.set key v).lookup key = some v := KeyValue.get_put_self _ _ _ _ rfl

theorem lasting_set {w : World} {j : String} (h : KeyValue.Lasting j w.redis) (key : String)
    (v : RedisValue) : KeyValue.Lasting j (w.set key v).redis := h.put rfl

theorem lookup_tick {w : World} {key : String} (h : KeyValue.Lasting key w.redis) (ms : Nat) :
    (w.tick ms).lookup key = w.lookup key := h.get_eq _ _

/-- `SET NX` touches nothing but Redis. -/
theorem setNx_world (w : World) (key : String) (v : RedisValue) :
    ∃ redis, w.setNx key v = { w with redis } := by
  unfold setNx
  split
  · exact ⟨w.redis, rfl⟩
  · exact ⟨_, rfl⟩

@[simp] theorem setNx_db (w : World) (key : String) (v : RedisValue) :
    (w.setNx key v).db = w.db := by
  obtain ⟨redis, h⟩ := setNx_world w key v
  rw [h]

/-- What `SET NX` leaves under its key and under every other one. -/
theorem lookup_setNx (w : World) (key j : String) (v : RedisValue) :
    (w.setNx key v).lookup j =
      if j = key then some ((w.lookup key).getD v) else w.lookup j := by
  unfold setNx
  split
  · rename_i he
    obtain ⟨x, hx⟩ := exists?_eq_true.1 he
    split
    · rename_i hj; rw [hj, hx]; rfl
    · rfl
  · rename_i he
    have hn := exists?_eq_false.1 (by simpa using he)
    split
    · rename_i hj; rw [hj, lookup_set_self, hn]; rfl
    · rename_i hj; rw [lookup_set_ne w hj]

theorem lasting_setNx {w : World} {j : String} (h : KeyValue.Lasting j w.redis) (key : String)
    (v : RedisValue) : KeyValue.Lasting j (w.setNx key v).redis := by
  unfold setNx
  split
  · exact h
  · exact lasting_set h key v

/-- `INCR` counts from what is there, or from nothing. -/
theorem incr_spec {w w' : World} {key : String} {n : Nat} (h : w.incr key = some (w', n)) :
    (∃ redis, w' = { w with redis }) ∧ w'.lookup key = some (.num n) ∧
    (∀ j, j ≠ key → w'.lookup j = w.lookup j) ∧
    (w.lookup key = none ∧ n = 1 ∨ ∃ m, w.lookup key = some (.num m) ∧ n = m + 1) ∧
    ∀ j, KeyValue.Lasting j w.redis → KeyValue.Lasting j w'.redis := by
  simp only [incr] at h
  split at h
  · rename_i hn
    simp only [Option.some.injEq, Prod.mk.injEq] at h
    obtain ⟨rfl, rfl⟩ := h
    exact ⟨⟨_, rfl⟩, lookup_set_self _ _ _, fun j hj => lookup_set_ne w hj _ _,
      .inl ⟨by simp [lookup, KeyValue.get, hn], rfl⟩, fun j hj => lasting_set hj _ _⟩
  · rename_i m ttl he
    simp only [Option.some.injEq, Prod.mk.injEq] at h
    obtain ⟨rfl, rfl⟩ := h
    obtain ⟨hmem, hlive⟩ := KeyValue.entry_some he
    refine ⟨⟨_, rfl⟩, KeyValue.get_put_self _ _ _ _ hlive, fun j hj => KeyValue.get_put_ne _ hj _ _,
      .inr ⟨m, by simp [lookup, KeyValue.get, he], rfl⟩, fun j hj p hp hk => ?_⟩
    rcases List.mem_cons.1 hp with rfl | hp
    · exact hj (key, ⟨.num m, ttl⟩) hmem hk
    · exact hj.del p hp hk
  · cases h

/-- `INCR` fails on a key that holds no number only. -/
theorem incr_some {w : World} {key : String}
    (h : ∀ v, w.lookup key = some v → ∃ n, v = .num n) : ∃ w' n, w.incr key = some (w', n) := by
  simp only [incr]
  split
  · exact ⟨_, _, rfl⟩
  · exact ⟨_, _, rfl⟩
  · rename_i e he1 he2
    obtain ⟨n, hn⟩ := h e.value (by simp [lookup, KeyValue.get, he2])
    exact absurd (by rw [← hn]) (he1 n e.expireAt)

end World

end Intaktok
