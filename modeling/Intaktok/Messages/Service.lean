import Intaktok.Messages.Preview
import Intaktok.Lib.Interleave
/-
# `MessagesService` cut at its await points

| here | there |
| --- | --- |
| `seqKey`, `dbMaxSeq` | `seqKey`, `dbMaxSeq` (`messages.service.ts:63`) |
| `CreatePc.seqExists` … `CreatePc.seqIncr` | `nextSeq` (`:75`) |
| `CreatePc.resyncMax`, `CreatePc.resyncSet` | `resyncSeq` (`:84`) |
| `CreatePc.lookup` … `CreatePc.reply`, `CreatePc.winner`, `CreatePc.roomUpdate` | `createMessage` (`:93`) with `assertActiveMember`, `assertOwnedMedia` and `assertReplyTarget` (`:298`) |
| `CreatePc.insert` | the body of the loop of `persistWithSeq` (`:134`), `attempt` being the loop variable |
| `CreatePc.fetch` | `emitCreated` (`:337`): three reads in any order, then the event |
| `systemParams` | what `createSystemMessage` (`:170`) asks `createMessage` for |
| `ReadPc` | `markRead` (`:231`) |
| `DeletePc` | `softDelete` (`:259`) |
| `unread`, `countUnread` | `countUnread` (`:245`) |

A pc is the action the call performs next; the code between two awaits runs with the action it
follows. A row is returned in the order of its table where the source asks for no order.
-/

namespace Intaktok.Messages

open Interleave Tables

structure CreateMessageParams where
  roomId : String
  senderId : String
  /-- `none` is a value outside the enumeration. -/
  type : Option MessageType
  content : Option String := none
  mediaId : Option String := none
  replyToId : Option String := none
  clientMessageId : Option String := none
  isSystem : Bool := false
deriving DecidableEq, Repr

structure CreateMessageResult where
  message : SerializedMessage
  duplicate : Bool
deriving DecidableEq, Repr

def SEQ_RETRY : Nat := 3

def seqKey (roomId : String) : String := "room:" ++ roomId ++ ":seq"

/-! ## Reading the database -/

/-- The numbers persisted in a room. -/
def seqs (db : Db) (roomId : String) : List Nat :=
  (db.messages.findMany (·.roomId == roomId)).map (·.seq)

/-- The number itself, which `Number` makes a double (`Doubles.lean`). -/
def dbMaxSeq (db : Db) (roomId : String) : Nat := (seqs db roomId).max?.getD 0

def findByClientMessageId (db : Db) (roomId key : String) : Option Message :=
  db.messages.find fun m => m.roomId == roomId && m.clientMessageId == some key

/-- The query asks for no order; here they come in that of the table. -/
def getActiveMemberIds (db : Db) (roomId : String) : List String :=
  (db.roomMembers.findMany fun m => m.roomId == roomId && m.leftAt.isNone).map (·.userId)

/-- What `countUnread` counts. -/
def unread (db : Db) (roomId userId : String) (lastReadSeq : Nat) : List Message :=
  db.messages.findMany fun m => m.roomId == roomId && decide (lastReadSeq < m.seq) &&
    m.deletedAt.isNone && m.senderId != userId

def countUnread (db : Db) (roomId userId : String) (lastReadSeq : Nat) : Nat :=
  (unread db roomId userId lastReadSeq).length

def serialize (m : Message) : SerializedMessage where
  id := m.id
  roomId := m.roomId
  senderId := m.senderId
  seq := m.seq
  type := m.type
  content := if m.deletedAt.isSome then none else m.content
  mediaId := if m.deletedAt.isSome then none else m.mediaId
  replyToId := m.replyToId
  clientMessageId := m.clientMessageId
  createdAt := m.createdAt
  editedAt := m.editedAt
  deletedAt := m.deletedAt

/-! ## Checks -/

/-- What `String.prototype.trim` takes away. -/
def jsSpace (c : Char) : Bool :=
  [0x09, 0x0A, 0x0B, 0x0C, 0x0D, 0x20, 0xA0, 0x1680, 0x2028, 0x2029, 0x202F, 0x205F, 0x3000,
    0xFEFF].contains c.toNat || (0x2000 ≤ c.toNat && c.toNat ≤ 0x200A)

def blank (s : String) : Bool := s.toList.all jsSpace

def isMediaType : MessageType → Bool
  | .IMAGE | .GIF | .VIDEO | .FILE => true
  | .TEXT | .SYSTEM => false

/-- `none` when the payload passes. -/
def validatePayload (type : Option MessageType) (content mediaId : Option String) :
    Option AppException :=
  if type = some .TEXT then
    if (truthy content).all blank then some (Errors.validation "본문이 비어 있습니다.") else none
  else if type.any isMediaType then
    if (truthy mediaId).isNone then some (Errors.validation "미디어 메시지에는 mediaId가 필요합니다.")
    else none
  else some (Errors.validation "허용되지 않은 메시지 타입입니다.")

def assertActiveMember (db : Db) (roomId userId : String) : Option AppException :=
  match db.roomMembers.find fun m => m.roomId == roomId && m.userId == userId with
  | some m => if m.leftAt.isNone then none else some (Errors.forbidden "해당 채팅방의 멤버가 아닙니다.")
  | none => some (Errors.forbidden "해당 채팅방의 멤버가 아닙니다.")

def assertOwnedMedia (db : Db) (mediaId senderId : String) : Option AppException :=
  match db.media.find (·.id == mediaId) with
  | some m =>
    if m.uploaderId = senderId then none
    else some (Errors.forbidden "본인이 업로드한 미디어만 첨부할 수 있습니다.")
  | none => some (Errors.notFound "미디어를 찾을 수 없습니다.")

def assertReplyTarget (db : Db) (roomId replyToId : String) : Option AppException :=
  match db.messages.find (·.id == replyToId) with
  | some m =>
    if m.roomId = roomId then none
    else some (Errors.validation "답장 대상 메시지가 올바르지 않습니다.")
  | none => some (Errors.validation "답장 대상 메시지가 올바르지 않습니다.")

/-! ## `createMessage` -/

/-- The answers of the three reads of `emitCreated` so far. -/
structure Fetched where
  memberUserIds : Option (List String) := none
  room : Option (Option Room) := none
  senderProfile : Option (Option Profile) := none

inductive CreatePc where
  | lookup (clientMessageId : String)
  | member
  | media (mediaId : String)
  | reply (replyToId : String)
  | seqExists (attempt : Nat)
  | seqMax (attempt : Nat)
  | seqSetNx (attempt max : Nat)
  | seqIncr (attempt : Nat)
  | insert (attempt seq : Nat)
  | resyncMax (attempt : Nat)
  | resyncSet (attempt max : Nat)
  | winner
  | roomUpdate (persisted : Message)
  | fetch (dto : SerializedMessage) (got : Fetched)
  | done (r : Except Failure CreateMessageResult)

def CreatePc.fail (e : AppException) : CreatePc := .done (.error (.app e))

def afterLookup (p : CreateMessageParams) : CreatePc :=
  if p.isSystem then .seqExists 0 else .member

def createStart (p : CreateMessageParams) : CreatePc :=
  match truthy p.clientMessageId with
  | some k => .lookup k
  | none => afterLookup p

def afterMedia (p : CreateMessageParams) : CreatePc :=
  match truthy p.replyToId with
  | some t => .reply t
  | none => .seqExists 0

def afterMember (p : CreateMessageParams) : CreatePc :=
  match validatePayload p.type p.content p.mediaId, truthy p.mediaId with
  | some e, _ => .fail e
  | none, some i => .media i
  | none, none => afterMedia p

/-- The row `persistWithSeq` inserts. -/
def CreateMessageParams.row (p : CreateMessageParams) (type : MessageType) (id : String)
    (seq now : Nat) : Message where
  id := id
  roomId := p.roomId
  senderId := p.senderId
  seq := seq
  type := type
  content := p.content
  mediaId := p.mediaId
  replyToId := p.replyToId
  clientMessageId := p.clientMessageId
  createdAt := now

/-- A `cuid()` no message has. -/
def freshId (db : Db) (id : String) : Bool :=
  id != "" && isCuid id && !db.messages.rows.any (·.id == id)

/-- The texts a client writes into the row; its other texts are ids of rows. A lookup by a key with
U+0000 finds nothing here, and it is the insert that is refused. -/
def CreateMessageParams.storable (p : CreateMessageParams) : Bool :=
  p.content.all Messages.storable && p.clientMessageId.all Messages.storable

/-- `message.create`: the new row, or the error it raises. The texts are looked at before the
statement is run, unique indexes while the row is written, foreign keys at the end. -/
def createRow (p : CreateMessageParams) (id : String) (seq : Nat) (w : World) :
    Except Failure (World × Message) :=
  match p.type with
  | none => .error .invalidValue
  | some type =>
    if p.storable then
      let row := p.row type id seq w.now
      match w.db.messages.insert row with
      | .error c => .error (.uniqueConstraint c.target)
      | .ok t =>
        if w.db.messageFk row then .ok ({ w with db.messages := t }, row) else .error .foreignKey
    else .error .invalidValue

/-- `String.prototype.includes`. -/
def includes (s sub : String) : Bool := s.toList.tails.any (sub.toList.isPrefixOf ·)

/-- The `catch` of `persistWithSeq`. -/
def caught (attempt : Nat) : Failure → CreatePc
  | .uniqueConstraint target =>
    let targetStr := ",".intercalate target
    if includes targetStr "clientMessageId" then .winner
    else if includes targetStr "seq" then .resyncMax attempt
    else .done (.error (.uniqueConstraint target))
  | e => .done (.error e)

def setLastMessageAt (t : Table Room) (id : String) (at_ : Nat) : Table Room :=
  t.updateWhere (·.id == id) (fun r => { r with lastMessageAt := some at_ })
    (fun c _ _ => by cases c <;> rfl)

def roomTitle (room : Option Room) (senderProfile : Option Profile) : String :=
  match room with
  | some ⟨_, .GROUP, name, _, _, _, _, _⟩ => name.getD "그룹 채팅"
  | _ => (senderProfile.map (·.nickname)).getD "메시지"

/-- What follows the reads of `emitCreated`, once all three have been answered. -/
def emitCreated (json : Json) (dto : SerializedMessage) (got : Fetched) (w : World) :
    World × CreatePc :=
  match got with
  | ⟨some memberUserIds, some room, some profile⟩ =>
    match messagePreview json dto.type dto.content with
    | some preview =>
      (w.emit (.messageCreated dto memberUserIds preview (roomTitle room profile)),
        .done (.ok ⟨dto, false⟩))
    | none => (w, .done (.error .js))
  | _ => (w, .fetch dto got)

/-- Answer one of the reads that are still out; `c.pick` says which. -/
def fetchNext (c : Choice) (p : CreateMessageParams) (db : Db) (got : Fetched) : Option Fetched :=
  match c.pick, got with
  | 0, ⟨none, _, _⟩ => some { got with memberUserIds := some (getActiveMemberIds db p.roomId) }
  | 1, ⟨_, none, _⟩ => some { got with room := some (db.rooms.find (·.id == p.roomId)) }
  | 2, ⟨_, _, none⟩ =>
    let senderProfile := db.profiles.find (·.userId == p.senderId)
    some { got with senderProfile := some senderProfile }
  | _, _ => none

def createStep (json : Json) (c : Choice) (p : CreateMessageParams) (w : World) :
    CreatePc → Option (World × CreatePc)
  | .lookup k => some (w, match findByClientMessageId w.db p.roomId k with
    | some m => .done (.ok ⟨serialize m, true⟩)
    | none => afterLookup p)
  | .member => some (w, match assertActiveMember w.db p.roomId p.senderId with
    | some e => .fail e
    | none => afterMember p)
  | .media i => some (w, match assertOwnedMedia w.db i p.senderId with
    | some e => .fail e
    | none => afterMedia p)
  | .reply t => some (w, match assertReplyTarget w.db p.roomId t with
    | some e => .fail e
    | none => .seqExists 0)
  | .seqExists a => some (w, if w.exists? (seqKey p.roomId) then .seqIncr a else .seqMax a)
  | .seqMax a => some (w, .seqSetNx a (dbMaxSeq w.db p.roomId))
  | .seqSetNx a max => some (w.setNx (seqKey p.roomId) (.num max), .seqIncr a)
  | .seqIncr a => match w.incr (seqKey p.roomId) with
    | some (w', seq) => some (w', .insert a seq)
    | none => some (w, .done (.error .redis))
  | .insert a seq =>
    if freshId w.db c.id then
      match createRow p c.id seq w with
      | .ok (w', m) => some (w', .roomUpdate m)
      | .error e => some (w, caught a e)
    else none
  | .resyncMax a => some (w, .resyncSet a (dbMaxSeq w.db p.roomId))
  | .resyncSet a max => some (w.set (seqKey p.roomId) (.num max),
      if a + 1 < SEQ_RETRY then .seqExists (a + 1)
      else .fail (Errors.conflict "메시지 시퀀스 발급에 실패했습니다."))
  | .winner =>
    some (w, match p.clientMessageId.bind (findByClientMessageId w.db p.roomId) with
    | some m => .done (.ok ⟨serialize m, true⟩)
    | none => .done (.error .js))
  | .roomUpdate m =>
    if w.db.rooms.rows.any (·.id == p.roomId) then
      let t := setLastMessageAt w.db.rooms p.roomId m.createdAt
      some ({ w with db.rooms := t }, .fetch (serialize m) {})
    else some (w, .done (.error .recordNotFound))
  | .fetch dto got => (fetchNext c p w.db got).map fun got' => emitCreated json dto got' w
  | .done _ => none

/-- `createSystemMessage(roomId, actorId, payload)`. -/
def systemParams (json : Json) (roomId actorId : String) (payload : SystemMessagePayload) :
    CreateMessageParams where
  roomId := roomId
  senderId := actorId
  type := some .SYSTEM
  content := some (json.stringify payload)
  isSystem := true

/-! ## `markRead` -/

/-- A value for a string column of a `where`: Prisma drops `undefined`, takes an object as a
filter and rejects everything else. -/
inductive WhereString where
  | undefined
  | str (s : String)
  | filter (f : String → Bool)
  | invalid

def WhereString.matches : WhereString → String → Bool
  | .undefined, _ => true
  | .str s, x => x == s
  | .filter f, x => f x
  | .invalid, _ => false

def WhereString.toString? : WhereString → Option String
  | .str s => some s
  | _ => none

def WhereString.valid : WhereString → Bool
  | .invalid => false
  | _ => true

/-- A JavaScript number; `other` is a fraction, an infinity or `NaN`, on which `BigInt` throws. -/
inductive JsNumber where
  | int (n : Int)
  | other
deriving DecidableEq, Repr

inductive ReadPc where
  | update
  | members (lastReadSeq : Nat)
  | done (r : Except Failure Unit)

/-- The row one `updateMany` of `markRead` advances. -/
def reads (roomId userId : WhereString) (lastReadSeq : Nat) (m : RoomMember) : Bool :=
  roomId.matches m.roomId && userId.matches m.userId && m.leftAt.isNone &&
    decide (m.lastReadSeq < lastReadSeq)

def setLastReadSeq (t : Table RoomMember) (p : RoomMember → Bool) (lastReadSeq : Nat) :
    Table RoomMember :=
  t.updateWhere p (fun m => { m with lastReadSeq := lastReadSeq }) (fun _ _ _ => rfl)

def readStep (roomId userId : WhereString) (lastReadSeq : JsNumber) (w : World) :
    ReadPc → Option (World × ReadPc)
  | .update =>
    match lastReadSeq with
    | .other => some (w, .done (.error .js))
    | .int n =>
      if !roomId.valid || !userId.valid || n < -(bigIntEnd : Int) || bigIntEnd ≤ n then
        some (w, .done (.error .invalidValue))
      -- no row has a negative `lastReadSeq`
      else if w.db.roomMembers.rows.any (reads roomId userId n.toNat) then
        let t := setLastReadSeq w.db.roomMembers (reads roomId userId n.toNat) n.toNat
        some ({ w with db.roomMembers := t }, .members n.toNat)
      else some (w, .done (.ok ()))
  | .members n =>
    let members := w.db.roomMembers.findMany fun m => roomId.matches m.roomId && m.leftAt.isNone
    let event := .messageRead roomId.toString? userId.toString? n (members.map (·.userId))
    some (w.emit event, .done (.ok ()))
  | .done _ => none

/-! ## `softDelete` -/

inductive DeletePc where
  | find
  | update (deletedAt : Nat)
  | members
  | done (r : Except Failure Unit)

/-- What an unsend leaves of a message. -/
def unsend (deletedAt : Nat) (m : Message) : Message :=
  { m with deletedAt := some deletedAt, content := none, mediaId := none }

def deleteStep (cfg : AppConfig) (roomId messageId requesterId : String) (w : World) :
    DeletePc → Option (World × DeletePc)
  | .find => some (w, match w.db.messages.find (·.id == messageId) with
    | none => .done (.error (.app (Errors.notFound "메시지를 찾을 수 없습니다.")))
    | some m =>
      if m.roomId ≠ roomId then .done (.error (.app (Errors.notFound "메시지를 찾을 수 없습니다.")))
      else if m.type = .SYSTEM then .done (.error (.app Errors.forbidden))
      else if m.senderId ≠ requesterId then
        .done (.error (.app (Errors.forbidden "본인이 보낸 메시지만 삭제할 수 있습니다.")))
      else if m.deletedAt.isSome then .done (.ok ())
      else if m.createdAt + cfg.messageUnsendWindowSec * 1000 < w.now then
        .done (.error (.app (Errors.forbidden "삭제 가능 시간이 지났습니다."
          [("reason", ["UNSEND_WINDOW_EXPIRED"]),
            ("windowSec", [toString cfg.messageUnsendWindowSec])])))
      else .update w.now)
  | .update deletedAt =>
    if w.db.messages.rows.any (·.id == messageId) then
      let t := w.db.messages.updateWhere (·.id == messageId) (unsend deletedAt)
        (fun c _ _ => by cases c <;> rfl)
      some ({ w with db.messages := t }, .members)
    else some (w, .done (.error .recordNotFound))
  | .members =>
    let event := .messageDeleted roomId messageId (getActiveMemberIds w.db roomId)
    some (w.emit event, .done (.ok ()))
  | .done _ => none

/-! ## The machine -/

inductive Call where
  | createMessage (params : CreateMessageParams)
  | markRead (roomId userId : WhereString) (lastReadSeq : JsNumber)
  | softDelete (roomId messageId requesterId : String)

inductive Pc where
  | create (pc : CreatePc)
  | read (pc : ReadPc)
  | delete (pc : DeletePc)

def start : Call → Pc
  | .createMessage p => .create (createStart p)
  | .markRead _ _ _ => .read .update
  | .softDelete _ _ _ => .delete .find

def step (cfg : AppConfig) (json : Json) (c : Choice) (call : Call) (w : World) (pc : Pc) :
    Option (World × Pc) :=
  match call, pc with
  | .createMessage p, .create pc => (createStep json c p w pc).map fun r => (r.1, .create r.2)
  | .markRead r u n, .read pc => (readStep r u n w pc).map fun r => (r.1, .read r.2)
  | .softDelete r m u, .delete pc => (deleteStep cfg r m u w pc).map fun r => (r.1, .delete r.2)
  | _, _ => none

/-- Only time passes by itself. -/
def machine (cfg : AppConfig) (json : Json) : Machine World Call Pc Choice Nat where
  start := start
  step := step cfg json
  env := World.tick

end Intaktok.Messages
