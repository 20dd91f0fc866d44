import Intaktok.Messages.Service
/-
# What one action does to the messages of a room

`CreateActs` lists the actions of a `createMessage` call, `CreateEffect` what they change of the
database and the events; `step_cases` adds that a `markRead` or `softDelete` call changes neither
the message log nor Redis. The log of a room is looked at through `stubs`, the columns an unsend
leaves alone: it only ever grows, by one row for each successful insert (`CreateActs.log`).
-/

namespace Intaktok.Messages

open Interleave Tables

/-! ## Stubs -/

/-- The columns of a message that never change. -/
def stub (m : Message) : Message :=
  { m with content := none, mediaId := none, editedAt := none, deletedAt := none }

def stubs (db : Db) : List Message := db.messages.rows.map stub

theorem stub_unsend (deletedAt : Nat) (m : Message) : stub (unsend deletedAt m) = stub m := rfl

theorem stub_mem {db : Db} {m : Message} (h : m ∈ db.messages.rows) : stub m ∈ stubs db :=
  List.mem_map_of_mem h

theorem mem_seqs {db : Db} {roomId : String} {s : Nat} :
    s ∈ seqs db roomId ↔ ∃ m ∈ stubs db, m.roomId = roomId ∧ m.seq = s := by
  simp only [seqs, List.mem_map, Table.mem_findMany, beq_iff_eq, stubs]
  constructor
  · rintro ⟨m, ⟨hm, hr⟩, hs⟩; exact ⟨stub m, ⟨m, hm, rfl⟩, hr, hs⟩
  · rintro ⟨_, ⟨m, hm, rfl⟩, hr, hs⟩; exact ⟨m, ⟨hm, hr⟩, hs⟩

theorem seqs_congr {db db' : Db} (h : stubs db' = stubs db) (roomId : String) (s : Nat) :
    s ∈ seqs db' roomId ↔ s ∈ seqs db roomId := by
  rw [mem_seqs, mem_seqs, h]

theorem le_dbMaxSeq {db : Db} {roomId : String} {s : Nat} (h : s ∈ seqs db roomId) :
    s ≤ dbMaxSeq db roomId := by
  obtain ⟨x, hx⟩ := List.isSome_max?_of_mem h |> Option.isSome_iff_exists.1
  rw [dbMaxSeq, hx]
  exact (List.max?_eq_some_iff.1 hx).2 s h

theorem dbMaxSeq_mem (db : Db) (roomId : String) :
    dbMaxSeq db roomId = 0 ∨ dbMaxSeq db roomId ∈ seqs db roomId := by
  rw [dbMaxSeq]
  cases h : (seqs db roomId).max? with
  | none => exact .inl rfl
  | some x => exact .inr (List.max?_mem h)

/-- The largest number is a number of the room, or there is none. -/
theorem dbMaxSeq_le {db : Db} {roomId : String} {n : Nat} (h : ∀ s ∈ seqs db roomId, s ≤ n) :
    dbMaxSeq db roomId ≤ n := by
  rcases dbMaxSeq_mem db roomId with h0 | hm
  · omega
  · exact h _ hm

theorem seqKey_inj {r r' : String} (h : seqKey r = seqKey r') : r = r' := by
  rwa [seqKey, seqKey, String.append_left_inj, String.append_right_inj] at h

/-! ## Inserting a row -/

theorem createRow_ok {p : CreateMessageParams} {id : String} {seq : Nat} {w w' : World}
    {m : Message} (h : createRow p id seq w = .ok (w', m)) :
    ∃ type t, p.type = some type ∧ m = p.row type id seq w.now ∧ w.db.messages.insert m = .ok t ∧
      w' = { w with db.messages := t } ∧ w.db.messageFk m = true := by
  simp only [createRow] at h
  split at h
  · cases h
  · rename_i type htype
    split at h
    · split at h
      · cases h
      · rename_i t ht
        split at h
        · rename_i hfk; cases h; exact ⟨type, t, htype, rfl, ht, rfl, hfk⟩
        · cases h
    · cases h

/-- The row is not there and a message of it would be accepted. -/
structure Refused (p : CreateMessageParams) (w : World) (e : Failure) : Prop where
  reason : p.type = none ∨ p.storable = false ∨
    ∃ type, p.type = some type ∧ ∀ id seq now, w.db.messageFk (p.row type id seq now) = false
  failure : e = .invalidValue ∨ e = .foreignKey

/-- What a system message holds can be stored. -/
theorem storable_systemParams (json : Json) (roomId actorId : String)
    (payload : SystemMessagePayload) : (systemParams json roomId actorId payload).storable = true := by
  simp [CreateMessageParams.storable, systemParams, json.stringify_storable]

theorem messageFk_row (db : Db) (p : CreateMessageParams) (type type' : MessageType)
    (id id' : String) (seq seq' now now' : Nat) :
    db.messageFk (p.row type id seq now) = db.messageFk (p.row type' id' seq' now') := rfl

theorem createRow_error {p : CreateMessageParams} {id : String} {seq : Nat} {w : World}
    {e : Failure} (hid : freshId w.db id = true) (h : createRow p id seq w = .error e) :
    Refused p w e ∨
    (e = .uniqueConstraint MessageKey.roomSeq.target ∧ seq ∈ seqs w.db p.roomId) ∨
    (e = .uniqueConstraint MessageKey.roomClientMessageId.target ∧
      ∃ k, p.clientMessageId = some k ∧ (findByClientMessageId w.db p.roomId k).isSome = true) := by
  simp only [createRow] at h
  split at h
  · rename_i ht; cases h; exact .inl ⟨.inl ht, .inl rfl⟩
  · rename_i type htype
    split at h
    · split at h
      · rename_i c hc
        cases h
        obtain ⟨x, hx, hclash⟩ := Table.violated_some (Table.insert_error hc)
        cases c with
        | id =>
          simp only [freshId, Bool.and_eq_true, Bool.not_eq_true', List.any_eq_false] at hid
          have heq : id = x.id := by
            simpa [Row.clash, CreateMessageParams.row] using hclash
          exact absurd (by simp [heq]) (hid.2 x hx)
        | roomSeq =>
          simp only [Row.clash, CreateMessageParams.row, Bool.and_eq_true, beq_iff_eq] at hclash
          exact .inr (.inl ⟨rfl, mem_seqs.2 ⟨stub x, stub_mem hx, hclash.1.symm, hclash.2.symm⟩⟩)
        | roomClientMessageId =>
          simp only [Row.clash, CreateMessageParams.row, sameKey, Bool.and_eq_true, beq_iff_eq,
            Option.isSome_iff_exists] at hclash
          obtain ⟨hr, ⟨k, hk⟩, hkx⟩ := hclash
          refine .inr (.inr ⟨rfl, k, hk, ?_⟩)
          rw [findByClientMessageId, Table.find, List.find?_isSome]
          exact ⟨x, hx, by simp [hr, ← hkx, hk]⟩
      · split at h
        · cases h
        · rename_i hfk
          cases h
          exact .inl ⟨.inr (.inr ⟨type, htype, fun id' seq' now' => by
            rw [messageFk_row _ p type type id' id seq' seq now' w.now]; simpa using hfk⟩), .inr rfl⟩
    · rename_i hno
      cases h
      exact .inl ⟨.inr (.inl (by simpa using hno)), .inl rfl⟩

theorem stubs_insert {db : Db} {t : Table Message} {m : Message}
    (h : db.messages.insert m = .ok t) :
    stubs { db with messages := t } = stubs db ++ [stub m] := by
  simp [stubs, (Table.insert_ok h).2]

theorem caught_roomSeq (a : Nat) :
    caught a (.uniqueConstraint MessageKey.roomSeq.target) = .resyncMax a := by
  have h : includes (",".intercalate MessageKey.roomSeq.target) "clientMessageId" = false ∧
      includes (",".intercalate MessageKey.roomSeq.target) "seq" = true := by decide
  simp [caught, h.1, h.2]

theorem caught_roomClientMessageId (a : Nat) :
    caught a (.uniqueConstraint MessageKey.roomClientMessageId.target) = .winner := by
  have h : includes (",".intercalate MessageKey.roomClientMessageId.target) "clientMessageId" =
      true := by decide
  simp [caught, h]

theorem Refused.caught {p : CreateMessageParams} {w : World} {e : Failure} (h : Refused p w e)
    (a : Nat) : caught a e = .done (.error e) := by
  rcases h.failure with rfl | rfl <;> rfl

/-! ## The errors of the checks -/

/-- No check fails as the numbering does when it gives up. -/
theorem validatePayload_code {type : Option MessageType} {content mediaId : Option String}
    {e : AppException} (h : validatePayload type content mediaId = some e) :
    e.code ≠ .CONFLICT := by
  unfold validatePayload at h
  split at h
  · split at h <;> cases h
    simp [Errors.validation]
  · split at h
    · split at h <;> cases h
      simp [Errors.validation]
    · cases h
      simp [Errors.validation]

theorem assertActiveMember_code {db : Db} {r u : String} {e : AppException}
    (h : assertActiveMember db r u = some e) : e.code ≠ .CONFLICT := by
  unfold assertActiveMember at h
  split at h
  · split at h <;> cases h
    simp [Errors.forbidden]
  · cases h
    simp [Errors.forbidden]

theorem assertOwnedMedia_code {db : Db} {i u : String} {e : AppException}
    (h : assertOwnedMedia db i u = some e) : e.code ≠ .CONFLICT := by
  unfold assertOwnedMedia at h
  split at h
  · split at h <;> cases h
    simp [Errors.forbidden]
  · cases h
    simp [Errors.notFound]

theorem assertReplyTarget_code {db : Db} {r t : String} {e : AppException}
    (h : assertReplyTarget db r t = some e) : e.code ≠ .CONFLICT := by
  unfold assertReplyTarget at h
  split at h
  · split at h <;> cases h
    simp [Errors.validation]
  · cases h
    simp [Errors.validation]

/-! ## The actions of `createMessage` -/

/-- Every action of a `createMessage` call, as a relation. -/
inductive CreateActs (json : Json) (c : Choice) (p : CreateMessageParams) (w : World) :
    CreatePc → World → CreatePc → Prop
  | found {k m} : findByClientMessageId w.db p.roomId k = some m →
      CreateActs json c p w (.lookup k) w (.done (.ok ⟨serialize m, true⟩))
  | missed {k} : findByClientMessageId w.db p.roomId k = none →
      CreateActs json c p w (.lookup k) w (afterLookup p)
  | notMember {e} : assertActiveMember w.db p.roomId p.senderId = some e →
      CreateActs json c p w .member w (.fail e)
  | member : assertActiveMember w.db p.roomId p.senderId = none →
      CreateActs json c p w .member w (afterMember p)
  | notOwned {i e} : assertOwnedMedia w.db i p.senderId = some e →
      CreateActs json c p w (.media i) w (.fail e)
  | owned {i} : assertOwnedMedia w.db i p.senderId = none →
      CreateActs json c p w (.media i) w (afterMedia p)
  | noTarget {t e} : assertReplyTarget w.db p.roomId t = some e →
      CreateActs json c p w (.reply t) w (.fail e)
  | target {t} : assertReplyTarget w.db p.roomId t = none →
      CreateActs json c p w (.reply t) w (.seqExists 0)
  | counter {a} : w.exists? (seqKey p.roomId) = true →
      CreateActs json c p w (.seqExists a) w (.seqIncr a)
  | noCounter {a} : w.exists? (seqKey p.roomId) = false →
      CreateActs json c p w (.seqExists a) w (.seqMax a)
  | seqMax {a} : CreateActs json c p w (.seqMax a) w (.seqSetNx a (dbMaxSeq w.db p.roomId))
  | setNx {a max} : CreateActs json c p w (.seqSetNx a max)
      (w.setNx (seqKey p.roomId) (.num max)) (.seqIncr a)
  | incr {a seq w'} : w.incr (seqKey p.roomId) = some (w', seq) →
      CreateActs json c p w (.seqIncr a) w' (.insert a seq)
  | noNumber {a} : w.incr (seqKey p.roomId) = none →
      CreateActs json c p w (.seqIncr a) w (.done (.error .redis))
  | inserted {a seq w' m} : freshId w.db c.id = true → createRow p c.id seq w = .ok (w', m) →
      CreateActs json c p w (.insert a seq) w' (.roomUpdate m)
  | refused {a seq e} : Refused p w e →
      CreateActs json c p w (.insert a seq) w (.done (.error e))
  | seqTaken {a seq} : seq ∈ seqs w.db p.roomId →
      CreateActs json c p w (.insert a seq) w (.resyncMax a)
  | keyTaken {a seq k} : p.clientMessageId = some k →
      (findByClientMessageId w.db p.roomId k).isSome = true →
      CreateActs json c p w (.insert a seq) w .winner
  | resyncMax {a} :
      CreateActs json c p w (.resyncMax a) w (.resyncSet a (dbMaxSeq w.db p.roomId))
  | resyncSet {a max} : CreateActs json c p w (.resyncSet a max)
      (w.set (seqKey p.roomId) (.num max))
      (if a + 1 < SEQ_RETRY then .seqExists (a + 1)
        else .fail (Errors.conflict "메시지 시퀀스 발급에 실패했습니다."))
  | winner {m} : p.clientMessageId.bind (findByClientMessageId w.db p.roomId) = some m →
      CreateActs json c p w .winner w (.done (.ok ⟨serialize m, true⟩))
  | noWinner : p.clientMessageId.bind (findByClientMessageId w.db p.roomId) = none →
      CreateActs json c p w .winner w (.done (.error .js))
  | roomUpdate {m} : CreateActs json c p w (.roomUpdate m)
      { w with db.rooms := setLastMessageAt w.db.rooms p.roomId m.createdAt }
      (.fetch (serialize m) {})
  | noRoom {m} : w.db.rooms.rows.any (·.id == p.roomId) = false →
      CreateActs json c p w (.roomUpdate m) w (.done (.error .recordNotFound))
  | fetch {dto got got'} : fetchNext c p w.db got = some got' →
      CreateActs json c p w (.fetch dto got) (emitCreated json dto got' w).1
        (emitCreated json dto got' w).2

/-- Whatever a `createMessage` call does is one of the actions above. -/
theorem acts_of_createStep {json : Json} {c : Choice} {p : CreateMessageParams} {w w' : World}
    {pc pc' : CreatePc} (h : createStep json c p w pc = some (w', pc')) :
    CreateActs json c p w pc w' pc' := by
  cases pc <;> simp only [createStep] at h
  case lookup k =>
    split at h <;> cases h
    · rename_i hf; exact .found hf
    · rename_i hf; exact .missed hf
  case member =>
    split at h <;> cases h
    · rename_i he; exact .notMember he
    · rename_i he; exact .member he
  case media i =>
    split at h <;> cases h
    · rename_i he; exact .notOwned he
    · rename_i he; exact .owned he
  case reply t =>
    split at h <;> cases h
    · rename_i he; exact .noTarget he
    · rename_i he; exact .target he
  case seqExists a =>
    split at h <;> cases h
    · rename_i he; exact .counter he
    · rename_i he; exact .noCounter (by simpa using he)
  case seqMax a => cases h; exact .seqMax
  case seqSetNx a max => cases h; exact .setNx
  case seqIncr a =>
    split at h <;> cases h
    · rename_i hi; exact .incr hi
    · rename_i hi; exact .noNumber hi
  case insert a seq =>
    split at h
    · rename_i hid
      split at h <;> cases h
      · rename_i hr; exact .inserted hid hr
      · rename_i e hr
        rcases createRow_error hid hr with href | ⟨rfl, hs⟩ | ⟨rfl, k, hk, hs⟩
        · rw [href.caught]; exact .refused href
        · rw [caught_roomSeq]; exact .seqTaken hs
        · rw [caught_roomClientMessageId]; exact .keyTaken hk hs
    · cases h
  case resyncMax a => cases h; exact .resyncMax
  case resyncSet a max => cases h; exact .resyncSet
  case winner =>
    split at h <;> cases h
    · rename_i hf; exact .winner hf
    · rename_i hf; exact .noWinner hf
  case roomUpdate m =>
    split at h <;> cases h
    · exact .roomUpdate
    · rename_i hno; exact .noRoom (by simpa using hno)
  case fetch dto got =>
    obtain ⟨got', hf, he⟩ := Option.map_eq_some_iff.1 h
    have hw : w' = (emitCreated json dto got' w).1 := (congrArg Prod.fst he).symm
    have hpc : pc' = (emitCreated json dto got' w).2 := (congrArg Prod.snd he).symm
    rw [hw, hpc]
    exact .fetch hf
  case done r => cases h

theorem afterLookup_cases (p : CreateMessageParams) :
    afterLookup p = .seqExists 0 ∨ afterLookup p = .member := by
  unfold afterLookup
  split
  · exact .inl rfl
  · exact .inr rfl

theorem afterMedia_cases (p : CreateMessageParams) :
    afterMedia p = .seqExists 0 ∨ ∃ t, afterMedia p = .reply t := by
  unfold afterMedia
  split
  · exact .inr ⟨_, rfl⟩
  · exact .inl rfl

theorem afterMember_cases (p : CreateMessageParams) :
    afterMember p = afterMedia p ∨ (∃ e, afterMember p = .fail e) ∨
      ∃ i, afterMember p = .media i := by
  unfold afterMember
  split
  · exact .inr (.inl ⟨_, rfl⟩)
  · exact .inr (.inr ⟨_, rfl⟩)
  · exact .inl rfl

theorem createStart_cases (p : CreateMessageParams) :
    createStart p = afterLookup p ∨ ∃ k, createStart p = .lookup k := by
  unfold createStart
  split
  · exact .inr ⟨_, rfl⟩
  · exact .inl rfl

/-- The pcs of a `createMessage` call up to its first attempt at a number. -/
inductive Checking : CreatePc → Prop
  | lookup (k : String) : Checking (.lookup k)
  | member : Checking .member
  | media (i : String) : Checking (.media i)
  | reply (t : String) : Checking (.reply t)
  | seqExists : Checking (.seqExists 0)

theorem checking_afterLookup (p : CreateMessageParams) : Checking (afterLookup p) := by
  rcases afterLookup_cases p with h | h <;> rw [h] <;> constructor

theorem checking_afterMedia (p : CreateMessageParams) : Checking (afterMedia p) := by
  rcases afterMedia_cases p with h | ⟨t, h⟩ <;> rw [h] <;> constructor

theorem checking_afterMember (p : CreateMessageParams) :
    Checking (afterMember p) ∨ ∃ e, afterMember p = .fail e := by
  rcases afterMember_cases p with h | h | ⟨i, h⟩
  · rw [h]; exact .inl (checking_afterMedia p)
  · exact .inr h
  · rw [h]; exact .inl (.media i)

theorem checking_createStart (p : CreateMessageParams) : Checking (createStart p) := by
  rcases createStart_cases p with h | ⟨k, h⟩ <;> rw [h]
  · exact checking_afterLookup p
  · exact .lookup k

/-- `emitCreated` waits for more answers, emits, or fails on a body that is no JSON. -/
theorem emitCreated_cases (json : Json) (dto : SerializedMessage) (got : Fetched) (w : World) :
    (emitCreated json dto got w).2 = .fetch dto got ∧ (emitCreated json dto got w).1 = w ∨
    (∃ members preview title, emitCreated json dto got w =
      (w.emit (.messageCreated dto members preview title), .done (.ok ⟨dto, false⟩))) ∨
    emitCreated json dto got w = (w, .done (.error .js)) := by
  unfold emitCreated
  split
  · split
    · exact .inr (.inl ⟨_, _, _, rfl⟩)
    · exact .inr (.inr rfl)
  · exact .inl ⟨rfl, rfl⟩

theorem emitCreated_world (json : Json) (dto : SerializedMessage) (got : Fetched) (w : World) :
    ∃ events, (emitCreated json dto got w).1 = { w with events } := by
  rcases emitCreated_cases json dto got w with ⟨-, h⟩ | ⟨_, _, _, h⟩ | h <;> rw [h]
  · exact ⟨w.events, rfl⟩
  · exact ⟨_, rfl⟩
  · exact ⟨w.events, rfl⟩

/-- Where the branches of a `createMessage` call go that are no single pc. -/
inductive Branch : CreatePc → Prop
  | member : Branch .member
  | media (i : String) : Branch (.media i)
  | reply (t : String) : Branch (.reply t)
  | seqExists (a : Nat) : Branch (.seqExists a)
  | fetch (dto : SerializedMessage) (got : Fetched) : Branch (.fetch dto got)
  | done (r : Except Failure CreateMessageResult) : Branch (.done r)

theorem branch_afterLookup (p : CreateMessageParams) : Branch (afterLookup p) := by
  rcases afterLookup_cases p with h | h <;> rw [h] <;> constructor

theorem branch_afterMedia (p : CreateMessageParams) : Branch (afterMedia p) := by
  rcases afterMedia_cases p with h | ⟨t, h⟩ <;> rw [h] <;> constructor

theorem branch_afterMember (p : CreateMessageParams) : Branch (afterMember p) := by
  rcases afterMember_cases p with h | ⟨e, h⟩ | ⟨i, h⟩ <;> rw [h]
  · exact branch_afterMedia p
  · constructor
  · constructor

theorem branch_emitCreated (json : Json) (dto : SerializedMessage) (got : Fetched) (w : World) :
    Branch (emitCreated json dto got w).2 := by
  rcases emitCreated_cases json dto got w with ⟨h, -⟩ | ⟨_, _, _, h⟩ | h <;> rw [h] <;> constructor

/-- The action that leads from `pc` to a pc that is no branch. -/
def Origin (c : Choice) (p : CreateMessageParams) (w : World) (pc : CreatePc) (w' : World) :
    CreatePc → Prop
  | .insert a seq => pc = .seqIncr a ∧ w.incr (seqKey p.roomId) = some (w', seq)
  | .roomUpdate m => ∃ a seq, pc = .insert a seq ∧ freshId w.db c.id = true ∧
      createRow p c.id seq w = .ok (w', m)
  | .winner => ∃ a seq k, pc = .insert a seq ∧ w' = w ∧ p.clientMessageId = some k ∧
      (findByClientMessageId w.db p.roomId k).isSome = true
  | .resyncMax a => ∃ seq, pc = .insert a seq ∧ w' = w ∧ seq ∈ seqs w.db p.roomId
  | .lookup _ => False
  | _ => True

theorem origin_of_branch {c : Choice} {p : CreateMessageParams} {w w' : World}
    {pc pc' : CreatePc} (h : Branch pc') : Origin c p w pc w' pc' := by
  cases h <;> trivial

theorem CreateActs.origin {json : Json} {c : Choice} {p : CreateMessageParams} {w w' : World}
    {pc pc' : CreatePc} (h : CreateActs json c p w pc w' pc') : Origin c p w pc w' pc' := by
  cases h with
  | missed => exact origin_of_branch (branch_afterLookup p)
  | member => exact origin_of_branch (branch_afterMember p)
  | owned => exact origin_of_branch (branch_afterMedia p)
  | incr hi => exact ⟨rfl, hi⟩
  | inserted hid hcr => exact ⟨_, _, rfl, hid, hcr⟩
  | keyTaken hk hs => exact ⟨_, _, _, rfl, rfl, hk, hs⟩
  | seqTaken hs => exact ⟨_, rfl, rfl, hs⟩
  | resyncSet => refine origin_of_branch ?_; split <;> constructor
  | fetch => exact origin_of_branch (branch_emitCreated ..)
  | _ => trivial

/-! ## What they change -/

/-- The row of the call is not there yet, or another one has been found in its place. -/
def unstored : CreatePc → Bool
  | .roomUpdate _ | .fetch _ _ | .done (.ok ⟨_, false⟩) => false
  | _ => true

/-- What an action changes: nothing but Redis until the row is inserted, then the messages, then
the room; while the event is put together nothing, and at last the events. -/
inductive CreateEffect (json : Json) (c : Choice) (p : CreateMessageParams) (w : World) :
    CreatePc → World → CreatePc → Prop
  | redis {pc pc'} (redis) : unstored pc = true → unstored pc' = true →
      CreateEffect json c p w pc { w with redis } pc'
  | inserted {a seq type t} : freshId w.db c.id = true → p.type = some type →
      w.db.messages.insert (p.row type c.id seq w.now) = .ok t →
      w.db.messageFk (p.row type c.id seq w.now) = true →
      CreateEffect json c p w (.insert a seq) { w with db.messages := t }
        (.roomUpdate (p.row type c.id seq w.now))
  | noted {m} : CreateEffect json c p w (.roomUpdate m)
      { w with db.rooms := setLastMessageAt w.db.rooms p.roomId m.createdAt }
      (.fetch (serialize m) {})
  | noRoom {m} : w.db.rooms.rows.any (·.id == p.roomId) = false →
      CreateEffect json c p w (.roomUpdate m) w (.done (.error .recordNotFound))
  | waiting {dto got got'} : fetchNext c p w.db got = some got' →
      CreateEffect json c p w (.fetch dto got) w (.fetch dto got')
  | announced {dto got got' ids preview title} : fetchNext c p w.db got = some got' →
      got'.memberUserIds = some ids →
      CreateEffect json c p w (.fetch dto got) (w.emit (.messageCreated dto ids preview title))
        (.done (.ok ⟨dto, false⟩))
  | unreadable {dto got} : messagePreview json dto.type dto.content = none →
      CreateEffect json c p w (.fetch dto got) w (.done (.error .js))

section Effect
variable {json : Json} {c : Choice} {p : CreateMessageParams} {w w' : World} {pc pc' : CreatePc}

theorem unstored_of_checking (h : Checking pc) : unstored pc = true := by cases h <;> rfl

theorem CreateActs.effect (h : CreateActs json c p w pc w' pc') :
    CreateEffect json c p w pc w' pc' := by
  have same : ∀ {pc pc'}, unstored pc = true → unstored pc' = true →
      CreateEffect json c p w pc w pc' := .redis w.redis
  cases h with
  | missed => exact same rfl (unstored_of_checking (checking_afterLookup p))
  | member =>
    refine same rfl ?_
    rcases checking_afterMember p with h | ⟨e, h⟩
    · exact unstored_of_checking h
    · rw [h]; rfl
  | owned => exact same rfl (unstored_of_checking (checking_afterMedia p))
  | @setNx a max =>
    obtain ⟨redis, he⟩ := World.setNx_world w (seqKey p.roomId) (.num max)
    rw [he]
    exact .redis redis rfl rfl
  | incr hi =>
    obtain ⟨⟨redis, rfl⟩, -⟩ := World.incr_spec hi
    exact .redis redis rfl rfl
  | inserted hid hcr =>
    obtain ⟨type, t, htype, rfl, ht, rfl, hfk⟩ := createRow_ok hcr
    exact .inserted hid htype ht hfk
  | resyncSet => exact .redis _ rfl (by split <;> rfl)
  | roomUpdate => exact .noted
  | noRoom hno => exact .noRoom hno
  | @fetch dto got got' hf =>
    obtain ⟨members, room, profile⟩ := got'
    unfold emitCreated
    split
    · rename_i ids room profile hgot
      split
      · exact .announced hf (by rw [hgot])
      · rename_i hnone
        exact .unreadable hnone
    · exact .waiting hf
  | _ => exact same rfl rfl

/-- The log of the room is as it was, or the insert has appended its row to it. -/
theorem CreateActs.log (h : CreateActs json c p w pc w' pc') :
    stubs w'.db = stubs w.db ∨
    ∃ a seq m, pc = .insert a seq ∧ pc' = .roomUpdate m ∧ freshId w.db c.id = true ∧
      createRow p c.id seq w = .ok (w', m) ∧ stubs w'.db = stubs w.db ++ [stub m] := by
  cases h.effect with
  | inserted hid htype ht hfk =>
    obtain ⟨_, _, hpc, -, hcr⟩ := h.origin
    cases hpc
    exact .inr ⟨_, _, _, rfl, rfl, hid, hcr, stubs_insert ht⟩
  | _ => exact .inl rfl

/-- The only event of a creation is that of its message. -/
theorem CreateActs.events (h : CreateActs json c p w pc w' pc') :
    w'.events = w.events ∨ ∃ message members preview title,
      w'.events = w.events ++ [.messageCreated message members preview title] := by
  cases h.effect with
  | announced => exact .inr ⟨_, _, _, _, rfl⟩
  | _ => exact .inl rfl

end Effect

/-- Only the counter of the room changes in Redis. -/
theorem CreateActs.redis {json : Json} {c : Choice} {p : CreateMessageParams} {w w' : World}
    {pc pc' : CreatePc} (h : CreateActs json c p w pc w' pc') :
    (∀ key, key ≠ seqKey p.roomId → w'.lookup key = w.lookup key) ∧
    ∀ key, KeyValue.Lasting key w.redis → KeyValue.Lasting key w'.redis := by
  cases h with
  | setNx =>
    exact ⟨fun key hk => by rw [World.lookup_setNx, if_neg hk],
      fun key hl => World.lasting_setNx hl _ _⟩
  | incr hi => obtain ⟨-, -, hne, -, hl⟩ := World.incr_spec hi; exact ⟨hne, hl⟩
  | resyncSet =>
    exact ⟨fun key hk => World.lookup_set_ne w hk _ _, fun key hl => World.lasting_set hl _ _⟩
  | inserted hid hr =>
    obtain ⟨type, t, -, -, -, rfl, -⟩ := createRow_ok hr
    exact ⟨fun _ _ => rfl, fun _ hl => hl⟩
  | @fetch dto got got' hf =>
    obtain ⟨events, he⟩ := emitCreated_world json dto got' w
    rw [he]; exact ⟨fun _ _ => rfl, fun _ hl => hl⟩
  | _ => exact ⟨fun _ _ => rfl, fun _ hl => hl⟩

/-- The messages `MESSAGE_CREATED` has been emitted for. -/
def announced (w : World) : List SerializedMessage :=
  w.events.filterMap fun
    | .messageCreated m _ _ _ => some m
    | _ => none

/-- What `markRead` and `softDelete` leave alone. -/
structure Aside (w w' : World) : Prop where
  log : stubs w'.db = stubs w.db
  redis : w'.redis = w.redis
  now : w'.now = w.now
  active : ∀ r u, assertActiveMember w'.db r u = assertActiveMember w.db r u
  rooms : w'.db.rooms = w.db.rooms
  users : w'.db.users = w.db.users
  media : w'.db.media = w.db.media
  announced : announced w' = announced w

theorem Aside.refl (w : World) : Aside w w := ⟨rfl, rfl, rfl, fun _ _ => rfl, rfl, rfl, rfl, rfl⟩

theorem assertActiveMember_setLastReadSeq (db : Db) (q : RoomMember → Bool) (n : Nat)
    (r u : String) :
    assertActiveMember { db with roomMembers := setLastReadSeq db.roomMembers q n } r u =
      assertActiveMember db r u := by
  have hcomp : ((fun m : RoomMember => m.roomId == r && m.userId == u) ∘
      fun m => if q m then { m with lastReadSeq := n } else m) =
      fun m => m.roomId == r && m.userId == u := by
    funext m; simp only [Function.comp_apply]; split <;> rfl
  simp only [assertActiveMember, setLastReadSeq, Table.find, Table.updateWhere, List.find?_map,
    hcomp]
  cases db.roomMembers.rows.find? _ with
  | none => rfl
  | some m => simp only [Option.map_some]; split <;> rfl

theorem aside_of_readStep {roomId userId : WhereString} {n : JsNumber} {w w' : World}
    {pc pc' : ReadPc} (h : readStep roomId userId n w pc = some (w', pc')) : Aside w w' := by
  cases pc <;> simp only [readStep] at h
  case update =>
    split at h
    · cases h; exact .refl w
    · split at h
      · cases h; exact .refl w
      · split at h
        · cases h
          exact ⟨rfl, rfl, rfl, assertActiveMember_setLastReadSeq w.db _ _, rfl, rfl, rfl, rfl⟩
        · cases h; exact .refl w
  case members l =>
    cases h
    exact ⟨rfl, rfl, rfl, fun _ _ => rfl, rfl, rfl, rfl, by simp [announced, World.emit]⟩
  case done r => cases h

theorem aside_of_deleteStep {cfg : AppConfig} {roomId messageId requesterId : String}
    {w w' : World} {pc pc' : DeletePc}
    (h : deleteStep cfg roomId messageId requesterId w pc = some (w', pc')) : Aside w w' := by
  cases pc <;> simp only [deleteStep] at h
  case find =>
    have hw : w' = w := by
      split at h
      · cases h; rfl
      · simp only [Option.some.injEq, Prod.mk.injEq] at h; exact h.1.symm
    rw [hw]; exact .refl w
  case update deletedAt =>
    split at h
    · cases h
      refine ⟨?_, rfl, rfl, fun _ _ => rfl, rfl, rfl, rfl, rfl⟩
      simp only [stubs]
      rw [Table.map_updateWhere]
      exact stub_unsend deletedAt
    · cases h; exact .refl w
  case members =>
    cases h
    exact ⟨rfl, rfl, rfl, fun _ _ => rfl, rfl, rfl, rfl, by simp [announced, World.emit]⟩
  case done r => cases h

theorem readStep_db {roomId userId : WhereString} {n : JsNumber} {w w' : World}
    {pc pc' : ReadPc} (h : readStep roomId userId n w pc = some (w', pc')) :
    (∃ roomMembers, w'.db = { w.db with roomMembers }) ∧ w'.pushed = w.pushed := by
  cases pc <;> simp only [readStep] at h
  case update =>
    split at h
    · cases h; exact ⟨⟨_, rfl⟩, rfl⟩
    · split at h
      · cases h; exact ⟨⟨_, rfl⟩, rfl⟩
      · split at h <;> cases h <;> exact ⟨⟨_, rfl⟩, rfl⟩
  case members l => cases h; exact ⟨⟨_, rfl⟩, rfl⟩
  case done r => cases h

theorem deleteStep_db {cfg : AppConfig} {roomId messageId requesterId : String} {w w' : World}
    {pc pc' : DeletePc} (h : deleteStep cfg roomId messageId requesterId w pc = some (w', pc')) :
    (∃ messages, w'.db = { w.db with messages }) ∧ w'.pushed = w.pushed := by
  cases pc <;> simp only [deleteStep] at h
  case find => cases h; exact ⟨⟨_, rfl⟩, rfl⟩
  case update deletedAt => split at h <;> cases h <;> exact ⟨⟨_, rfl⟩, rfl⟩
  case members => cases h; exact ⟨⟨_, rfl⟩, rfl⟩
  case done r => cases h

/-- An action of the service is one of the function that the call is of. -/
inductive StepActs (cfg : AppConfig) (json : Json) (c : Choice) (w : World) :
    Call → Pc → World → Pc → Prop
  | create {p q w' q'} : createStep json c p w q = some (w', q') →
      StepActs cfg json c w (.createMessage p) (.create q) w' (.create q')
  | read {r u n q w' q'} : readStep r u n w q = some (w', q') →
      StepActs cfg json c w (.markRead r u n) (.read q) w' (.read q')
  | delete {r m u q w' q'} : deleteStep cfg r m u w q = some (w', q') →
      StepActs cfg json c w (.softDelete r m u) (.delete q) w' (.delete q')

theorem acts_of_step {cfg : AppConfig} {json : Json} {c : Choice} {call : Call} {w w' : World}
    {pc pc' : Pc} (h : step cfg json c call w pc = some (w', pc')) :
    StepActs cfg json c w call pc w' pc' := by
  unfold step at h
  split at h
  · obtain ⟨⟨w₁, q⟩, hs, he⟩ := Option.map_eq_some_iff.1 h
    cases he
    exact .create hs
  · obtain ⟨⟨w₁, q⟩, hs, he⟩ := Option.map_eq_some_iff.1 h
    cases he
    exact .read hs
  · obtain ⟨⟨w₁, q⟩, hs, he⟩ := Option.map_eq_some_iff.1 h
    cases he
    exact .delete hs
  · cases h

/-- An action of the service is one of a `createMessage` call, or leaves the log alone. -/
theorem step_cases {cfg : AppConfig} {json : Json} {c : Choice} {call : Call} {w w' : World}
    {pc pc' : Pc} (h : step cfg json c call w pc = some (w', pc')) :
    (∃ p pc₁ pc₁', call = .createMessage p ∧ pc = .create pc₁ ∧ pc' = .create pc₁' ∧
      CreateActs json c p w pc₁ w' pc₁') ∨
    ((∀ p, call ≠ .createMessage p) ∧ Aside w w') := by
  cases acts_of_step h with
  | create hcreate => exact .inl ⟨_, _, _, rfl, rfl, rfl, acts_of_createStep hcreate⟩
  | read hread => exact .inr ⟨fun _ => Call.noConfusion, aside_of_readStep hread⟩
  | delete hdelete => exact .inr ⟨fun _ => Call.noConfusion, aside_of_deleteStep hdelete⟩

end Intaktok.Messages
