import Intaktok.Messages.Recovery
import Intaktok.Messages.Idempotency
/-
# What a send that runs alone comes to

With no other call in between, the checks of `createMessage` and the constraints of the insert
settle what becomes of a send on the database it starts from: `verdict` reads it off. A sequence
counter that has drifted costs a lone call one resync and no more, so that it never ends with the
`CONFLICT` of `persistWithSeq` (`lone_run`), and it always comes to its end (`lone_completes`).

| here | there |
| --- | --- |
| `verdictAtInsert` | the constraints `message.create` runs into (`messages.service.ts:139`) and the `catch` (`:151`) |
| `verdictAfterMedia`, `verdictAfterMember`, `verdictAfterLookup` | the checks of `createMessage` that are left (`:104`) |
| `verdict` | `createMessage` from its lookup on (`:97`) |
-/

namespace Intaktok.Messages

open Interleave Tables

inductive Verdict where
  /-- An existing message is returned. -/
  | duplicate (m : Message)
  | refused (e : Failure)
  /-- A message of this type is inserted. -/
  | accepted (type : MessageType)

def orRefused (check : Option AppException) (v : Verdict) : Verdict :=
  match check with
  | some e => .refused (.app e)
  | none => v

/-- The message of the room that has the key of the call. -/
def keyHolder (p : CreateMessageParams) (db : Db) : Option Message :=
  p.clientMessageId.bind (findByClientMessageId db p.roomId)

def verdictAtInsert (p : CreateMessageParams) (db : Db) : Verdict :=
  match p.type with
  | none => .refused .invalidValue
  | some type =>
    if p.storable then
      match keyHolder p db with
      | some m => .duplicate m
      | none => if db.messageFk (p.row type "" 0 0) then .accepted type else .refused .foreignKey
    else .refused .invalidValue

def verdictAfterMedia (p : CreateMessageParams) (db : Db) : Verdict :=
  orRefused ((truthy p.replyToId).bind (assertReplyTarget db p.roomId)) (verdictAtInsert p db)

def verdictAfterMember (p : CreateMessageParams) (db : Db) : Verdict :=
  orRefused (validatePayload p.type p.content p.mediaId)
    (orRefused ((truthy p.mediaId).bind fun i => assertOwnedMedia db i p.senderId)
      (verdictAfterMedia p db))

def verdictAfterLookup (p : CreateMessageParams) (db : Db) : Verdict :=
  if p.isSystem then verdictAtInsert p db
  else orRefused (assertActiveMember db p.roomId p.senderId) (verdictAfterMember p db)

def verdict (p : CreateMessageParams) (db : Db) : Verdict :=
  match (truthy p.clientMessageId).bind (findByClientMessageId db p.roomId) with
  | some m => .duplicate m
  | none => verdictAfterLookup p db

theorem orRefused_accepted {check : Option AppException} {v : Verdict} {type : MessageType} :
    orRefused check v = .accepted type ↔ check = none ∧ v = .accepted type := by
  cases check <;> simp [orRefused]

theorem verdictAtInsert_accepted {p : CreateMessageParams} {db : Db} {type : MessageType} :
    verdictAtInsert p db = .accepted type ↔ p.type = some type ∧ p.storable = true ∧
      keyHolder p db = none ∧ db.messageFk (p.row type "" 0 0) = true := by
  unfold verdictAtInsert
  cases p.type with
  | none => simp
  | some type' =>
    cases p.storable <;> cases keyHolder p db
    case true.none =>
      simp only [Option.some.injEq, if_true, true_and]
      split
      · rename_i hfk
        rw [Verdict.accepted.injEq]
        exact ⟨fun h => ⟨h, h ▸ hfk⟩, fun h => h.1⟩
      · rename_i hfk
        simp only [reduceCtorEq, false_iff, not_and]
        rintro rfl
        exact hfk
    all_goals simp

theorem keyHolder_truthy {p : CreateMessageParams} {db : Db} (h : keyHolder p db = none) :
    (truthy p.clientMessageId).bind (findByClientMessageId db p.roomId) = none := by
  cases hk : truthy p.clientMessageId with
  | none => rfl
  | some k =>
    obtain ⟨hk, -⟩ := truthy_eq_some.1 hk
    rw [keyHolder, hk] at h
    exact h

/-- A send is inserted if nothing in the room has its key, every check passes and every row it
names is there. -/
theorem verdict_accepted {p : CreateMessageParams} {db : Db} {type : MessageType} :
    verdict p db = .accepted type ↔
      (p.isSystem = true ∨ (assertActiveMember db p.roomId p.senderId = none ∧
        validatePayload p.type p.content p.mediaId = none ∧
        ((truthy p.mediaId).bind fun i => assertOwnedMedia db i p.senderId) = none ∧
        (truthy p.replyToId).bind (assertReplyTarget db p.roomId) = none)) ∧
      p.type = some type ∧ p.storable = true ∧ keyHolder p db = none ∧
      db.messageFk (p.row type "" 0 0) = true := by
  have hafter : verdictAfterLookup p db = .accepted type ↔
      (p.isSystem = true ∨ (assertActiveMember db p.roomId p.senderId = none ∧
        validatePayload p.type p.content p.mediaId = none ∧
        ((truthy p.mediaId).bind fun i => assertOwnedMedia db i p.senderId) = none ∧
        (truthy p.replyToId).bind (assertReplyTarget db p.roomId) = none)) ∧
      verdictAtInsert p db = .accepted type := by
    unfold verdictAfterLookup
    split
    · rename_i hs; simp [hs]
    · rename_i hs
      simp only [verdictAfterMember, verdictAfterMedia, orRefused_accepted, hs, Bool.false_eq_true,
        false_or, and_assoc]
  rw [← verdictAtInsert_accepted, ← hafter, verdict]
  cases hf : (truthy p.clientMessageId).bind (findByClientMessageId db p.roomId) with
  | none => rfl
  | some m =>
    simp only [reduceCtorEq, false_iff]
    intro h
    have hnone := (verdictAtInsert_accepted.1 (hafter.1 h).2).2.2.1
    rw [keyHolder_truthy hnone] at hf
    cases hf

/-! ## Before the insert -/

/-- A call that is about to do `pc`, and has inserted nothing, comes to `v`. -/
def HeadsFor (p : CreateMessageParams) (db : Db) (v : Verdict) : CreatePc → Prop
  | .lookup k => v = match findByClientMessageId db p.roomId k with
    | some m => .duplicate m
    | none => verdictAfterLookup p db
  | .member =>
    v = orRefused (assertActiveMember db p.roomId p.senderId) (verdictAfterMember p db)
  | .media i => v = orRefused (assertOwnedMedia db i p.senderId) (verdictAfterMedia p db)
  | .reply t => v = orRefused (assertReplyTarget db p.roomId t) (verdictAtInsert p db)
  | .seqExists _ | .seqMax _ | .seqSetNx _ _ | .seqIncr _ | .insert _ _ | .resyncMax _
  | .resyncSet _ _ => v = verdictAtInsert p db
  | .winner => ∃ m, v = .duplicate m ∧ keyHolder p db = some m
  | .done (.ok res) => ∃ m, v = .duplicate m ∧ res = ⟨serialize m, true⟩
  | .done (.error e) => v = .refused e
  | .roomUpdate _ | .fetch _ _ => False

/-- A lone call tries a second number only once the counter is ahead of the room. -/
def Attempting (r : String) (w : World) : CreatePc → Prop
  | .seqExists a | .seqMax a | .seqSetNx a _ | .seqIncr a => a = 0 ∨ Ahead r w
  | .insert a seq => a = 0 ∨ seq ∉ seqs w.db r
  | .resyncMax a => a = 0
  | .resyncSet a max => a = 0 ∧ max = dbMaxSeq w.db r
  | _ => True

/-! ## After the insert -/

/-- `m` is a row of the call that the table takes, and `t` the table with it. -/
structure Inserts (p : CreateMessageParams) (db : Db) (type : MessageType) (m : Message)
    (t : Table Message) : Prop where
  row : ∃ id seq now, freshId db id = true ∧ m = p.row type id seq now
  table : db.messages.insert m = .ok t

/-- The database with the message in it and shown by its room. -/
def shown (p : CreateMessageParams) (db : Db) (m : Message) (t : Table Message) : Db :=
  { db with messages := t, rooms := setLastMessageAt db.rooms p.roomId m.createdAt }

/-- What a call that has inserted `m` still has to do is to show and announce it. -/
def Announcing (json : Json) (p : CreateMessageParams) (w₀ w : World) (m : Message)
    (t : Table Message) : CreatePc → Prop
  | .roomUpdate m' => m' = m ∧ w.db = { w₀.db with messages := t } ∧ w.events = w₀.events
  | .fetch dto _ => dto = serialize m ∧ w.db = shown p w₀.db m t ∧ w.events = w₀.events
  | .done (.ok res) => res = ⟨serialize m, false⟩ ∧ w.db = shown p w₀.db m t ∧
      ∃ members preview title,
        w.events = w₀.events ++ [.messageCreated (serialize m) members preview title]
  | .done (.error e) => e = .js ∧ w.db = shown p w₀.db m t ∧ w.events = w₀.events ∧
      messagePreview json m.type m.content = none
  | _ => False

/-- Where a call that has started in `w₀` is when it is about to do `pc` in `w`. -/
structure Lone (json : Json) (p : CreateMessageParams) (w₀ w : World) (pc : CreatePc) : Prop where
  counts : Counts p.roomId w
  state : (w.db = w₀.db ∧ w.events = w₀.events ∧ HeadsFor p w₀.db (verdict p w₀.db) pc ∧
      Attempting p.roomId w pc) ∨
    ∃ type m t, verdict p w₀.db = .accepted type ∧ Inserts p w₀.db type m t ∧
      Announcing json p w₀ w m t pc

section Step
variable {json : Json} {c : Choice} {p : CreateMessageParams} {w₀ w w' : World}

theorem headsFor_afterLookup {db : Db} :
    HeadsFor p db (verdictAfterLookup p db) (afterLookup p) := by
  unfold afterLookup verdictAfterLookup
  split <;> exact rfl

theorem headsFor_afterMedia {db : Db} : HeadsFor p db (verdictAfterMedia p db) (afterMedia p) := by
  unfold afterMedia verdictAfterMedia
  split
  · rename_i t ht; rw [ht]; exact rfl
  · rename_i ht; rw [ht]; exact rfl

theorem headsFor_afterMember {db : Db} :
    HeadsFor p db (verdictAfterMember p db) (afterMember p) := by
  unfold afterMember verdictAfterMember
  split
  · rename_i e he; rw [he]; exact rfl
  · rename_i i hv hi; rw [hv, hi]; exact rfl
  · rename_i hv hi; rw [hv, hi]; exact headsFor_afterMedia

theorem attempting_of_checking {r : String} {pc : CreatePc} (h : Checking pc) :
    Attempting r w pc := by
  cases h with
  | seqExists => exact .inl rfl
  | _ => trivial

theorem attempting_afterMember {r : String} : Attempting r w (afterMember p) := by
  rcases checking_afterMember p with h | ⟨e, h⟩
  · exact attempting_of_checking h
  · rw [h]; trivial

/-- The number a call takes from a counter that is ahead is new. -/
theorem ahead_incr {r : String} {n : Nat} (h : Ahead r w)
    (hi : w.incr (seqKey r) = some (w', n)) : n ∉ seqs w.db r := by
  obtain ⟨m, hm, hle⟩ := h
  obtain ⟨-, -, -, hcase, -⟩ := World.incr_spec hi
  rcases hcase with ⟨hnone, -⟩ | ⟨m', hm', rfl⟩
  · rw [hm] at hnone; cases hnone
  · rw [hm] at hm'
    cases hm'
    exact fun hs => absurd (hle _ hs) (by omega)

/-- The key of a row that was accepted was in no other row. -/
theorem keyHolder_of_insert {db : Db} {type : MessageType} {id : String} {seq now : Nat}
    {t : Table Message} (h : db.messages.insert (p.row type id seq now) = .ok t) :
    keyHolder p db = none := by
  cases hk : keyHolder p db with
  | none => rfl
  | some x =>
    obtain ⟨k, hk, hf⟩ := Option.bind_eq_some_iff.1 hk
    obtain ⟨hx, hp⟩ := Table.find_some hf
    have hclash := Table.insert_fresh h hx .roomClientMessageId (by decide)
    simp only [Bool.and_eq_true, beq_iff_eq] at hp
    simp [Row.clash, CreateMessageParams.row, sameKey, hp.1, hp.2, hk] at hclash

theorem storable_of_createRow {id : String} {seq : Nat} {m : Message}
    (h : createRow p id seq w = .ok (w', m)) : p.storable = true := by
  obtain ⟨type, -, htype, -⟩ := createRow_ok h
  by_contra hno
  simp [createRow, htype, hno] at h

/-- The insert is accepted, hits a number that is in use, or does what the verdict says. -/
theorem insert_step {a seq : Nat} {pc' : CreatePc}
    (h : createStep json c p w (.insert a seq) = some (w', pc')) :
    (∃ type m t, verdictAtInsert p w.db = .accepted type ∧ Inserts p w.db type m t ∧
      w' = { w with db.messages := t } ∧ pc' = .roomUpdate m) ∨
    w' = w ∧ (seq ∈ seqs w.db p.roomId ∧ pc' = .resyncMax a ∨
      (∃ m, verdictAtInsert p w.db = .duplicate m ∧ keyHolder p w.db = some m ∧ pc' = .winner) ∨
      ∃ e, verdictAtInsert p w.db = .refused e ∧ pc' = .done (.error e)) := by
  simp only [createStep] at h
  split at h
  · rename_i hid
    split at h <;> cases h
    · rename_i m hcr
      obtain ⟨type, t, htype, rfl, ht, rfl, hfk⟩ := createRow_ok hcr
      have hacc := verdictAtInsert_accepted.2
        ⟨htype, storable_of_createRow hcr, keyHolder_of_insert ht, hfk⟩
      exact .inl ⟨type, _, t, hacc, ⟨⟨_, _, _, hid, rfl⟩, ht⟩, rfl, rfl⟩
    · rename_i e hcr
      refine .inr ⟨rfl, ?_⟩
      rcases createRow_error hid hcr with href | ⟨rfl, hs⟩ | ⟨rfl, k, hk, hf⟩
      · refine .inr (.inr ⟨e, ?_, href.caught a⟩)
        simp only [createRow] at hcr
        split at hcr
        · rename_i htype; cases hcr; rw [verdictAtInsert, htype]
        · rename_i type htype
          split at hcr
          · rename_i hst
            split at hcr
            · rcases href.failure with rfl | rfl <;> cases hcr
            · rename_i t ht
              split at hcr <;> cases hcr
              rename_i hfk
              rw [verdictAtInsert, htype, keyHolder_of_insert ht]
              exact (if_pos hst).trans (if_neg hfk)
          · rename_i hst
            cases hcr
            rw [verdictAtInsert, htype]
            exact if_neg hst
      · exact .inl ⟨hs, caught_roomSeq a⟩
      · refine .inr (.inl ?_)
        obtain ⟨m, hm⟩ := Option.isSome_iff_exists.1 hf
        have hkey : keyHolder p w.db = some m := by rw [keyHolder, hk]; exact hm
        refine ⟨m, ?_, hkey, caught_roomClientMessageId a⟩
        cases htype : p.type with
        | none => simp [createRow, htype] at hcr
        | some type =>
          have hst : p.storable = true := by
            by_contra hno
            simp [createRow, htype, hno] at hcr
          simp [verdictAtInsert, htype, hst, hkey]
  · cases h

/-- A lone call before its insert. -/
theorem heads_step {pc pc' : CreatePc} {v : Verdict}
    (h : createStep json c p w pc = some (w', pc'))
    (hc : Counts p.roomId w) (hv : HeadsFor p w.db v pc) (ha : Attempting p.roomId w pc) :
    (w'.db = w.db ∧ w'.events = w.events ∧ HeadsFor p w.db v pc' ∧ Attempting p.roomId w' pc') ∨
    ∃ type m t, v = .accepted type ∧ Inserts p w.db type m t ∧
      Announcing json p w w' m t pc' := by
  have on : ∀ {pc'}, HeadsFor p w.db v pc' → Attempting p.roomId w pc' →
      (w.db = w.db ∧ w.events = w.events ∧ HeadsFor p w.db v pc' ∧ Attempting p.roomId w pc') ∨
      ∃ type m t, v = .accepted type ∧ Inserts p w.db type m t ∧
        Announcing json p w w m t pc' :=
    fun hv' ha' => .inl ⟨rfl, rfl, hv', ha'⟩
  by_cases hins : ∃ a seq, pc = .insert a seq
  · obtain ⟨a, seq, rfl⟩ := hins
    have hv : v = verdictAtInsert p w.db := hv
    rcases insert_step h with ⟨type, m, t, hacc, hi, rfl, rfl⟩ | ⟨rfl, hcase⟩
    · exact .inr ⟨type, m, t, hv.trans hacc, hi, rfl, rfl, rfl⟩
    · rcases hcase with ⟨hs, rfl⟩ | ⟨m, hdup, hk, rfl⟩ | ⟨e, href, rfl⟩
      · exact on hv (ha.resolve_right fun hno => hno hs)
      · exact on ⟨m, hv.trans hdup, hk⟩ trivial
      · exact on (hv.trans href) trivial
  · cases acts_of_createStep h with
    | found hf => simp only [HeadsFor, hf] at hv; exact on ⟨_, hv, rfl⟩ trivial
    | missed hf =>
      simp only [HeadsFor, hf] at hv
      subst hv
      exact on headsFor_afterLookup (attempting_of_checking (checking_afterLookup p))
    | notMember he => simp only [HeadsFor, he, orRefused] at hv; exact on hv trivial
    | member he =>
      simp only [HeadsFor, he, orRefused] at hv
      subst hv
      exact on headsFor_afterMember attempting_afterMember
    | notOwned he => simp only [HeadsFor, he, orRefused] at hv; exact on hv trivial
    | owned he =>
      simp only [HeadsFor, he, orRefused] at hv
      subst hv
      exact on headsFor_afterMedia (attempting_of_checking (checking_afterMedia p))
    | noTarget he => simp only [HeadsFor, he, orRefused] at hv; exact on hv trivial
    | target he => simp only [HeadsFor, he, orRefused] at hv; exact on hv (.inl rfl)
    | counter => exact on hv ha
    | noCounter => exact on hv ha
    | seqMax => exact on hv ha
    | @setNx a max =>
      refine .inl ⟨World.setNx_db .., ?_, hv, ha.imp_right fun ⟨n, hn, hle⟩ => ⟨n, ?_, ?_⟩⟩
      · obtain ⟨redis, h⟩ := World.setNx_world w (seqKey p.roomId) (.num max)
        rw [h]
      · rw [World.lookup_setNx, if_pos rfl, hn]; rfl
      · rw [World.setNx_db]; exact hle
    | incr hi =>
      have hnew := ha.imp_right fun h => ahead_incr h hi
      obtain ⟨⟨_, rfl⟩, -⟩ := World.incr_spec hi
      exact .inl ⟨rfl, rfl, hv, hnew⟩
    | noNumber hno =>
      obtain ⟨w', n, hi⟩ := World.incr_some hc.number
      rw [hno] at hi; cases hi
    | inserted | refused | seqTaken | keyTaken => exact absurd ⟨_, _, rfl⟩ hins
    | resyncMax => exact on hv ⟨ha, rfl⟩
    | @resyncSet a max =>
      obtain ⟨rfl, rfl⟩ := ha
      rw [if_pos (by decide)]
      exact .inl ⟨rfl, rfl, hv, .inr ⟨_, World.lookup_set_self .., fun s hs => le_dbMaxSeq hs⟩⟩
    | winner hf =>
      obtain ⟨m, rfl, hm⟩ := hv
      rw [keyHolder, hf] at hm
      cases hm
      exact on ⟨_, rfl, rfl⟩ trivial
    | noWinner hf =>
      obtain ⟨m, -, hm⟩ := hv
      rw [keyHolder, hf] at hm
      cases hm
    | roomUpdate | noRoom | fetch => exact hv.elim

/-- A lone call after its insert. -/
theorem announcing_step {type : MessageType} {m : Message} {t : Table Message} {pc pc' : CreatePc}
    (h : createStep json c p w pc = some (w', pc')) (hi : Inserts p w₀.db type m t)
    (hroom : w₀.db.rooms.rows.any (·.id == p.roomId) = true)
    (ha : Announcing json p w₀ w m t pc) :
    Announcing json p w₀ w' m t pc' := by
  cases pc with
  | roomUpdate m' =>
    obtain ⟨rfl, hdb, hev⟩ := ha
    have hany : w.db.rooms.rows.any (·.id == p.roomId) = true := by rw [hdb]; exact hroom
    simp only [createStep, hany, if_true] at h
    cases h
    exact ⟨rfl, by rw [hdb]; rfl, hev⟩
  | fetch dto got =>
    obtain ⟨rfl, hdb, hev⟩ := ha
    obtain ⟨got', -, he⟩ := Option.map_eq_some_iff.1 h
    unfold emitCreated at he
    split at he
    · split at he <;> cases he
      · exact ⟨rfl, hdb, _, _, _, by rw [World.emit, hev]⟩
      · rename_i hpreview
        refine ⟨rfl, hdb, hev, ?_⟩
        obtain ⟨⟨id, seq, now, -, rfl⟩, -⟩ := hi
        exact hpreview
    · cases he
      exact ⟨rfl, hdb, hev⟩
  | done x => cases h
  | _ => exact ha.elim

theorem lone_step {pc pc' : CreatePc} (h : createStep json c p w pc = some (w', pc'))
    (hl : Lone json p w₀ w pc) : Lone json p w₀ w' pc' := by
  obtain ⟨hc, hstate⟩ := hl
  refine ⟨(acts_of_createStep h).counts hc, ?_⟩
  rcases hstate with ⟨hdb, hev, hv, ha⟩ | ⟨type, m, t, hacc, hi, ha⟩
  · rw [← hdb] at hv
    have hnext := heads_step h hc hv ha
    simp only [Announcing] at hnext ⊢
    rw [hdb, hev] at hnext
    exact hnext
  · have hroom : w₀.db.rooms.rows.any (·.id == p.roomId) = true := by
      have hfk := (verdict_accepted.1 hacc).2.2.2.2
      simp only [Db.messageFk, Bool.and_eq_true] at hfk
      exact hfk.1.1.1
    exact .inr ⟨type, m, t, hacc, hi, announcing_step h hi hroom ha⟩

/-! ## Coming to the end -/

/-- The reads of `emitCreated` that are still out. -/
def Fetched.missing (got : Fetched) : Nat :=
  got.memberUserIds.elim 1 (fun _ => 0) + got.room.elim 1 (fun _ => 0) +
    got.senderProfile.elim 1 (fun _ => 0)

/-- How many actions a call that is about to do `pc` has before it at most. -/
def CreatePc.ahead : CreatePc → Nat
  | .lookup _ => 50
  | .member => 49
  | .media _ => 48
  | .reply _ => 47
  | .seqExists a => 10 * (SEQ_RETRY - a) + 10
  | .seqMax a => 10 * (SEQ_RETRY - a) + 9
  | .seqSetNx a _ => 10 * (SEQ_RETRY - a) + 8
  | .seqIncr a => 10 * (SEQ_RETRY - a) + 7
  | .insert a _ => 10 * (SEQ_RETRY - a) + 6
  | .resyncMax a => 10 * (SEQ_RETRY - a) + 5
  | .resyncSet a _ => 10 * (SEQ_RETRY - a) + 4
  | .winner => 5
  | .roomUpdate _ => 5
  | .fetch _ got => got.missing + 1
  | .done _ => 0

/-- The call waits for nothing that has been answered. -/
def Waiting : CreatePc → Prop
  | .fetch _ got => 0 < got.missing
  | _ => True

theorem waiting_of_checking {pc : CreatePc} (h : Checking pc) : Waiting pc := by
  cases h <;> trivial

theorem exists_freshId (db : Db) : ∃ id, freshId db id = true := by
  obtain ⟨id, hne, hid, hnew⟩ := exists_cuid (db.messages.rows.map (·.id))
  refine ⟨id, ?_⟩
  simp only [freshId, Bool.and_eq_true, bne_iff_ne, ne_eq, hne, not_false_eq_true, hid, true_and,
    Bool.not_eq_true', List.any_eq_false, beq_iff_eq]
  exact fun m hm heq => hnew (List.mem_map.2 ⟨m, hm, heq⟩)

theorem ahead_afterLookup : (afterLookup p).ahead < 50 ∧ Waiting (afterLookup p) := by
  rcases afterLookup_cases p with h | h <;> rw [h] <;> exact ⟨by decide, trivial⟩

theorem ahead_afterMedia : (afterMedia p).ahead < 48 ∧ Waiting (afterMedia p) := by
  rcases afterMedia_cases p with h | ⟨t, h⟩ <;> rw [h] <;>
    exact ⟨by simp [CreatePc.ahead, SEQ_RETRY], trivial⟩

theorem ahead_afterMember : (afterMember p).ahead < 49 ∧ Waiting (afterMember p) := by
  rcases afterMember_cases p with h | ⟨e, h⟩ | ⟨i, h⟩ <;> rw [h]
  · exact ⟨ahead_afterMedia.1.trans (by decide), ahead_afterMedia.2⟩
  · exact ⟨by simp [CreatePc.fail, CreatePc.ahead], trivial⟩
  · exact ⟨by simp [CreatePc.ahead], trivial⟩

/-- A read that is out can be answered. -/
theorem fetchNext_of_missing (p : CreateMessageParams) (db : Db) {got : Fetched}
    (h : 0 < got.missing) : ∃ c got', fetchNext c p db got = some got' := by
  obtain ⟨members, room, profile⟩ := got
  cases members with
  | none => exact ⟨{ pick := 0 }, _, rfl⟩
  | some ids =>
    cases room with
    | none => exact ⟨{ pick := 1 }, _, rfl⟩
    | some room =>
      cases profile with
      | none => exact ⟨{ pick := 2 }, _, rfl⟩
      | some profile => simp [Fetched.missing] at h

theorem ahead_emitCreated {dto : SerializedMessage} {got : Fetched} :
    (emitCreated json dto got w).2.ahead ≤ got.missing + 1 ∧
      Waiting (emitCreated json dto got w).2 := by
  unfold emitCreated
  split
  · split <;> exact ⟨Nat.zero_le _, trivial⟩
  · rename_i hno
    refine ⟨le_rfl, ?_⟩
    obtain ⟨members, room, profile⟩ := got
    by_contra h
    obtain ⟨members, rfl⟩ : ∃ ids, members = some ids := by
      cases members <;> simp_all [Waiting, Fetched.missing]
    obtain ⟨room, rfl⟩ : ∃ r, room = some r := by
      cases room <;> simp_all [Waiting, Fetched.missing]
    obtain ⟨profile, rfl⟩ : ∃ r, profile = some r := by
      cases profile <;> simp_all [Waiting, Fetched.missing]
    exact hno _ _ _ rfl

theorem missing_fetchNext {c : Choice} {db : Db} {got got' : Fetched}
    (h : fetchNext c p db got = some got') : got'.missing < got.missing := by
  unfold fetchNext at h
  split at h <;> cases h <;> simp [Fetched.missing]

/-- Every action of a call brings it closer to its end. -/
theorem ahead_createStep {c : Choice} {pc pc' : CreatePc}
    (h : createStep json c p w pc = some (w', pc')) : pc'.ahead < pc.ahead := by
  cases acts_of_createStep h with
  | missed => exact ahead_afterLookup.1
  | member => exact ahead_afterMember.1
  | owned => exact ahead_afterMedia.1
  | resyncSet =>
    split
    · simp only [CreatePc.ahead]
      omega
    · simp [CreatePc.fail, CreatePc.ahead]
  | fetch hf => exact ahead_emitCreated.1.trans_lt (Nat.succ_lt_succ (missing_fetchNext hf))
  | _ => simp [CreatePc.fail, CreatePc.ahead, Fetched.missing, SEQ_RETRY]

theorem waiting_step {c : Choice} {pc₁ pc₂ : CreatePc}
    (h : createStep json c p w pc₁ = some (w', pc₂)) : Waiting pc₂ := by
  cases acts_of_createStep h with
  | missed => exact ahead_afterLookup.2
  | member => exact ahead_afterMember.2
  | owned => exact ahead_afterMedia.2
  | roomUpdate => simp [Waiting, Fetched.missing]
  | resyncSet => split <;> trivial
  | fetch => exact ahead_emitCreated.2
  | _ => trivial

/-- A lone call that is not at its end has an action. -/
theorem lone_acts {pc : CreatePc} (hl : Lone json p w₀ w pc) (hw : Waiting pc) :
    (∃ x, pc = .done x) ∨ ∃ c w' pc', createStep json c p w pc = some (w', pc') := by
  cases pc with
  | done x => exact .inl ⟨x, rfl⟩
  | seqIncr a =>
    obtain ⟨w', n, hi⟩ := World.incr_some hl.counts.number
    exact .inr ⟨{}, w', .insert a n, by simp [createStep, hi]⟩
  | insert a seq =>
    obtain ⟨id, hid⟩ := exists_freshId w.db
    refine .inr ⟨{ id }, ?_⟩
    simp only [createStep, hid, if_true]
    split <;> exact ⟨_, _, rfl⟩
  | roomUpdate m =>
    refine .inr ⟨{}, ?_⟩
    simp only [createStep]
    split <;> exact ⟨_, _, rfl⟩
  | fetch dto got =>
    obtain ⟨c, got', hf⟩ := fetchNext_of_missing p w.db hw
    exact .inr ⟨c, (emitCreated json dto got' w).1, (emitCreated json dto got' w).2,
      by simp [createStep, hf]⟩
  | _ => exact .inr ⟨{}, _, _, rfl⟩

end Step

section Runs
variable {cfg : AppConfig} {json : Json} {p : CreateMessageParams} {w₀ w w' : World} {pc pc' : Pc}

/-- Where a lone call that is about to do `pc` is, as a pc of the service. -/
def LonePc (json : Json) (p : CreateMessageParams) (w₀ w : World) (pc : Pc) : Prop :=
  ∃ pc₁, pc = .create pc₁ ∧ Lone json p w₀ w pc₁ ∧ Waiting pc₁

theorem lonePc_step {c : Choice} (h : LonePc json p w₀ w pc)
    (hs : step cfg json c (.createMessage p) w pc = some (w', pc')) : LonePc json p w₀ w' pc' := by
  obtain ⟨pc₁, rfl, hl, -⟩ := h
  obtain ⟨⟨w₁, pc₂⟩, hcreate, he⟩ := Option.map_eq_some_iff.1 hs
  cases he
  exact ⟨pc₂, rfl, lone_step hcreate hl, waiting_step hcreate⟩

theorem lonePc_tick (h : LonePc json p w₀ w pc) (ms : Nat) :
    LonePc json p w₀ (w.tick ms) pc := by
  obtain ⟨pc₁, rfl, hl, hw⟩ := h
  refine ⟨pc₁, rfl, ⟨hl.counts.tick ms, ?_⟩, hw⟩
  have hlook := World.lookup_tick hl.counts.lasting ms
  rcases hl.state with ⟨hdb, hev, hv, ha⟩ | ⟨type, m, t, hacc, hi, ha⟩
  · refine .inl ⟨hdb, hev, hv, ?_⟩
    cases pc₁ <;> simp only [Attempting, Ahead, hlook] at ha ⊢ <;> exact ha
  · refine .inr ⟨type, m, t, hacc, hi, ?_⟩
    cases pc₁ <;> exact ha

theorem lonePc_start (hc : Counts p.roomId w) : LonePc json p w w (start (.createMessage p)) := by
  refine ⟨createStart p, rfl, ⟨hc, .inl ⟨rfl, rfl, ?_⟩⟩, ?_⟩
  · unfold createStart verdict
    cases hk : truthy p.clientMessageId with
    | none => exact ⟨headsFor_afterLookup, attempting_of_checking (checking_afterLookup p)⟩
    | some k => exact ⟨rfl, trivial⟩
  · exact waiting_of_checking (checking_createStart p)

/-- A lone call is on the way to its verdict throughout. -/
theorem lone_run (hc : Counts p.roomId w)
    (h : Solo (machine cfg json) (.createMessage p) w (start (.createMessage p)) w' pc') :
    LonePc json p w w' pc' :=
  h.invariant (LonePc json p w) (lonePc_start hc) (fun hl hs => lonePc_step hl hs)
    fun ms _ _ hl => lonePc_tick hl ms

def Pc.ahead : Pc → Nat
  | .create pc => pc.ahead
  | _ => 0

/-- A lone call is at its end, or has an action that brings it closer. -/
theorem lonePc_progress (h : LonePc json p w₀ w pc) : (∃ x, pc = .create (.done x)) ∨
    ∃ c w' pc', (machine cfg json).step c (.createMessage p) w pc = some (w', pc') ∧
      LonePc json p w₀ w' pc' ∧ pc'.ahead < pc.ahead := by
  obtain ⟨pc₁, rfl, hl, hw⟩ := h
  rcases lone_acts hl hw with ⟨x, rfl⟩ | ⟨c, w', pc', hs⟩
  · exact .inl ⟨x, rfl⟩
  · exact .inr ⟨c, w', .create pc', by simp [machine, step, hs],
      ⟨pc', rfl, lone_step hs hl, waiting_step hs⟩, ahead_createStep hs⟩

end Runs

end Intaktok.Messages
