import Intaktok.Messages.Idempotency
import Intaktok.Lib.Double
/-
# Sequence numbers in doubles

The other modules count in whole numbers. JavaScript does not: `Number(agg._max.seq)` is a double,
and so is what the client of Redis makes of the reply to an `INCR`; only the counter in Redis and
the column in Postgres are whole. Past 2^53 two calls in a row are answered the same number, and so
a send collides with the message before it until `persistWithSeq` gives up.

`doubled` is the service with these numbers. While no number gets past 2^53 it does what `machine`
does (`run_of_doubled`), and numbers are issued safely and a key is sent once as there
(`seq_issued_safely`, `sent_once`).

| here | there |
| --- | --- |
| `CreatePc.doubles` of `seqSetNx`, `resyncSet` | `Number(agg._max.seq)` (`messages.service.ts:72`), and what `SET` writes of it |
| `CreatePc.doubles` of `insert` | what `INCR` answers (`:80`), which `BigInt(seq)` takes as it is |
-/

namespace Intaktok.Messages

open Interleave Tables

/-- What the client of Redis makes of an integer reply. -/
structure ReplyParser where
  read : Nat → Nat
  read_exact : ∀ n ≤ Double.limit, read n = n

/-- The parser that adds up the digits. -/
def digitwise : ReplyParser := ⟨Double.read, fun _ => Double.read_exact⟩

/-- The number a call has in its hands. -/
def CreatePc.number : CreatePc → Option Nat
  | .seqSetNx _ n | .insert _ n | .resyncSet _ n => some n
  | _ => none

/-- What the call goes on with instead. -/
def CreatePc.doubles (parser : ReplyParser) : CreatePc → CreatePc
  | .seqSetNx attempt max => .seqSetNx attempt (Double.write (Double.round max))
  | .resyncSet attempt max => .resyncSet attempt (Double.write (Double.round max))
  | .insert attempt seq => .insert attempt (parser.read seq)
  | pc => pc

def Pc.doubles (parser : ReplyParser) : Pc → Pc
  | .create pc => .create (pc.doubles parser)
  | pc => pc

def doubled (cfg : AppConfig) (json : Json) (parser : ReplyParser) :
    Machine World Call Pc Choice Nat :=
  (machine cfg json).through (Pc.doubles parser)

/-! ## Small numbers -/

/-- A double counts to every number of the database. -/
def SmallSeqs (db : Db) : Prop := ∀ m ∈ db.messages.rows, m.seq ≤ Double.limit

instance (db : Db) : Decidable (SmallSeqs db) :=
  inferInstanceAs (Decidable (∀ m ∈ db.messages.rows, _))

def SmallNumber (pc : CreatePc) : Prop := ∀ n, pc.number = some n → n ≤ Double.limit

/-- A counter that is about to be asked has not come to where doubles end. -/
def SmallCounter (r : String) (w : World) (pc : CreatePc) : Prop :=
  ∀ a n, pc = .seqIncr a → w.lookup (seqKey r) = some (.num n) → n < Double.limit

/-- No counter is asked past that. -/
def counting : Discipline World Call Pc where
  alone call w pc := ∀ p pc₁, call = .createMessage p → pc = .create pc₁ →
    SmallCounter p.roomId w pc₁
  beside _ _ _ _ _ := True

theorem smallSeqs_iff {db : Db} : SmallSeqs db ↔ ∀ r, ∀ s ∈ seqs db r, s ≤ Double.limit := by
  simp only [mem_seqs, stubs, List.mem_map]
  constructor
  · rintro h r _ ⟨_, ⟨m, hm, rfl⟩, -, rfl⟩
    exact h m hm
  · intro h m hm
    exact h m.roomId m.seq ⟨stub m, ⟨m, hm, rfl⟩, rfl, rfl⟩

theorem SmallSeqs.congr {db db' : Db} (h : SmallSeqs db) (hs : stubs db' = stubs db) :
    SmallSeqs db' := by
  rw [smallSeqs_iff] at h ⊢
  exact fun r s hm => h r s ((seqs_congr hs r s).1 hm)

theorem SmallSeqs.max {db : Db} (h : SmallSeqs db) (r : String) : dbMaxSeq db r ≤ Double.limit :=
  dbMaxSeq_le (smallSeqs_iff.1 h r)

theorem SmallNumber.doubles {parser : ReplyParser} {pc : CreatePc} (h : SmallNumber pc) :
    pc.doubles parser = pc := by
  cases pc with
  | seqSetNx a n =>
    rw [CreatePc.doubles, Double.round_exact (h n rfl), Double.write_exact (h n rfl)]
  | resyncSet a n =>
    rw [CreatePc.doubles, Double.round_exact (h n rfl), Double.write_exact (h n rfl)]
  | insert a n => rw [CreatePc.doubles, parser.read_exact n (h n rfl)]
  | _ => rfl

theorem SmallNumber.of_none {pc : CreatePc} (h : pc.number = none) : SmallNumber pc := by
  intro n hn
  rw [h] at hn
  cases hn

theorem number_of_idle {pc : CreatePc} (h : idle pc = true) : pc.number = none := by
  cases pc <;> first | rfl | cases h

/-- Small numbers stay small. -/
theorem CreateActs.small {json : Json} {c : Choice} {p : CreateMessageParams} {w w' : World}
    {pc pc' : CreatePc} (h : CreateActs json c p w pc w' pc') (hc : SmallCounter p.roomId w pc)
    (hs : SmallSeqs w.db) (hn : SmallNumber pc) : SmallSeqs w'.db ∧ SmallNumber pc' := by
  have same : ∀ {w' : World} {pc'}, stubs w'.db = stubs w.db → pc'.number = none →
      SmallSeqs w'.db ∧ SmallNumber pc' := fun hlog hno => ⟨hs.congr hlog, .of_none hno⟩
  have turned : ∀ {pc'}, Branch pc' → pc'.number = none :=
    fun hb => number_of_idle (idle_of_branch hb)
  cases h with
  | missed => exact same rfl (turned (branch_afterLookup p))
  | member => exact same rfl (turned (branch_afterMember p))
  | owned => exact same rfl (turned (branch_afterMedia p))
  | seqMax | resyncMax => exact ⟨hs, fun n he => by cases he; exact hs.max p.roomId⟩
  | setNx => exact same (by rw [World.setNx_db]) rfl
  | incr hi =>
    obtain ⟨⟨_, rfl⟩, -, -, hcase, -⟩ := World.incr_spec hi
    refine ⟨hs, fun n he => ?_⟩
    cases he
    rcases hcase with ⟨-, rfl⟩ | ⟨m, hm, rfl⟩
    · decide
    · exact hc _ m rfl hm
  | inserted _ hcr =>
    refine ⟨smallSeqs_iff.2 fun r s hm => ?_, .of_none rfl⟩
    rcases (seqs_createRow hcr s).1 hm with hm | ⟨-, rfl⟩
    · exact smallSeqs_iff.1 hs r s hm
    · exact hn s rfl
  | resyncSet => exact same rfl (by split <;> rfl)
  | @fetch dto got got' hf =>
    obtain ⟨events, he⟩ := emitCreated_world json dto got' w
    exact same (by rw [he]) (turned (branch_emitCreated json dto got' w))
  | _ => exact same rfl rfl

/-! ## Runs -/

def smallNumbers : Outline World Call Pc where
  glob w := SmallSeqs w.db
  own _ _ pc := ∀ pc₁, pc = .create pc₁ → SmallNumber pc₁
  apart _ _ _ _ := True

theorem smallNumbers_valid {cfg : AppConfig} {json : Json} :
    smallNumbers.Valid (machine cfg json) counting Outline.top where
  move {c call w pc w' pc'} a := by
    cases acts_of_step a.step with
    | @create p q w' q' hcreate =>
      obtain ⟨hs, hn⟩ :=
        (acts_of_createStep hcreate).small (a.alone p q rfl rfl) a.glob (a.own q rfl)
      exact ⟨hs, fun _ hpc => by cases hpc; exact hn⟩
    | read hread => exact ⟨a.glob.congr (aside_of_readStep hread).log, fun _ hpc => by cases hpc⟩
    | delete hdelete =>
      exact ⟨a.glob.congr (aside_of_deleteStep hdelete).log, fun _ hpc => by cases hpc⟩
  keep _ b := ⟨b.own, trivial⟩
  symm _ := trivial
  env _ {_} hg := ⟨hg, fun ho => ho⟩

section Runs
variable {ι : Type} {cfg : AppConfig} {json : Json} {parser : ReplyParser} {calls : ι → Call}
  {w : World} {r k : String} {P : Pool World Pc ι}

theorem smallNumbers_initial (hs : SmallSeqs w.db) :
    smallNumbers.Holds calls ((machine cfg json).initial calls w) := by
  refine ⟨hs, fun i pc₁ hpc => ?_, fun _ _ _ => trivial⟩
  have hpc' : start (calls i) = .create pc₁ := hpc
  cases hcall : calls i with
  | createMessage p =>
    rw [hcall] at hpc'
    cases hpc'
    exact .of_none (number_of_idle (idle_createStart p))
  | _ => rw [hcall] at hpc'; cases hpc'

variable [DecidableEq ι]

/-- **Small numbers are whole numbers.** As long as no number gets past what a double counts to, the
service does with doubles what it does with whole numbers. -/
theorem run_of_doubled (hs : SmallSeqs w.db)
    (hrun : Run (doubled cfg json parser) counting calls
      ((doubled cfg json parser).initial calls w) P) :
    Run (machine cfg json) counting calls ((machine cfg json).initial calls w) P := by
  refine hrun.of_through smallNumbers_valid (fun a => ?_) (smallNumbers_initial hs)
  rename_i pc'
  cases pc' with
  | create pc₁ => rw [Pc.doubles, ((smallNumbers_valid.move a).2 pc₁ rfl).doubles]
  | _ => rfl

/-- **Numbers are issued safely.** As long as Redis keeps the counter, and no number gets past what
a double counts to, no `createMessage` call in the room resyncs, no number about to be inserted is
taken, and every reply persisted on the way has a larger number than the message it replies to. -/
theorem seq_issued_safely (cfg : AppConfig) (json : Json) (parser : ReplyParser)
    (calls : ι → Call) (w : World) (r : String) (hc : CounterOk r w) (hs : SmallSeqs w.db)
    (hid : ∀ m ∈ w.db.messages.rows, m.id ≠ "")
    (hsys : ∀ i p, calls i = .createMessage p → p.isSystem = true → p.replyToId = none)
    (hrun : Run (doubled cfg json parser) counting calls
      ((doubled cfg json parser).initial calls w) P) : IssuedSafely calls w r P :=
  issued_of_run hc hid hsys (run_of_doubled hs hrun)

/-- **A key is sent once.** Any number of valid calls with one key, whose texts the database takes,
interleaved with any other calls: when they are done there is one row with the key, each of them has
returned its id, one of them without `duplicate`, and it has been broadcast once. -/
theorem sent_once (cfg : AppConfig) (json : Json) (parser : ReplyParser) (calls : ι → Call)
    (w : World) (r k : String) (hc : CounterOk r w) (hs : SmallSeqs w.db)
    (hann : ∀ m ∈ announced w, ∃ x ∈ w.db.messages.rows, x.id = m.id)
    (hnew : ∀ m ∈ w.db.messages.rows, m.roomId = r → m.clientMessageId ≠ some k)
    (hv : ∀ i p, calls i = .createMessage p → Keyed r k p → Storing p w.db)
    (hsome : ∃ i p, calls i = .createMessage p ∧ Keyed r k p)
    (hrun : Run (doubled cfg json parser) counting calls
      ((doubled cfg json parser).initial calls w) P)
    (hdone : ∀ i p, calls i = .createMessage p → Keyed r k p → ∃ x, P.pcs i = .create (.done x)) :
    SentOnce calls r k P :=
  sent_of_run hc hann hnew hv hsome (run_of_doubled hs hrun) hdone

end Runs

/-! ### Small numbers, and 2^53 -/

/-- `counting`, looked at. -/
def countingB {ι : Type} (calls : ι → Call) (P : Pool World Pc ι) (i : ι) : Bool :=
  match calls i, P.pcs i with
  | .createMessage p, .create (.seqIncr _) => match P.shared.lookup (seqKey p.roomId) with
    | some (.num n) => n < Double.limit
    | _ => true
  | _, _ => true

theorem countingB_allows {ι : Type} {calls : ι → Call} {P : Pool World Pc ι} {i : ι}
    (h : countingB calls P i = true) : counting.allows calls P i := by
  refine ⟨fun p pc₁ hp hpc a n ha hn => ?_, fun _ _ => trivial⟩
  subst ha
  simpa [countingB, hp, hpc, hn] using h

/-- `a` writes and `b` replies to `m1`, both initialising the counter. -/
def writeAndReply : Bool → Call
  | false => say "a"
  | true => say "b" none (some "m1")

theorem seq_issued_safely_r1 : ∃ P : Pool World Pc Bool, ∃ m ∈ P.shared.db.messages.rows,
    m.id = "m3" ∧ ∃ x ∈ P.shared.db.messages.rows, x.id = "m1" ∧ x.roomId = "r1" ∧
      x.seq < m.seq := by
  -- both find no counter and read the maximum before either publishes it
  let schedule := turns false 3 ++ turns true 4 ++ turns false 2 ++ turns true 2 ++
    [turn true { id := "m3" }, turn false { id := "m2" }]
  have hexec : ((doubled {} noJson digitwise).exec (countingB writeAndReply) writeAndReply
      ((doubled {} noJson digitwise).initial writeAndReply
        (worldR1 ⟨[messageR1 "m1" 1], by decide⟩)) schedule).any
        (fun P => P.shared.db.messages.rows.any fun m =>
          m.id == "m3" && m.roomId == "r1" && m.replyToId == some "m1") = true := by decide
  obtain ⟨P, hrun, hP⟩ := Machine.exec_reaches countingB_allows hexec
  obtain ⟨m, hm, hp⟩ := List.any_eq_true.1 hP
  simp only [Bool.and_eq_true, beq_iff_eq] at hp
  obtain ⟨⟨hid, hr⟩, hreply⟩ := hp
  have hsafe := seq_issued_safely {} noJson digitwise writeAndReply _ "r1" (worldR1_counterOk _)
    (by decide) (by decide) (fun i p hp hs => by cases i <;> cases hp <;> cases hs) hrun
  exact ⟨P, m, hm, hid, hsafe.later m hm (by rw [hid]; decide) hr "m1" hreply⟩

def created : Pc → Bool
  | .create (.done _) => true
  | _ => false

theorem created_done {pc : Pc} (h : created pc = true) : ∃ x, pc = .create (.done x) := by
  unfold created at h
  split at h
  · exact ⟨_, rfl⟩
  · cases h

/-- Both calls look the key up before either inserts; the second one comes to the winner. -/
theorem sent_once_r1 : ∃ P : Pool World Pc Bool, created (P.pcs false) = true ∧
    created (P.pcs true) = true ∧ SentOnce twice "r1" "k" P := by
  let schedule := turns false 6 ++ turns true 4 ++
    [turn false { id := "m1" }, turn true { id := "m2" }, turn false, turn false { pick := 2 },
      turn true, turn false { pick := 0 }, turn false { pick := 1 }]
  have hexec : ((doubled {} noJson digitwise).exec (countingB twice) twice
      ((doubled {} noJson digitwise).initial twice worldR1) schedule).any
        (fun P => created (P.pcs false) && created (P.pcs true)) = true := by decide
  obtain ⟨P, hrun, hP⟩ := Machine.exec_reaches countingB_allows hexec
  rw [Bool.and_eq_true] at hP
  have hdone : ∀ i, ∃ x, P.pcs i = .create (.done x) := by
    intro i
    cases i
    · exact created_done hP.1
    · exact created_done hP.2
  exact ⟨P, hP.1, hP.2, sent_once {} noJson digitwise twice worldR1 "r1" "k" (worldR1_counterOk _)
    (by decide) (by decide) (by decide) twice_storing ⟨true, _, rfl, by decide⟩ hrun
    fun i _ _ _ => hdone i⟩

/-! ### Where numbers are lost -/

/-- `r1` with a message that has the last number a double counts to. -/
def worldLast : World := worldR1 ⟨[messageR1 "m1" Double.limit], by decide⟩

def resyncs : Pc → Bool
  | .create (.resyncMax _) => true
  | _ => false

/-- **A number is lost.** The counter goes on to 2^53 + 1, which is read as 2^53. -/
theorem seq_collides : ¬ ∀ (cfg : AppConfig) (json : Json) (calls : Unit → Call) (w : World)
    (r : String), CounterOk r w → (∀ m ∈ w.db.messages.rows, m.id ≠ "") →
    (∀ i p, calls i = .createMessage p → p.isSystem = true → p.replyToId = none) →
    ∀ P, Run (doubled cfg json digitwise) Discipline.free calls
      ((doubled cfg json digitwise).initial calls w) P → IssuedSafely calls w r P := by
  intro h
  have hexec : ((doubled {} noJson digitwise).exec always (fun _ : Unit => say "a")
      ((doubled {} noJson digitwise).initial (fun _ => say "a") worldLast)
      (turns () 5 ++ [turn () { id := "m2" }])).any (fun P => resyncs (P.pcs ())) = true := by
    decide +kernel
  obtain ⟨P, hrun, hP⟩ := Machine.exec_reaches_free hexec
  obtain ⟨a, ha⟩ : ∃ a, P.pcs () = .create (.resyncMax a) := by
    unfold resyncs at hP
    split at hP
    · exact ⟨_, ‹_›⟩
    · cases hP
  have hsafe := h {} noJson (fun _ => say "a") worldLast "r1" (worldR1_counterOk _) (by decide)
    (fun i p hp hs => by cases hp; cases hs) P hrun
  exact (hsafe.resync () _ rfl rfl).1 a ha

/-- A key is sent once, by calls with a `payload`, on a database with `ok`, in an order `D`
allows. -/
def SendsOnce (payload : CreateMessageParams → Db → Prop) (ok : Db → Prop)
    (D : Discipline World Call Pc) : Prop :=
  ∀ (cfg : AppConfig) (json : Json) (calls : Unit → Call) (w : World) (r k : String),
    CounterOk r w → ok w.db → (∀ m ∈ announced w, ∃ x ∈ w.db.messages.rows, x.id = m.id) →
    (∀ m ∈ w.db.messages.rows, m.roomId = r → m.clientMessageId ≠ some k) →
    (∀ i p, calls i = .createMessage p → Keyed r k p → payload p w.db) →
    (∃ i p, calls i = .createMessage p ∧ Keyed r k p) →
    ∀ P, Run (doubled cfg json digitwise) D calls ((doubled cfg json digitwise).initial calls w) P →
      (∀ i p, calls i = .createMessage p → Keyed r k p → ∃ x, P.pcs i = .create (.done x)) →
      SentOnce calls r k P

def failed : Pc → Bool
  | .create (.done (.error _)) => true
  | _ => false

/-- A call that fails has not sent its key. -/
theorem not_sendsOnce {payload : CreateMessageParams → Db → Prop} {ok : Db → Prop}
    {D : Discipline World Call Pc} (allowed : Pool World Pc Unit → Unit → Bool)
    (p : CreateMessageParams) (messages : Table Message) (schedule : List (Move Unit Choice Nat))
    (hk : Keyed "r1" "k" p) (hok : ok (worldR1 messages).db)
    (hnew : ∀ m ∈ messages.rows, m.clientMessageId ≠ some "k")
    (hv : payload p (worldR1 messages).db)
    (hD : ∀ {P i}, allowed P i = true → D.allows (fun _ => .createMessage p) P i)
    (hexec : ((doubled {} noJson digitwise).exec allowed (fun _ => .createMessage p)
      ((doubled {} noJson digitwise).initial (fun _ => .createMessage p) (worldR1 messages))
      schedule).any (fun P => failed (P.pcs ())) = true) : ¬ SendsOnce payload ok D := by
  intro h
  obtain ⟨P, hrun, hP⟩ := Machine.exec_reaches hD hexec
  obtain ⟨e, he⟩ : ∃ e, P.pcs () = .create (.done (.error e)) := by
    unfold failed at hP
    split at hP
    · exact ⟨_, ‹_›⟩
    · cases hP
  obtain ⟨m, -, -, -, hall, -⟩ := h {} noJson _ (worldR1 messages) "r1" "k" (worldR1_counterOk _) hok
    (fun _ hm => (List.not_mem_nil hm).elim) (fun m hm _ => hnew m hm)
    (fun _ _ hp _ => by cases hp; exact hv) ⟨(), p, rfl, hk⟩ P hrun fun _ _ _ _ => ⟨_, he⟩
  obtain ⟨res, hres, -⟩ := hall () p rfl hk
  rw [he] at hres
  cases hres

/-- What `a` says in `r1` with the key `k`. -/
def keyedText (content : String) : CreateMessageParams where
  roomId := "r1"
  senderId := "a"
  type := some .TEXT
  content := some content
  clientMessageId := some "k"

theorem keyedText_valid {content : String} (messages : Table Message)
    (h : validatePayload (some .TEXT) (some content) none = none) :
    Valid (keyedText content) (worldR1 messages).db where
  client := rfl
  member := rfl
  payload := h
  media _ h := nomatch h
  reply _ h := nomatch h
  refs _ := rfl

/-- **A key is not sent.** The database does not take a text with U+0000; and where one number is
lost, so are the two after it. -/
theorem key_not_sent : ¬ SendsOnce Valid SmallSeqs counting ∧
    ¬ SendsOnce Storing (fun _ => True) Discipline.free := by
  constructor
  · exact not_sendsOnce (countingB _) (keyedText "\u0000") .empty (turns () 6 ++
      [turn () { id := "m2" }]) (by decide) (by decide) (by decide)
      (keyedText_valid _ (by decide)) countingB_allows (by decide)
  · exact not_sendsOnce always (keyedText "hi") ⟨[messageR1 "m1" Double.limit], by decide⟩
      (List.replicate 19 (turn () { id := "m2" })) (by decide) trivial (by decide)
      ⟨keyedText_valid _ (by decide), by decide⟩
      (fun {P i} _ => Discipline.free_allows _ P i) (by decide +kernel)

end Intaktok.Messages
