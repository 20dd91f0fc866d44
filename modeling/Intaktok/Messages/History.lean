import Mathlib.Data.List.Sort
import Intaktok.Lib.Paging
import Intaktok.Rooms.Chat
import Intaktok.Messages.Numbers
/-
# Message history

| here | there |
| --- | --- |
| `Numeric`, `number` | `Number(cursor)`, and what `Number.isFinite` and `BigInt` make of it (`messages.service.ts:195`) |
| `history` | the `findMany` of `listMessages` (`:201`) |
| `readCount` | the count of `:217` |
| `listStep` | `listMessages` (`:188`), cut between its two queries |
| `browseStep` | a client that calls it without a cursor first, and then with each `nextCursor` |

While a client browses, others send, unsend and join (`browse`). It still gets to the end, and has
then seen every message that was there at its start exactly once (`history_complete`).
-/

namespace Intaktok.Messages

open Interleave Tables

/-! ## `listMessages` -/

/-- What a string is as a number. -/
inductive Numeric where
  | int (n : Int)
  | fraction
  /-- `NaN` or an infinity. -/
  | notFinite
deriving DecidableEq, Repr

/-- A JavaScript number holds the integers below this one. -/
def safeEnd : Nat := 9007199254740992

/-- `Number(s)`: the value of a row of digits; `other` stands for what else a string may say
(blanks, a sign, a fraction, an exponent, a radix) and for what is rounded. -/
def number (other : String → Numeric) (s : String) : Numeric :=
  let n := Nat.ofDigitChars 10 s.toList 0
  if s != "" && s.toList.all Char.isDigit && decide (n < safeEnd) then .int n else other s

structure ListedMessage extends SerializedMessage where
  readCount : Nat
deriving DecidableEq, Repr

structure Paginated (α : Type) where
  items : List α
  nextCursor : Option String

/-- The messages of a room before the cursor, newest first. -/
def history (db : Db) (roomId : String) (cursor : Option Int) : List Message :=
  (db.messages.findMany fun m => m.roomId == roomId &&
    cursor.all fun c => decide ((m.seq : Int) < c)).insertionSort fun a b => b.seq ≤ a.seq

/-- How many others have read the message. -/
def readCount (members : List RoomMember) (m : Message) : Nat :=
  (members.filter fun mem => mem.userId != m.senderId && decide (m.seq ≤ mem.lastReadSeq)).length

def listed (members : List RoomMember) (m : Message) : ListedMessage :=
  { serialize m with readCount := readCount members m }

inductive ListPc where
  | rows
  | members (rows : List Message)
  | done (r : Except Failure (Paginated ListedMessage))

/-- The answer, once the members are there. -/
def listPage (limit : Nat) (rows : List Message) (members : List RoomMember) :
    Except Failure (Paginated ListedMessage) :=
  let page := Paging.page limit rows
  let items := page.map (listed members)
  if limit < rows.length then
    match page.getLast? with
    | some last => .ok ⟨items, some (toString last.seq)⟩
    | none => .error .js
  else .ok ⟨items, none⟩

def listStep (other : String → Numeric) (roomId : String) (cursor : Option String) (limit : Nat)
    (w : World) : ListPc → Option ListPc
  | .rows =>
    let found := fun cursor => ListPc.members ((history w.db roomId cursor).take (limit + 1))
    some (match truthy cursor with
      | none => found none
      | some cursor => match number other cursor with
        | .notFinite => .done (.error (.app (Errors.validation "cursor가 올바르지 않습니다.")))
        | .fraction => .done (.error .js)
        | .int c =>
          if c < -(bigIntEnd : Int) || (bigIntEnd : Int) ≤ c then .done (.error .invalidValue)
          else found (some c))
  | .members rows =>
    let members := w.db.roomMembers.findMany fun m => m.roomId == roomId && m.leftAt.isNone
    some (.done (listPage limit rows members))
  | .done _ => none

/-! ## Page after page -/

inductive BrowsePc where
  | page (cursor : Option String) (read : List ListedMessage) (pc : ListPc)
  | done (r : Except Failure (List ListedMessage))

/-- What becomes of an answer. -/
def turnPage (read : List ListedMessage) : Except Failure (Paginated ListedMessage) → BrowsePc
  | .error e => .done (.error e)
  | .ok ⟨items, none⟩ => .done (.ok (read ++ items))
  | .ok ⟨items, some cursor⟩ => .page (some cursor) (read ++ items) .rows

/-- The next query of the client, answered in `w`. -/
def browseStep (other : String → Numeric) (roomId : String) (limit : Nat) (w : World) :
    BrowsePc → BrowsePc
  | .page cursor read pc => match listStep other roomId cursor limit w pc with
    | some (.done r) => turnPage read r
    | some pc => .page cursor read pc
    | none => .page cursor read pc
  | .done r => .done r

/-- The client after its first `n` queries, the `i`-th of them answered in `states i`. -/
def browse (other : String → Numeric) (roomId : String) (limit : Nat) (states : Nat → World) :
    Nat → BrowsePc
  | 0 => .page none [] .rows
  | n + 1 => browseStep other roomId limit (states n) (browse other roomId limit states n)

/-! ## The cursor -/

theorem toList_toString (n : Nat) : (toString n).toList = Nat.toDigits 10 n := by
  simp [Nat.toString_eq_repr, Nat.toList_repr]

/-- A number a JavaScript number holds comes back from its string. -/
theorem number_toString (other : String → Numeric) {n : Nat} (h : n < safeEnd) :
    number other (toString n) = .int n := by
  have hvalue : Nat.ofDigitChars 10 (toString n).toList 0 = n := by
    rw [toList_toString, Nat.ofDigitChars_ten_toDigits]
  have hdigits : (toString n).toList.all Char.isDigit = true := by
    rw [toList_toString, List.all_eq_true]
    exact fun c hc => Nat.isDigit_of_mem_toDigits (by decide) (by decide) hc
  simp only [number, hvalue, hdigits, h, decide_true, Bool.and_true]
  rw [if_pos (by simp)]

/-! ## What a request finds -/

theorem mem_history {db : Db} {r : String} {cursor : Option Int} {m : Message} :
    m ∈ history db r cursor ↔ m ∈ db.messages.rows ∧ m.roomId = r ∧
      ∀ c, cursor = some c → (m.seq : Int) < c := by
  cases cursor <;> simp [history, List.mem_insertionSort]

theorem messages_eq_of_seq {t : Table Message} {a b : Message} (ha : a ∈ t.rows)
    (hb : b ∈ t.rows) (hr : a.roomId = b.roomId) (hs : a.seq = b.seq) : a = b :=
  t.unique ha hb (c := .roomSeq) (by decide) (by simp [Row.clash, hr, hs])

instance : Std.Total fun a b : Message => b.seq ≤ a.seq := ⟨fun a b => Nat.le_total b.seq a.seq⟩

instance : IsTrans Message fun a b => b.seq ≤ a.seq := ⟨fun _ _ _ h h' => Nat.le_trans h' h⟩

/-- Newest first, and no two of the same number. -/
theorem history_sorted (db : Db) (r : String) (cursor : Option Int) :
    ((history db r cursor).map (·.seq)).Pairwise (· > ·) := by
  rw [List.pairwise_map]
  have hne : (history db r cursor).Pairwise fun a b => a.seq ≠ b.seq := by
    rw [history, (List.perm_insertionSort ..).pairwise_iff fun h => Ne.symm h]
    refine (db.messages.ok.filter _).imp_of_mem fun {a b} ha hb hab he => ?_
    have hno := hab .roomSeq (by simp [Row.constraints])
    have hra := (Table.mem_findMany.1 ha).2
    have hrb := (Table.mem_findMany.1 hb).2
    simp only [Bool.and_eq_true, beq_iff_eq] at hra hrb
    simp [Row.clash, hra.1, hrb.1, he] at hno
  have hle : (history db r cursor).Pairwise fun a b => b.seq ≤ a.seq :=
    List.pairwise_insertionSort ..
  exact hle.imp₂ (fun _ _ hle hne => Nat.lt_of_le_of_ne hle hne.symm) hne

theorem answer_of_history {db₀ db : Db} {r : String} (h : ∀ s ∈ seqs db₀ r, s ∈ seqs db r)
    (cursor : Option Nat) :
    Paging.Answer (· ∈ seqs db₀ r) cursor
      ((history db r (cursor.map Int.ofNat)).map (·.seq)) where
  sorted := history_sorted ..
  below s hs c hc := by
    obtain ⟨m, hm, rfl⟩ := List.mem_map.1 hs
    have hlt := (mem_history.1 hm).2.2 c (by rw [hc]; rfl)
    omega
  complete s hs hb := by
    obtain ⟨m, hm, rfl⟩ := List.mem_map.1 (h s hs)
    obtain ⟨hm, hr⟩ := Table.mem_findMany.1 hm
    refine List.mem_map.2 ⟨m, mem_history.2 ⟨hm, by simpa using hr, fun c hc => ?_⟩, rfl⟩
    obtain ⟨k, hk, rfl⟩ := Option.map_eq_some_iff.1 hc
    have hlt := hb k hk
    show (m.seq : Int) < (k : Int)
    omega

section ListPage
variable {limit : Nat} {found : List Message} {members : List RoomMember}

theorem listPage_last (h : ¬ limit < found.length) :
    listPage limit (found.take (limit + 1)) members = .ok ⟨found.map (listed members), none⟩ := by
  simp only [listPage, Paging.page_take]
  rw [if_neg (by rwa [Paging.more_take]), List.take_of_length_le (by omega)]

theorem listPage_next (h : limit < found.length) {last : Message}
    (hlast : (found.take limit).getLast? = some last) :
    listPage limit (found.take (limit + 1)) members =
      .ok ⟨(found.take limit).map (listed members), some (toString last.seq)⟩ := by
  simp only [listPage, Paging.page_take, hlast]
  rw [if_pos (by rwa [Paging.more_take])]

end ListPage

/-! ## What the client has read -/

/-- A row of the room stands behind what has been read. -/
def Real (db : Db) (r : String) (x : ListedMessage) : Prop :=
  ∃ m ∈ db.messages.rows, m.roomId = r ∧ m.id = x.id ∧ m.seq = x.seq

/-- Messages stay, but for their content. -/
def Accrues (w w' : World) : Prop := ∀ x ∈ stubs w.db, x ∈ stubs w'.db

theorem Accrues.row {w w' : World} (h : Accrues w w') {m : Message} (hm : m ∈ w.db.messages.rows) :
    ∃ m' ∈ w'.db.messages.rows, m'.id = m.id ∧ m'.roomId = m.roomId ∧ m'.seq = m.seq := by
  obtain ⟨m', hm', he⟩ := List.mem_map.1 (h _ (stub_mem hm))
  have hid : (stub m').id = (stub m).id := by rw [he]
  have hr : (stub m').roomId = (stub m).roomId := by rw [he]
  have hs : (stub m').seq = (stub m).seq := by rw [he]
  exact ⟨m', hm', hid, hr, hs⟩

theorem Accrues.seqs {w w' : World} (h : Accrues w w') {r : String} {s : Nat}
    (hs : s ∈ seqs w.db r) : s ∈ seqs w'.db r := by
  obtain ⟨m, hm, hr, he⟩ := mem_seqs.1 hs
  exact mem_seqs.2 ⟨m, h m hm, hr, he⟩

theorem Real.mono {w w' : World} {r : String} {x : ListedMessage} (h : Real w.db r x)
    (hg : Accrues w w') : Real w'.db r x := by
  obtain ⟨m, hm, hr, hid, hs⟩ := h
  obtain ⟨m', hm', hid', hr', hs'⟩ := hg.row hm
  exact ⟨m', hm', hr'.trans hr, hid'.trans hid, hs'.trans hs⟩

theorem real_of_history {db : Db} {r : String} {cursor : Option Int} {m : Message}
    (hm : m ∈ history db r cursor) (members : List RoomMember) : Real db r (listed members m) := by
  obtain ⟨hm, hr, -⟩ := mem_history.1 hm
  exact ⟨m, hm, hr, rfl, rfl⟩

/-- The client is about to ask for what is before `cursor`. -/
structure Browsing (w₀ w : World) (r : String) (cursor : Option Nat) (read : List ListedMessage) :
    Prop where
  progress : Paging.Progress (· ∈ seqs w₀.db r) cursor (read.map (·.seq))
  safe : ∀ c, cursor = some c → c < safeEnd
  real : ∀ x ∈ read, Real w.db r x

/-- The client has read all there was, each message once. -/
structure Whole (w₀ w : World) (r : String) (read : List ListedMessage) : Prop where
  sorted : (read.map (·.seq)).Pairwise (· > ·)
  complete : ∀ s ∈ seqs w₀.db r, s ∈ read.map (·.seq)
  real : ∀ x ∈ read, Real w.db r x

section Browse
variable {other : String → Numeric} {r : String} {limit : Nat} {states : Nat → World} {w₀ : World}
  {n : Nat} {cursor : Option Nat} {read : List ListedMessage}

/-- The rows of the next page are those the room holds then. -/
theorem browse_rows (hr : Browsing w₀ (states n) r cursor read)
    (hn : browse other r limit states n = .page (cursor.map toString) read .rows) :
    browse other r limit states (n + 1) = .page (cursor.map toString) read
      (.members ((history (states n).db r (cursor.map Int.ofNat)).take (limit + 1))) := by
  rw [browse, hn]
  cases cursor with
  | none => rfl
  | some c =>
    have hc := hr.safe c rfl
    have hrange : ¬ ((c : Int) < -(bigIntEnd : Int) ∨ (bigIntEnd : Int) ≤ c) := by
      simp only [safeEnd, bigIntEnd] at hc ⊢
      omega
    have htruthy : truthy (some (toString c)) = some (toString c) := truthy_some (by simp)
    simp only [browseStep, listStep, Option.map_some, htruthy, number_toString other hc]
    rw [if_neg (by simpa using hrange)]
    rfl

/-- One page: the client has it all, or goes on before a smaller cursor. -/
theorem browse_page (hlimit : 0 < limit) (h₀ : Accrues w₀ (states n))
    (hgrows : ∀ i, Accrues (states i) (states (i + 1)))
    (hsafe : ∀ s ∈ seqs (states n).db r, s < safeEnd) (hr : Browsing w₀ (states n) r cursor read)
    (hn : browse other r limit states n = .page (cursor.map toString) read .rows) :
    (∃ items, browse other r limit states (n + 2) = .done (.ok items) ∧
      Whole w₀ (states (n + 2)) r items) ∨
    ∃ last read', browse other r limit states (n + 2) =
        .page ((some last).map toString) read' .rows ∧
      Browsing w₀ (states (n + 2)) r (some last) read' ∧ Paging.Below cursor last := by
  have hg : Accrues (states n) (states (n + 2)) := fun x hx => hgrows (n + 1) x (hgrows n x hx)
  have hrows := browse_rows hr hn
  have hanswer := answer_of_history (r := r) (fun s hs => h₀.seqs hs) cursor
  set found := history (states n).db r (cursor.map Int.ofNat) with hfound
  set members := (states (n + 1)).db.roomMembers.findMany fun m =>
    m.roomId == r && m.leftAt.isNone with hmembers
  have hnext : browse other r limit states (n + 2) =
      turnPage read (listPage limit (found.take (limit + 1)) members) := by
    rw [browse, hrows]
    rfl
  have hreal : ∀ {page : List Message}, page ⊆ found →
      ∀ x ∈ read ++ page.map (listed members), Real (states (n + 2)).db r x := by
    intro page hpage x hx
    rcases List.mem_append.1 hx with hx | hx
    · exact (hr.real x hx).mono hg
    · obtain ⟨m, hm, rfl⟩ := List.mem_map.1 hx
      exact (real_of_history (hpage hm) members).mono hg
  have hseq : ∀ page : List Message, (read ++ page.map (listed members)).map (·.seq) =
      read.map (·.seq) ++ page.map (·.seq) := by
    intro page
    rw [List.map_append, List.map_map]
    rfl
  rw [hnext]
  by_cases hmore : limit < found.length
  · obtain ⟨s, hs, hbelow, hprogress⟩ :=
      hr.progress.next hanswer hlimit (by rwa [List.length_map])
    rw [← List.map_take, List.getLast?_map] at hs
    obtain ⟨last, hlast, rfl⟩ := Option.map_eq_some_iff.1 hs
    refine .inr ⟨last.seq, _, by rw [listPage_next hmore hlast]; rfl, ⟨?_, ?_, ?_⟩, hbelow⟩
    · rw [hseq, List.map_take]
      exact hprogress
    · rintro c ⟨⟩
      have hin := (mem_history.1 (List.mem_of_mem_take (List.mem_of_getLast? hlast)))
      exact hsafe _ (mem_seqs.2 ⟨_, stub_mem hin.1, hin.2.1, rfl⟩)
    · exact hreal (List.take_subset ..)
  · obtain ⟨hsorted, hcomplete⟩ := hr.progress.last hanswer
    refine .inl ⟨_, by rw [listPage_last hmore]; rfl, ?_, ?_, hreal (List.Subset.refl _)⟩
    · rw [hseq]
      exact hsorted
    · rw [hseq]
      exact hcomplete

/-- The client gets to the end, as its cursors fall. -/
theorem browse_ends (hlimit : 0 < limit) (h₀ : ∀ i, Accrues w₀ (states i))
    (hgrows : ∀ i, Accrues (states i) (states (i + 1)))
    (hsafe : ∀ i, ∀ s ∈ seqs (states i).db r, s < safeEnd)
    (hr : Browsing w₀ (states n) r cursor read)
    (hn : browse other r limit states n = .page (cursor.map toString) read .rows) :
    ∃ k items, browse other r limit states k = .done (.ok items) ∧ Whole w₀ (states k) r items := by
  induction hc : cursor.getD safeEnd using Nat.strong_induction_on generalizing n cursor read with
  | _ c ih =>
    rcases browse_page hlimit (h₀ n) hgrows (hsafe n) hr hn with
      ⟨items, hdone, hwhole⟩ | ⟨last, read', hpage, hready, hbelow⟩
    · exact ⟨n + 2, items, hdone, hwhole⟩
    · refine ih last ?_ hready hpage rfl
      subst hc
      cases cursor with
      | none => exact hready.safe last rfl
      | some c => exact hbelow c rfl

end Browse

/-! ## While others chat -/

section Chat
variable {cfg : AppConfig} {json : Json} {c : Choice} {w w' : World}

theorem accrues_of_stubs (h : stubs w'.db = stubs w.db) : Accrues w w' := fun _ hx => h ▸ hx

theorem accrues_tail {pc pc' : Rooms.Pc} (h : Rooms.TailCreates json c w pc w' pc') :
    Accrues w w' := by
  cases h with
  | creates hacts => exact hacts.stubs_mono
  | other _ hm _ => exact accrues_of_stubs (by rw [stubs, stubs, hm])

theorem accrues_step {k : Rooms.ChatCall} {pc pc' : Rooms.ChatPc}
    (h : (Rooms.chat cfg json).step c k w pc = some (w', pc')) : Accrues w w' := by
  cases Rooms.acts_of_chat h with
  | create hacts => exact hacts.stubs_mono
  | read hread => exact accrues_of_stubs (aside_of_readStep hread).log
  | delete hdelete => exact accrues_of_stubs (aside_of_deleteStep hdelete).log
  | room hroom => exact accrues_tail (Rooms.step_creates hroom)
  | update hupdate =>
    rcases Rooms.updateStep_creates hupdate with ⟨q, q', -, -, ht⟩ | ⟨-, hm, -⟩
    · exact accrues_tail ht
    · exact accrues_of_stubs (by rw [stubs, stubs, hm])

theorem accrues_of_run {ι : Type} [DecidableEq ι] {calls : ι → Rooms.ChatCall}
    {P Q : Pool World Rooms.ChatPc ι}
    (h : Run (Rooms.chat cfg json) Discipline.free calls P Q) : Accrues P.shared Q.shared :=
  h.invariant (fun R => Accrues P.shared R.shared) (fun _ hx => hx)
    (fun _ hI _ hs x hx => accrues_step hs x (hI x hx)) fun _ hI => hI

/-- **Message history paging loses and repeats nothing.** Whatever is sent, unsent and changed in
the rooms in between, a client that follows `nextCursor` from the start gets to the end, and has
then read every message of the room that was there when it began exactly once, no message twice,
and all of them in falling order of their numbers. -/
theorem history_complete (cfg : AppConfig) (json : Json) (other : String → Numeric) {ι : Type}
    [DecidableEq ι] (calls : ι → Rooms.ChatCall) (P : Nat → Pool World Rooms.ChatPc ι)
    (hrun : ∀ n, Run (Rooms.chat cfg json) Discipline.free calls (P n) (P (n + 1)))
    (r : String) {limit : Nat} (hlimit : 1 ≤ limit)
    (hsafe : ∀ n, ∀ s ∈ seqs (P n).shared.db r, s < safeEnd) :
    ∃ n items, browse other r limit (fun i => (P (i + 1)).shared) n = .done (.ok items) ∧
      (∀ m ∈ (P 0).shared.db.messages.rows, m.roomId = r →
        (items.map (·.id)).count m.id = 1) ∧
      (items.map (·.id)).Nodup ∧ items.Pairwise fun a b => b.seq < a.seq := by
  have hgrows : ∀ i, Accrues (P i).shared (P (i + 1)).shared := fun i => accrues_of_run (hrun i)
  have h₀ : ∀ i, Accrues (P 0).shared (P (i + 1)).shared := by
    intro i
    induction i with
    | zero => exact hgrows 0
    | succ i ih => exact fun x hx => hgrows (i + 1) x (ih x hx)
  obtain ⟨n, items, hdone, hwhole⟩ := browse_ends hlimit h₀
    (fun i => hgrows (i + 1)) (fun i => hsafe (i + 1))
    (⟨.start _, by simp, by simp⟩ :
      Browsing (P 0).shared (P 1).shared r none [])
    (rfl : browse other r limit (fun i => (P (i + 1)).shared) 0 = _)
  have hsorted : items.Pairwise fun a b => b.seq < a.seq := List.pairwise_map.1 hwhole.sorted
  have hnodup : (items.map (·.id)).Nodup := by
    rw [List.Nodup, List.pairwise_map]
    refine hsorted.imp_of_mem fun {a b} ha hb hlt he => ?_
    obtain ⟨x, hx, -, hxid, hxs⟩ := hwhole.real a ha
    obtain ⟨y, hy, -, hyid, hys⟩ := hwhole.real b hb
    obtain rfl := messages_eq_of_id hx hy (hxid.trans (he.trans hyid.symm))
    omega
  refine ⟨n, items, hdone, fun m hm hmr => ?_, hnodup, hsorted⟩
  refine List.count_eq_one_of_mem hnodup ?_
  obtain ⟨a, ha, has⟩ := List.mem_map.1
    (hwhole.complete m.seq (mem_seqs.2 ⟨stub m, stub_mem hm, hmr, rfl⟩))
  obtain ⟨x, hx, hxr, hxid, hxs⟩ := hwhole.real a ha
  obtain ⟨y, hy, hyid, hyr, hys⟩ := (h₀ n).row hm
  obtain rfl := messages_eq_of_seq hx hy (hxr.trans (hyr.trans hmr).symm)
    (hxs.trans (has.trans hys.symm))
  exact List.mem_map.2 ⟨a, ha, hxid.symm.trans hyid⟩

end Chat

/-- Two messages, one to a page. -/
theorem history_complete_r1 :
    let messages : Table Message := ⟨[messageR1 "m1" 1, messageR1 "m2" 2], by decide⟩
    ∃ n items, browse (fun _ => .notFinite) "r1" 1 (fun _ => worldR1 messages) n =
        .done (.ok items) ∧
      (∀ m ∈ (worldR1 messages).db.messages.rows, m.roomId = "r1" →
        (items.map (·.id)).count m.id = 1) ∧
      (items.map (·.id)).Nodup ∧ items.Pairwise fun a b => b.seq < a.seq :=
  history_complete {} noJson (fun _ => .notFinite) (fun _ : Unit => .inl (say "a"))
    (fun _ => (Rooms.chat {} noJson).initial (fun _ => .inl (say "a")) _) (fun _ => .refl) "r1"
    (Nat.le_refl 1) fun _ => by decide

end Intaktok.Messages
