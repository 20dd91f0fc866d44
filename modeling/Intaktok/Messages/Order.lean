import Intaktok.Messages.Numbers
/-
# The order in which numbers become visible

A number is taken from Redis (`nextSeq`, `messages.service.ts:75`) and committed to Postgres later
(`persistWithSeq`, `:138`), so the commits of two senders can come in the other order. A reader who
marks the larger number read in between has the smaller one counted as read when it arrives
(`inserted_below_read`).

`InOrder r` is the order of steps in which this does not happen: an insert that is accepted finds
every other pending number of the room larger than its own. In such runs the room becomes visible
in order of `seq` (`visible_in_order`).
-/

namespace Intaktok.Messages

open Interleave Tables

/-- The database would take the row. -/
def Accepted (p : CreateMessageParams) (seq : Nat) (w : World) : Prop :=
  ∃ id w' m, freshId w.db id = true ∧ createRow p id seq w = .ok (w', m)

/-- An accepted insert in the room comes before those of all larger numbers, and of no smaller
one. -/
def InOrder (r : String) : Discipline World Call Pc where
  alone _ _ _ := True
  beside call w pc call₂ pc₂ := ∀ p s s₂, call = .createMessage p → pending r call pc = some s →
    Accepted p s w → pending r call₂ pc₂ = some s₂ → s < s₂

/-- Every insert into the room puts its message after all that are there. -/
def InsertsLast (cfg : AppConfig) (json : Json) {ι : Type} (calls : ι → Call) (r : String)
    (Q : Pool World Pc ι) : Prop :=
  ∀ i c w' m, (machine cfg json).step c (calls i) Q.shared (Q.pcs i) =
    some (w', .create (.roomUpdate m)) → m.roomId = r → ∀ s ∈ seqs Q.shared.db r, s < m.seq

/-- Every pending number of the room is larger than all that are there. -/
def ascending (r : String) : Outline World Call Pc where
  glob _ := True
  own call w pc := ∀ s, pending r call pc = some s → ∀ x ∈ seqs w.db r, x < s
  apart _ _ _ _ := True

theorem ascending_valid {cfg : AppConfig} {json : Json} {r : String} :
    (ascending r).Valid (machine cfg json) (InOrder r) (numbering r) where
  move {c call w pc w' pc'} a := by
    refine ⟨trivial, fun s hs x hx => ?_⟩
    obtain ⟨p, at_, rfl, rfl, hr⟩ := pending_eq_some.1 hs
    rcases step_room (r := r) a.step with ⟨p', pc₁, pc₁', hp, -, rfl, hpc', ha⟩ | ⟨hne, -⟩
    · cases hp; cases hpc'
      have hadv := ha.advance hr a.baseGlob (a.baseOwn p pc₁ rfl rfl hr)
      -- the number has just been taken from a counter ahead of the room
      obtain ⟨rfl, hi⟩ := ha.origin
      obtain ⟨v, hv⟩ := Option.ne_none_iff_exists'.1 (a.baseOwn p _ rfl rfl hr)
      obtain ⟨n, rfl, hle⟩ := a.baseGlob.ahead v hv
      obtain ⟨⟨_, rfl⟩, -⟩ := World.incr_spec hi
      exact (hle x hx).trans_lt (hadv.issued at_ s rfl n hv)
    · exact absurd hr (hne p rfl)
  keep {c call w pc w' pc' call₂ pc₂} a b := by
    refine ⟨fun s₂ hs₂ x hx => ?_, trivial⟩
    rcases step_room (r := r) a.step with ⟨p, pc₁, pc₁', rfl, hr, rfl, rfl, ha⟩ | ⟨-, hst⟩
    · rcases ha.log with hs | ⟨at_, seq, m, rfl, rfl, hid, hcr, -⟩
      · exact b.own s₂ hs₂ x ((seqs_congr hs r x).1 hx)
      · rcases (seqs_createRow hcr x).1 hx with hx | ⟨-, rfl⟩
        · exact b.own s₂ hs₂ x hx
        · exact b.beside p x s₂ rfl (pending_eq_some.2 ⟨p, at_, rfl, rfl, hr⟩)
            ⟨c.id, w', m, hid, hcr⟩ hs₂
    · exact b.own s₂ hs₂ x ((hst.numbers x).1 hx)
  symm _ := trivial
  env _ _ _ := ⟨trivial, fun ho => ho⟩

theorem ascending_run {ι : Type} [DecidableEq ι] {cfg : AppConfig} {json : Json}
    {calls : ι → Call} {w : World} {r : String} (hc : CounterOk r w) {P : Pool World Pc ι}
    (hrun : Run (machine cfg json) (InOrder r) calls ((machine cfg json).initial calls w) P) :
    (ascending r).Holds calls P := by
  refine ascending_valid.run (fun h => numbering_run hc h) ⟨trivial, fun i s hs => ?_,
    fun _ _ _ => trivial⟩ hrun
  obtain ⟨p, a, hp, hpc, -⟩ := pending_eq_some.1 hs
  have hpc' : start (calls i) = .create (.insert a s) := hpc
  rw [hp] at hpc'
  have hidle := idle_createStart p
  rw [Pc.create.inj hpc'] at hidle
  cases hidle

/-- Only an insert leads to `roomUpdate`, and its message carries the pending number. -/
theorem pending_of_insert {cfg : AppConfig} {json : Json} {c : Choice} {call : Call}
    {w w' : World} {pc : Pc} {m : Message}
    (h : step cfg json c call w pc = some (w', .create (.roomUpdate m))) :
    pending m.roomId call pc = some m.seq ∧ ∃ p, call = .createMessage p ∧
      createRow p c.id m.seq w = .ok (w', m) := by
  rcases step_cases h with ⟨p, pc₁, pc₁', rfl, rfl, hpc', ha⟩ | ⟨hne, -⟩
  · cases hpc'
    obtain ⟨a, seq, rfl, -, hcr⟩ := ha.origin
    obtain ⟨type, t, -, rfl, -, -, -⟩ := createRow_ok hcr
    exact ⟨pending_eq_some.2 ⟨p, a, rfl, rfl, rfl⟩, p, rfl, hcr⟩
  · cases acts_of_step h with
    | create _ => exact absurd rfl (hne _)

/-- Every message that comes later is unread for a member who has read no further than the newest
message there is now, unless it is his own or deleted. -/
def LaterUnread (r : String) (now later : Db) : Prop :=
  ∀ u ∈ now.roomMembers.rows, u.roomId = r → u.lastReadSeq ≤ dbMaxSeq now r →
    ∀ m ∈ later.messages.rows, (∀ m₀ ∈ now.messages.rows, m.id ≠ m₀.id) → m.roomId = r →
      m.senderId ≠ u.userId → m.deletedAt = none → m ∈ unread later r u.userId u.lastReadSeq

/-- What has come to the room has numbers beyond all that were there. -/
structure Beyond (r : String) (now later : Db) : Prop where
  kept : ∀ s ∈ seqs now r, s ∈ seqs later r
  new : ∀ m ∈ stubs later, m ∈ stubs now ∨ (m.roomId = r → dbMaxSeq now r < m.seq)

theorem beyond_run {ι : Type} [DecidableEq ι] {cfg : AppConfig} {json : Json}
    {calls : ι → Call} {w : World} {r : String} (hc : CounterOk r w) {Q P : Pool World Pc ι}
    (hQ : Run (machine cfg json) (InOrder r) calls ((machine cfg json).initial calls w) Q)
    (hP : Run (machine cfg json) (InOrder r) calls Q P) : Beyond r Q.shared.db P.shared.db := by
  refine hP.invariant (fun R : Pool World Pc ι => Beyond r Q.shared.db R.shared.db)
    ⟨fun _ h => h, fun _ h => .inl h⟩ (fun {R i c w' pc'} hR hI _ hs => ?_) (fun _ h => h)
  rcases step_cases hs with ⟨p, pc₁, pc₁', hp, hpc, -, ha⟩ | ⟨-, ha⟩
  · rcases ha.log with hl | ⟨a, seq, m, rfl, -, -, hcr, hl⟩
    · exact ⟨fun s hs => (seqs_congr hl r s).2 (hI.kept s hs), by rw [hl]; exact hI.new⟩
    · refine ⟨fun s hs => (seqs_createRow hcr s).2 (.inl (hI.kept s hs)), fun x hx => ?_⟩
      rw [hl, List.mem_append, List.mem_singleton] at hx
      rcases hx with hx | rfl
      · exact hI.new x hx
      · -- the new number is beyond every number of the room, in particular those of `Q`
        refine .inr fun hr => ?_
        obtain ⟨type, t, -, rfl, -, -, -⟩ := createRow_ok hcr
        have hpend := pending_eq_some.2 ⟨p, a, hp, hpc, hr⟩
        have hR' := hQ.trans hR
        have hasc := (ascending_run hc hR').own i seq hpend
        have hpos := ((numbering_run hc hR').own i p _ hp hpc hr).1
        rcases dbMaxSeq_mem Q.shared.db r with h0 | hm
        · rw [h0]; exact hpos
        · exact hasc _ (hI.kept _ hm)
  · exact ⟨fun s hs => (seqs_congr ha.log r s).2 (hI.kept s hs), by rw [ha.log]; exact hI.new⟩

/-- **Visible in order.** In an order of steps that keeps to `InOrder r`, every message is
inserted after all that are in the room, so that whoever has read up to the newest of them finds
every later one unread. -/
theorem visible_in_order {ι : Type} [DecidableEq ι] (cfg : AppConfig) (json : Json)
    (calls : ι → Call) (w : World) (r : String) (hc : CounterOk r w) {Q : Pool World Pc ι}
    (hQ : Run (machine cfg json) (InOrder r) calls ((machine cfg json).initial calls w) Q) :
    InsertsLast cfg json calls r Q ∧ ∀ P : Pool World Pc ι,
      Run (machine cfg json) (InOrder r) calls Q P → LaterUnread r Q.shared.db P.shared.db := by
  refine ⟨fun i c w' m hs hr => ?_, fun P hP u _ _ hread m hm hnew hr hne hdel => ?_⟩
  · subst hr
    exact (ascending_run hc hQ).own i m.seq (pending_of_insert hs).1
  · have hold : stub m ∉ stubs Q.shared.db := fun hmem => by
      obtain ⟨m₀, hm₀, heq⟩ := List.mem_map.1 hmem
      exact hnew m₀ hm₀ (congrArg Message.id heq).symm
    have hlt := ((beyond_run hc hQ hP).new (stub m) (stub_mem hm)).resolve_left hold hr
    refine Table.mem_findMany.2 ⟨hm, ?_⟩
    have : u.lastReadSeq < m.seq := hread.trans_lt hlt
    simp [hr, this, hdel, hne]

/-! ### Two senders and a reader -/

def inOrderOk (calls : Bool → Call) (P : Pool World Pc Bool) (i : Bool) : Bool :=
  match pending "r1" (calls i) (P.pcs i), pending "r1" (calls !i) (P.pcs !i) with
  | some s, some s₂ => decide (s < s₂)
  | _, _ => true

theorem inOrderOk_allows {calls : Bool → Call} {P : Pool World Pc Bool} {i : Bool}
    (h : inOrderOk calls P i = true) : (InOrder "r1").allows calls P i := by
  refine ⟨trivial, fun j hj p s s₂ _ hs _ hs₂ => ?_⟩
  obtain rfl : j = !i := by cases i <;> cases j <;> simp_all
  simpa [inOrderOk, hs, hs₂] using h

/-- Both numbers are out before either is inserted, and the smaller one goes first. -/
theorem visible_in_order_r1 : ∃ Q P : Pool World Pc Bool,
    Run (machine {} noJson) (InOrder "r1") twoTexts
      ((machine {} noJson).initial twoTexts (worldR1 .empty)) Q ∧
    Run (machine {} noJson) (InOrder "r1") twoTexts Q P ∧
    seqs Q.shared.db "r1" = [1] ∧ seqs P.shared.db "r1" = [1, 2] ∧
    LaterUnread "r1" Q.shared.db P.shared.db := by
  let first := turns false 5 ++ turns true 3 ++ [turn false { id := "m1" }]
  let second := [turn true { id := "m2" }]
  have hexec : ((machine {} noJson).exec (inOrderOk twoTexts) twoTexts
      ((machine {} noJson).initial twoTexts (worldR1 .empty)) first).any (fun Q =>
        seqs Q.shared.db "r1" == [1] &&
        ((machine {} noJson).exec (inOrderOk twoTexts) twoTexts Q second).any fun P =>
          seqs P.shared.db "r1" == [1, 2]) = true := by decide
  obtain ⟨Q, hQ, hq⟩ := Machine.exec_reaches inOrderOk_allows hexec
  simp only [Bool.and_eq_true, beq_iff_eq] at hq
  obtain ⟨P, hP, hp⟩ := Machine.exec_reaches inOrderOk_allows hq.2
  exact ⟨Q, P, hQ, hP, hq.1, by simpa using hp,
    (visible_in_order {} noJson twoTexts _ "r1" (worldR1_counterOk _) hQ).2 P hP⟩

/-- `a` and `b` write, and `b` marks the number 2 read. -/
def textsAndRead : Fin 3 → Call
  | 0 => say "a"
  | 1 => say "b"
  | 2 => .markRead (.str "r1") (.str "b") (.int 2)

/-- **Read before written.** `a` takes the number 1 and `b` the number 2; `b` inserts his message
and marks it read before `a` inserts, and never sees the message of `a` as unread. -/
theorem inserted_below_read : ¬ ∀ (ι : Type) [DecidableEq ι] (cfg : AppConfig) (json : Json)
    (calls : ι → Call) (w : World) (r : String), CounterOk r w → ∀ Q : Pool World Pc ι,
    Run (machine cfg json) Discipline.free calls ((machine cfg json).initial calls w) Q →
    InsertsLast cfg json calls r Q ∧ ∀ P : Pool World Pc ι,
      Run (machine cfg json) Discipline.free calls Q P → LaterUnread r Q.shared.db P.shared.db := by
  intro h
  let go (i : Fin 3) (id : String) : Move (Fin 3) Choice Nat := .step i { id }
  let first := List.replicate 5 (go 0 "") ++ List.replicate 3 (go 1 "") ++ [go 1 "m2", go 2 ""]
  let second := [go 0 "m1"]
  let missed (now later : Db) := now.roomMembers.rows.any fun u => u.roomId == "r1" &&
    decide (u.lastReadSeq ≤ dbMaxSeq now "r1") && later.messages.rows.any fun m =>
      now.messages.rows.all (fun m₀ => m.id ≠ m₀.id) && m.roomId == "r1" &&
        m.senderId != u.userId && m.deletedAt.isNone && decide (m.seq ≤ u.lastReadSeq)
  have hexec : ((machine {} noJson).exec always textsAndRead
      ((machine {} noJson).initial textsAndRead (worldR1 .empty)) first).any (fun Q =>
        ((machine {} noJson).exec always textsAndRead Q second).any fun P =>
          missed Q.shared.db P.shared.db) = true := by decide
  obtain ⟨Q, hQ, hq⟩ := Machine.exec_reaches_free hexec
  obtain ⟨P, hP, hp⟩ := Machine.exec_reaches_free hq
  obtain ⟨u, hu, hp⟩ := List.any_eq_true.1 hp
  simp only [Bool.and_eq_true, beq_iff_eq, decide_eq_true_eq] at hp
  obtain ⟨⟨hur, hread⟩, hm⟩ := hp
  obtain ⟨m, hm, hp⟩ := List.any_eq_true.1 hm
  simp only [Bool.and_eq_true, beq_iff_eq, bne_iff_ne, decide_eq_true_eq, List.all_eq_true,
    Option.isNone_iff_eq_none] at hp
  obtain ⟨⟨⟨⟨hnew, hr⟩, hne⟩, hdel⟩, hle⟩ := hp
  have hun := (h (Fin 3) {} noJson textsAndRead _ "r1" (worldR1_counterOk _) Q hQ).2 P hP u hu hur
    hread m hm hnew hr hne hdel
  have hlt := (Table.mem_findMany.1 hun).2
  simp only [Bool.and_eq_true, decide_eq_true_eq] at hlt
  omega

end Intaktok.Messages
