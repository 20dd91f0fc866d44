import Mathlib.Logic.Function.Basic
import Mathlib.Order.RelClasses
/-
# Pools of processes interleaved over one shared state

A `Machine` is one kind of process: the code of a call cut at its await points. `step c k s l`
is the atomic action a process serving call `k` performs at local state `l` on the shared state
`s`; the choice `c` carries what the action does not determine (a fresh identifier, the order in
which equal rows come back). `none` means that this choice is not possible there. `env` is what
happens to the shared state by itself (time passing).

A `Pool` runs any number of such processes, one for each index of an arbitrary type, and a `Run`
interleaves their actions in any order. A `Discipline` restricts the order: an action is taken
only in states the discipline allows, which may mention the acting process and every other one.
`Discipline.free` allows everything.

Five rules carry the proofs:

* `Outline.Valid.run`: a proof outline in the manner of Owicki and Gries. Every process keeps its
  own assertion, and its actions do not disturb the assertions of the others.
* `Run.owed`: an invariant may be broken as long as some process still owes its repair.
* `Run.brought`: what holds and did not hold at first has been brought about by some action, and
  has held since.
* `Solo.invariant`: the same for a process that runs alone.
* `Solo.completes`: a process that runs alone comes to its end, by a measure its actions lower.

`Machine.faulty` lets the awaits of a machine fail; `Machine.through` changes what its actions
answer, and `Run.of_through` says when that makes no difference; `Machine.family` puts many kinds of
process together.

`Amid` is what is left of a process when nothing is known of the others.

`Machine.exec` plays a fixed schedule, for concrete runs.
-/

namespace Interleave

structure Machine (σ κ π χ ε : Type) where
  start : κ → π
  step : χ → κ → σ → π → Option (σ × π)
  env : ε → σ → σ

structure Pool (σ π ι : Type) where
  shared : σ
  pcs : ι → π

/-- `alone k s l` constrains the acting process, `beside k s l k₂ l₂` the acting process and one
other. -/
structure Discipline (σ κ π : Type) where
  alone : κ → σ → π → Prop
  beside : κ → σ → π → κ → π → Prop

variable {σ κ π χ ε ι : Type}

def Discipline.free : Discipline σ κ π := ⟨fun _ _ _ => True, fun _ _ _ _ _ => True⟩

/-- Nothing happens but where `φ` holds. -/
def Discipline.during (φ : σ → Prop) : Discipline σ κ π := ⟨fun _ s _ => φ s, fun _ _ _ _ _ => True⟩

def Discipline.allows (D : Discipline σ κ π) (calls : ι → κ) (P : Pool σ π ι) (i : ι) : Prop :=
  D.alone (calls i) P.shared (P.pcs i) ∧
    ∀ j, j ≠ i → D.beside (calls i) P.shared (P.pcs i) (calls j) (P.pcs j)

theorem Discipline.free_allows (calls : ι → κ) (P : Pool σ π ι) (i : ι) :
    (free : Discipline σ κ π).allows calls P i := ⟨trivial, fun _ _ => trivial⟩

/-- Every call is about to start. -/
def Machine.initial (M : Machine σ κ π χ ε) (calls : ι → κ) (s : σ) : Pool σ π ι :=
  ⟨s, fun i => M.start (calls i)⟩

/-- Two kinds of process over one shared state, in the environment of the first. -/
def Machine.sum {κ₂ π₂ : Type} (M : Machine σ κ π χ ε) (N : Machine σ κ₂ π₂ χ ε) :
    Machine σ (κ ⊕ κ₂) (π ⊕ π₂) χ ε where
  start := Sum.map M.start N.start
  step c
    | .inl k, s, .inl l => (M.step c k s l).map fun r => (r.1, .inl r.2)
    | .inr k, s, .inr l => (N.step c k s l).map fun r => (r.1, .inr r.2)
    | _, _, _ => none
  env := M.env

/-- An action of the sum is an action of one of the two. -/
theorem Machine.sum_step {κ₂ π₂ : Type} {M : Machine σ κ π χ ε} {N : Machine σ κ₂ π₂ χ ε} {c : χ}
    {k : κ ⊕ κ₂} {s s' : σ} {l l' : π ⊕ π₂} (h : (M.sum N).step c k s l = some (s', l')) :
    (∃ k₁ l₁ l₁', k = .inl k₁ ∧ l = .inl l₁ ∧ l' = .inl l₁' ∧
      M.step c k₁ s l₁ = some (s', l₁')) ∨
    (∃ k₂ l₂ l₂', k = .inr k₂ ∧ l = .inr l₂ ∧ l' = .inr l₂' ∧
      N.step c k₂ s l₂ = some (s', l₂')) := by
  cases k with
  | inl k₁ =>
    cases l with
    | inl l₁ =>
      obtain ⟨⟨s₁, l₁'⟩, hs, he⟩ := Option.map_eq_some_iff.1 h
      cases he
      exact .inl ⟨k₁, l₁, l₁', rfl, rfl, rfl, hs⟩
    | inr l₂ => cases h
  | inr k₂ =>
    cases l with
    | inl l₁ => cases h
    | inr l₂ =>
      obtain ⟨⟨s₁, l₂'⟩, hs, he⟩ := Option.map_eq_some_iff.1 h
      cases he
      exact .inr ⟨k₂, l₂, l₂', rfl, rfl, rfl, hs⟩

/-! ## Many kinds of process -/

/-- The processes of all the kinds `τ` over one shared state. -/
def Machine.family {τ : Type} [DecidableEq τ] {κ π : τ → Type}
    (M : (t : τ) → Machine σ (κ t) (π t) χ ε) (env : ε → σ → σ) :
    Machine σ ((t : τ) × κ t) ((t : τ) × π t) χ ε where
  start k := ⟨k.1, (M k.1).start k.2⟩
  step c k s l :=
    if h : l.1 = k.1 then ((M k.1).step c k.2 s (h ▸ l.2)).map fun r => (r.1, ⟨k.1, r.2⟩)
    else none
  env := env

/-- An action of the family is an action of one kind. -/
theorem Machine.family_step {τ : Type} [DecidableEq τ] {κ π : τ → Type}
    {M : (t : τ) → Machine σ (κ t) (π t) χ ε} {env : ε → σ → σ} {c : χ}
    {k : (t : τ) × κ t} {s s' : σ} {l l' : (t : τ) × π t}
    (h : (Machine.family M env).step c k s l = some (s', l')) :
    ∃ t k₁ l₁ l₁', k = ⟨t, k₁⟩ ∧ l = ⟨t, l₁⟩ ∧ l' = ⟨t, l₁'⟩ ∧
      (M t).step c k₁ s l₁ = some (s', l₁') := by
  obtain ⟨t, k₁⟩ := k
  obtain ⟨t', l₁⟩ := l
  simp only [family] at h
  split at h
  · rename_i ht
    obtain rfl : t' = t := ht
    obtain ⟨⟨s₁, l₁'⟩, hs, he⟩ := Option.map_eq_some_iff.1 h
    cases he
    exact ⟨t', k₁, l₁, l₁', rfl, rfl, rfl, hs⟩
  · cases h

/-! ## Keeping a log -/

/-- The machine that writes down what its actions bring about: `event k s l` is what the action of a
process serving `k` at `l` adds to the log in the state `s`. -/
def Machine.recorded {η : Type} (M : Machine σ κ π χ ε) (event : κ → σ → π → Option η) :
    Machine (σ × List η) κ π χ ε where
  start := M.start
  step c k s l := (M.step c k s.1 l).map fun r => ((r.1, s.2 ++ (event k s.1 l).toList), r.2)
  env e s := (M.env e s.1, s.2)

/-- An action is recorded as it is taken. -/
theorem Machine.recorded_step {η : Type} {M : Machine σ κ π χ ε} {event : κ → σ → π → Option η}
    {c : χ} {k : κ} {s s' : σ × List η} {l l' : π} :
    (M.recorded event).step c k s l = some (s', l') ↔
      M.step c k s.1 l = some (s'.1, l') ∧ s'.2 = s.2 ++ (event k s.1 l).toList := by
  simp only [recorded, Option.map_eq_some_iff, Prod.mk.injEq]
  constructor
  · rintro ⟨⟨s₁, l₁⟩, hs, rfl, rfl⟩
    exact ⟨hs, rfl⟩
  · rintro ⟨hs, hlog⟩
    exact ⟨_, hs, Prod.ext rfl hlog.symm, rfl⟩

/-- The same where the action alone says what it means. -/
def Machine.logged {η : Type} (M : Machine σ κ π χ ε) (event : κ → π → Option η) :
    Machine (σ × List η) κ π χ ε :=
  M.recorded fun k _ l => event k l

theorem Machine.logged_step {η : Type} {M : Machine σ κ π χ ε} {event : κ → π → Option η} {c : χ}
    {k : κ} {s s' : σ} {log log' : List η} {l l' : π} :
    (M.logged event).step c k (s, log) l = some ((s', log'), l') ↔
      M.step c k s l = some (s', l') ∧ log' = log ++ (event k l).toList :=
  recorded_step

/-! ## What a process takes from an action -/

/-- The machine whose processes go on with `f l` where those of `M` go on with `l`. -/
def Machine.through (M : Machine σ κ π χ ε) (f : π → π) : Machine σ κ π χ ε where
  start := M.start
  step c k s l := (M.step c k s l).map fun r => (r.1, f r.2)
  env := M.env

theorem Machine.through_step {M : Machine σ κ π χ ε} {f : π → π} {c : χ} {k : κ} {s s' : σ}
    {l l' : π} : (M.through f).step c k s l = some (s', l') ↔
      ∃ l₁, M.step c k s l = some (s', l₁) ∧ l' = f l₁ := by
  simp only [through, Option.map_eq_some_iff, Prod.mk.injEq, Prod.exists]
  constructor
  · rintro ⟨s₁, l₁, hs, rfl, rfl⟩
    exact ⟨l₁, hs, rfl⟩
  · rintro ⟨l₁, hs, rfl⟩
    exact ⟨s', l₁, hs, rfl, rfl⟩

/-! ## Failing awaits -/

/-- What becomes of an action that awaits another component. -/
inductive Outcome (χ : Type) where
  | answered (c : χ)
  /-- The component has not done it, and the await fails. -/
  | lost
  /-- The component has done it, and the await fails nevertheless. -/
  | late (c : χ)

/-- The machine whose awaits fail where `may` lets them: `fail` is where a failure takes a process
that has not ended, `kept s s'` what it leaves of an action from `s` to `s'`. -/
def Machine.faulty (M : Machine σ κ π χ ε) (fail : π → Option π) (kept : σ → σ → σ)
    (may : κ → π → Bool) : Machine σ κ π (Outcome χ) ε where
  start := M.start
  step
    | .answered c, k, s, l => M.step c k s l
    | .lost, k, s, l => if may k l then (fail l).map fun l' => (s, l') else none
    | .late c, k, s, l => match M.step c k s l with
      | some (s', l₁) => if may k l && may k l₁ then (fail l).map fun l' => (kept s s', l') else none
      | none => none
  env := M.env

/-- An action with failing awaits is one of the machine, or a failure. -/
theorem Machine.faulty_step {M : Machine σ κ π χ ε} {fail : π → Option π} {kept : σ → σ → σ}
    {may : κ → π → Bool} {o : Outcome χ} {k : κ} {s s' : σ} {l l' : π}
    (h : (M.faulty fail kept may).step o k s l = some (s', l')) :
    (∃ c, M.step c k s l = some (s', l')) ∨ fail l = some l' ∧ may k l = true ∧
      (s' = s ∨ ∃ c s₁ l₁, M.step c k s l = some (s₁, l₁) ∧ may k l₁ = true ∧ s' = kept s s₁) := by
  cases o with
  | answered c => exact .inl ⟨c, h⟩
  | lost =>
    simp only [faulty] at h
    split at h
    · rename_i hmay
      obtain ⟨l₁, hfail, he⟩ := Option.map_eq_some_iff.1 h
      cases he
      exact .inr ⟨hfail, hmay, .inl rfl⟩
    · cases h
  | late c =>
    simp only [faulty] at h
    split at h
    · rename_i s₁ l₁ hs
      split at h
      · rename_i hmay
        rw [Bool.and_eq_true] at hmay
        obtain ⟨l₂, hfail, he⟩ := Option.map_eq_some_iff.1 h
        cases he
        exact .inr ⟨hfail, hmay.1, .inr ⟨c, s₁, l₁, hs, hmay.2, rfl⟩⟩
      · cases h
    · cases h

/-! ## Proof outlines -/

/-- `glob` holds of the shared state, `own k` of the shared state and each process serving `k`,
`apart` of every two processes. -/
structure Outline (σ κ π : Type) where
  glob : σ → Prop
  own : κ → σ → π → Prop
  apart : κ → π → κ → π → Prop

structure Outline.Holds (O : Outline σ κ π) (calls : ι → κ) (P : Pool σ π ι) : Prop where
  glob : O.glob P.shared
  own : ∀ i, O.own (calls i) P.shared (P.pcs i)
  apart : ∀ i j, i ≠ j → O.apart (calls i) (P.pcs i) (calls j) (P.pcs j)

/-- The outline that says nothing. -/
def Outline.top : Outline σ κ π := ⟨fun _ => True, fun _ _ _ => True, fun _ _ _ _ => True⟩

theorem Outline.top_holds (calls : ι → κ) (P : Pool σ π ι) :
    (top : Outline σ κ π).Holds calls P := ⟨trivial, fun _ => trivial, fun _ _ _ => trivial⟩

/-- An action of a process serving `k`, in a state where the outlines `B` and `O` hold of it. -/
structure Action (M : Machine σ κ π χ ε) (D : Discipline σ κ π) (B O : Outline σ κ π)
    (c : χ) (k : κ) (s : σ) (l : π) (s' : σ) (l' : π) : Prop where
  step : M.step c k s l = some (s', l')
  alone : D.alone k s l
  baseGlob : B.glob s
  baseOwn : B.own k s l
  glob : O.glob s
  own : O.own k s l

/-- Another process, serving `k₂` at `l₂`, that watches the action. -/
structure Watched (D : Discipline σ κ π) (B O : Outline σ κ π) (k : κ) (s : σ) (l : π) (k₂ : κ)
    (l₂ : π) : Prop where
  beside : D.beside k s l k₂ l₂
  baseOwn : B.own k₂ s l₂
  baseApart : B.apart k l k₂ l₂
  own : O.own k₂ s l₂
  apart : O.apart k l k₂ l₂

/-- The outline `O` is kept by every action, given that the outline `B` holds throughout. -/
structure Outline.Valid (O : Outline σ κ π) (M : Machine σ κ π χ ε) (D : Discipline σ κ π)
    (B : Outline σ κ π) : Prop where
  move : ∀ {c k s l s' l'}, Action M D B O c k s l s' l' → O.glob s' ∧ O.own k s' l'
  keep : ∀ {c k s l s' l' k₂ l₂}, Action M D B O c k s l s' l' →
    Watched D B O k s l k₂ l₂ → O.own k₂ s' l₂ ∧ O.apart k l' k₂ l₂
  symm : ∀ {k l k₂ l₂}, O.apart k l k₂ l₂ → O.apart k₂ l₂ k l
  env : ∀ e {s}, O.glob s →
    O.glob (M.env e s) ∧ ∀ {k l}, O.own k s l → O.own k (M.env e s) l

theorem Outline.Holds.action {M : Machine σ κ π χ ε} {D : Discipline σ κ π} {calls : ι → κ}
    {Q : Pool σ π ι} {B O : Outline σ κ π} (hB : B.Holds calls Q) (hO : O.Holds calls Q)
    {i : ι} {c : χ} {s' : σ} {l' : π} (ha : D.allows calls Q i)
    (hs : M.step c (calls i) Q.shared (Q.pcs i) = some (s', l')) :
    Action M D B O c (calls i) Q.shared (Q.pcs i) s' l' :=
  ⟨hs, ha.1, hB.glob, hB.own i, hO.glob, hO.own i⟩

theorem Outline.Holds.watched {D : Discipline σ κ π} {calls : ι → κ} {Q : Pool σ π ι}
    {B O : Outline σ κ π} (hB : B.Holds calls Q) (hO : O.Holds calls Q) {i j : ι}
    (ha : D.allows calls Q i) (hne : j ≠ i) :
    Watched D B O (calls i) Q.shared (Q.pcs i) (calls j) (Q.pcs j) :=
  ⟨ha.2 j hne, hB.own j, hB.apart i j hne.symm, hO.own j, hO.apart i j hne.symm⟩

/-! ## Runs -/

section Runs
variable [DecidableEq ι]

/-- `Q` is reached from `P` by interleaving the calls in an order `D` allows. -/
inductive Run (M : Machine σ κ π χ ε) (D : Discipline σ κ π) (calls : ι → κ) (P : Pool σ π ι) :
    Pool σ π ι → Prop
  | refl : Run M D calls P P
  | move {Q : Pool σ π ι} {i : ι} {c : χ} {s' : σ} {l' : π} : Run M D calls P Q →
      D.allows calls Q i → M.step c (calls i) Q.shared (Q.pcs i) = some (s', l') →
      Run M D calls P ⟨s', Function.update Q.pcs i l'⟩
  | env {Q : Pool σ π ι} (e : ε) : Run M D calls P Q → Run M D calls P ⟨M.env e Q.shared, Q.pcs⟩

variable {M : Machine σ κ π χ ε} {D : Discipline σ κ π} {calls : ι → κ} {P Q R : Pool σ π ι}

theorem Run.trans (h₁ : Run M D calls P Q) (h₂ : Run M D calls Q R) : Run M D calls P R := by
  induction h₂ with
  | refl => exact h₁
  | move _ ha hs ih => exact ih.move ha hs
  | env e _ ih => exact ih.env e

/-- A run in some order is one in any. -/
theorem Run.free (h : Run M D calls P Q) : Run M Discipline.free calls P Q := by
  induction h with
  | refl => exact .refl
  | move _ _ hs ih => exact ih.move (Discipline.free_allows calls _ _) hs
  | env e _ ih => exact ih.env e

/-- What every action and every environment step keep holds in every state of a run. -/
theorem Run.invariant (I : Pool σ π ι → Prop) (h : Run M D calls P Q) (h0 : I P)
    (hmove : ∀ {Q i c s' l'}, Run M D calls P Q → I Q → D.allows calls Q i →
      M.step c (calls i) Q.shared (Q.pcs i) = some (s', l') →
      I ⟨s', Function.update Q.pcs i l'⟩)
    (henv : ∀ {Q} e, I Q → I ⟨M.env e Q.shared, Q.pcs⟩) : I Q := by
  induction h with
  | refl => exact h0
  | move hr ha hs ih => exact hmove hr ih ha hs
  | env e _ ih => exact henv e ih

/-- A state with a debt has a process that owes its repair, provided an action creates a debt
only by making the acting process owe it, and a process that owes keeps owing while the debt
lasts. -/
theorem Run.owed (debt : σ → Prop) (owes : κ → π → Prop) (h : Run M D calls P Q)
    (h0 : debt P.shared → ∃ i, owes (calls i) (P.pcs i))
    (hmove : ∀ {Q i c s' l'}, Run M D calls P Q → D.allows calls Q i →
      M.step c (calls i) Q.shared (Q.pcs i) = some (s', l') → debt s' →
      owes (calls i) l' ∨ (debt Q.shared ∧ ¬ owes (calls i) (Q.pcs i)))
    (henv : ∀ {Q : Pool σ π ι} e, debt (M.env e Q.shared) → debt Q.shared) :
    debt Q.shared → ∃ i, owes (calls i) (Q.pcs i) := by
  induction h with
  | refl => exact h0
  | env e _ ih => exact fun hd => ih (henv e hd)
  | @move Q i c s' l' hr ha hs ih =>
    intro hd
    rcases hmove hr ha hs hd with ho | ⟨hd', hno⟩
    · exact ⟨i, by simpa using ho⟩
    · obtain ⟨j, hj⟩ := ih hd'
      have hne : j ≠ i := by rintro rfl; exact hno hj
      exact ⟨j, by simpa [Function.update_of_ne hne] using hj⟩

/-- On the way from `P` to `Q` there was a state with `φ`. -/
def Met (M : Machine σ κ π χ ε) (D : Discipline σ κ π) (calls : ι → κ) (P : Pool σ π ι)
    (φ : Pool σ π ι → Prop) (Q : Pool σ π ι) : Prop :=
  ∃ R, Run M D calls P R ∧ φ R ∧ Run M D calls R Q

theorem Run.met {φ : Pool σ π ι → Prop} (h : Run M D calls P Q) (hφ : φ Q) :
    Met M D calls P φ Q := ⟨Q, h, hφ, .refl⟩

theorem Met.trans {φ : Pool σ π ι → Prop} (h : Met M D calls P φ Q) (h' : Run M D calls Q R) :
    Met M D calls P φ R := by
  obtain ⟨S, h₁, hφ, h₂⟩ := h
  exact ⟨S, h₁, hφ, h₂.trans h'⟩

/-- On the way from `P` to `Q` an action of the kind `act` has brought `φ` about, which has held
since. -/
def Brought (M : Machine σ κ π χ ε) (D : Discipline σ κ π) (calls : ι → κ) (P : Pool σ π ι)
    (φ : σ → Prop) (act : Pool σ π ι → ι → Prop) (Q : Pool σ π ι) : Prop :=
  ∃ R i c s' l', Run M D calls P R ∧ D.allows calls R i ∧ act R i ∧
    M.step c (calls i) R.shared (R.pcs i) = some (s', l') ∧ ¬ φ R.shared ∧ φ s' ∧
    Run M (Discipline.during φ) calls ⟨s', Function.update R.pcs i l'⟩ Q

/-- `act` is what an action is that brings `φ` about; the environment does not. -/
theorem Run.brought {φ : σ → Prop} {act : Pool σ π ι → ι → Prop} (h : Run M D calls P Q)
    (h0 : ¬ φ P.shared)
    (hact : ∀ {R i c s' l'}, Run M D calls P R → D.allows calls R i →
      M.step c (calls i) R.shared (R.pcs i) = some (s', l') → ¬ φ R.shared → φ s' → act R i)
    (henv : ∀ e {s}, φ (M.env e s) → φ s) : φ Q.shared → Brought M D calls P φ act Q := by
  induction h with
  | refl => exact fun hQ => absurd hQ h0
  | env e _ ih =>
    intro hQ
    obtain ⟨R, i, c, s', l', hr, ha, hk, hs, hno, hyes, hsince⟩ := ih (henv e hQ)
    exact ⟨R, i, c, s', l', hr, ha, hk, hs, hno, hyes, hsince.env e⟩
  | @move Q i c s' l' hr ha hs ih =>
    intro hQ
    by_cases hφ : φ Q.shared
    · obtain ⟨R, j, c₁, s₁, l₁, hr₁, ha₁, hk, hs₁, hno, hyes, hsince⟩ := ih hφ
      exact ⟨R, j, c₁, s₁, l₁, hr₁, ha₁, hk, hs₁, hno, hyes,
        hsince.move ⟨hφ, fun _ _ => trivial⟩ hs⟩
    · exact ⟨Q, i, c, s', l', hr, ha, hact hr ha hs hφ hQ, hs, hφ, hQ, .refl⟩

/-- By now more may be known of the action. -/
theorem Brought.imp {φ : σ → Prop} {act act' : Pool σ π ι → ι → Prop}
    (h : Brought M D calls P φ act Q)
    (himp : ∀ {R i}, Run M Discipline.free calls R Q → act R i → act' R i) :
    Brought M D calls P φ act' Q := by
  obtain ⟨R, i, c, s', l', hr, ha, hk, hs, hno, hyes, hsince⟩ := h
  have hrest := (Run.refl.move (Discipline.free_allows calls R i) hs).trans hsince.free
  exact ⟨R, i, c, s', l', hr, ha, himp hrest hk, hs, hno, hyes, hsince⟩

/-- There was such an action. -/
theorem Brought.happened {φ : σ → Prop} {act : Pool σ π ι → ι → Prop}
    (h : Brought M D calls P φ act Q) :
    ∃ R i, Run M D calls P R ∧ act R i ∧ Run M Discipline.free calls R Q := by
  obtain ⟨R, i, c, s', l', hr, ha, hk, hs, -, -, hsince⟩ := h
  exact ⟨R, i, hr, hk,
    (Run.refl.move (Discipline.free_allows calls R i) hs).trans hsince.free⟩

/-- One action of the pool keeps a valid outline. -/
theorem Outline.Valid.step {B O : Outline σ κ π} (hv : O.Valid M D B) (hB : B.Holds calls Q)
    (hO : O.Holds calls Q) {i : ι} {c : χ} {s' : σ} {l' : π} (ha : D.allows calls Q i)
    (hs : M.step c (calls i) Q.shared (Q.pcs i) = some (s', l')) :
    O.Holds calls ⟨s', Function.update Q.pcs i l'⟩ := by
  have hact := hB.action hO ha hs
  refine ⟨(hv.move hact).1, fun j => ?_, fun j j' hne => ?_⟩
  · by_cases hj : j = i
    · subst hj; simpa using (hv.move hact).2
    · simpa [Function.update_of_ne hj] using (hv.keep hact (hB.watched hO ha hj)).1
  · by_cases hj : j = i
    · subst hj
      have hk := (hv.keep hact (hB.watched hO ha hne.symm)).2
      simpa [Function.update_of_ne hne.symm] using hk
    · by_cases hj' : j' = i
      · subst hj'
        have hk := hv.symm (hv.keep hact (hB.watched hO ha hj)).2
        simpa [Function.update_of_ne hj] using hk
      · simpa [Function.update_of_ne hj, Function.update_of_ne hj'] using hO.apart j j' hne

/-- A valid outline that holds at the start of a run holds throughout it. -/
theorem Outline.Valid.run {B O : Outline σ κ π} (hv : O.Valid M D B)
    (hB : ∀ {Q}, Run M D calls P Q → B.Holds calls Q) (h0 : O.Holds calls P)
    (h : Run M D calls P Q) : O.Holds calls Q :=
  h.invariant (O.Holds calls) h0
    (fun hr hI ha hs => hv.step (hB hr) hI ha hs)
    (fun e hI => ⟨(hv.env e hI.glob).1, fun i => (hv.env e hI.glob).2 (hI.own i), hI.apart⟩)

end Runs

/-! ## Losing nothing -/

section Through
variable [DecidableEq ι] {M : Machine σ κ π χ ε} {f : π → π} {D : Discipline σ κ π}
  {calls : ι → κ} {P Q : Pool σ π ι} {O : Outline σ κ π}

/-- Where an outline of `M` rules out that `f` changes what an action comes to, a run through `f` is
one of `M`. -/
theorem Run.of_through (hv : O.Valid M D Outline.top)
    (hsame : ∀ {c k s l s' l'}, Action M D Outline.top O c k s l s' l' → f l' = l')
    (h0 : O.Holds calls P) (h : Run (M.through f) D calls P Q) : Run M D calls P Q := by
  induction h with
  | refl => exact .refl
  | env e _ ih => exact ih.env e
  | @move Q i c s' l' _ ha hs ih =>
    obtain ⟨l₁, hs₁, rfl⟩ := Machine.through_step.1 hs
    have hO := hv.run (fun {R} _ => Outline.top_holds calls R) h0 ih
    rw [hsame ((Outline.top_holds calls Q).action hO ha hs₁)]
    exact ih.move ha hs₁

end Through

/-! ## Schedules -/

/-- One entry of a schedule. -/
inductive Move (ι χ ε : Type) where
  | step (i : ι) (c : χ)
  | env (e : ε)

variable [DecidableEq ι] {M : Machine σ κ π χ ε} {D : Discipline σ κ π} {calls : ι → κ}
  {P Q : Pool σ π ι}

/-- One entry of a schedule; `ok` refuses an action. -/
def Machine.next (M : Machine σ κ π χ ε) (ok : Pool σ π ι → ι → Bool) (calls : ι → κ)
    (P : Pool σ π ι) : Move ι χ ε → Option (Pool σ π ι)
  | .step i c =>
    if ok P i then
      (M.step c (calls i) P.shared (P.pcs i)).map fun r => ⟨r.1, Function.update P.pcs i r.2⟩
    else none
  | .env e => some ⟨M.env e P.shared, P.pcs⟩

/-- Play a schedule; `none` if some action of it is not possible. -/
def Machine.exec (M : Machine σ κ π χ ε) (ok : Pool σ π ι → ι → Bool) (calls : ι → κ)
    (P : Pool σ π ι) : List (Move ι χ ε) → Option (Pool σ π ι)
  | [] => some P
  | m :: ms => match M.next ok calls P m with
    | some Q => M.exec ok calls Q ms
    | none => none

def always : Pool σ π ι → ι → Bool := fun _ _ => true

theorem Machine.next_run {ok : Pool σ π ι → ι → Bool}
    (hok : ∀ {P i}, ok P i = true → D.allows calls P i) {m : Move ι χ ε}
    (h : M.next ok calls P m = some Q) : Run M D calls P Q := by
  cases m with
  | step i c =>
    simp only [next] at h
    split at h
    · rename_i ho
      obtain ⟨⟨s', l'⟩, hs, rfl⟩ := Option.map_eq_some_iff.1 h
      exact Run.refl.move (hok ho) hs
    · cases h
  | env e =>
    simp only [next, Option.some.injEq] at h
    subst h
    exact Run.refl.env e

theorem Machine.exec_run {ok : Pool σ π ι → ι → Bool}
    (hok : ∀ {P i}, ok P i = true → D.allows calls P i) {ms : List (Move ι χ ε)}
    (h : M.exec ok calls P ms = some Q) : Run M D calls P Q := by
  induction ms generalizing P with
  | nil => simp only [exec, Option.some.injEq] at h; subst h; exact Run.refl
  | cons m ms ih =>
    simp only [exec] at h
    split at h
    · rename_i R hR; exact (next_run hok hR).trans (ih h)
    · cases h

/-- What a schedule ends in is reached by a run. -/
theorem Machine.exec_reaches {ok : Pool σ π ι → ι → Bool}
    (hok : ∀ {P i}, ok P i = true → D.allows calls P i) {ms : List (Move ι χ ε)}
    {p : Pool σ π ι → Bool} (h : (M.exec ok calls P ms).any p = true) :
    ∃ Q, Run M D calls P Q ∧ p Q = true := by
  obtain ⟨Q, hQ, hp⟩ := (Option.any_eq_true _ _).1 h
  exact ⟨Q, exec_run hok hQ, hp⟩

theorem Machine.exec_reaches_free {ms : List (Move ι χ ε)} {p : Pool σ π ι → Bool}
    (h : (M.exec always calls P ms).any p = true) :
    ∃ Q, Run M Discipline.free calls P Q ∧ p Q = true :=
  exec_reaches (fun {P i} _ => Discipline.free_allows calls P i) h

/-! ## One process alone -/

/-- A process serving `k` goes from `(s, l)` to `(s', l')` with no other process in between. -/
inductive Solo (M : Machine σ κ π χ ε) (k : κ) (s : σ) (l : π) : σ → π → Prop
  | refl : Solo M k s l s l
  | step {c : χ} {s₁ s₂ : σ} {l₁ l₂ : π} : Solo M k s l s₁ l₁ →
      M.step c k s₁ l₁ = some (s₂, l₂) → Solo M k s l s₂ l₂
  | env {s₁ : σ} {l₁ : π} (e : ε) : Solo M k s l s₁ l₁ → Solo M k s l (M.env e s₁) l₁

theorem Solo.invariant {k : κ} {s s' : σ} {l l' : π} (I : σ → π → Prop)
    (h : Solo M k s l s' l') (h0 : I s l)
    (hstep : ∀ {c s₁ l₁ s₂ l₂}, I s₁ l₁ → M.step c k s₁ l₁ = some (s₂, l₂) → I s₂ l₂)
    (henv : ∀ e {s₁ l₁}, I s₁ l₁ → I (M.env e s₁) l₁) : I s' l' := by
  induction h with
  | refl => exact h0
  | step _ hs ih => exact hstep ih hs
  | env e _ ih => exact henv e ih

/-- An action, and what the process does after it. -/
theorem Solo.head {k : κ} {c : χ} {s s₁ s₂ : σ} {l l₁ l₂ : π}
    (hs : M.step c k s l = some (s₁, l₁)) (h : Solo M k s₁ l₁ s₂ l₂) : Solo M k s l s₂ l₂ := by
  induction h with
  | refl => exact Solo.refl.step hs
  | step _ hs' ih => exact ih.step hs'
  | env e _ ih => exact ih.env e

/-- A process that always has an action which brings it closer to its end comes to its end. -/
theorem Solo.completes {k : κ} {α : Type} [LT α] [WellFoundedLT α] (I : σ → π → Prop)
    (final : π → Prop) (μ : π → α)
    (hstep : ∀ {s l}, I s l → final l ∨
      ∃ c s' l', M.step c k s l = some (s', l') ∧ I s' l' ∧ μ l' < μ l)
    {s : σ} {l : π} (h0 : I s l) : ∃ s' l', Solo M k s l s' l' ∧ final l' := by
  induction hn : μ l using WellFoundedLT.induction generalizing s l with
  | _ n ih =>
    rcases hstep h0 with hf | ⟨c, s₁, l₁, hs, hI, hlt⟩
    · exact ⟨s, l, .refl, hf⟩
    · obtain ⟨s', l', hrest, hf⟩ := ih (μ l₁) (hn ▸ hlt) hI rfl
      exact ⟨s', l', hrest.head hs, hf⟩

/-- In a pool of one process every run is one of the process alone. -/
theorem Run.solo {k : κ} {P Q : Pool σ π Unit} {D : Discipline σ κ π}
    (h : Run M D (fun _ => k) P Q) : Solo M k P.shared (P.pcs ()) Q.shared (Q.pcs ()) := by
  induction h with
  | refl => exact .refl
  | move _ _ hs ih => simpa using ih.step hs
  | env e _ ih => exact ih.env e

/-! ## One process amid others -/

/-- The local states a process serving `k` comes to from `l`, whatever becomes of the shared state
between its actions. -/
inductive Amid (M : Machine σ κ π χ ε) (k : κ) (l : π) : π → Prop
  | refl : Amid M k l l
  | step {c : χ} {s s' : σ} {l₁ l₂ : π} : Amid M k l l₁ → M.step c k s l₁ = some (s', l₂) →
      Amid M k l l₂

theorem Amid.invariant {k : κ} {l l' : π} (I : π → Prop) (h : Amid M k l l') (h0 : I l)
    (hstep : ∀ {c s l₁ s' l₂}, I l₁ → M.step c k s l₁ = some (s', l₂) → I l₂) : I l' := by
  induction h with
  | refl => exact h0
  | step _ hs ih => exact hstep ih hs

end Interleave
