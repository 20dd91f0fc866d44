import Intaktok.Lib.Interleave
/-
# How much a process spends

`Spends i n` counts the actions of one process of a run, each at the `cost` of the local state it
is taken at. Where no action of a machine costs more than it takes off a `rank` (`Bounded`), a
process spends no more than the rank it starts with, whatever the others do in between
(`Spends.le`).
-/

namespace Interleave

variable {σ κ π χ ε ι : Type}

/-- `rank k l` is what a process that serves `k` may still spend at `l`. -/
def Bounded (M : Machine σ κ π χ ε) (cost : π → ℕ) (rank : κ → π → ℕ) : Prop :=
  ∀ {c k s l s' l'}, M.step c k s l = some (s', l') → rank k l' + cost l ≤ rank k l

variable [DecidableEq ι]

/-- A run from `P` in which `i` has spent so much. -/
inductive Spends (M : Machine σ κ π χ ε) (D : Discipline σ κ π) (calls : ι → κ) (cost : π → ℕ)
    (i : ι) (P : Pool σ π ι) : ℕ → Pool σ π ι → Prop
  | refl : Spends M D calls cost i P 0 P
  | own {n Q c s' l'} : Spends M D calls cost i P n Q → D.allows calls Q i →
      M.step c (calls i) Q.shared (Q.pcs i) = some (s', l') →
      Spends M D calls cost i P (n + cost (Q.pcs i)) ⟨s', Function.update Q.pcs i l'⟩
  | other {n Q j c s' l'} : j ≠ i → Spends M D calls cost i P n Q → D.allows calls Q j →
      M.step c (calls j) Q.shared (Q.pcs j) = some (s', l') →
      Spends M D calls cost i P n ⟨s', Function.update Q.pcs j l'⟩
  | env {n Q} (e : ε) : Spends M D calls cost i P n Q →
      Spends M D calls cost i P n ⟨M.env e Q.shared, Q.pcs⟩

variable {M : Machine σ κ π χ ε} {D : Discipline σ κ π} {calls : ι → κ} {P Q : Pool σ π ι}
  {cost : π → ℕ} {rank : κ → π → ℕ} {i : ι} {n : ℕ}

/-- In every run a process spends something. -/
theorem Run.spends (cost : π → ℕ) (i : ι) (h : Run M D calls P Q) :
    ∃ n, Spends M D calls cost i P n Q := by
  induction h with
  | refl => exact ⟨0, .refl⟩
  | @move Q j c s' l' _ ha hs ih =>
    obtain ⟨n, h⟩ := ih
    by_cases hj : j = i
    · subst hj
      exact ⟨_, h.own ha hs⟩
    · exact ⟨n, h.other hj ha hs⟩
  | env e _ ih =>
    obtain ⟨n, h⟩ := ih
    exact ⟨n, h.env e⟩

/-- What has been spent, and what is left, comes to no more than there was. -/
theorem Spends.le (h : Spends M D calls cost i P n Q) (hM : Bounded M cost rank) :
    n + rank (calls i) (Q.pcs i) ≤ rank (calls i) (P.pcs i) := by
  induction h with
  | refl => exact Nat.le_of_eq (Nat.zero_add _)
  | own _ _ hs ih =>
    have hstep := hM hs
    simp only [Function.update_self]
    omega
  | other hj _ _ _ ih => simpa only [Function.update_of_ne (Ne.symm hj)] using ih
  | env e _ ih => exact ih

end Interleave
