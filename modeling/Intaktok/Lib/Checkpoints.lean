import Intaktok.Lib.Interleave
/-
# Checkpoints

What a process does late in a call it often does on the strength of something it has found out
early, and by then the shared state may be another. `Run.passed` says what is left of such a
finding: a process that has come past a checkpoint `p` has been there in a state with `φ`; and
`Run.acted` that it has `Acted` there, where one action leads past `p`.

A process that is asked one thing after the other has met the answers `InTurn`.

`Run.relates` is the rule for two states of one run: what every action leaves of a state, a run
leaves of it.
-/

namespace Interleave

variable {σ κ π χ ε ι : Type} [DecidableEq ι] {M : Machine σ κ π χ ε} {D : Discipline σ κ π}
  {calls : ι → κ} {P Q : Pool σ π ι}

/-- Who has passed a checkpoint has met what it asks for, in the state in which he came to it or
in which he left it. -/
theorem Run.passed {p : κ → π → Prop} {φ : κ → σ → π → Prop} (h : Run M D calls P Q)
    (h0 : ∀ i, ¬ p (calls i) (P.pcs i))
    (hstep : ∀ {c k s l s' l'}, M.step c k s l = some (s', l') → p k l' →
      p k l ∨ φ k s l ∨ φ k s' l') (i : ι) (hi : p (calls i) (Q.pcs i)) :
    Met M D calls P (fun R => φ (calls i) R.shared (R.pcs i)) Q := by
  induction h with
  | refl => exact absurd hi (h0 i)
  | env e hr ih => exact (ih hi).trans (Run.refl.env e)
  | @move Q j c s' l' hr ha hs ih =>
    have hlast := Run.refl.move ha hs
    by_cases hj : i = j
    · subst hj
      simp only [Function.update_self] at hi
      rcases hstep hs hi with hp | hφ | hφ
      · exact (ih hp).trans hlast
      · exact (hr.met (φ := fun R => φ (calls i) R.shared (R.pcs i)) hφ).trans hlast
      · exact (hr.move ha hs).met (by simpa using hφ)
    · simp only [Function.update_of_ne hj] at hi
      exact (ih hi).trans hlast

/-- On the way from `P` to `Q` the process `i` has acted, in a state with `φ`. -/
def Acted (M : Machine σ κ π χ ε) (D : Discipline σ κ π) (calls : ι → κ) (P : Pool σ π ι) (i : ι)
    (φ : Pool σ π ι → Prop) (Q : Pool σ π ι) : Prop :=
  ∃ R c s' l', Run M D calls P R ∧ D.allows calls R i ∧ φ R ∧
    M.step c (calls i) R.shared (R.pcs i) = some (s', l') ∧
    Run M D calls ⟨s', Function.update R.pcs i l'⟩ Q

theorem Acted.trans {i : ι} {φ : Pool σ π ι → Prop} {R : Pool σ π ι} (h : Acted M D calls P i φ Q)
    (hrun : Run M D calls Q R) : Acted M D calls P i φ R := by
  obtain ⟨S, c, s', l', h₁, ha, hφ, hs, h₂⟩ := h
  exact ⟨S, c, s', l', h₁, ha, hφ, hs, h₂.trans hrun⟩

theorem Acted.imp {i : ι} {φ ψ : Pool σ π ι → Prop} (h : Acted M D calls P i φ Q)
    (himp : ∀ R, Run M D calls P R → φ R → ψ R) : Acted M D calls P i ψ Q := by
  obtain ⟨R, c, s', l', h₁, ha, hφ, hs, h₂⟩ := h
  exact ⟨R, c, s', l', h₁, ha, himp R h₁ hφ, hs, h₂⟩

theorem Acted.met {i : ι} {φ : Pool σ π ι → Prop} (h : Acted M D calls P i φ Q) :
    Met M D calls P φ Q := by
  obtain ⟨R, c, s', l', h₁, ha, hφ, hs, h₂⟩ := h
  exact ⟨R, h₁, hφ, (Run.refl.move ha hs).trans h₂⟩

/-- Who has passed a checkpoint that is passed by one action has taken it where this asks for. -/
theorem Run.acted {p : κ → π → Prop} {φ : κ → σ → π → Prop} (h : Run M D calls P Q)
    (h0 : ∀ i, ¬ p (calls i) (P.pcs i))
    (hstep : ∀ {c k s l s' l'}, M.step c k s l = some (s', l') → p k l' → p k l ∨ φ k s l) (i : ι)
    (hi : p (calls i) (Q.pcs i)) :
    Acted M D calls P i (fun R => φ (calls i) R.shared (R.pcs i)) Q := by
  induction h with
  | refl => exact absurd hi (h0 i)
  | env e hr ih => exact (ih hi).trans (Run.refl.env e)
  | @move Q j c s' l' hr ha hs ih =>
    by_cases hj : i = j
    · subst hj
      simp only [Function.update_self] at hi
      rcases hstep hs hi with hp | hφ
      · exact (ih hp).trans (Run.refl.move ha hs)
      · exact ⟨Q, c, s', l', hr, ha, hφ, hs, .refl⟩
    · simp only [Function.update_of_ne hj] at hi
      exact (ih hi).trans (Run.refl.move ha hs)

/-- On the way from `P` to `Q` there was a state with each of the properties, in their order. -/
inductive InTurn (M : Machine σ κ π χ ε) (D : Discipline σ κ π) (calls : ι → κ)
    (P : Pool σ π ι) : List (σ → Prop) → Pool σ π ι → Prop
  | nil {Q : Pool σ π ι} : Run M D calls P Q → InTurn M D calls P [] Q
  | snoc (φs : List (σ → Prop)) {φ : σ → Prop} {Q R : Pool σ π ι} : InTurn M D calls P φs R →
      φ R.shared → Run M D calls R Q → InTurn M D calls P (φs ++ [φ]) Q

theorem InTurn.trans {φs : List (σ → Prop)} {R : Pool σ π ι} (h : InTurn M D calls P φs Q)
    (hrun : Run M D calls Q R) : InTurn M D calls P φs R := by
  cases h with
  | nil h => exact .nil (h.trans hrun)
  | snoc φs h hφ h' => exact .snoc φs h hφ (h'.trans hrun)

theorem InTurn.met {φs : List (σ → Prop)} (h : InTurn M D calls P φs Q) {φ : σ → Prop}
    (hφ : φ ∈ φs) : Met M D calls P (fun R => φ R.shared) Q := by
  have hstart : ∀ {R φs}, InTurn M D calls P φs R → Run M D calls P R := by
    intro R φs h
    induction h with
    | nil h => exact h
    | snoc _ _ _ h' ih => exact ih.trans h'
  induction h with
  | nil => cases hφ
  | @snoc φs ψ Q R h hψ h' ih =>
    rcases List.mem_append.1 hφ with hφ | hφ
    · exact (ih hφ).trans h'
    · obtain rfl := List.mem_singleton.1 hφ
      exact ⟨R, hstart h, hψ, h'⟩

/-- What every action and the environment leave of a state. -/
theorem Run.relates {r : σ → σ → Prop} (h : Run M D calls P Q) (hrefl : ∀ s, r s s)
    (htrans : ∀ {s s' s''}, r s s' → r s' s'' → r s s'')
    (hstep : ∀ {c k s l s' l'}, M.step c k s l = some (s', l') → r s s')
    (henv : ∀ e s, r s (M.env e s)) : r P.shared Q.shared := by
  induction h with
  | refl => exact hrefl _
  | move _ _ hs ih => exact htrans ih (hstep hs)
  | env e _ ih => exact htrans ih (henv e _)

end Interleave
