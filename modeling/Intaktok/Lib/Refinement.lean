import Intaktok.Lib.Checkpoints
/-
# One machine in front of another

A process of `N` that `Fronts` a process of `M` lets nothing of what happens past it: seen through
`view` and `inner`, each of its actions is one of the process behind, or none. So the runs of `N`
are runs of `M` with pauses (`Fronts.run`), and what is known of the runs of `M` is known of those
of `N`. What a process has met on its way is a fact about a run of `N`, and `Fronts.passed` gives it
from the actions of `M`.
-/

namespace Interleave

variable {σ κ π χ ε τ κ' π' χ' ε' ι : Type}

/-- The pool of processes behind. -/
def Pool.behind (view : τ → σ) (inner : κ' → π' → π) (calls : ι → κ') (P : Pool τ π' ι) :
    Pool σ π ι := ⟨view P.shared, fun i => inner (calls i) (P.pcs i)⟩

/-- `N` does nothing that `M` does not; the process that serves `k` stands before the one that
serves `call k`. -/
structure Fronts (N : Machine τ κ' π' χ' ε') (M : Machine σ κ π χ ε) (view : τ → σ)
    (call : κ' → κ) (inner : κ' → π' → π) : Prop where
  start : ∀ k, inner k (N.start k) = M.start (call k)
  step : ∀ {c k t l t' l'}, N.step c k t l = some (t', l') →
    (view t' = view t ∧ inner k l' = inner k l) ∨
      ∃ c', M.step c' (call k) (view t) (inner k l) = some (view t', inner k l')
  env : ∀ e t, ∃ e', view (N.env e t) = M.env e' (view t)

variable {N : Machine τ κ' π' χ' ε'} {M : Machine σ κ π χ ε} {view : τ → σ} {call : κ' → κ}
  {inner : κ' → π' → π} {D : Discipline τ κ' π'} {calls : ι → κ'} {P Q : Pool τ π' ι}

theorem Fronts.initial (h : Fronts N M view call inner) (calls : ι → κ') (t : τ) :
    (N.initial calls t).behind view inner calls = M.initial (call ∘ calls) (view t) :=
  congrArg (Pool.mk _) (funext fun i => h.start (calls i))

variable [DecidableEq ι]

theorem Pool.behind_move (view : τ → σ) (inner : κ' → π' → π) (calls : ι → κ') (P : Pool τ π' ι)
    (i : ι) (t' : τ) (l' : π') :
    Pool.behind view inner calls ⟨t', Function.update P.pcs i l'⟩ =
      ⟨view t', Function.update (P.behind view inner calls).pcs i (inner (calls i) l')⟩ := by
  refine congrArg (Pool.mk _) (funext fun j => ?_)
  by_cases hj : j = i
  · subst hj
    simp [Pool.behind]
  · simp [Pool.behind, Function.update_of_ne hj]

/-- Every run of the front is one of what is behind. -/
theorem Fronts.run (h : Fronts N M view call inner) (hrun : Run N D calls P Q) :
    Run M Discipline.free (call ∘ calls) (P.behind view inner calls)
      (Q.behind view inner calls) := by
  induction hrun with
  | refl => exact .refl
  | @env Q e _ ih =>
    obtain ⟨e', he⟩ := h.env e Q.shared
    have hbehind : Pool.behind view inner calls ⟨N.env e Q.shared, Q.pcs⟩ =
        ⟨M.env e' (view Q.shared), (Q.behind view inner calls).pcs⟩ := congrArg (Pool.mk · _) he
    rw [hbehind]
    exact ih.env e'
  | @move Q i c t' l' _ _ hs ih =>
    rw [Pool.behind_move]
    rcases h.step hs with ⟨hview, hinner⟩ | ⟨c', hM⟩
    · rw [hview, hinner]
      have hpcs := Function.update_eq_self i (Q.behind view inner calls).pcs
      exact (congrArg (Pool.mk (view Q.shared)) hpcs).symm ▸ ih
    · exact ih.move (Discipline.free_allows _ _ i) hM

/-- From the start: the calls behind are those the front makes. -/
theorem Fronts.run_initial (h : Fronts N M view call inner) {t : τ}
    (hrun : Run N D calls (N.initial calls t) Q) :
    Run M Discipline.free (call ∘ calls) (M.initial (call ∘ calls) (view t))
      (Q.behind view inner calls) := h.initial calls t ▸ h.run hrun

omit [DecidableEq ι] in
/-- Who has just started is where his call starts behind. -/
theorem Fronts.not_start (h : Fronts N M view call inner) {t : τ} {p : κ → π → Prop}
    (h0 : ∀ k, ¬ p k (M.start k)) (i : ι) :
    ¬ p (call (calls i)) (inner (calls i) ((N.initial calls t).pcs i)) := by
  have hstart : inner (calls i) (N.start (calls i)) = M.start (call (calls i)) := h.start _
  exact fun hp => h0 _ (hstart ▸ hp)

/-- The rule of checkpoints, for what lies behind: its actions alone are to be looked at. -/
theorem Fronts.passed (h : Fronts N M view call inner) {t : τ}
    (hrun : Run N D calls (N.initial calls t) Q) {p : κ → π → Prop} {φ : κ → σ → π → Prop}
    (h0 : ∀ k, ¬ p k (M.start k))
    (hstep : ∀ {c k s l s' l'}, M.step c k s l = some (s', l') → p k l' →
      p k l ∨ φ k s l ∨ φ k s' l') (i : ι)
    (hi : p (call (calls i)) (inner (calls i) (Q.pcs i))) :
    Met N D calls (N.initial calls t)
      (fun R => φ (call (calls i)) (view R.shared) (inner (calls i) (R.pcs i))) Q := by
  refine hrun.passed (p := fun k l => p (call k) (inner k l))
    (φ := fun k t l => φ (call k) (view t) (inner k l)) (h.not_start h0) ?_ i hi
  intro c k t l t' l' hs hp
  rcases h.step hs with ⟨-, hinner⟩ | ⟨c', hM⟩
  · exact .inl (hinner ▸ hp)
  · exact hstep hM hp

/-- The same for a checkpoint that is passed by one action. -/
theorem Fronts.acted (h : Fronts N M view call inner) {t : τ}
    (hrun : Run N D calls (N.initial calls t) Q) {p : κ → π → Prop} {φ : κ → σ → π → Prop}
    (h0 : ∀ k, ¬ p k (M.start k))
    (hstep : ∀ {c k s l s' l'}, M.step c k s l = some (s', l') → p k l' → p k l ∨ φ k s l) (i : ι)
    (hi : p (call (calls i)) (inner (calls i) (Q.pcs i))) :
    Acted N D calls (N.initial calls t) i
      (fun R => φ (call (calls i)) (view R.shared) (inner (calls i) (R.pcs i))) Q := by
  refine hrun.acted (p := fun k l => p (call k) (inner k l))
    (φ := fun k t l => φ (call k) (view t) (inner k l)) (h.not_start h0) ?_ i hi
  intro c k t l t' l' hs hp
  rcases h.step hs with ⟨-, hinner⟩ | ⟨c', hM⟩
  · exact .inl (hinner ▸ hp)
  · exact hstep hM hp

end Interleave
