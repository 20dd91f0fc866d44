import Intaktok.Lib.Interleave
/-
# One process inside another

A process of `N` hosts a process of `M` where its local states are those of the other one wrapped
up, and its actions those of the other one on a part of its state. Alone, the two then run alike
(`Hosts.inner`, `Hosts.outer`).

`Machine.still` is a machine in which nothing happens by itself.
-/

namespace Interleave

variable {σ κ π χ ε : Type} {M : Machine σ κ π χ ε} {k : κ} {s s' : σ} {l l' : π}

def Machine.still (M : Machine σ κ π χ ε) : Machine σ κ π χ Empty where
  start := M.start
  step := M.step
  env e := e.elim

theorem Solo.of_still (h : Solo M.still k s l s' l') : Solo M k s l s' l' := by
  induction h with
  | refl => exact .refl
  | step _ hs ih => exact ih.step hs
  | env e _ _ => exact e.elim

/-- A lone process has done nothing yet, or has done its first action. -/
theorem Solo.uncons (h : Solo M.still k s l s' l') : s' = s ∧ l' = l ∨
    ∃ c s₁ l₁, M.step c k s l = some (s₁, l₁) ∧ Solo M.still k s₁ l₁ s' l' := by
  induction h with
  | refl => exact .inl ⟨rfl, rfl⟩
  | step _ hs ih =>
    rcases ih with ⟨rfl, rfl⟩ | ⟨c, s₁, l₁, h₁, hrest⟩
    · exact .inr ⟨_, _, _, hs, .refl⟩
    · exact .inr ⟨c, s₁, l₁, h₁, hrest.step hs⟩
  | env e _ _ => exact e.elim

variable {τ κ' π' ε' : Type} {N : Machine τ κ' π' χ ε'} {k' : κ'} {t t' : τ}

/-- The process `k'` of `N` does at `wrap l` what the process `k` of `M` does at `l`, on the part
`view` of its state; `I` is what may be relied on. -/
structure Hosts (N : Machine τ κ' π' χ ε') (k' : κ') (M : Machine σ κ π χ ε) (k : κ)
    (view : τ → σ) (wrap : π → π') (I : π → Prop) : Prop where
  start : I (M.start k)
  keep : ∀ {c s s' l l₁}, I l → M.step c k s l = some (s', l₁) → I l₁
  does : ∀ {c t t' l x}, I l → N.step c k' t (wrap l) = some (t', x) →
    ∃ l₁, x = wrap l₁ ∧ M.step c k (view t) l = some (view t', l₁)
  can : ∀ {c t s' l l₁}, I l → M.step c k (view t) l = some (s', l₁) →
    ∃ t', N.step c k' t (wrap l) = some (t', wrap l₁) ∧ view t' = s'

variable {view : τ → σ} {wrap : π → π'} {I : π → Prop}

theorem Hosts.inner (h : Hosts N k' M k view wrap I) {x : π'}
    (hrun : Solo N.still k' t (wrap (M.start k)) t' x) :
    ∃ l, x = wrap l ∧ I l ∧ Solo M.still k (view t) (M.start k) (view t') l := by
  induction hrun with
  | refl => exact ⟨_, rfl, h.start, .refl⟩
  | step _ hs ih =>
    obtain ⟨l, rfl, hl, hrun⟩ := ih
    obtain ⟨l₁, rfl, hM⟩ := h.does hl hs
    exact ⟨l₁, rfl, h.keep hl hM, hrun.step hM⟩
  | env e _ _ => exact e.elim

theorem Hosts.outer (h : Hosts N k' M k view wrap I)
    (hrun : Solo M.still k (view t) (M.start k) s' l') :
    I l' ∧ ∃ t', Solo N.still k' t (wrap (M.start k)) t' (wrap l') ∧ view t' = s' := by
  induction hrun with
  | refl => exact ⟨h.start, t, .refl, rfl⟩
  | step _ hs ih =>
    obtain ⟨hl, t₁, hrun, rfl⟩ := ih
    obtain ⟨t', hN, hview⟩ := h.can hl hs
    exact ⟨h.keep hl hs, t', hrun.step hN, hview⟩
  | env e _ _ => exact e.elim

end Interleave
