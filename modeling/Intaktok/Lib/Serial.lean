import Intaktok.Lib.Interleave
/-
# Calls one after another

A `Serial` run serves calls that do not overlap: each starts once the one before it has ended, and
between them only the environment acts. `may` restricts in which states which calls come. What
every complete call keeps holds after any number of them (`Serial.invariant`), and for one call
that is a matter of its own process alone (`Solo.invariant`).

`Serving` is a serial run with a call under way; `Serving.invariant` takes what holds between calls
and what holds within one. `Machine.between` keeps the environment still while a call runs.

`Machine.serve` plays a fixed sequence of calls, for concrete runs.
-/

namespace Interleave

variable {σ κ π χ ε : Type}

inductive Serial (M : Machine σ κ π χ ε) (ended : π → Prop) (may : κ → σ → Prop) (s : σ) :
    σ → Prop
  | refl : Serial M ended may s s
  | call {k : κ} {s₁ s₂ : σ} {l : π} : Serial M ended may s s₁ → may k s₁ →
      Solo M k s₁ (M.start k) s₂ l → ended l → Serial M ended may s s₂
  | env {s₁ : σ} (e : ε) : Serial M ended may s s₁ → Serial M ended may s (M.env e s₁)

variable {M : Machine σ κ π χ ε} {ended : π → Prop} {may : κ → σ → Prop} {s s' s'' : σ}

theorem Serial.trans (h₁ : Serial M ended may s s') (h₂ : Serial M ended may s' s'') :
    Serial M ended may s s'' := by
  induction h₂ with
  | refl => exact h₁
  | call _ hm hsolo he ih => exact ih.call hm hsolo he
  | env e _ ih => exact ih.env e

theorem Serial.invariant (I : σ → Prop) (h : Serial M ended may s s') (h0 : I s)
    (hcall : ∀ {k s₁ s₂ l}, I s₁ → may k s₁ → Solo M k s₁ (M.start k) s₂ l → ended l → I s₂)
    (henv : ∀ e {s₁}, I s₁ → I (M.env e s₁)) : I s' := by
  induction h with
  | refl => exact h0
  | call _ hm hsolo he ih => exact hcall ih hm hsolo he
  | env e _ ih => exact henv e ih

/-- A serial run has come to the call `k`, which is at `l`. -/
def Serving (M : Machine σ κ π χ ε) (ended : π → Prop) (may : κ → σ → Prop) (s₀ : σ) (k : κ) (s : σ)
    (l : π) : Prop :=
  ∃ s₁, Serial M ended may s₀ s₁ ∧ may k s₁ ∧ Solo M k s₁ (M.start k) s l

/-- `I` holds between calls, `J` within them. -/
theorem Serving.invariant {k : κ} {l : π} (I : σ → Prop) (J : κ → σ → π → Prop)
    (h : Serving M ended may s k s' l) (h0 : I s)
    (hstart : ∀ {k s}, I s → may k s → J k s (M.start k))
    (hstep : ∀ {c k s l s' l'}, J k s l → M.step c k s l = some (s', l') → J k s' l')
    (hend : ∀ {k s l}, J k s l → ended l → I s)
    (henv : ∀ e {s}, I s → I (M.env e s))
    (henvIn : ∀ e {k s l}, J k s l → J k (M.env e s) l) : J k s' l := by
  have hsolo : ∀ {k s s' l}, I s → may k s → Solo M k s (M.start k) s' l → J k s' l :=
    fun {k _ _ _} hI hm h => h.invariant (J k) (hstart hI hm) hstep fun e _ _ hJ => henvIn e hJ
  obtain ⟨s₁, hserial, hm, hcall⟩ := h
  have hI := hserial.invariant I h0 (fun hI hm h he => hend (hsolo hI hm h) he) henv
  exact hsolo hI hm hcall

/-! ## A still environment -/

/-- The machine whose environment acts by calls of its own. -/
def Machine.between (M : Machine σ κ π χ ε) : Machine σ (κ ⊕ ε) (π ⊕ Bool) χ Empty where
  start := Sum.map M.start fun _ => false
  step c
    | .inl k, s, .inl l => (M.step c k s l).map fun r => (r.1, .inl r.2)
    | .inr e, s, .inr false => some (M.env e s, .inr true)
    | _, _, _ => none
  env e := e.elim

theorem Machine.between_step {c : χ} {k : κ ⊕ ε} {l l' : π ⊕ Bool}
    (h : M.between.step c k s l = some (s', l')) :
    (∃ k₁ l₁ l₁', k = .inl k₁ ∧ l = .inl l₁ ∧ l' = .inl l₁' ∧ M.step c k₁ s l₁ = some (s', l₁')) ∨
    ∃ e, k = .inr e ∧ l' = .inr true ∧ s' = M.env e s := by
  rcases k with k₁ | e
  · rcases l with l₁ | b
    · obtain ⟨⟨s₁, l₁'⟩, hs, he⟩ := Option.map_eq_some_iff.1 h
      cases he
      exact .inl ⟨k₁, l₁, l₁', rfl, rfl, rfl, hs⟩
    · cases h
  · rcases l with l₁ | b
    · cases h
    · cases b with
      | false => cases h; exact .inr ⟨e, rfl, rfl, rfl⟩
      | true => cases h

/-! ## Schedules -/

/-- Play calls one after another, each with its schedule; `none` if one of them is not possible,
not allowed or not at its end. -/
def Machine.serve (M : Machine σ κ π χ ε) (ended : π → Bool) (may : κ → σ → Bool) :
    σ → List (κ × List (Move Unit χ ε)) → Option σ
  | s, [] => some s
  | s, (k, ms) :: rest =>
    if may k s then
      match M.exec always (fun _ => k) (M.initial (fun _ => k) s) ms with
      | some P => if ended (P.pcs ()) then M.serve ended may P.shared rest else none
      | none => none
    else none

theorem Machine.serve_serial {endedB : π → Bool} {mayB : κ → σ → Bool}
    (hended : ∀ {l}, endedB l = true → ended l) (hmay : ∀ {k s}, mayB k s = true → may k s)
    {calls : List (κ × List (Move Unit χ ε))} (h : M.serve endedB mayB s calls = some s') :
    Serial M ended may s s' := by
  induction calls generalizing s with
  | nil => simp only [serve, Option.some.injEq] at h; subst h; exact .refl
  | cons call rest ih =>
    obtain ⟨k, ms⟩ := call
    simp only [serve] at h
    split at h
    · rename_i hm
      split at h
      · rename_i P hP
        split at h
        · rename_i he
          have hrun := exec_run (D := Discipline.free)
            (fun {P i} _ => Discipline.free_allows _ P i) hP
          exact (Serial.refl.call (hmay hm) hrun.solo (hended he)).trans (ih h)
        · cases h
      · cases h
    · cases h

/-- What a sequence of calls ends in is reached by a serial run. -/
theorem Machine.serve_reaches (ended : π → Prop) (may : κ → σ → Prop) {endedB : π → Bool}
    {mayB : κ → σ → Bool}
    (hended : ∀ {l}, endedB l = true → ended l) (hmay : ∀ {k s}, mayB k s = true → may k s)
    {calls : List (κ × List (Move Unit χ ε))} {p : σ → Bool}
    (h : (M.serve endedB mayB s calls).any p = true) :
    ∃ s', Serial M ended may s s' ∧ p s' = true := by
  obtain ⟨s', hs, hp⟩ := (Option.any_eq_true _ _).1 h
  exact ⟨s', serve_serial hended hmay hs, hp⟩

/-- What a call ends in that comes after a sequence of calls is reached by a serial run. -/
theorem Machine.serving_reaches (ended : π → Prop) (may : κ → σ → Prop) {endedB : π → Bool}
    {mayB : κ → σ → Bool}
    (hended : ∀ {l}, endedB l = true → ended l) (hmay : ∀ {k s}, mayB k s = true → may k s)
    {calls : List (κ × List (Move Unit χ ε))} {k : κ} {ms : List (Move Unit χ ε)}
    {p : Pool σ π Unit → Bool}
    (h : (M.serve endedB mayB s calls).any (fun s₁ => mayB k s₁ &&
      (M.exec always (fun _ => k) (M.initial (fun _ => k) s₁) ms).any p) = true) :
    ∃ P : Pool σ π Unit, Serving M ended may s k P.shared (P.pcs ()) ∧ p P = true := by
  obtain ⟨s₁, hserial, hs₁⟩ := serve_reaches ended may hended hmay h
  obtain ⟨hm, hexec⟩ := Bool.and_eq_true_iff.1 hs₁
  obtain ⟨P, hrun, hP⟩ := exec_reaches_free hexec
  exact ⟨P, ⟨s₁, hserial, hmay hm, hrun.solo⟩, hP⟩

end Interleave
