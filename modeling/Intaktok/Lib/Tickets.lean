import Intaktok.Lib.Interleave
import Mathlib.Data.List.Nodup
/-
# Tickets

A process takes a ticket that nobody has had before, holds it as it goes on, and at last spends it
or lets it go. Whatever the order of their actions, the processes spend no ticket twice
(`Tickets.spent_once`), for nobody holds one that another holds or has spent.
-/

namespace Interleave

variable {σ κ π χ ε ι τ : Type} [DecidableEq ι] {M : Machine σ κ π χ ε} {D : Discipline σ κ π}
  {calls : ι → κ} {P Q : Pool σ π ι}

structure Tickets (σ κ π τ : Type) where
  held : κ → π → Option τ
  taken : σ → τ → Prop
  spent : σ → List τ

namespace Tickets

variable (T : Tickets σ κ π τ)

/-- What an action does to the tickets. -/
inductive Moves (k : κ) (s : σ) (l : π) (s' : σ) (l' : π) : Prop
  | holds : T.held k l' = none ∨ T.held k l' = T.held k l → T.spent s' = T.spent s →
      Moves k s l s' l'
  | takes {t} : ¬ T.taken s t → T.taken s' t → T.held k l' = some t → T.spent s' = T.spent s →
      Moves k s l s' l'
  | spends {t} : T.held k l = some t → T.held k l' = none → T.spent s' = T.spent s ++ [t] →
      Moves k s l s' l'

/-- Tickets are spent once; who holds one has it to himself. -/
def outline : Outline σ κ π where
  glob s := (T.spent s).Nodup ∧ ∀ t ∈ T.spent s, T.taken s t
  own k s l := ∀ t, T.held k l = some t → T.taken s t ∧ t ∉ T.spent s
  apart k l k₂ l₂ := ∀ t, T.held k l = some t → T.held k₂ l₂ ≠ some t

/-- The machine keeps to the tickets. -/
structure Kept (M : Machine σ κ π χ ε) : Prop where
  moves : ∀ {c k s l s' l'}, M.step c k s l = some (s', l') → T.Moves k s l s' l'
  taken : ∀ {c k s l s' l'}, M.step c k s l = some (s', l') → ∀ t, T.taken s t → T.taken s' t
  env : ∀ e s, T.spent (M.env e s) = T.spent s ∧ ∀ t, T.taken s t → T.taken (M.env e s) t

variable {T}

theorem Kept.valid (hT : T.Kept M) : T.outline.Valid M D Outline.top where
  move {c k s l s' l'} a := by
    have hmono := hT.taken a.step
    obtain ⟨hnodup, htaken⟩ := a.glob
    cases hT.moves a.step with
    | holds hheld hspent =>
      refine ⟨⟨hspent ▸ hnodup, fun t ht => hmono t (htaken t (hspent ▸ ht))⟩, fun t ht => ?_⟩
      rcases hheld with hno | hsame
      · rw [hno] at ht
        cases ht
      · obtain ⟨htk, hun⟩ := a.own t (hsame ▸ ht)
        exact ⟨hmono t htk, hspent ▸ hun⟩
    | @takes t₀ hnew hold hheld hspent =>
      refine ⟨⟨hspent ▸ hnodup, fun t ht => hmono t (htaken t (hspent ▸ ht))⟩, fun t ht => ?_⟩
      obtain rfl : t₀ = t := Option.some.inj (hheld.symm.trans ht)
      exact ⟨hold, fun hin => hnew (htaken t₀ (hspent ▸ hin))⟩
    | @spends t₀ hheld hno hspent =>
      obtain ⟨htk, hun⟩ := a.own t₀ hheld
      refine ⟨⟨?_, fun t ht => ?_⟩, fun t ht => ?_⟩
      · rw [hspent]
        exact List.Nodup.append hnodup (List.nodup_singleton _) (by simpa using hun)
      · rw [hspent] at ht
        rcases List.mem_append.1 ht with ht | ht
        · exact hmono t (htaken t ht)
        · exact List.mem_singleton.1 ht ▸ hmono t₀ htk
      · rw [hno] at ht
        cases ht
  keep {c k s l s' l' k₂ l₂} a b := by
    have hmono := hT.taken a.step
    cases hT.moves a.step with
    | holds hheld hspent =>
      refine ⟨fun t ht => ⟨hmono t (b.own t ht).1, hspent ▸ (b.own t ht).2⟩, fun t ht => ?_⟩
      rcases hheld with hno | hsame
      · rw [hno] at ht
        cases ht
      · exact b.apart t (hsame ▸ ht)
    | @takes t₀ hnew hold hheld hspent =>
      refine ⟨fun t ht => ⟨hmono t (b.own t ht).1, hspent ▸ (b.own t ht).2⟩, fun t ht hother => ?_⟩
      obtain rfl : t₀ = t := Option.some.inj (hheld.symm.trans ht)
      exact hnew (b.own t₀ hother).1
    | @spends t₀ hheld hno hspent =>
      refine ⟨fun t ht => ⟨hmono t (b.own t ht).1, fun hin => ?_⟩, fun t ht => ?_⟩
      · rw [hspent] at hin
        rcases List.mem_append.1 hin with hin | hin
        · exact (b.own t ht).2 hin
        · obtain rfl := List.mem_singleton.1 hin
          exact b.apart t hheld ht
      · rw [hno] at ht
        cases ht
  symm h t ht hother := h t hother ht
  env e {s} hg := by
    obtain ⟨hspent, hmono⟩ := hT.env e s
    refine ⟨⟨hspent ▸ hg.1, fun t ht => hmono t (hg.2 t (hspent ▸ ht))⟩, fun ho t ht => ?_⟩
    exact ⟨hmono t (ho t ht).1, hspent ▸ (ho t ht).2⟩

/-- **No ticket is spent twice**, and none that has not been taken. -/
theorem Kept.spent_once (hT : T.Kept M) (h : Run M D calls P Q)
    (h0 : ∀ i, T.held (calls i) (P.pcs i) = none) (hnodup : (T.spent P.shared).Nodup)
    (htaken : ∀ t ∈ T.spent P.shared, T.taken P.shared t) :
    (T.spent Q.shared).Nodup ∧ ∀ t ∈ T.spent Q.shared, T.taken Q.shared t := by
  have hnone : ∀ i t, T.held (calls i) (P.pcs i) ≠ some t := fun i t ht => by
    rw [h0 i] at ht
    cases ht
  have hP : T.outline.Holds calls P := ⟨⟨hnodup, htaken⟩, fun i t ht => absurd ht (hnone i t),
    fun i _ _ t ht => absurd ht (hnone i t)⟩
  exact (hT.valid.run (fun _ => Outline.top_holds calls _) hP h).glob

end Tickets

end Interleave
