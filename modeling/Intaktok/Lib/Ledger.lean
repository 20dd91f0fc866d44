import Mathlib.Data.List.Basic
/-
# A ledger of tokens

What became of tokens, in the order in which it became of them: each is issued to an owner, and
ends when it is redeemed or withdrawn, or when everything its owner holds is revoked. A token is
outstanding if it has been issued and nothing has ended it since; one more event changes that in
one of four ways (`outstanding_append` and the lemmas below it).
-/

namespace Ledger

variable {τ ω : Type}

inductive Event (τ ω : Type) where
  | issued (t : τ)
  | redeemed (t : τ)
  | withdrawn (t : τ)
  | revoked (owner : ω)
deriving DecidableEq, Repr

/-- The event ends the token. -/
def Event.ends (owner : τ → ω) (t : τ) : Event τ ω → Prop
  | .issued _ => False
  | .redeemed s | .withdrawn s => s = t
  | .revoked o => o = owner t

def Outstanding (owner : τ → ω) (log : List (Event τ ω)) (t : τ) : Prop :=
  ∃ before after, log = before ++ .issued t :: after ∧ ∀ e ∈ after, ¬ e.ends owner t

variable {owner : τ → ω} {log : List (Event τ ω)} {s t : τ} {o : ω}

theorem Outstanding.issued (h : Outstanding owner log t) : .issued t ∈ log := by
  obtain ⟨before, after, rfl, -⟩ := h
  simp

theorem not_outstanding_nil : ¬ Outstanding owner [] t := by
  rintro ⟨before, after, h, -⟩
  simp at h

theorem outstanding_append {e : Event τ ω} : Outstanding owner (log ++ [e]) t ↔
    e = .issued t ∨ Outstanding owner log t ∧ ¬ e.ends owner t := by
  constructor
  · rintro ⟨before, after, h, hends⟩
    rcases List.eq_nil_or_concat after with rfl | ⟨after', e', rfl⟩
    · exact .inl (by simpa using congrArg List.getLast? h)
    · rw [List.concat_eq_append, ← List.cons_append, ← List.append_assoc] at h
      obtain ⟨rfl, he⟩ := List.append_inj' h rfl
      cases he
      exact .inr ⟨⟨before, after', rfl, fun x hx => hends x (by simp [hx])⟩, hends e (by simp)⟩
  · rintro (rfl | ⟨⟨before, after, rfl, hends⟩, he⟩)
    · exact ⟨log, [], rfl, by simp⟩
    · refine ⟨before, after ++ [e], by simp, fun x hx => ?_⟩
      rcases List.mem_append.1 hx with hx | hx
      · exact hends x hx
      · rw [List.mem_singleton.1 hx]; exact he

theorem outstanding_issued :
    Outstanding owner (log ++ [.issued s]) t ↔ s = t ∨ Outstanding owner log t := by
  simp [outstanding_append, Event.ends]

theorem outstanding_redeemed :
    Outstanding owner (log ++ [.redeemed s]) t ↔ Outstanding owner log t ∧ s ≠ t := by
  simp [outstanding_append, Event.ends]

theorem outstanding_withdrawn :
    Outstanding owner (log ++ [.withdrawn s]) t ↔ Outstanding owner log t ∧ s ≠ t := by
  simp [outstanding_append, Event.ends]

theorem outstanding_revoked :
    Outstanding owner (log ++ [.revoked o]) t ↔ Outstanding owner log t ∧ o ≠ owner t := by
  simp [outstanding_append, Event.ends]

end Ledger
