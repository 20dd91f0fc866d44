import Mathlib.Logic.Function.Basic
import Mathlib.Logic.ExistsUnique
/-
# Who leads a crew

A crew assigns to every person what is known of him while he is on board, and `none` when he is
not; `lead` tells from that whether he is in charge. A crew is governed if somebody is in charge as
soon as anybody is on board, and never two. What one change of one person does to this is the
subject of the lemmas: a follower may come, go and be changed, a leader only be replaced, by
another on board or after he has left. A crew that is manned and leaderless is orphaned; nobody but
its leader can orphan it by leaving.
-/

namespace Leadership

variable {α ρ : Type} {lead : ρ → Prop} {f : α → Option ρ} {u v : α} {x : Option ρ}

def Leads (lead : ρ → Prop) (f : α → Option ρ) (u : α) : Prop := ∃ a, f u = some a ∧ lead a

def AtMostOne (lead : ρ → Prop) (f : α → Option ρ) : Prop :=
  ∀ u v, Leads lead f u → Leads lead f v → u = v

def Manned (f : α → Option ρ) : Prop := ∃ u a, f u = some a

def Led (lead : ρ → Prop) (f : α → Option ρ) : Prop := ∃ u, Leads lead f u

def Orphaned (lead : ρ → Prop) (f : α → Option ρ) : Prop := Manned f ∧ ¬ Led lead f

def Governed (lead : ρ → Prop) (f : α → Option ρ) : Prop := AtMostOne lead f ∧ ¬ Orphaned lead f

theorem Leads.manned (h : Leads lead f u) : Manned f := let ⟨a, ha, _⟩ := h; ⟨u, a, ha⟩

theorem governed_iff : Governed lead f ↔ (Manned f → ∃! u, Leads lead f u) := by
  constructor
  · rintro ⟨hone, hnot⟩ hm
    obtain ⟨u, hu⟩ : Led lead f := by
      by_contra hl
      exact hnot ⟨hm, hl⟩
    exact ⟨u, hu, fun v hv => hone v u hv hu⟩
  · intro h
    exact ⟨fun u v hu hv => (h hu.manned).unique hu hv, fun ⟨hm, hl⟩ => hl (h hm).exists⟩

theorem governed_of_led (h : AtMostOne lead f) (hl : Led lead f) : Governed lead f :=
  ⟨h, fun ho => ho.2 hl⟩

theorem governed_of_unmanned (h : ∀ u, f u = none) : Governed lead f :=
  ⟨(fun u _ ⟨_, ha, _⟩ => nomatch (h u).symm.trans ha),
    fun ⟨⟨u, _, ha⟩, _⟩ => nomatch (h u).symm.trans ha⟩

/-- Those who come on board do not lead. -/
theorem leads_join {g : α → Option ρ} (stays : ∀ u a, f u = some a → g u = some a)
    (comes : ∀ u a, g u = some a → f u = none → ¬ lead a) : Leads lead g u ↔ Leads lead f u := by
  constructor
  · rintro ⟨a, ha, hl⟩
    cases hf : f u with
    | none => exact absurd hl (comes u a ha hf)
    | some b =>
      have hb := stays u b hf
      rw [ha] at hb
      cases hb
      exact ⟨a, hf, hl⟩
  · exact fun ⟨a, ha, hl⟩ => ⟨a, stays u a ha, hl⟩

theorem Governed.join {g : α → Option ρ} (h : Governed lead f) (hm : Manned f)
    (stays : ∀ u a, f u = some a → g u = some a)
    (comes : ∀ u a, g u = some a → f u = none → ¬ lead a) : Governed lead g := by
  refine ⟨fun u v hu hv => h.1 u v ?_ ?_, fun ho => h.2 ⟨hm, fun ⟨u, hu⟩ => ho.2 ⟨u, ?_⟩⟩⟩
  · exact (leads_join stays comes).1 hu
  · exact (leads_join stays comes).1 hv
  · exact (leads_join stays comes).2 hu

section Update
variable [DecidableEq α]

theorem leads_update_self : Leads lead (Function.update f u x) u ↔ ∃ a, x = some a ∧ lead a := by
  simp [Leads]

theorem leads_update_ne (h : v ≠ u) : Leads lead (Function.update f u x) v ↔ Leads lead f v := by
  simp [Leads, Function.update_of_ne h]

/-- Nobody is put in charge. -/
theorem AtMostOne.update (h : AtMostOne lead f) (hx : ∀ a, x = some a → ¬ lead a) :
    AtMostOne lead (Function.update f u x) := by
  have old : ∀ v, Leads lead (Function.update f u x) v → Leads lead f v := by
    intro v hv
    by_cases hvu : v = u
    · subst hvu
      obtain ⟨a, ha, hl⟩ := leads_update_self.1 hv
      exact absurd hl (hx a ha)
    · exact (leads_update_ne hvu).1 hv
  exact fun v w hv hw => h v w (old v hv) (old w hw)

/-- The one put in charge replaces whoever was. -/
theorem atMostOne_update (h : ∀ v, Leads lead f v → v = u) :
    AtMostOne lead (Function.update f u x) := by
  have only : ∀ v, Leads lead (Function.update f u x) v → v = u := by
    intro v hv
    by_contra hvu
    exact hvu (h v ((leads_update_ne hvu).1 hv))
  exact fun v w hv hw => (only v hv).trans (only w hw).symm

/-- A crew is not orphaned by what becomes of a follower. -/
theorem orphaned_of_update (hu : ¬ Leads lead f u) (hm : x ≠ none → Manned f)
    (h : Orphaned lead (Function.update f u x)) : Orphaned lead f := by
  refine ⟨?_, fun ⟨v, hv⟩ => ?_⟩
  · cases x with
    | some a => exact hm (by simp)
    | none =>
      obtain ⟨v, a, hv⟩ := h.1
      by_cases hvu : v = u
      · subst hvu; simp at hv
      · exact ⟨v, a, by rwa [Function.update_of_ne hvu] at hv⟩
  · have hvu : v ≠ u := by rintro rfl; exact hu hv
    exact h.2 ⟨v, (leads_update_ne hvu).2 hv⟩

theorem Governed.update (h : Governed lead f) (hu : ¬ Leads lead f u)
    (hx : ∀ a, x = some a → ¬ lead a) (hm : x ≠ none → Manned f) :
    Governed lead (Function.update f u x) :=
  ⟨h.1.update hx, fun ho => h.2 (orphaned_of_update hu hm ho)⟩

/-- The leader steps back for another on board. -/
theorem AtMostOne.transfer {a b : ρ} (h : AtMostOne lead f) (hv : Leads lead f v) (hne : u ≠ v)
    (hb : ¬ lead b) :
    AtMostOne lead (Function.update (Function.update f u (some a)) v (some b)) := by
  rw [Function.update_comm hne]
  refine atMostOne_update fun t ht => ?_
  by_contra htu
  by_cases htv : t = v
  · subst htv
    obtain ⟨x, hx, hl⟩ := leads_update_self.1 ht
    cases hx
    exact hb hl
  · exact htv (h t v ((leads_update_ne htv).1 ht) hv)

theorem Governed.transfer {a b : ρ} (h : Governed lead f) (hv : Leads lead f v) (hne : u ≠ v)
    (ha : lead a) (hb : ¬ lead b) :
    Governed lead (Function.update (Function.update f u (some a)) v (some b)) :=
  governed_of_led (h.1.transfer hv hne hb)
    ⟨u, (leads_update_ne hne).2 (leads_update_self.2 ⟨a, rfl, ha⟩)⟩

/-- Nobody leads once the leader has left. -/
theorem AtMostOne.not_led (h : AtMostOne lead f) (hu : Leads lead f u) :
    ¬ Led lead (Function.update f u none) := by
  rintro ⟨v, hv⟩
  by_cases hvu : v = u
  · subst hvu
    obtain ⟨a, ha, -⟩ := leads_update_self.1 hv
    cases ha
  · exact hvu (h v u ((leads_update_ne hvu).1 hv) hu)

theorem governed_of_succession {a : ρ} (h : ¬ Led lead f) (ha : lead a) :
    Governed lead (Function.update f u (some a)) :=
  governed_of_led (atMostOne_update fun v hv => absurd ⟨v, hv⟩ h)
    ⟨u, leads_update_self.2 ⟨a, rfl, ha⟩⟩

end Update

end Leadership
