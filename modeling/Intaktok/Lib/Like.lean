import Mathlib.Data.List.Infix
import Mathlib.Tactic.Common
/-
# Patterns of `LIKE`

In a pattern `%` stands for any text, `_` for any one character, and `\` takes the meaning from the
character after it. Between two `%` a text without these three is looked for as it stands
(`like_between`). A text with one of them is not: between two `%` it matches a text that does not
contain it (`Keeps.exists_like`), which has fewer of the three.
-/

namespace Like

inductive Token where
  | lit (c : Char)
  | one
  | many
deriving DecidableEq, Repr

/-- The tokens of a pattern, `escaped` saying whether a backslash has just been. One at the very end,
which is an error, stands for itself. -/
def tokens (escaped : Bool) : List Char → List Token
  | [] => if escaped then [.lit '\\'] else []
  | c :: cs =>
    if escaped then .lit c :: tokens false cs
    else if c = '\\' then tokens true cs
    else if c = '%' then .many :: tokens false cs
    else if c = '_' then .one :: tokens false cs
    else .lit c :: tokens false cs

@[simp] theorem tokens_many (cs : List Char) :
    tokens false ('%' :: cs) = .many :: tokens false cs := rfl

@[simp] theorem tokens_one (cs : List Char) :
    tokens false ('_' :: cs) = .one :: tokens false cs := rfl

@[simp] theorem tokens_escape (cs : List Char) : tokens false ('\\' :: cs) = tokens true cs := rfl

@[simp] theorem tokens_escaped (c : Char) (cs : List Char) :
    tokens true (c :: cs) = .lit c :: tokens false cs := rfl

def accepts : List Token → List Char → Bool
  | [], s => s.isEmpty
  | .lit c :: ts, d :: s => c == d && accepts ts s
  | .one :: ts, _ :: s => accepts ts s
  | .many :: ts, s => s.tails.any (accepts ts)
  | _ :: _, [] => false

/-- `s LIKE pattern`. -/
def like (s pattern : List Char) : Bool := accepts (tokens false pattern) s

def special (c : Char) : Bool := c == '%' || c == '_' || c == '\\'

/-! ## Without the three -/

theorem tokens_append {q : List Char} (h : q.any special = false) (cs : List Char) :
    tokens false (q ++ cs) = q.map .lit ++ tokens false cs := by
  induction q with
  | nil => rfl
  | cons c q ih =>
    simp only [List.any_cons, special, Bool.or_eq_false_iff, beq_eq_false_iff_ne] at h
    obtain ⟨⟨⟨hmany, hone⟩, hescape⟩, hq⟩ := h
    simp [tokens, hmany, hone, hescape, ih hq]

theorem accepts_lits {q s : List Char} {ts : List Token} :
    accepts (q.map .lit ++ ts) s = true ↔ ∃ t, s = q ++ t ∧ accepts ts t = true := by
  induction q generalizing s with
  | nil => simp
  | cons c q ih =>
    cases s with
    | nil => simp [accepts]
    | cons d s =>
      simp only [List.map_cons, List.cons_append, accepts, Bool.and_eq_true, beq_iff_eq, ih,
        List.cons.injEq]
      constructor
      · rintro ⟨rfl, t, rfl, ht⟩
        exact ⟨t, ⟨rfl, rfl⟩, ht⟩
      · rintro ⟨t, ⟨rfl, rfl⟩, ht⟩
        exact ⟨rfl, t, rfl, ht⟩

theorem accepts_many {s : List Char} {ts : List Token} :
    accepts (.many :: ts) s = true ↔ ∃ t, t <:+ s ∧ accepts ts t = true := by
  have hdef : accepts (.many :: ts) s = s.tails.any (accepts ts) := by cases s <;> rfl
  rw [hdef, List.any_eq_true]
  simp only [List.mem_tails]

theorem accepts_all (s : List Char) : accepts [.many] s = true :=
  accepts_many.2 ⟨[], List.nil_suffix, rfl⟩

/-- **As it stands.** -/
theorem like_between {q : List Char} (h : q.any special = false) (s : List Char) :
    like s ('%' :: (q ++ ['%'])) = true ↔ q <:+: s := by
  rw [like, tokens_many, tokens_append h, accepts_many]
  constructor
  · rintro ⟨t, ⟨before, rfl⟩, ht⟩
    obtain ⟨after, rfl, -⟩ := accepts_lits.1 ht
    exact ⟨before, after, by simp⟩
  · rintro ⟨before, after, rfl⟩
    exact ⟨q ++ after, ⟨before, by simp⟩, accepts_lits.2 ⟨after, rfl, accepts_all after⟩⟩

/-! ## With them -/

/-- A text a pattern accepts: with nothing for `%`, and one character for `_`. -/
def sample (a : Char) : List Token → List Char
  | [] => []
  | .lit c :: ts => c :: sample a ts
  | .one :: ts => a :: sample a ts
  | .many :: ts => sample a ts

theorem accepts_sample (a : Char) (ts : List Token) : accepts ts (sample a ts) = true := by
  induction ts with
  | nil => rfl
  | cons t ts ih =>
    cases t with
    | many => exact accepts_many.2 ⟨_, List.suffix_refl _, ih⟩
    | _ => simp [sample, accepts, ih]

def cost (c : Char) : Nat := if c = '\\' then 2 else if special c then 1 else 0

/-- How much of the three there is in a text; a backslash may leave another of them behind. -/
def weight : List Char → Nat
  | [] => 0
  | c :: s => cost c + weight s

theorem weight_append (s t : List Char) : weight (s ++ t) = weight s + weight t := by
  induction s with
  | nil => simp [weight]
  | cons c s ih => simp [weight, ih, Nat.add_assoc]

theorem weight_le {s t : List Char} (h : s <:+: t) : weight s ≤ weight t := by
  obtain ⟨before, after, rfl⟩ := h
  simp only [weight_append]
  omega

theorem cost_eq_zero {c : Char} : cost c = 0 ↔ special c = false := by
  unfold cost
  split
  · rename_i hc
    subst hc
    decide
  · cases special c <;> simp

/-- Each of the three in `q` is one that the sample does without, or makes another one. -/
theorem weight_sample {a : Char} (ha : special a = false) (q : List Char) :
    weight (sample a (tokens false (q ++ ['%']))) + (if q.any special then 1 else 0) ≤ weight q ∧
      weight (sample a (tokens true (q ++ ['%']))) ≤ weight q + 1 := by
  induction q with
  | nil => simp [tokens, sample, weight, cost, special]
  | cons c q ih =>
    obtain ⟨ih, ihe⟩ := ih
    refine ⟨?_, ?_⟩
    · by_cases hc : special c = true
      · have hany : (c :: q).any special = true := by simp [hc]
        rw [if_pos hany]
        simp only [special, Bool.or_eq_true, beq_iff_eq] at hc
        rcases hc with (rfl | rfl) | rfl
        · rw [List.cons_append, tokens_many, sample, weight, show cost '%' = 1 from rfl]
          omega
        · rw [List.cons_append, tokens_one, sample, weight, weight, cost_eq_zero.2 ha,
            show cost '_' = 1 from rfl]
          omega
        · rw [List.cons_append, tokens_escape, weight, show cost '\\' = 2 from rfl]
          omega
      · have hlit : tokens false (c :: (q ++ ['%'])) = .lit c :: tokens false (q ++ ['%']) := by
          simp only [special, Bool.or_eq_true, beq_iff_eq, not_or] at hc
          simp [tokens, hc]
        rw [List.cons_append, hlit, sample, weight, weight, List.any_cons,
          Bool.eq_false_iff.2 hc, Bool.false_or]
        omega
    · rw [List.cons_append, tokens_escaped, sample, weight, weight]
      omega

/-! ## Both sides in another alphabet -/

/-- `f` neither takes one of the three away nor makes one. -/
structure Keeps (f : Char → Char) : Prop where
  kept : ∀ c, special c = true → f c = c
  made : ∀ c, special (f c) = true → special c = true

namespace Keeps
variable {f : Char → Char}

theorem special_eq (h : Keeps f) (c : Char) : special (f c) = special c := by
  rw [Bool.eq_iff_iff]
  exact ⟨h.made c, fun hc => by rw [h.kept c hc]; exact hc⟩

theorem eq_iff (h : Keeps f) {c d : Char} (hd : special d = true) : f c = d ↔ c = d := by
  constructor
  · intro he
    have hc := h.made c (he ▸ hd)
    rwa [h.kept c hc] at he
  · rintro rfl
    exact h.kept c hd

theorem any_special (h : Keeps f) (q : List Char) : (q.map f).any special = q.any special := by
  rw [List.any_map]
  exact List.any_congr rfl h.special_eq

/-- The sample of a pattern in the other alphabet. -/
theorem sample_tokens (h : Keeps f) (a : Char) (escaped : Bool) (cs : List Char) :
    (sample a (tokens escaped cs)).map f = sample (f a) (tokens escaped (cs.map f)) := by
  have hescape : ∀ c, f c = '\\' ↔ c = '\\' := fun _ => h.eq_iff rfl
  have hmany : ∀ c, f c = '%' ↔ c = '%' := fun _ => h.eq_iff rfl
  have hone : ∀ c, f c = '_' ↔ c = '_' := fun _ => h.eq_iff rfl
  induction cs generalizing escaped with
  | nil => cases escaped <;> simp [tokens, sample, h.kept '\\' rfl]
  | cons c cs ih =>
    simp only [tokens, List.map_cons, hescape, hmany, hone]
    split
    · simp [sample, ih]
    · split
      · exact ih true
      · split
        · exact ih false
        · split <;> simp [sample, ih]

/-- **Not as it stands.** -/
theorem exists_like (h : Keeps f) {q : List Char} (hq : q.any special = true) :
    ∃ s : List Char, like (s.map f) ('%' :: (q.map f ++ ['%'])) = true ∧ ¬ q.map f <:+: s.map f := by
  have hsample := h.sample_tokens 'a' false (q ++ ['%'])
  rw [List.map_append, List.map_singleton, h.kept '%' rfl] at hsample
  refine ⟨sample 'a' (tokens false (q ++ ['%'])), ?_, fun hinfix => ?_⟩ <;> rw [hsample] at *
  · rw [like, tokens_many]
    exact accepts_many.2 ⟨_, List.suffix_refl _, accepts_sample ..⟩
  · have hless := (weight_sample (h.special_eq 'a') (q.map f)).1
    have hle := weight_le hinfix
    rw [if_pos ((h.any_special q).trans hq)] at hless
    omega

end Keeps

end Like
