import Mathlib.Data.List.Forall2
/-
# Lists that only grow

A list `Grown` out of another has new entries at its end, all with `G`, and every old entry where
it was, as `R` lets an entry change. With a preorder for `R` this is one, too.
-/

namespace Growth

variable {α : Type} {R : α → α → Prop} {G : α → Prop} {xs ys zs : List α}

def Grown (R : α → α → Prop) (G : α → Prop) (xs ys : List α) : Prop :=
  ∃ kept new, ys = kept ++ new ∧ List.Forall₂ R xs kept ∧ ∀ x ∈ new, G x

theorem Grown.refl (hrefl : ∀ x, R x x) (xs : List α) : Grown R G xs xs :=
  ⟨xs, [], by simp, List.forall₂_same.2 fun x _ => hrefl x, by simp⟩

theorem Grown.append (hrefl : ∀ x, R x x) (xs : List α) {new : List α} (hnew : ∀ x ∈ new, G x) :
    Grown R G xs (xs ++ new) := ⟨xs, new, rfl, List.forall₂_same.2 fun x _ => hrefl x, hnew⟩

/-- Entries change in place. -/
theorem Grown.map {f : α → α} (hf : ∀ x ∈ xs, R x (f x)) : Grown R G xs (xs.map f) := by
  refine ⟨xs.map f, [], by simp, ?_, by simp⟩
  rw [List.forall₂_map_right_iff]
  exact List.forall₂_same.2 hf

theorem forall₂_trans (htrans : ∀ x y z, R x y → R y z → R x z) :
    ∀ {xs ys zs : List α}, List.Forall₂ R xs ys → List.Forall₂ R ys zs → List.Forall₂ R xs zs
  | _, _, _, .nil, .nil => .nil
  | _, _, _, .cons h hs, .cons h' hs' => .cons (htrans _ _ _ h h') (forall₂_trans htrans hs hs')

theorem forall₂_there :
    ∀ {xs ys : List α}, List.Forall₂ R xs ys → ∀ x ∈ xs, ∃ y ∈ ys, R x y
  | _, _, .nil, _, hx => nomatch hx
  | _, _, .cons h hs, x, hx => by
    rcases List.mem_cons.1 hx with rfl | hx
    · exact ⟨_, List.mem_cons_self, h⟩
    · obtain ⟨y, hy, hR⟩ := forall₂_there hs x hx
      exact ⟨y, List.mem_cons_of_mem _ hy, hR⟩

theorem forall₂_origin {xs ys : List α} (h : List.Forall₂ R xs ys) {y : α} (hy : y ∈ ys) :
    ∃ x ∈ xs, R x y := by
  have hflip : List.Forall₂ (flip R) ys xs := .flip h
  exact forall₂_there hflip y hy

theorem Grown.trans (htrans : ∀ x y z, R x y → R y z → R x z)
    (hG : ∀ x y, G x → R x y → G y) (h : Grown R G xs ys) (h' : Grown R G ys zs) :
    Grown R G xs zs := by
  obtain ⟨kept, new, rfl, hkept, hnew⟩ := h
  obtain ⟨kept', new', rfl, hkept', hnew'⟩ := h'
  -- the second growth finds what the first has kept before what it has added
  have hks := List.forall₂_take kept.length hkept'
  have hns := List.forall₂_drop kept.length hkept'
  rw [List.take_left] at hks
  rw [List.drop_left] at hns
  refine ⟨kept'.take kept.length, kept'.drop kept.length ++ new', ?_,
    forall₂_trans htrans hkept hks, fun y hy => ?_⟩
  · rw [← List.append_assoc, List.take_append_drop]
  rcases List.mem_append.1 hy with hy | hy
  · obtain ⟨x, hx, hR⟩ := forall₂_origin hns hy
    exact hG x y (hnew x hx) hR
  · exact hnew' y hy

/-- An old entry is there still. -/
theorem Grown.there (h : Grown R G xs ys) {x : α} (hx : x ∈ xs) : ∃ y ∈ ys, R x y := by
  obtain ⟨kept, new, rfl, hkept, -⟩ := h
  obtain ⟨y, hy, hR⟩ := forall₂_there hkept x hx
  exact ⟨y, List.mem_append_left _ hy, hR⟩

/-- An entry is an old one or a new one. -/
theorem Grown.origin (h : Grown R G xs ys) {y : α} (hy : y ∈ ys) : (∃ x ∈ xs, R x y) ∨ G y := by
  obtain ⟨kept, new, rfl, hkept, hnew⟩ := h
  rcases List.mem_append.1 hy with hy | hy
  · obtain ⟨x, hx, hR⟩ := forall₂_origin hkept hy
    exact .inl ⟨x, hx, hR⟩
  · exact .inr (hnew y hy)

end Growth
