import Mathlib.Data.List.Pairwise
/-
# Tables under unique constraints

A `Table` is a list of rows together with the proof that no two of them violate a unique
constraint, so a table with a duplicate key cannot be built. `Row` declares the constraints of a
row type in the order in which the database checks them; a constraint whose columns may be null
simply never clashes on them. `insert` either appends the row or names the first constraint it
violates; `updateWhere` rewrites rows in place and asks for the proof that the constrained
columns stay as they are; `deleteWhere` deletes rows.
-/

namespace Tables

class Row (R : Type) (C : outParam Type) where
  constraints : List C
  /-- The two rows violate the constraint together. -/
  clash : C → R → R → Bool
  clash_comm : ∀ c a b, clash c a b = clash c b a

variable {R C : Type} [Row R C]

def Compatible (a b : R) : Prop := ∀ c ∈ Row.constraints R, Row.clash c a b = false

theorem Compatible.symm {a b : R} (h : Compatible a b) : Compatible b a :=
  fun c hc => by rw [Row.clash_comm]; exact h c hc

instance : Std.Symm (Compatible (R := R)) := ⟨fun _ _ => Compatible.symm⟩

instance (a b : R) : Decidable (Compatible a b) :=
  inferInstanceAs (Decidable (∀ c ∈ Row.constraints R, Row.clash c a b = false))

structure Table (R : Type) {C : Type} [Row R C] where
  rows : List R
  ok : rows.Pairwise Compatible

namespace Table

def empty : Table R := ⟨[], List.Pairwise.nil⟩

instance : Inhabited (Table R) := ⟨empty⟩

/-! ## Reading -/

def find (t : Table R) (p : R → Bool) : Option R := t.rows.find? p

def findMany (t : Table R) (p : R → Bool) : List R := t.rows.filter p

/-- Two rows of a table that clash are the same row. -/
theorem unique (t : Table R) {a b : R} (ha : a ∈ t.rows) (hb : b ∈ t.rows) {c : C}
    (hc : c ∈ Row.constraints R) (h : Row.clash c a b = true) : a = b := by
  by_contra hne
  have hcomp : Compatible a b := t.ok.forall ha hb hne
  rw [hcomp c hc] at h
  cases h

theorem find_some {t : Table R} {p : R → Bool} {r : R} (h : t.find p = some r) :
    r ∈ t.rows ∧ p r = true :=
  ⟨List.mem_of_find?_eq_some h, List.find?_some h⟩

theorem find_none {t : Table R} {p : R → Bool} :
    t.find p = none ↔ ∀ r ∈ t.rows, p r = false := by
  simp [find]

/-- A lookup by a unique key finds the row that has the key. -/
theorem find_eq {t : Table R} {p : R → Bool} {r : R} (hr : r ∈ t.rows) (hp : p r = true)
    (hu : ∀ x ∈ t.rows, p x = true → x = r) : t.find p = some r := by
  cases h : t.find p with
  | none => rw [find_none.1 h r hr] at hp; cases hp
  | some x =>
    obtain ⟨hx, hpx⟩ := find_some h
    rw [hu x hx hpx]

/-- Rows that all clash with one another are one row. -/
theorem findMany_eq_of_find {t : Table R} {p : R → Bool} {r : R} {c : C}
    (hc : c ∈ Row.constraints R)
    (hclash : ∀ a b, p a = true → p b = true → Row.clash c a b = true) (h : t.find p = some r) :
    t.findMany p = [r] := by
  have hok : (t.findMany p).Pairwise Compatible := t.ok.filter _
  have hhead : (t.findMany p).head? = some r := by
    rw [findMany, List.head?_filter]
    exact h
  have hall : ∀ x ∈ t.findMany p, p x = true := fun x hx => (List.mem_filter.1 hx).2
  cases hrows : t.findMany p with
  | nil =>
    rw [hrows] at hhead
    cases hhead
  | cons a rows =>
    rw [hrows] at hok hhead hall
    obtain rfl : a = r := Option.some.inj hhead
    cases rows with
    | nil => rfl
    | cons b rows =>
      have hab := (List.pairwise_cons.1 hok).1 b (by simp) c hc
      rw [hclash a b (hall a (by simp)) (hall b (by simp))] at hab
      cases hab

/-- Among the rows a query finds, a key that the constraints make unique there does not repeat. -/
theorem nodup_findMany {t : Table R} {p : R → Bool} {K : Type} {key : R → K} {c : C}
    (hc : c ∈ Row.constraints R)
    (hclash : ∀ a b, p a = true → p b = true → key a = key b → Row.clash c a b = true) :
    ((t.findMany p).map key).Nodup := by
  rw [List.Nodup, List.pairwise_map]
  refine (t.ok.filter _).imp_of_mem fun {a b} ha hb hab he => ?_
  have hno := hab c hc
  rw [hclash a b (List.mem_filter.1 ha).2 (List.mem_filter.1 hb).2 he] at hno
  cases hno

@[simp] theorem mem_findMany {t : Table R} {p : R → Bool} {r : R} :
    r ∈ t.findMany p ↔ r ∈ t.rows ∧ p r = true := by
  simp [findMany]

/-! ## Inserting -/

/-- The first constraint a new row would violate. -/
def violated (t : Table R) (r : R) : Option C :=
  (Row.constraints R).find? fun c => t.rows.any (Row.clash c r)

theorem violated_none {t : Table R} {r : R} :
    t.violated r = none ↔ ∀ x ∈ t.rows, Compatible r x := by
  simp only [violated, List.find?_eq_none, List.any_eq_true, not_exists, not_and,
    Bool.not_eq_true, Compatible]
  exact ⟨fun h x hx c hc => h c hc x hx, fun h c hc x hx => h x hx c hc⟩

theorem violated_some {t : Table R} {r : R} {c : C} (h : t.violated r = some c) :
    ∃ x ∈ t.rows, Row.clash c r x = true := by
  simpa using List.find?_some h

theorem pairwise_append (t : Table R) {r : R} (h : t.violated r = none) :
    (t.rows ++ [r]).Pairwise Compatible := by
  refine List.pairwise_append.2 ⟨t.ok, List.pairwise_singleton _ _, fun a ha b hb => ?_⟩
  rw [List.mem_singleton.1 hb]
  exact (violated_none.1 h a ha).symm

def insert (t : Table R) (r : R) : Except C (Table R) :=
  match h : t.violated r with
  | some c => .error c
  | none => .ok ⟨t.rows ++ [r], t.pairwise_append h⟩

theorem insert_ok {t t' : Table R} {r : R} (h : t.insert r = .ok t') :
    t.violated r = none ∧ t'.rows = t.rows ++ [r] := by
  unfold insert at h
  split at h
  · cases h
  · rename_i hv; cases h; exact ⟨hv, rfl⟩

theorem insert_error {t : Table R} {r : R} {c : C} (h : t.insert r = .error c) :
    t.violated r = some c := by
  unfold insert at h
  split at h
  · rename_i hv; cases h; exact hv
  · cases h

theorem mem_insert {t t' : Table R} {r x : R} (h : t.insert r = .ok t') :
    x ∈ t'.rows ↔ x ∈ t.rows ∨ x = r := by
  simp [(insert_ok h).2]

theorem find_insert {t t' : Table R} {r : R} (h : t.insert r = .ok t') (p : R → Bool) :
    t'.find p = (t.find p).or (if p r then some r else none) := by
  rw [find, (insert_ok h).2, List.find?_append, List.find?_singleton]
  rfl

/-- What was inserted clashes with nothing that was there. -/
theorem insert_fresh {t t' : Table R} {r x : R} (h : t.insert r = .ok t') (hx : x ∈ t.rows) :
    Compatible r x :=
  violated_none.1 (insert_ok h).1 x hx

/-! ## Updating -/

theorem compatible_of_keeps {f : R → R} (keeps : ∀ c a b, Row.clash c (f a) b = Row.clash c a b)
    {a b : R} : Compatible (f a) b ↔ Compatible a b := by
  simp [Compatible, keeps]

/-- Rewrite every row that meets `p`, leaving the constrained columns alone. -/
def updateWhere (t : Table R) (p : R → Bool) (f : R → R)
    (keeps : ∀ c a b, Row.clash c (f a) b = Row.clash c a b) : Table R where
  rows := t.rows.map fun r => if p r then f r else r
  ok := by
    rw [List.pairwise_map]
    refine t.ok.imp fun {a b} h => ?_
    have hb : Compatible a (if p b then f b else b) := by
      split
      · exact ((compatible_of_keeps keeps).2 h.symm).symm
      · exact h
    split
    · exact (compatible_of_keeps keeps).2 hb
    · exact hb

theorem mem_updateWhere {t : Table R} {p : R → Bool} {f : R → R}
    {keeps : ∀ c a b, Row.clash c (f a) b = Row.clash c a b} {x : R} :
    x ∈ (t.updateWhere p f keeps).rows ↔ ∃ r ∈ t.rows, (if p r then f r else r) = x := by
  simp [updateWhere]

/-- A row outside `p` is still there. -/
theorem mem_updateWhere_of_not {t : Table R} {p : R → Bool} {f : R → R}
    {keeps : ∀ c a b, Row.clash c (f a) b = Row.clash c a b} {r : R} (hr : r ∈ t.rows)
    (hp : p r = false) : r ∈ (t.updateWhere p f keeps).rows :=
  mem_updateWhere.2 ⟨r, hr, by simp [hp]⟩

/-- What a search finds after an update of columns it does not look at. -/
theorem find_updateWhere (t : Table R) (p q : R → Bool) (f : R → R)
    (keeps : ∀ c a b, Row.clash c (f a) b = Row.clash c a b) (hq : ∀ r, q (f r) = q r) :
    (t.updateWhere p f keeps).find q = (t.find q).map fun r => if p r then f r else r := by
  rw [find, updateWhere, List.find?_map]
  have hcomp : (q ∘ fun r => if p r then f r else r) = q := by
    funext r
    simp only [Function.comp_apply]
    split
    · exact hq r
    · rfl
  rw [hcomp]
  rfl

/-- What the update leaves alone in every row it leaves alone in the table. -/
theorem map_updateWhere {S : Type} (t : Table R) (p : R → Bool) (f : R → R)
    (keeps : ∀ c a b, Row.clash c (f a) b = Row.clash c a b) (g : R → S) (hg : ∀ r, g (f r) = g r) :
    (t.updateWhere p f keeps).rows.map g = t.rows.map g := by
  simp only [updateWhere, List.map_map]
  refine List.map_congr_left fun r _ => ?_
  simp only [Function.comp_apply]
  split
  · exact hg r
  · rfl

/-! ## Deleting -/

/-- Delete every row that meets `p`. -/
def deleteWhere (t : Table R) (p : R → Bool) : Table R := ⟨t.rows.filter (!p ·), t.ok.filter _⟩

@[simp] theorem mem_deleteWhere {t : Table R} {p : R → Bool} {r : R} :
    r ∈ (t.deleteWhere p).rows ↔ r ∈ t.rows ∧ p r = false := by
  simp [deleteWhere]

end Table

end Tables
