import Mathlib.Data.List.Infix
/-
# A key-value store with expiry

The part of a Redis-like server that clients see: string keys, each entry with an optional time
of expiry, and the glob patterns of a key scan. Every command is one atomic function of the store;
commands that read take the server's clock, because an entry past its time is absent whether or
not the server has dropped it yet.

Patterns know `*`, `?` and `\` (which quotes the next character); character classes are left out.
-/

namespace KeyValue

structure Entry (V : Type) where
  value : V
  /-- The entry is absent from this time on; `none` never expires. -/
  expireAt : Option Nat
deriving DecidableEq, Repr

def Entry.live {V : Type} (now : Nat) (e : Entry V) : Bool := e.expireAt.all (now < ·)

abbrev Store (V : Type) := List (String × Entry V)

variable {V : Type}

def entry (now : Nat) (k : String) (s : Store V) : Option (Entry V) :=
  (s.find? fun p => p.1 == k && p.2.live now).map (·.2)

def get (now : Nat) (k : String) (s : Store V) : Option V := (entry now k s).map (·.value)

def del (k : String) (s : Store V) : Store V := s.filter (·.1 != k)

def put (k : String) (e : Entry V) (s : Store V) : Store V := (k, e) :: del k s

def keys (now : Nat) (s : Store V) : List String :=
  (s.filter (·.2.live now)).map (·.1)

/-! ## What a command changes -/

theorem find_del_ne (s : Store V) {j k : String} (h : j ≠ k) (now : Nat) :
    (del k s).find? (fun p => p.1 == j && p.2.live now) =
      s.find? (fun p => p.1 == j && p.2.live now) := by
  induction s with
  | nil => rfl
  | cons p s ih =>
    by_cases hp : p.1 = k
    · have hj : (p.1 == j) = false := by simpa [hp] using h.symm
      have hd : del k (p :: s) = del k s := by simp [del, hp]
      rw [hd, ih, List.find?_cons]
      simp [hj]
    · have hd : del k (p :: s) = p :: del k s := by simp [del, hp]
      rw [hd, List.find?_cons, List.find?_cons, ih]

@[simp] theorem get_del_ne (s : Store V) {j k : String} (h : j ≠ k) (now : Nat) :
    get now j (del k s) = get now j s := by
  rw [get, get, entry, entry, find_del_ne s h]

@[simp] theorem get_del_self (s : Store V) (k : String) (now : Nat) :
    get now k (del k s) = none := by
  simp only [get, entry, Option.map_eq_none_iff, List.find?_eq_none, del, List.mem_filter]
  rintro p ⟨_, hp⟩
  simp only [bne_iff_ne, ne_eq] at hp
  simp [hp]

@[simp] theorem get_put_ne (s : Store V) {j k : String} (h : j ≠ k) (e : Entry V) (now : Nat) :
    get now j (put k e s) = get now j s := by
  have hk : (k == j) = false := by simpa using h.symm
  rw [← get_del_ne s h now]
  simp [get, entry, put, hk]

theorem get_put_self (s : Store V) (k : String) (e : Entry V) (now : Nat) (h : e.live now = true) :
    get now k (put k e s) = some e.value := by
  simp [get, entry, put, h]

/-- An entry found is in the store under its key, and live. -/
theorem entry_some {s : Store V} {k : String} {e : Entry V} {now : Nat}
    (h : entry now k s = some e) : (k, e) ∈ s ∧ e.live now = true := by
  obtain ⟨p, hp, rfl⟩ := Option.map_eq_some_iff.1 h
  have hf := List.find?_some hp
  simp only [Bool.and_eq_true, beq_iff_eq] at hf
  exact ⟨by rw [← hf.1]; exact List.mem_of_find?_eq_some hp, hf.2⟩

/-- Deleting never makes a key appear. -/
theorem get_del_none (s : Store V) {j k : String} {now : Nat} (h : get now j s = none) :
    get now j (del k s) = none := by
  by_cases hj : j = k
  · subst hj; exact get_del_self s j now
  · rw [get_del_ne s hj, h]

theorem get_none {s : Store V} {k : String} {now : Nat} :
    get now k s = none ↔ ∀ p ∈ s, p.1 = k → p.2.live now = false := by
  simp [get, entry]

/-- Time only makes entries disappear. -/
theorem get_later_none {s : Store V} {k : String} {now now' : Nat} (hle : now ≤ now')
    (h : get now k s = none) : get now' k s = none := by
  rw [get_none] at h ⊢
  intro p hp hk
  have hl := h p hp hk
  unfold Entry.live at hl ⊢
  cases he : p.2.expireAt with
  | none => simp [he] at hl
  | some t => simp only [he, Option.all_some, decide_eq_false_iff_not] at hl ⊢; omega

theorem mem_keys {s : Store V} {k : String} {now : Nat} :
    k ∈ keys now s ↔ ∃ v, get now k s = some v := by
  rw [← Option.ne_none_iff_exists', ne_eq, get_none]
  simp only [keys, List.mem_map, List.mem_filter, not_forall, Bool.not_eq_false]
  constructor
  · rintro ⟨p, ⟨hp, hl⟩, rfl⟩; exact ⟨p, hp, rfl, hl⟩
  · rintro ⟨p, hp, rfl, hl⟩; exact ⟨p, ⟨hp, hl⟩, rfl⟩

/-- No entry of the key `k` carries a time of expiry. -/
def Lasting (k : String) (s : Store V) : Prop := ∀ p ∈ s, p.1 = k → p.2.expireAt = none

theorem Lasting.get_eq {k : String} {s : Store V} (h : Lasting k s) (now now' : Nat) :
    get now k s = get now' k s := by
  unfold get entry
  congr 2
  induction s with
  | nil => rfl
  | cons p s ih =>
    have ih' := ih fun q hq => h q (List.mem_cons_of_mem p hq)
    by_cases hp : p.1 = k
    · have he := h p List.mem_cons_self hp
      simp [hp, Entry.live, he]
    · have hb : (p.1 == k) = false := by simpa using hp
      simp [hb, ih']

theorem Lasting.del {j k : String} {s : Store V} (h : Lasting k s) : Lasting k (del j s) :=
  fun p hp => h p (List.mem_of_mem_filter hp)

theorem Lasting.put {j k : String} {s : Store V} {e : Entry V} (h : Lasting k s)
    (he : e.expireAt = none) : Lasting k (put j e s) := by
  intro p hp hk
  rcases List.mem_cons.1 hp with rfl | hp
  · exact he
  · exact h.del p hp hk

/-! ## Patterns -/

def globMatch : List Char → List Char → Bool
  | [], cs => cs.isEmpty
  | '*' :: ps, cs => cs.tails.any fun t => globMatch ps t
  | '?' :: ps, cs => match cs with
    | [] => false
    | _ :: cs => globMatch ps cs
  | '\\' :: p :: ps, cs => match cs with
    | [] => false
    | c :: cs => p == c && globMatch ps cs
  | p :: ps, cs => match cs with
    | [] => false
    | c :: cs => p == c && globMatch ps cs

def glob (pattern key : String) : Bool := globMatch pattern.toList key.toList

/-- The character stands for itself in a pattern. -/
def plain (c : Char) : Bool := c != '*' && c != '?' && c != '\\' && c != '['

theorem globMatch_plain {p c : Char} {ps cs : List Char} (h : plain p = true) :
    globMatch (p :: ps) (c :: cs) = (p == c && globMatch ps cs) := by
  simp only [plain, Bool.and_eq_true, bne_iff_ne, ne_eq] at h
  obtain ⟨⟨⟨hs, hq⟩, hb⟩, -⟩ := h
  rw [globMatch]
  · intro h'; exact hs h'
  · intro h'; exact hq h'
  · intro q qs h' _; exact hb h'

theorem globMatch_star (cs : List Char) : globMatch ['*'] cs = true := by
  simp only [globMatch, List.any_eq_true, List.mem_tails]
  exact ⟨[], List.nil_suffix, rfl⟩

/-- A pattern that is a plain prefix followed by `*` matches the keys with that prefix. -/
theorem globMatch_prefix {ps cs : List Char} (h : ∀ c ∈ ps, plain c = true) :
    globMatch (ps ++ ['*']) cs = true ↔ ps <+: cs := by
  induction ps generalizing cs with
  | nil => simp [globMatch_star]
  | cons p ps ih =>
    have hp := h p List.mem_cons_self
    cases cs with
    | nil =>
      simp only [plain, Bool.and_eq_true, bne_iff_ne, ne_eq] at hp
      rw [List.cons_append, globMatch]
      · simp
      · intro h'; exact hp.1.1.1 h'
      · intro h'; exact hp.1.1.2 h'
      · intro q qs h' _; exact hp.1.2 h'
    | cons c cs =>
      rw [List.cons_append, globMatch_plain hp, List.cons_prefix_cons, Bool.and_eq_true,
        ih fun d hd => h d (List.mem_cons_of_mem p hd)]
      simp

end KeyValue
