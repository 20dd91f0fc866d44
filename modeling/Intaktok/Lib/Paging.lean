import Mathlib.Order.WithBot
import Mathlib.Order.BoundedOrder.Basic
import Mathlib.Data.List.Basic
import Mathlib.Data.List.Pairwise
import Mathlib.Data.List.Perm.Subperm
import Mathlib.Data.List.Sort
/-
# Paging by a key

A list is read page by page, from the greatest key down. A request fetches one row more than the
`limit` to see whether there is more, and the next one asks for what is below the last key of the
page. Meanwhile the list may grow. `Answer` is what a request finds, `Progress` what has been read
and what is still to come; one page leads from `Progress` to `Progress` below a smaller key
(`Progress.next`) or to the end (`Progress.last`).

A key that several rows share, or that a row lacks (`⊥`), loses rows where a page ends among them:
`Collects.perm_iff` says when none is lost, and `Serves.reads` what a reader gets who follows the
cursors of an unchanged list whose rows all have keys.
-/

namespace Paging

variable {α β : Type}

/-! ## One page -/

/-- The page, where `rows` are one more than it holds if there is more. -/
def page (limit : Nat) (rows : List α) : List α :=
  if limit < rows.length then rows.take limit else rows

theorem more_take {limit : Nat} {found : List α} :
    limit < (found.take (limit + 1)).length ↔ limit < found.length := by
  rw [List.length_take]
  omega

theorem page_take (limit : Nat) (found : List α) :
    page limit (found.take (limit + 1)) = found.take limit := by
  unfold page
  split
  · rw [List.take_take, Nat.min_eq_left (Nat.le_succ limit)]
  · rename_i hmore
    rw [more_take] at hmore
    rw [List.take_of_length_le (by omega), List.take_of_length_le (by omega)]

theorem length_page (limit : Nat) (rows : List α) : (page limit rows).length ≤ limit := by
  unfold page
  split
  · exact List.length_take_le ..
  · omega

theorem exists_last {limit : Nat} {found : List α} (hlimit : 0 < limit)
    (hmore : limit < found.length) : ∃ last, (found.take limit).getLast? = some last := by
  rw [← Option.isSome_iff_exists, List.getLast?_isSome, ne_eq, List.take_eq_nil_iff]
  rintro (rfl | rfl)
  · exact absurd hlimit (Nat.lt_irrefl 0)
  · exact absurd hmore (Nat.not_lt_zero _)

/-- The last of a page is after the others and before all that is not on it. -/
theorem last_of_page {R : α → α → Prop} {limit : Nat} {found : List α} (h : found.Pairwise R)
    (hlimit : 0 < limit) (hmore : limit < found.length) :
    ∃ last, (found.take limit).getLast? = some last ∧
      (∀ x ∈ found.take limit, x = last ∨ R x last) ∧ ∀ x ∈ found.drop limit, R last x := by
  obtain ⟨last, hlast⟩ := exists_last hlimit hmore
  obtain ⟨before, hbefore⟩ := List.getLast?_eq_some_iff.1 hlast
  have hsplit := h
  rw [← List.take_append_drop limit found, List.pairwise_append, hbefore] at hsplit
  refine ⟨last, hlast, fun x hx => ?_, fun x hx => hsplit.2.2 last (by simp) x hx⟩
  rw [hbefore, List.mem_append, List.mem_singleton] at hx
  rcases hx with hx | rfl
  · exact .inr ((List.pairwise_append.1 hsplit.1).2.2 x hx last (by simp))
  · exact .inl rfl

/-! ## Page after page -/

section Unique
variable [Preorder β]

/-- Below the cursor, if there is one. -/
def Below (cursor : Option β) (x : β) : Prop := ∀ c, cursor = some c → x < c

/-- What a request finds: keys below the cursor in order, all old ones among them. -/
structure Answer (old : β → Prop) (cursor : Option β) (found : List β) : Prop where
  sorted : found.Pairwise (· > ·)
  below : ∀ x ∈ found, Below cursor x
  complete : ∀ x, old x → Below cursor x → x ∈ found

/-- What has been read, the old keys below the cursor being still to come. -/
structure Progress (old : β → Prop) (cursor : Option β) (read : List β) : Prop where
  sorted : read.Pairwise (· > ·)
  above : ∀ x ∈ read, ∃ c, cursor = some c ∧ c ≤ x
  covered : ∀ x, old x → x ∈ read ∨ Below cursor x

theorem Progress.start (old : β → Prop) : Progress old none [] where
  sorted := .nil
  above := by simp
  covered := by simp [Below]

section Page
variable {old : β → Prop} {cursor : Option β} {read found : List β}

/-- What a request finds comes after what has been read. -/
theorem Progress.sorted_append (h : Progress old cursor read) (ha : Answer old cursor found)
    {page : List β} (hpage : page.Sublist found) : (read ++ page).Pairwise (· > ·) := by
  refine List.pairwise_append.2 ⟨h.sorted, ha.sorted.sublist hpage, fun x hx y hy => ?_⟩
  obtain ⟨c, hc, hle⟩ := h.above x hx
  exact lt_of_lt_of_le (ha.below y (hpage.subset hy) c hc) hle

/-- The last page. -/
theorem Progress.last (h : Progress old cursor read) (ha : Answer old cursor found) :
    (read ++ found).Pairwise (· > ·) ∧ ∀ x, old x → x ∈ read ++ found := by
  refine ⟨h.sorted_append ha (List.Sublist.refl found), fun x hx => List.mem_append.2 ?_⟩
  exact (h.covered x hx).imp_right (ha.complete x hx)

/-- A page after which there is more. -/
theorem Progress.next (h : Progress old cursor read) (ha : Answer old cursor found) {limit : Nat}
    (hlimit : 0 < limit) (hmore : limit < found.length) :
    ∃ last, (found.take limit).getLast? = some last ∧ Below cursor last ∧
      Progress old (some last) (read ++ found.take limit) := by
  obtain ⟨last, hlast, habove, hbelow⟩ := last_of_page ha.sorted hlimit hmore
  have hin : last ∈ found := List.mem_of_mem_take (List.mem_of_getLast? hlast)
  refine ⟨last, hlast, ha.below last hin, h.sorted_append ha (List.take_sublist ..), ?_, ?_⟩
  · intro x hx
    refine ⟨last, rfl, ?_⟩
    rcases List.mem_append.1 hx with hx | hx
    · obtain ⟨c, hc, hle⟩ := h.above x hx
      exact (lt_of_lt_of_le (ha.below last hin c hc) hle).le
    · exact (habove x hx).elim (fun he => he ▸ le_rfl) le_of_lt
  · intro x hx
    rcases h.covered x hx with hread | hb
    · exact .inl (List.mem_append_left _ hread)
    · have hfound := ha.complete x hx hb
      rw [← List.take_append_drop limit found, List.mem_append] at hfound
      rcases hfound with hp | hd
      · exact .inl (List.mem_append_right _ hp)
      · exact .inr fun c hc => by cases hc; exact hbelow x hd

end Page

end Unique

/-! ## A key that rows may share or lack -/

variable {κ : Type} [LinearOrder κ] {limit : Nat} {key : α → κ} {rows : List α}

/-- An order by the key, the greatest first; rows of one key may come in any order. -/
structure Ordered (key : α → κ) (rows found : List α) : Prop where
  perm : found.Perm rows
  sorted : found.Pairwise fun a b => key b ≤ key a

theorem ordered_insertionSort (key : α → κ) (rows : List α) :
    Ordered key rows (rows.insertionSort fun a b => key b ≤ key a) where
  perm := List.perm_insertionSort ..
  sorted := by
    have : Std.Total fun a b : α => key b ≤ key a := ⟨fun a b => le_total (key b) (key a)⟩
    have : IsTrans α fun a b => key b ≤ key a := ⟨fun _ _ _ h h' => h'.trans h⟩
    exact List.pairwise_insertionSort _ rows

/-- No two rows of one key are on two pages. -/
def Aligned (limit : Nat) (key : α → κ) (rows : List α) : Prop :=
  ∀ x ∈ rows, ∀ page, page * limit ≤ rows.countP (fun y => decide (key x < key y)) ∨
    rows.countP (fun y => decide (key x ≤ key y)) ≤ page * limit

theorem aligned_of_length (h : rows.length ≤ limit) : Aligned limit key rows := by
  intro x _ page
  cases page with
  | zero => exact .inl (by simp)
  | succ page =>
    have hcount := rows.countP_le_length (p := fun y => decide (key x ≤ key y))
    have hpage : limit ≤ (page + 1) * limit := Nat.le_mul_of_pos_left limit (Nat.succ_pos page)
    exact .inr (by omega)

section Cut
variable {found : List α} {x : α}

/-- The last of a page is not above the others, nor below what follows. -/
theorem Ordered.cut (h : Ordered key rows found) (hlimit : 0 < limit) (hmore : limit < found.length)
    (hlast : (found.take limit).getLast? = some x) :
    (∀ y ∈ found.take limit, key x ≤ key y) ∧ ∀ y ∈ found.drop limit, key y ≤ key x := by
  obtain ⟨last, hlast', hpage, hrest⟩ := last_of_page h.sorted hlimit hmore
  obtain rfl : x = last := Option.some.inj (hlast.symm.trans hlast')
  exact ⟨fun y hy => (hpage y hy).elim (fun he => he ▸ le_rfl) id, hrest⟩

/-- The rows down to the last of a page are the page at least. -/
theorem Ordered.limit_le_countP (h : Ordered key rows found) (hlimit : 0 < limit)
    (hmore : limit < found.length) (hlast : (found.take limit).getLast? = some x) :
    limit ≤ rows.countP fun y => decide (key x ≤ key y) := by
  have hpage : (found.take limit).countP (fun y => decide (key x ≤ key y)) = limit := by
    rw [List.countP_eq_length.2 fun y hy => by simpa using (h.cut hlimit hmore hlast).1 y hy,
      List.length_take, Nat.min_eq_left (Nat.le_of_lt hmore)]
  rw [← h.perm.countP_eq, ← List.take_append_drop limit found, List.countP_append, hpage]
  exact Nat.le_add_right _ _

/-- Those above it are fewer. -/
theorem Ordered.countP_lt (h : Ordered key rows found) (hlimit : 0 < limit)
    (hmore : limit < found.length) (hlast : (found.take limit).getLast? = some x) :
    rows.countP (fun y => decide (key x < key y)) < limit := by
  have hrest : (found.drop limit).countP (fun y => decide (key x < key y)) = 0 := by
    refine List.countP_eq_zero.2 fun y hy => ?_
    simpa using (h.cut hlimit hmore hlast).2 y hy
  have hpage : (found.take limit).countP (fun y => decide (key x < key y)) <
      (found.take limit).length := by
    refine Nat.lt_of_le_of_ne List.countP_le_length fun he => ?_
    have hx := List.countP_eq_length.1 he x (List.mem_of_getLast? hlast)
    simp at hx
  rw [← h.perm.countP_eq, ← List.take_append_drop limit found, List.countP_append, hrest,
    Nat.add_zero]
  exact Nat.lt_of_lt_of_le hpage (List.length_take_le limit found)

end Cut

section Nullable
variable [OrderBot κ] {read : List α}

/-- What is asked for after a page that ends with the key `k`. -/
def after (key : α → κ) (k : κ) (rows : List α) : List α :=
  rows.filter fun x => decide (⊥ < key x) && decide (key x < k)

/-- What a reader collects who goes on below the key of the last row of a page, as long as there is
more and that row has a key. -/
inductive Collects (limit : Nat) (key : α → κ) : List α → List α → Prop
  | last {rows found : List α} : Ordered key rows found → found.length ≤ limit →
      Collects limit key rows found
  | stop {rows found : List α} {x : α} : Ordered key rows found → limit < found.length →
      (found.take limit).getLast? = some x → key x = ⊥ → Collects limit key rows (found.take limit)
  | next {rows found read : List α} {x : α} : Ordered key rows found → limit < found.length →
      (found.take limit).getLast? = some x → key x ≠ ⊥ →
      Collects limit key (after key (key x) rows) read →
      Collects limit key rows (found.take limit ++ read)

theorem mem_after {k : κ} {x : α} : x ∈ after key k rows ↔ x ∈ rows ∧ ⊥ < key x ∧ key x < k := by
  rw [after, List.mem_filter, Bool.and_eq_true, decide_eq_true_eq, decide_eq_true_eq]

/-- What is above or at a key, and what is asked for after it, are different rows. -/
theorem filter_after_subperm (k : κ) (rows : List α) :
    (rows.filter (fun x => decide (k ≤ key x)) ++ after key k rows).Subperm rows := by
  have hrest : (after key k rows).Sublist (rows.filter fun x => !decide (k ≤ key x)) := by
    refine List.monotone_filter_right rows fun x hx => ?_
    simp only [Bool.and_eq_true, decide_eq_true_eq] at hx
    simpa using hx.2
  exact ((List.Sublist.refl _).append hrest).subperm.trans
    (List.filter_append_perm _ rows).subperm

/-- Where no key is lacking, these are all. -/
theorem countP_after (hkeys : ∀ x ∈ rows, key x ≠ ⊥) (k : κ) {p : α → Bool}
    (hp : ∀ x ∈ rows, k ≤ key x → p x = true) :
    rows.countP p = rows.countP (fun x => decide (k ≤ key x)) + (after key k rows).countP p := by
  induction rows with
  | nil => rfl
  | cons a rows ih =>
    have ih := ih (fun x hx => hkeys x (by simp [hx])) fun x hx => hp x (by simp [hx])
    have hbot : ⊥ < key a := bot_lt_iff_ne_bot.2 (hkeys a (by simp))
    by_cases hk : k ≤ key a
    · have hpa := hp a (by simp) hk
      simp only [after, List.countP_cons, List.filter_cons, hk, hpa, hbot, not_lt.2 hk,
        decide_true, decide_false, Bool.and_false, if_true] at ih ⊢
      simp only [Bool.false_eq_true, if_false]
      omega
    · simp only [after, List.countP_cons, List.filter_cons, hk, hbot, not_le.1 hk,
        decide_true, decide_false, Bool.and_true, if_true] at ih ⊢
      simp only [Bool.false_eq_true, if_false]
      omega

section Below
variable {j k : κ}

theorem countP_lt_after (hkeys : ∀ x ∈ rows, key x ≠ ⊥) (h : j < k) :
    rows.countP (fun x => decide (j < key x)) = rows.countP (fun x => decide (k ≤ key x)) +
      (after key k rows).countP fun x => decide (j < key x) :=
  countP_after hkeys k fun x _ hx => by simpa using lt_of_lt_of_le h hx

theorem countP_le_after (hkeys : ∀ x ∈ rows, key x ≠ ⊥) (h : j < k) :
    rows.countP (fun x => decide (j ≤ key x)) = rows.countP (fun x => decide (k ≤ key x)) +
      (after key k rows).countP fun x => decide (j ≤ key x) :=
  countP_after hkeys k fun x _ hx => by simpa using (lt_of_lt_of_le h hx).le

end Below

/-- The pages are aligned if the first ends where the key of its last row does, and those after it
are aligned. -/
theorem aligned_after {found : List α} {x : α} (hkeys : ∀ y ∈ rows, key y ≠ ⊥)
    (h : Ordered key rows found) (hlimit : 0 < limit) (hmore : limit < found.length)
    (hlast : (found.take limit).getLast? = some x) :
    Aligned limit key rows ↔
      rows.countP (fun y => decide (key x ≤ key y)) = limit ∧
        Aligned limit key (after key (key x) rows) := by
  have hle := h.limit_le_countP hlimit hmore hlast
  have habove := h.countP_lt hlimit hmore hlast
  have hx : x ∈ rows := h.perm.subset (List.mem_of_mem_take (List.mem_of_getLast? hlast))
  constructor
  · intro ha
    have heq : rows.countP (fun y => decide (key x ≤ key y)) = limit := by
      have h1 := ha x hx 1
      omega
    refine ⟨heq, fun y hy page => ?_⟩
    obtain ⟨hin, -, hlt⟩ := mem_after.1 hy
    have hy := ha y hin (page + 1)
    rw [countP_lt_after hkeys hlt, countP_le_after hkeys hlt, heq, Nat.succ_mul] at hy
    omega
  · rintro ⟨heq, ha⟩ y hy page
    cases page with
    | zero => exact .inl (by simp)
    | succ page =>
      rw [Nat.succ_mul]
      by_cases hxy : key x ≤ key y
      · have hmono : rows.countP (fun z => decide (key y ≤ key z)) ≤
            rows.countP fun z => decide (key x ≤ key z) :=
          List.countP_mono_left fun z _ hz => by
            simp only [decide_eq_true_eq] at hz ⊢
            exact hxy.trans hz
        exact .inr (by omega)
      · have hlt : key y < key x := not_le.1 hxy
        have hy := ha y (mem_after.2 ⟨hy, bot_lt_iff_ne_bot.2 (hkeys y hy), hlt⟩) page
        rw [countP_lt_after hkeys hlt, countP_le_after hkeys hlt, heq]
        omega

theorem page_subperm {found : List α} {x : α} (h : Ordered key rows found) (hlimit : 0 < limit)
    (hmore : limit < found.length) (hlast : (found.take limit).getLast? = some x)
    (hread : read.Subperm (after key (key x) rows)) : (found.take limit ++ read).Subperm rows := by
  have hpage : (found.take limit).Subperm (rows.filter fun y => decide (key x ≤ key y)) := by
    rw [← List.filter_eq_self.2 fun y hy => decide_eq_true ((h.cut hlimit hmore hlast).1 y hy)]
    exact ((List.take_sublist limit found).filter _).subperm.trans (h.perm.filter _).subperm
  exact (hpage.append hread).trans (filter_after_subperm _ _)

/-- A page and what is collected after it are all if every row has a key, the page ends where the
key of its last row does, and what is collected is all that is asked for. -/
theorem page_perm_iff {found : List α} {x : α} (h : Ordered key rows found) (hlimit : 0 < limit)
    (hmore : limit < found.length) (hlast : (found.take limit).getLast? = some x)
    (hkey : key x ≠ ⊥) (hread : read.Subperm (after key (key x) rows)) :
    (found.take limit ++ read).Perm rows ↔
      (∀ y ∈ rows, key y ≠ ⊥) ∧ rows.countP (fun y => decide (key x ≤ key y)) = limit ∧
        read.Perm (after key (key x) rows) := by
  have hle := h.limit_le_countP hlimit hmore hlast
  have hlen : (found.take limit ++ read).length = limit + read.length := by
    rw [List.length_append, List.length_take, Nat.min_eq_left (Nat.le_of_lt hmore)]
  constructor
  · intro hp
    have hall := hp.length_eq
    have hshort := hread.length_le
    have hparts : rows.countP (fun y => decide (key x ≤ key y)) +
        (after key (key x) rows).length ≤ rows.length := by
      rw [List.countP_eq_length_filter, ← List.length_append]
      exact (filter_after_subperm (key x) rows).length_le
    have hperm := hread.perm_of_length_le (by omega)
    refine ⟨fun y hy => ?_, by omega, hperm⟩
    rcases List.mem_append.1 (hp.symm.subset hy) with hy | hy
    · intro hbot
      exact hkey (le_bot_iff.1 (hbot ▸ (h.cut hlimit hmore hlast).1 y hy))
    · exact (mem_after.1 (hperm.subset hy)).2.1.ne'
  · rintro ⟨hkeys, heq, hperm⟩
    have hlen' := hperm.length_eq
    have hcount := countP_after hkeys (key x) (p := fun _ => true) fun _ _ _ => rfl
    rw [List.countP_true] at hcount
    exact (page_subperm h hlimit hmore hlast hread).perm_of_length_le (by omega)

/-- What is collected is there. -/
theorem Collects.subperm (h : Collects limit key rows read) (hlimit : 0 < limit) :
    read.Subperm rows := by
  induction h with
  | last ho _ => exact ho.perm.subperm
  | stop ho _ _ _ => exact (List.take_sublist ..).subperm.trans ho.perm.subperm
  | next ho hmore hlast _ _ ih => exact page_subperm ho hlimit hmore hlast ih

theorem Collects.sorted (h : Collects limit key rows read) (hlimit : 0 < limit) :
    read.Pairwise fun a b => key b ≤ key a := by
  induction h with
  | last ho _ => exact ho.sorted
  | stop ho _ _ _ => exact ho.sorted.sublist (List.take_sublist ..)
  | next ho hmore hlast _ hrest ih =>
    have hpage := ho.sorted.sublist (List.take_sublist limit _)
    refine List.pairwise_append.2 ⟨hpage, ih, fun a ha b hb => ?_⟩
    have hbelow := (mem_after.1 ((hrest.subperm hlimit).subset hb)).2.2
    exact hbelow.le.trans ((ho.cut hlimit hmore hlast).1 a ha)

/-- All is collected if it fits on one page, or if every row has a key and none shares it with one
on another page; else it is not. -/
theorem Collects.perm_iff (h : Collects limit key rows read) (hlimit : 0 < limit) :
    read.Perm rows ↔
      rows.length ≤ limit ∨ (∀ x ∈ rows, key x ≠ ⊥) ∧ Aligned limit key rows := by
  induction h with
  | last ho hfit => exact ⟨fun _ => .inl (ho.perm.length_eq ▸ hfit), fun _ => ho.perm⟩
  | @stop rows found x ho hmore hlast hbot =>
    have hx : x ∈ rows := ho.perm.subset (List.mem_of_mem_take (List.mem_of_getLast? hlast))
    have hlen := ho.perm.length_eq
    refine ⟨fun hp => ?_, fun hor => ?_⟩
    · have hp := hp.length_eq
      rw [List.length_take] at hp
      omega
    · rcases hor with hle | ⟨hkeys, -⟩
      · omega
      · exact absurd hbot (hkeys x hx)
  | @next rows found read x ho hmore hlast hkey hrest ih =>
    have hlen := ho.perm.length_eq
    have hafter : ∀ y ∈ after key (key x) rows, key y ≠ ⊥ :=
      fun y hy => (mem_after.1 hy).2.1.ne'
    rw [page_perm_iff ho hlimit hmore hlast hkey (hrest.subperm hlimit), ih]
    constructor
    · rintro ⟨hkeys, heq, hor⟩
      refine .inr ⟨hkeys, (aligned_after hkeys ho hlimit hmore hlast).2 ⟨heq, ?_⟩⟩
      exact hor.elim aligned_of_length And.right
    · rintro (hfit | ⟨hkeys, ha⟩)
      · omega
      · obtain ⟨heq, ha⟩ := (aligned_after hkeys ho hlimit hmore hlast).1 ha
        exact ⟨hkeys, heq, .inr ⟨hafter, ha⟩⟩

end Nullable

/-! ## Following the cursors -/

/-- What the database makes of an order by a key. -/
structure Sorting {κ : Type} [LinearOrder κ] (key : α → κ) where
  sort : List α → List α
  ordered : ∀ rows, Ordered key rows (sort rows)

/-- Equal rows stay as they are. -/
def Sorting.stable {κ : Type} [LinearOrder κ] (key : α → κ) : Sorting key where
  sort rows := rows.insertionSort fun a b => key b ≤ key a
  ordered := ordered_insertionSort key

/-- A reader that is about to ask for a page, or has got to the end. -/
inductive Reader (γ ε β : Type) where
  | asks (cursor : Option γ) (read : List β)
  | done (r : Except ε (List β))

section Follow
variable {γ ε : Type} {limit : Nat}

/-- What becomes of an answer. -/
def Reader.turn (read : List β) : Except ε (List β × Option γ) → Reader γ ε β
  | .error e => .done (.error e)
  | .ok (items, none) => .done (.ok (read ++ items))
  | .ok (items, some cursor) => .asks (some cursor) (read ++ items)

/-- The reader after its first `n` requests; it begins without a cursor. -/
def follow (answer : Nat → Option γ → Except ε (List β × Option γ)) : Nat → Reader γ ε β
  | 0 => .asks none []
  | n + 1 => match follow answer n with
    | .asks cursor read => .turn read (answer n cursor)
    | .done r => .done r

/-- A page of what is found, and the cursor of its last row if there is more. -/
def reply (limit : Nat) (item : α → β) (cursorOf : α → γ) (found : List α) : List β × Option γ :=
  ((found.take limit).map item,
    if limit < found.length then (found.take limit).getLast?.map cursorOf else none)

variable {answer : Nat → Option γ → Except ε (List β × Option γ)}

theorem follow_add {n : Nat} {r : Except ε (List β)} (h : follow answer n = .done r) (k : Nat) :
    follow answer (n + k) = .done r := by
  induction k with
  | zero => exact h
  | succ k ih => rw [← Nat.add_assoc, follow, ih]

/-- There is one end. -/
theorem follow_unique {n k : Nat} {r r' : Except ε (List β)} (hn : follow answer n = .done r)
    (hk : follow answer k = .done r') : r = r' := by
  have h := follow_add hn k
  rw [Nat.add_comm, follow_add hk n] at h
  cases h
  rfl

section Keyed
variable {κ : Type} [LinearOrder κ] {key : α → κ} {item : α → β} {cursorOf : α → γ}
  {rows : List α}

/-- A request without a cursor finds all rows, one with the cursor of a row those below its key. -/
structure Serves (limit : Nat) (key : α → κ) (item : α → β) (cursorOf : α → γ) (rows : List α)
    (answer : Nat → Option γ → Except ε (List β × Option γ)) : Prop where
  first : ∀ n, ∃ found, Ordered key rows found ∧
    answer n none = .ok (reply limit item cursorOf found)
  next : ∀ n, ∀ x ∈ rows, ∃ found, Ordered key (rows.filter fun y => decide (key y < key x)) found ∧
    answer n (some (cursorOf x)) = .ok (reply limit item cursorOf found)

variable {S : List α} {found : List α}

theorem ordered_coe : Ordered (fun x => (key x : WithBot κ)) rows found ↔ Ordered key rows found :=
  ⟨fun h => ⟨h.perm, h.sorted.imp WithBot.coe_le_coe.1⟩,
    fun h => ⟨h.perm, h.sorted.imp WithBot.coe_le_coe.2⟩⟩

theorem aligned_coe :
    Aligned limit (fun x => (key x : WithBot κ)) rows ↔ Aligned limit key rows := by
  simp only [Aligned, WithBot.coe_lt_coe, WithBot.coe_le_coe]

theorem after_coe (x : α) : after (fun y => (key y : WithBot κ)) (key x) rows =
    rows.filter fun y => decide (key y < key x) := by
  simp only [after, WithBot.coe_lt_coe, WithBot.bot_lt_coe, decide_true, Bool.true_and]

/-- What is left after a row, of what is left after an earlier one. -/
theorem filter_below {x y : α} (h : key y < key x) :
    (rows.filter fun z => decide (key z < key x)).filter (fun z => decide (key z < key y)) =
      rows.filter fun z => decide (key z < key y) := by
  rw [List.filter_filter]
  refine List.filter_congr fun z _ => ?_
  by_cases hz : key z < key y
  · simp [hz, hz.trans h]
  · simp [hz]

/-- The rows a request with this cursor is about. -/
def Left (key : α → κ) (cursorOf : α → γ) (rows : List α) (cursor : Option γ) (left : List α) :
    Prop :=
  (cursor = none ∧ left = rows) ∨
    ∃ x ∈ rows, cursor = some (cursorOf x) ∧ left = rows.filter fun y => decide (key y < key x)

theorem Left.next {cursor : Option γ} {left : List α} (h : Left key cursorOf rows cursor left)
    {x : α} (hx : x ∈ left) :
    Left key cursorOf rows (some (cursorOf x)) (left.filter fun y => decide (key y < key x)) := by
  rcases h with ⟨-, rfl⟩ | ⟨x₀, -, -, rfl⟩
  · exact .inr ⟨x, hx, rfl, rfl⟩
  · obtain ⟨hx, hlt⟩ := List.mem_filter.1 hx
    exact .inr ⟨x, hx, rfl, filter_below (by simpa using hlt)⟩

theorem Serves.answers (h : Serves limit key item cursorOf rows answer) {cursor : Option γ}
    {left : List α} (hl : Left key cursorOf rows cursor left) (n : Nat) :
    ∃ found, Ordered key left found ∧ answer n cursor = .ok (reply limit item cursorOf found) := by
  rcases hl with ⟨rfl, rfl⟩ | ⟨x, hx, rfl, rfl⟩
  · exact h.first n
  · exact h.next n x hx

/-- A reader that is served gets to the end, as less is left after each page. -/
theorem Serves.collects (h : Serves limit key item cursorOf rows answer) (hlimit : 0 < limit)
    {n : Nat} {cursor : Option γ} {left : List α} {read : List β}
    (hl : Left key cursorOf rows cursor left) (hn : follow answer n = .asks cursor read) :
    ∃ k picked, follow answer k = .done (.ok (read ++ picked.map item)) ∧
      Collects limit (fun x => (key x : WithBot κ)) left picked := by
  induction hlen : left.length using Nat.strong_induction_on generalizing n cursor left read with
  | _ len ih =>
    obtain ⟨found, ho, hanswer⟩ := h.answers hl n
    have hnext : follow answer (n + 1) = .turn read (.ok (reply limit item cursorOf found)) := by
      rw [follow, hn]
      exact congrArg (Reader.turn read) hanswer
    by_cases hmore : limit < found.length
    · obtain ⟨x, hlast, -, -⟩ := last_of_page ho.sorted hlimit hmore
      have hx : x ∈ left := ho.perm.subset (List.mem_of_mem_take (List.mem_of_getLast? hlast))
      rw [reply, if_pos hmore, hlast] at hnext
      have hshorter : (left.filter fun y => decide (key y < key x)).length < len := by
        rw [← hlen, List.length_filter_lt_length_iff_exists]
        exact ⟨x, hx, by simp⟩
      obtain ⟨k, picked, hdone, hcollects⟩ := ih _ hshorter (hl.next hx) hnext rfl
      refine ⟨k, found.take limit ++ picked, ?_, ?_⟩
      · rw [hdone, List.map_append, List.append_assoc]
      · exact .next (ordered_coe.2 ho) hmore hlast (WithBot.coe_ne_bot) (by rwa [after_coe])
    · rw [reply, if_neg hmore, List.take_of_length_le (by omega)] at hnext
      exact ⟨n + 1, found, hnext, .last (ordered_coe.2 ho) (by omega)⟩

/-- A reader that is served reads some of the rows in order, and all of them if and only if no page
ends among rows of the same key. -/
theorem Serves.reads (h : Serves limit key item cursorOf rows answer) (hlimit : 0 < limit) :
    ∃ n, ∃ picked : List α, follow answer n = .done (.ok (picked.map item)) ∧
      (picked.Pairwise fun a b => key b ≤ key a) ∧ picked.Subperm rows ∧
      (picked.Perm rows ↔ Aligned limit key rows) := by
  obtain ⟨n, picked, hdone, hcollects⟩ :=
    h.collects hlimit (n := 0) (.inl ⟨rfl, rfl⟩) (rfl : follow answer 0 = .asks none [])
  refine ⟨n, picked, hdone, (hcollects.sorted hlimit).imp WithBot.coe_le_coe.1,
    hcollects.subperm hlimit, ?_⟩
  rw [hcollects.perm_iff hlimit, aligned_coe]
  exact ⟨fun hor => hor.elim aligned_of_length And.right,
    fun ha => .inr ⟨fun _ _ => WithBot.coe_ne_bot, ha⟩⟩

/-- Pages are aligned where no two rows share a key. -/
theorem aligned_of_nodup (h : (rows.map key).Nodup) : Aligned limit key rows := by
  intro x hx page
  obtain ⟨before, behind, rfl⟩ := List.append_of_mem hx
  rw [List.map_append, List.map_cons, List.nodup_middle, List.nodup_cons, ← List.map_append] at h
  have hcount : ∀ part ⊆ before ++ behind, part.countP (fun y => decide (key x ≤ key y)) =
      part.countP fun y => decide (key x < key y) := by
    intro part hpart
    refine List.countP_congr fun y hy => ?_
    have hne : key x ≠ key y := fun he => h.1 (List.mem_map.2 ⟨y, hpart hy, he.symm⟩)
    simp only [decide_eq_true_eq]
    exact ⟨fun hle => lt_of_le_of_ne hle hne, le_of_lt⟩
  rw [List.countP_append, List.countP_append, List.countP_cons, List.countP_cons,
    hcount before (List.subset_append_left ..), hcount behind (List.subset_append_right ..)]
  simp only [le_refl, lt_irrefl, decide_true, decide_false, if_true, Bool.false_eq_true, if_false]
  rcases Nat.lt_or_ge (before.countP (fun y => decide (key x < key y)) +
    behind.countP fun y => decide (key x < key y)) (page * limit) with hlt | hge
  · exact .inr (by omega)
  · exact .inl (by omega)

end Keyed

end Follow

end Paging
