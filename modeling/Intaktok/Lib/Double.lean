import Mathlib.Data.Nat.Digits.Defs
import Mathlib.Tactic.Common
/-
# Whole numbers as doubles

A double has 53 significant bits. `round` is the double a whole number becomes, `read` what a
reader comes to that adds digit to digit in a double, and `write` the numeral of a double: the
digits that are needed to tell it from its neighbours, and zeros after them. Up to `limit` none of
them changes a number, but the first number past it is lost.
-/

namespace Double

/-- Up to here every whole number is a double. -/
def limit : Nat := 2 ^ 53

/-- How far apart the doubles around `n` are. -/
def ulp (n : Nat) : Nat := 2 ^ (n.log2 - 52)

/-- The nearest double, and of two the even one. -/
def round (n : Nat) : Nat :=
  let below := n / ulp n * ulp n
  if 2 * (n % ulp n) < ulp n ∨ 2 * (n % ulp n) = ulp n ∧ n / ulp n % 2 = 0 then below
  else below + ulp n

def read (n : Nat) : Nat :=
  (Nat.digits 10 n).foldr (fun digit number => round (round (number * 10) + digit)) 0

/-- The multiples of `p` next to `n`, the nearer one first. -/
def around (p n : Nat) : List Nat :=
  let below := n / p * p
  if n - below ≤ below + p - n then [below, below + p] else [below + p, below]

/-- The numeral with the fewest digits before its zeros that `round` takes to `n`, a double below
10^21. -/
def write (n : Nat) : Nat :=
  let powers := (List.range 21).reverse.map fun i => 10 ^ (i + 1)
  (powers.findSome? fun p => (around p n).find? (round · == n)).getD n

theorem ulp_pos (n : Nat) : 0 < ulp n := Nat.two_pow_pos _

theorem round_of_dvd {n : Nat} (h : ulp n ∣ n) : round n = n := by
  have hrest : n % ulp n = 0 := Nat.mod_eq_zero_of_dvd h
  rw [round, if_pos (.inl (by rw [hrest]; exact ulp_pos n))]
  exact Nat.div_mul_cancel h

theorem round_exact {n : Nat} (h : n ≤ limit) : round n = n := by
  refine round_of_dvd ?_
  rcases Nat.eq_or_lt_of_le h with rfl | h
  · decide
  · rcases Nat.eq_zero_or_pos n with rfl | hn
    · exact Nat.dvd_zero _
    · have hlog : n.log2 < 53 := (Nat.log2_lt (Nat.ne_of_gt hn)).2 h
      rw [ulp, Nat.sub_eq_zero_of_le (Nat.le_of_lt_succ hlog)]
      exact Nat.one_dvd n

/-- The double below a number past `limit + 1` is past `limit`. -/
theorem limit_lt_round {n : Nat} (h : limit + 1 < n) : limit < round n := by
  have hbelow : limit < n / ulp n * ulp n := by
    have hn : n ≠ 0 := by omega
    have hlog : 53 ≤ n.log2 := (Nat.le_log2 hn).2 (by unfold limit at h; omega)
    rcases Nat.eq_or_lt_of_le hlog with hlog | hlog
    · have hulp : ulp n = 2 := by rw [ulp, ← hlog]; rfl
      rw [hulp]
      unfold limit at h ⊢
      omega
    · -- with more bits the leading one alone is past it
      have hpow : 2 ^ n.log2 = 2 ^ 52 * ulp n := by rw [ulp, ← Nat.pow_add]; congr 1; omega
      have hdiv : 2 ^ 52 ≤ n / ulp n :=
        (Nat.le_div_iff_mul_le (ulp_pos n)).2 (hpow ▸ Nat.log2_self_le hn)
      calc limit < 2 ^ n.log2 := Nat.pow_lt_pow_right (by decide) hlog
        _ = 2 ^ 52 * ulp n := hpow
        _ ≤ n / ulp n * ulp n := Nat.mul_le_mul_right _ hdiv
  rw [round]
  split <;> omega

theorem foldr_exact {digits : List Nat} (h : Nat.ofDigits 10 digits ≤ limit) :
    digits.foldr (fun digit number => round (round (number * 10) + digit)) 0 =
      Nat.ofDigits 10 digits := by
  induction digits with
  | nil => rfl
  | cons digit digits ih =>
    rw [Nat.ofDigits_cons, Nat.mul_comm, Nat.add_comm] at h ⊢
    have hshift : round (Nat.ofDigits 10 digits * 10) = Nat.ofDigits 10 digits * 10 :=
      round_exact (by omega)
    rw [List.foldr_cons, ih (by omega), hshift, round_exact h]

theorem read_exact {n : Nat} (h : n ≤ limit) : read n = n := by
  have hn := Nat.ofDigits_digits 10 n
  rw [read, foldr_exact (by rwa [hn]), hn]

theorem ten_dvd_of_around {i m n : Nat} (h : m ∈ around (10 ^ (i + 1)) n) : 10 ∣ m := by
  have hp : 10 ∣ 10 ^ (i + 1) := Nat.dvd_mul_left 10 (10 ^ i)
  have hbelow : 10 ∣ n / 10 ^ (i + 1) * 10 ^ (i + 1) := hp.mul_left _
  rw [around] at h
  split at h <;> simp only [List.mem_cons, List.not_mem_nil, or_false] at h
  · rcases h with rfl | rfl
    exacts [hbelow, Nat.dvd_add hbelow hp]
  · rcases h with rfl | rfl
    exacts [Nat.dvd_add hbelow hp, hbelow]

/-- No shorter numeral is as good. -/
theorem write_exact {n : Nat} (h : n ≤ limit) : write n = n := by
  rw [write]
  cases hf : List.findSome? _ _ with
  | none => rfl
  | some m =>
    obtain ⟨p, hp, hm⟩ := List.exists_of_findSome?_eq_some hf
    obtain ⟨i, -, rfl⟩ := List.mem_map.1 hp
    have hround : round m = n := by simpa using List.find?_some hm
    have hten := ten_dvd_of_around (List.mem_of_find?_eq_some hm)
    have hle : m ≤ limit := by
      by_contra hlt
      have hlost : ¬ limit + 1 < m := fun hm => absurd (limit_lt_round hm) (by omega)
      unfold limit at hlt hlost
      omega
    rw [← hround, round_exact hle]
    rfl

/-- The first number that is lost. -/
example : round (limit + 1) = limit ∧ read (limit + 1) = limit := by decide +kernel

example : write (2 ^ 60) = 1152921504606847000 := by decide +kernel

end Double
