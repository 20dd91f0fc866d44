import Mathlib.Tactic.Common
/-
# Dates as strings

`toISOString` writes a time, in milliseconds since 1970, as `YYYY-MM-DDTHH:mm:ss.sssZ`, with a sign
and six digits for years past 9999, and `parse` reads it back (`parse_toISOString`). The calendar
counts years from March, so that the leap day is the last of its year, and in eras of 400 years,
which all have the same number of days.
-/

namespace IsoDate

/-! ## The calendar -/

/-- The day of its era that a year of the era begins with. -/
def yearStart (yoe : Nat) : Nat := 365 * yoe + yoe / 4 - yoe / 100

/-- The year of the era a day of the era falls in: a century has 36524 days and four years have
1461, but the last century and the last of four years may be a day longer. -/
def yearOfEra (doe : Nat) : Nat :=
  let century := min 3 (doe / 36524)
  let day := doe - century * 36524
  100 * century + 4 * (day / 1461) + min 3 (day % 1461 / 365)

/-- The day of the year a month begins with, both counted from March. -/
def monthStart (mp : Nat) : Nat := (153 * mp + 2) / 5

def monthOfYear (doy : Nat) : Nat := (5 * doy + 2) / 153

/-- The days from the first of March of the year 0 to 1970-01-01. -/
def epoch : Nat := 719468

/-- Year, month and day of a day counted from 1970-01-01. -/
def civil (days : Nat) : Nat × Nat × Nat :=
  let z := days + epoch
  let doe := z % 146097
  let yoe := yearOfEra doe
  let doy := doe - yearStart yoe
  let mp := monthOfYear doy
  let m := if mp < 10 then mp + 3 else mp - 9
  (yoe + z / 146097 * 400 + (if m ≤ 2 then 1 else 0), m, doy - monthStart mp + 1)

/-- The day from 1970-01-01 on that a date is. -/
def daysOf (y m d : Nat) : Nat :=
  let y := if m ≤ 2 then y - 1 else y
  let mp := if 2 < m then m - 3 else m + 9
  y / 400 * 146097 + yearStart (y % 400) + monthStart mp + (d - 1) - epoch

/-- A day of the era is one of the days of its year. -/
theorem yearStart_le {doe : Nat} (h : doe < 146097) :
    yearOfEra doe < 400 ∧ yearStart (yearOfEra doe) ≤ doe ∧
      doe - yearStart (yearOfEra doe) < 366 := by
  rw [yearOfEra]
  generalize hc : min 3 (doe / 36524) = century
  generalize hd : doe - century * 36524 = day
  have hcentury : century ≤ 3 ∧ century * 36524 ≤ doe ∧ day ≤ 36524 := by omega
  generalize hq : day / 1461 = q
  generalize hr : day % 1461 = r
  have hday : day = 1461 * q + r ∧ q ≤ 24 ∧ r < 1461 := by omega
  generalize hy : min 3 (r / 365) = y
  have hyear : y ≤ 3 ∧ 365 * y ≤ r ∧ r - 365 * y < 366 := by omega
  have h4 : (100 * century + 4 * q + y) / 4 = 25 * century + q := by omega
  have h100 : (100 * century + 4 * q + y) / 100 = century := by omega
  rw [yearStart, h4, h100]
  omega

theorem monthStart_le {doy : Nat} (h : doy < 366) :
    monthOfYear doy < 12 ∧ monthStart (monthOfYear doy) ≤ doy := by
  unfold monthStart monthOfYear
  omega

/-- A date of the calendar that begins in March, as a date of the usual one. -/
theorem daysOf_march {era yoe mp m : Nat} (dom : Nat) (hyear : yoe < 400) (hmonth : mp < 12)
    (hm : m = if mp < 10 then mp + 3 else mp - 9) :
    daysOf (yoe + era * 400 + if m ≤ 2 then 1 else 0) m (dom + 1) =
      era * 146097 + yearStart yoe + monthStart mp + dom - epoch := by
  have hmod : (yoe + era * 400) % 400 = yoe := by omega
  have hdiv : (yoe + era * 400) / 400 = era := by omega
  have hback : (if 2 < m then m - 3 else m + 9) = mp := by
    subst hm
    split_ifs <;> omega
  have hsame : (if m ≤ 2 then (yoe + era * 400 + if m ≤ 2 then 1 else 0) - 1
      else yoe + era * 400 + if m ≤ 2 then 1 else 0) = yoe + era * 400 := by
    split <;> rfl
  rw [daysOf, hsame, hback, hmod, hdiv, Nat.add_sub_cancel]

theorem daysOf_civil (days : Nat) :
    daysOf (civil days).1 (civil days).2.1 (civil days).2.2 = days := by
  obtain ⟨hyear, hstart, hdoy⟩ :=
    yearStart_le (Nat.mod_lt (days + epoch) (show 0 < 146097 by omega))
  obtain ⟨hmonth, hmstart⟩ := monthStart_le hdoy
  refine (daysOf_march _ hyear hmonth rfl).trans ?_
  generalize yearStart (yearOfEra ((days + epoch) % 146097)) = start at hstart hmstart ⊢
  generalize monthStart (monthOfYear ((days + epoch) % 146097 - start)) = mstart at hmstart ⊢
  omega

/-! ## Strings -/

/-- The decimal digits of a number, with zeros in front up to the width. -/
def pad (width n : Nat) : List Char :=
  List.replicate (width - (Nat.toDigits 10 n).length) '0' ++ Nat.toDigits 10 n

/-- Seven numbers as a date. -/
def render (y m d h mi s ms : Nat) : List Char :=
  (if y < 10000 then pad 4 y else '+' :: pad 6 y) ++ '-' :: (pad 2 m ++ '-' :: (pad 2 d ++
    'T' :: (pad 2 h ++ ':' :: (pad 2 mi ++ ':' :: (pad 2 s ++ '.' :: (pad 3 ms ++ ['Z']))))))

/-- `Date.prototype.toISOString`, for times from 1970 on. -/
def toISOString (ms : Nat) : String :=
  let date := civil (ms / 86400000)
  String.ofList (render date.1 date.2.1 date.2.2 (ms / 3600000 % 24) (ms / 60000 % 60)
    (ms / 1000 % 60) (ms % 1000))

example : toISOString 0 = "1970-01-01T00:00:00.000Z" := by decide +kernel
example : toISOString 1709251199999 = "2024-02-29T23:59:59.999Z" := by decide +kernel

/-- The numbers in a string, anything but a digit being between two of them. -/
def numbers (n : Nat) : List Char → List Nat
  | [] => [n]
  | c :: cs => if c.isDigit then numbers (10 * n + (c.toNat - '0'.toNat)) cs else n :: numbers 0 cs

/-- The time seven numbers are. -/
def timeOf (y m d h mi s ms : Nat) : Nat :=
  (((daysOf y m d * 24 + h) * 60 + mi) * 60 + s) * 1000 + ms

/-- The time a string may be; a sign is after an empty number. -/
def candidate (s : String) : Option Nat :=
  match numbers 0 s.toList with
  | [y, m, d, h, mi, s, ms, _] | [_, y, m, d, h, mi, s, ms, _] => some (timeOf y m d h mi s ms)
  | _ => none

/-- The time whose string this is. -/
def parse (s : String) : Option Nat := (candidate s).filter fun t => toISOString t == s

theorem numbers_digits (cs rest : List Char) (n : Nat) (h : ∀ c ∈ cs, c.isDigit = true) :
    numbers n (cs ++ rest) = numbers (Nat.ofDigitChars 10 cs n) rest := by
  induction cs generalizing n with
  | nil => rfl
  | cons c cs ih =>
    rw [List.cons_append, numbers, if_pos (h c (by simp)), ih _ fun c hc => h c (by simp [hc])]
    rfl

/-- A number that is written with zeros in front is read as it is. -/
theorem numbers_pad (width n : Nat) (rest : List Char) :
    numbers 0 (pad width n ++ rest) = numbers n rest := by
  have hdigits : ∀ c ∈ pad width n, c.isDigit = true := by
    intro c hc
    rcases List.mem_append.1 hc with hc | hc
    · rw [List.eq_of_mem_replicate hc]
      rfl
    · exact Nat.isDigit_of_mem_toDigits (by decide) (by decide) hc
  rw [numbers_digits _ _ _ hdigits, pad, Nat.ofDigitChars_append, Nat.ofDigitChars_replicate_zero,
    Nat.mul_zero, Nat.ofDigitChars_ten_toDigits]

theorem numbers_sep {c : Char} (h : c.isDigit = false) (n : Nat) (cs : List Char) :
    numbers n (c :: cs) = n :: numbers 0 cs := by
  rw [numbers, if_neg (by simp [h])]

theorem numbers_render (y m d h mi s ms : Nat) :
    numbers 0 (render y m d h mi s ms) =
      if y < 10000 then [y, m, d, h, mi, s, ms, 0] else [0, y, m, d, h, mi, s, ms, 0] := by
  have hlast : numbers ms ['Z'] = [ms, 0] := numbers_sep rfl ms []
  have hrest : ∀ width, numbers 0 (pad width y ++ '-' :: (pad 2 m ++ '-' :: (pad 2 d ++
      'T' :: (pad 2 h ++ ':' :: (pad 2 mi ++ ':' :: (pad 2 s ++ '.' :: (pad 3 ms ++ ['Z']))))))) =
      [y, m, d, h, mi, s, ms, 0] := by
    intro width
    rw [numbers_pad, numbers_sep rfl, numbers_pad, numbers_sep rfl, numbers_pad, numbers_sep rfl,
      numbers_pad, numbers_sep rfl, numbers_pad, numbers_sep rfl, numbers_pad, numbers_sep rfl,
      numbers_pad, hlast]
  unfold render
  split
  · exact hrest 4
  · rw [List.cons_append, numbers_sep rfl, hrest]

theorem candidate_toISOString (ms : Nat) : candidate (toISOString ms) = some ms := by
  have hdays := daysOf_civil (ms / 86400000)
  have htime : ∀ y m d, daysOf y m d = ms / 86400000 →
      timeOf y m d (ms / 3600000 % 24) (ms / 60000 % 60) (ms / 1000 % 60) (ms % 1000) = ms := by
    intro y m d h
    rw [timeOf, h]
    omega
  rw [candidate, toISOString, String.toList_ofList, numbers_render]
  split_ifs
  · exact congrArg some (htime _ _ _ hdays)
  · exact congrArg some (htime _ _ _ hdays)

theorem parse_toISOString (ms : Nat) : parse (toISOString ms) = some ms := by
  rw [parse, candidate_toISOString, Option.filter_some, if_pos (beq_self_eq_true _)]

theorem toISOString_ne_empty (ms : Nat) : toISOString ms ≠ "" := by
  intro h
  have hparse := parse_toISOString ms
  rw [h] at hparse
  cases hparse

end IsoDate
