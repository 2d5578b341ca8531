import ChiffOS.Lib.Search

/-! The calendar: how long months and years are, and the second that a date and a time of day denote,
counted from the beginning of 1970. -/

namespace ChiffOS.Time

open Finset

def Leap (year : ℕ) : Prop := year % 4 = 0 ∧ (year % 100 ≠ 0 ∨ year % 400 = 0)

instance (year : ℕ) : Decidable (Leap year) := inferInstanceAs (Decidable (_ ∧ _))

def yearLength (year : ℕ) : ℕ := if Leap year then 366 else 365

def monthLength (year : ℕ) : (month : ℕ) → ℕ
  | 1 => if Leap year then 29 else 28
  | 3 | 5 | 8 | 10 => 30
  | _ => 31

def daysBeforeYear (year : ℕ) : ℕ := ∑ k ∈ Ico 1970 year, yearLength k

def daysBeforeMonth (year month : ℕ) : ℕ := ∑ k ∈ range month, monthLength year k

theorem daysBeforeYear_first : daysBeforeYear 1970 = 0 := by rw [daysBeforeYear, Ico_self, sum_empty]

theorem daysBeforeYear_succ {year : ℕ} (h : 1970 ≤ year) : daysBeforeYear (year + 1) =
    daysBeforeYear year + yearLength year :=
  sum_Ico_succ_top h _

theorem daysBeforeMonth_first (year : ℕ) : daysBeforeMonth year 0 = 0 := sum_range_zero _

theorem daysBeforeMonth_succ (year month : ℕ) :
    daysBeforeMonth year (month + 1) = daysBeforeMonth year month + monthLength year month :=
      sum_range_succ _ _

theorem daysBeforeMonth_year (year : ℕ) : daysBeforeMonth year 12 = yearLength year := by
  unfold daysBeforeMonth yearLength
  by_cases h : Leap year
  · simp [sum_range_succ, monthLength, h]
  · simp [sum_range_succ, monthLength, h]

theorem daysBeforeMonth_mono (year : ℕ) {m n : ℕ} (h : m ≤ n) :
    daysBeforeMonth year m ≤ daysBeforeMonth year n :=
  sum_le_sum_of_subset (range_subset_range.mpr h)

theorem monthLength_le (year month : ℕ) : monthLength year month ≤ 31 := by
  unfold monthLength
  split
  · split_ifs <;> omega
  all_goals omega

theorem monthLength_pos (year month : ℕ) : 0 < monthLength year month := by
  unfold monthLength
  split
  · split_ifs <;> omega
  all_goals omega

theorem yearLength_bounds (year : ℕ) : 365 ≤ yearLength year ∧ yearLength year ≤ 366 := by
  unfold yearLength
  split_ifs <;> omega

theorem daysBeforeYear_add {year : ℕ} (h : 1970 ≤ year) (n : ℕ) :
    daysBeforeYear year + 365 * n ≤ daysBeforeYear (year + n) ∧
      daysBeforeYear (year + n) ≤ daysBeforeYear year + 366 * n := by
  induction n with
  | zero =>
    rw [Nat.add_zero]
    exact ⟨le_rfl, le_rfl⟩
  | succ n ih =>
    have hlen := yearLength_bounds (year + n)
    have hnext := daysBeforeYear_succ (show 1970 ≤ year + n by omega)
    rw [show year + (n + 1) = year + n + 1 from rfl, hnext]
    exact ⟨by linarith [ih.1, hlen.1], by linarith [ih.2, hlen.2]⟩

theorem year_unique {y z d : ℕ} (hy : 1970 ≤ y) (hz : 1970 ≤ z) (h1 : daysBeforeYear y ≤ d)
    (h2 : d < daysBeforeYear (y + 1))
    (h3 : daysBeforeYear z ≤ d) (h4 : d < daysBeforeYear (z + 1)) : y = z := by
  rcases Nat.lt_trichotomy y z with hlt | heq | hlt
  · obtain ⟨n, rfl⟩ := Nat.exists_eq_add_of_le (show y + 1 ≤ z from hlt)
    have := (daysBeforeYear_add (show 1970 ≤ y + 1 by omega) n).1
    omega
  · exact heq
  · obtain ⟨n, rfl⟩ := Nat.exists_eq_add_of_le (show z + 1 ≤ y from hlt)
    have := (daysBeforeYear_add (show 1970 ≤ z + 1 by omega) n).1
    omega

structure Tm where
  tmSec : ℕ
  tmMin : ℕ
  tmHour : ℕ
  tmMday : ℕ
  tmMon : ℕ
  tmYear : ℤ
  tmWday : ℕ
  tmYday : ℕ
  tmIsdst : ℕ
deriving DecidableEq

namespace Tm

def year (tm : Tm) : ℕ := (tm.tmYear + 1900).toNat

/-- A date of the calendar from 1970 on, and a time of day. -/
structure Valid (tm : Tm) : Prop where
  year : 1970 ≤ tm.tmYear + 1900
  mon : tm.tmMon < 12
  mday : 1 ≤ tm.tmMday ∧ tm.tmMday ≤ monthLength tm.year tm.tmMon
  hour : tm.tmHour < 24
  min : tm.tmMin < 60
  sec : tm.tmSec < 60

def yday (tm : Tm) : ℕ := daysBeforeMonth tm.year tm.tmMon + (tm.tmMday - 1)

theorem Valid.yday_lt {tm : Tm} (h : tm.Valid) : tm.yday < yearLength tm.year := by
  have hmono := daysBeforeMonth_mono tm.year (show tm.tmMon + 1 ≤ 12 from h.mon)
  rw [daysBeforeMonth_succ, daysBeforeMonth_year] at hmono
  have hday := h.mday
  rw [yday]
  generalize daysBeforeMonth tm.year tm.tmMon = M at *
  generalize monthLength tm.year tm.tmMon = l at *
  generalize yearLength tm.year = L at *
  omega

def instant (tm : Tm) : ℕ :=
    (daysBeforeYear tm.year + tm.yday) * 86400 + tm.tmHour * 3600 + tm.tmMin * 60 + tm.tmSec

/-- All fields are those of the second `t`; the first day of 1970 was a Thursday. -/
structure Denotes (tm : Tm) (t : ℕ) : Prop where
  valid : tm.Valid
  instant : tm.instant = t
  yday : tm.tmYday = tm.yday
  wday : tm.tmWday = (daysBeforeYear tm.year + tm.yday + 4) % 7

end Tm

end ChiffOS.Time
