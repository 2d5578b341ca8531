import ChiffOS.Time.Calendar

/-! `localtime_r` and `mktime` of `localtime.c`. The searches for the month, the day and the hour take the
second at which an interval ends for one that is inside, and December has no days. -/

namespace ChiffOS.Time

def secDay : ℕ := 86400

def yearIsLeap (year : ℕ) : Bool := decide (year % 4 = 0) &&
    (decide (year % 100 ≠ 0) || decide (year % 400 = 0))

def dayOfWeek (seconds : ℕ) : ℕ := (seconds / secDay + 4) % 7

def daysInMonth (month year : ℕ) : ℕ :=
  match month with
  | 11 => 30
  | 10 => 31
  | 9 => 30
  | 8 => 31
  | 7 => 31
  | 6 => 30
  | 5 => 31
  | 4 => 30
  | 3 => 31
  | 2 => if yearIsLeap year then 29 else 28
  | 1 => 31
  | _ => 0

/-- `localtime_r`, with `none` for a null pointer. No sum reaches 2^31 for a time before 2038. -/
def localtimeR (timep : ℕ) : Option Tm := do
  let (year, yearSec) ← search (fun year => (if yearIsLeap year then 366 else 365) * 86400) (timep + 1) 130
    1970 0
  let (month, seconds) ← search (fun month => daysInMonth month year * secDay) timep 12 1 yearSec
  let (day, seconds) ← search (fun _ => 60 * 60 * 24) timep (daysInMonth month year) 1 seconds
  let (hour, seconds) ← search (fun _ => 60 * 60) timep 24 1 seconds
  let remaining := timep - seconds
  return {
    tmYear := year - 1900
    tmMon := month - 1
    tmMday := day
    tmHour := hour - 1
    tmMin := remaining / 60
    tmSec := remaining % 60
    tmWday := dayOfWeek timep
    tmYday := (timep - yearSec) / secDay
    tmIsdst := 0 }

def daysOfYears (leap : ℕ → Bool) : (years : ℕ) → ℕ
  | 0 => 0
  | years + 1 => if years + 1 > 1969 then 365 + (if leap (years + 1) then 1 else 0) + daysOfYears leap years
    else 0

def secsOfYears (years : ℤ) : ℕ := daysOfYears yearIsLeap (years + 2000).toNat * 86400 % 2 ^ 32

def secsOfMonth (months year : ℕ) : ℕ := (List.range' 1 (months - 1)).foldl
    (fun days _ => days + daysInMonth months year) 0 * secDay

def mktime (tm : Tm) : ℕ :=
  (secsOfYears (tm.tmYear + 1900) + secsOfMonth tm.tmMon (tm.tmYear + 1900).toNat + (tm.tmMday - 1) * 86400 +
    tm.tmHour * 3600 + tm.tmMin * 60 + tm.tmSec) % 2 ^ 32

/-! ### Lengths -/

theorem yearIsLeap_iff (year : ℕ) : yearIsLeap year = true ↔ Leap year := by
  simp [yearIsLeap, Leap]

theorem yearIsLeap_length (year : ℕ) : (if yearIsLeap year then 366 else 365) = yearLength year :=
    if_congr (yearIsLeap_iff year) rfl rfl

theorem daysInMonth_eq (year : ℕ) {month : ℕ} (h : month < 11) : daysInMonth (1 + month) year =
    monthLength year month := by
  have hleap := yearIsLeap_iff year
  interval_cases month <;> simp [daysInMonth, monthLength, hleap]

theorem daysInMonth_december (year : ℕ) : daysInMonth (1 + 11) year = 0 := rfl

open Search

theorem total_years (k : ℕ) : total (fun year => (if yearIsLeap year then 366 else 365) * 86400) 1970 k =
    daysBeforeYear (1970 + k) * 86400 := by
  induction k with
  | zero => simp [total_zero, daysBeforeYear_first]
  | succ k ih =>
    have hnext := daysBeforeYear_succ (Nat.le_add_right 1970 k)
    rw [Nat.add_assoc] at hnext
    rw [total_succ, ih, yearIsLeap_length, hnext, Nat.add_mul]

theorem total_months (year : ℕ) {k : ℕ} (h : k ≤ 11) :
    total (fun month => daysInMonth month year * secDay) 1 k = daysBeforeMonth year k * 86400 := by
  induction k with
  | zero => rw [total_zero, daysBeforeMonth_first, Nat.zero_mul]
  | succ k ih =>
    rw [total_succ, ih (by omega), daysInMonth_eq year (by omega), daysBeforeMonth_succ, Nat.add_mul, secDay]

theorem total_year (year : ℕ) : total (fun month => daysInMonth month year * secDay) 1 12 =
    daysBeforeMonth year 11 * 86400 := by
  rw [total_succ, total_months year le_rfl, daysInMonth_december, Nat.zero_mul, Nat.add_zero]

/-! ### The searches -/

/-- What `localtime_r` has found, as the numbers of whole years, months, days and hours. -/
structure Found (t y m d h : ℕ) : Prop where
  yearStart : daysBeforeYear (1970 + y) * 86400 ≤ t
  yearEnd : t < daysBeforeYear (1970 + y + 1) * 86400
  month : m < 11
  monthStart : m = 0 ∨ (daysBeforeYear (1970 + y) + daysBeforeMonth (1970 + y) m) * 86400 < t
  day : d < monthLength (1970 + y) m
  dayStart : d = 0 ∨ (daysBeforeYear (1970 + y) + daysBeforeMonth (1970 + y) m + d) * 86400 < t
  hour : h < 24
  hourStart : h = 0 ∨ (daysBeforeYear (1970 + y) + daysBeforeMonth (1970 + y) m + d) * 86400 + h * 3600 < t
  hourEnd : t ≤ (daysBeforeYear (1970 + y) + daysBeforeMonth (1970 + y) m + d) * 86400 + h * 3600 + 3600

def foundTm (t y m d h : ℕ) : Tm where
  tmYear := (1970 + y : ℕ) - 1900
  tmMon := m
  tmMday := d + 1
  tmHour := h
  tmMin := (t - ((daysBeforeYear (1970 + y) + daysBeforeMonth (1970 + y) m + d) * 86400 + h * 3600)) / 60
  tmSec := (t - ((daysBeforeYear (1970 + y) + daysBeforeMonth (1970 + y) m + d) * 86400 + h * 3600)) % 60
  tmWday := dayOfWeek t
  tmYday := (t - daysBeforeYear (1970 + y) * 86400) / secDay
  tmIsdst := 0

theorem localtimeR_some {t : ℕ} {tm : Tm} (h : localtimeR t = some tm) : ∃ y m d h, Found t y m d h ∧ tm =
    foundTm t y m d h := by
  simp only [localtimeR, Option.bind_eq_bind, Option.bind_eq_some_iff, Option.pure_def,
    Option.some.injEq] at h
  obtain ⟨⟨year, yearSec⟩, h1, ⟨month, s2⟩, h2, ⟨day, s3⟩, h3, ⟨hour, s4⟩, h4, rfl⟩ := h
  obtain ⟨y, -, rfl, rfl, hyear, hy⟩ := search_some h1
  obtain ⟨m, hm, rfl, rfl, hmonth, hm0⟩ := search_some h2
  obtain ⟨d, hd, rfl, rfl, -, hd0⟩ := search_some h3
  obtain ⟨k, hk, rfl, rfl, hhour, hk0⟩ := search_some h4
  clear h1 h2 h3 h4
  have hm11 : m < 11 := by
    rcases (by omega : m < 11 ∨ m = 11) with hlt | rfl
    · exact hlt
    · rw [daysInMonth_december] at hd
      exact absurd hd (Nat.not_lt_zero d)
  dsimp only at *
  rw [Nat.zero_add, total_years] at *
  rw [total_months _ hm11.le] at *
  rw [total_const] at hd0 hk0 hhour ⊢
  rw [total_const] at hk0 hhour ⊢
  rw [daysInMonth_eq _ hm11] at hd
  rw [yearIsLeap_length, ← Nat.add_mul, ← daysBeforeYear_succ (Nat.le_add_right 1970 y)] at hyear
  refine ⟨y, m, d, k, ⟨?_, hyear, hm11, ?_, hd, ?_, hk, ?_, ?_⟩, ?_⟩
  · rcases hy with rfl | hy
    · rw [daysBeforeYear_first, Nat.zero_mul]
      exact Nat.zero_le t
    · exact Nat.lt_succ_iff.mp hy
  · rw [Nat.add_mul]
    exact hm0
  · rw [Nat.add_mul, Nat.add_mul]
    exact hd0
  · rw [Nat.add_mul, Nat.add_mul]
    exact hk0
  · rw [Nat.add_mul, Nat.add_mul]
    exact hhour
  · rw [foundTm, Nat.add_sub_cancel_left, Nat.add_sub_cancel_left, Nat.add_comm 1 d, Nat.add_mul, Nat.add_mul]

def December (t : ℕ) : Prop :=
  ∃ y, (daysBeforeYear (1970 + y) + daysBeforeMonth (1970 + y) 11) * 86400 ≤ t ∧
    t < daysBeforeYear (1970 + y + 1) * 86400

def YearStart (t : ℕ) : Prop := ∃ y, t = daysBeforeYear (1970 + y) * 86400

theorem daysBeforeYear_last : daysBeforeYear (1970 + 68) * 86400 = 2145916800 := by decide +kernel

theorem localtimeR_isSome {t : ℕ} (ht : t < 2145916800) (hdec : ¬ December t) : ∃ tm, localtimeR t =
    some tm := by
  have hyears := total_mono (fun year => (if yearIsLeap year then 366 else 365) * 86400) 1970
    (show 68 ≤ 130 by decide)
  rw [total_years 68, daysBeforeYear_last] at hyears
  have hbound := (Nat.succ_le_of_lt ht).trans (hyears.trans_eq (Nat.zero_add _).symm)
  obtain ⟨⟨year, yearSec⟩, h1⟩ := Option.isSome_iff_exists.mp (search_isSome (by decide) hbound)
  obtain ⟨y, -, rfl, rfl, hyear, hy⟩ := search_some h1
  rw [Nat.zero_add, total_years] at h1 hyear hy
  rw [yearIsLeap_length, ← Nat.add_mul, ← daysBeforeYear_succ (Nat.le_add_right 1970 y)] at hyear
  -- the days before December are searched
  have hmonths : t ≤ daysBeforeYear (1970 + y) * 86400 + total (fun month =>
    daysInMonth month (1970 + y) * secDay) 1 12 := by
    rw [total_year, ← Nat.add_mul]
    by_contra hlt
    exact hdec ⟨y, (Nat.lt_of_not_le hlt).le, hyear⟩
  obtain ⟨⟨month, s2⟩, h2⟩ := Option.isSome_iff_exists.mp (search_isSome (by decide) hmonths)
  obtain ⟨m, hm, rfl, rfl, hmonth, hm0⟩ := search_some h2
  have hdays : t ≤ daysBeforeYear (1970 + y) * 86400 + total (fun month =>
    daysInMonth month (1970 + y) * secDay) 1 m +
      total (fun _ => 60 * 60 * 24) 1 (daysInMonth (1 + m) (1970 + y)) := by
    rw [total_const]
    exact hmonth
  have hpos : 0 < daysInMonth (1 + m) (1970 + y) := by
    rcases (by omega : m < 11 ∨ m = 11) with hlt | rfl
    · rw [daysInMonth_eq _ hlt]
      exact monthLength_pos _ _
    · rw [daysInMonth_december, Nat.zero_mul, Nat.add_zero] at hmonth
      exact absurd (hm0.resolve_left (by decide)) (Nat.not_lt.mpr hmonth)
  obtain ⟨⟨day, s3⟩, h3⟩ := Option.isSome_iff_exists.mp (search_isSome hpos hdays)
  obtain ⟨d, hd, rfl, rfl, hday, hd0⟩ := search_some h3
  have hhours : t ≤ daysBeforeYear (1970 + y) * 86400 + total (fun month =>
    daysInMonth month (1970 + y) * secDay) 1 m +
      total (fun _ => 60 * 60 * 24) 1 d + total (fun _ => 60 * 60) 1 24 := by
    rw [total_const (60 * 60) 1 24]
    exact hday
  obtain ⟨⟨hour, s4⟩, h4⟩ := Option.isSome_iff_exists.mp (search_isSome (by decide) hhours)
  have hfound : (localtimeR t).isSome := by
    simp only [localtimeR, h1, h2, h3, h4, Option.bind_eq_bind, Option.bind_some, Option.pure_def,
      Option.isSome_some]
  exact Option.isSome_iff_exists.mp hfound

section

variable {t y m d h : ℕ} (hf : Found t y m d h)
include hf

theorem Found.hour_le :
    (daysBeforeYear (1970 + y) + daysBeforeMonth (1970 + y) m + d) * 86400 + h * 3600 ≤ t := by
  obtain ⟨h1, -, -, h2, -, h3, -, h4, -⟩ := hf
  rcases h4 with rfl | h4
  · simp only [Nat.zero_mul, Nat.add_zero]
    rcases h3 with rfl | h3
    · simp only [Nat.add_zero]
      rcases h2 with rfl | h2
      · simp only [daysBeforeMonth_first, Nat.add_zero]
        exact h1
      · exact h2.le
    · exact h3.le
  · exact h4.le

theorem Found.yearStart_of_eq
    (he : (daysBeforeYear (1970 + y) + daysBeforeMonth (1970 + y) m + d) * 86400 + h * 3600 = t) :
    YearStart t := by
  obtain ⟨-, -, -, h2, -, h3, -, h4, -⟩ := hf
  obtain rfl := h4.resolve_right (by rw [he]; exact lt_irrefl t)
  rw [Nat.zero_mul, Nat.add_zero] at he
  obtain rfl := h3.resolve_right (by rw [he]; exact lt_irrefl t)
  rw [Nat.add_zero] at he
  obtain rfl := h2.resolve_right (by rw [he]; exact lt_irrefl t)
  rw [daysBeforeMonth_first, Nat.add_zero] at he
  exact ⟨y, he.symm⟩

theorem Found.year_eq {z : ℕ} (h1 : daysBeforeYear (1970 + z) * 86400 ≤ t)
    (h2 : t < daysBeforeYear (1970 + z + 1) * 86400) :
    1970 + z = 1970 + y :=
  year_unique (Nat.le_add_right _ _) (Nat.le_add_right _ _) ((Nat.le_div_iff_mul_le (by decide)).mpr h1)
    ((Nat.div_lt_iff_lt_mul (by decide)).mpr h2) ((Nat.le_div_iff_mul_le (by decide)).mpr hf.yearStart)
    ((Nat.div_lt_iff_lt_mul (by decide)).mpr hf.yearEnd)

theorem Found.eq_of_yearStart (hs : YearStart t) :
    (daysBeforeYear (1970 + y) + daysBeforeMonth (1970 + y) m + d) * 86400 + h * 3600 = t := by
  obtain ⟨z, hz⟩ := hs
  have hle := hf.hour_le
  have hlen := yearLength_bounds (1970 + z)
  have hnext : t < daysBeforeYear (1970 + z + 1) * 86400 := by
    rw [hz, daysBeforeYear_succ (Nat.le_add_right 1970 z)]
    exact Nat.mul_lt_mul_of_pos_right (Nat.lt_add_of_pos_right (by omega)) (by decide)
  have hyz := hf.year_eq hz.ge hnext
  rw [hyz] at hz
  generalize daysBeforeYear (1970 + y) = B at *
  generalize daysBeforeMonth (1970 + y) m = M at *
  omega

omit hf in
theorem foundTm_year : (foundTm t y m d h).year = 1970 + y := by
  show ((1970 + y : ℕ) - 1900 + 1900 : ℤ).toNat = _
  rw [Int.sub_add_cancel, Int.toNat_natCast]

theorem Found.denotes
    (hlt : t < (daysBeforeYear (1970 + y) + daysBeforeMonth (1970 + y) m + d) * 86400 + h * 3600 + 3600) :
    (foundTm t y m d h).Denotes t := by
  have hle := hf.hour_le
  have hyear : (foundTm t y m d h).year = 1970 + y := foundTm_year
  have hyday : (foundTm t y m d h).yday = daysBeforeMonth (1970 + y) m + d := by
    rw [Tm.yday, hyear]
    rfl
  refine ⟨⟨?_, hf.month.trans (by decide), ⟨Nat.le_add_left 1 d, ?_⟩, hf.hour, ?_, Nat.mod_lt _ (by decide)⟩,
    ?_, ?_, ?_⟩
  · show 1970 ≤ ((1970 + y : ℕ) - 1900 + 1900 : ℤ)
    omega
  · rw [hyear]
    exact hf.day
  · refine (Nat.div_lt_iff_lt_mul (by decide)).mpr ?_
    omega
  · rw [Tm.instant, hyear, hyday]
    show (_ + (_ + d)) * 86400 + h * 3600 + (t - _) / 60 * 60 + (t - _) % 60 = t
    rw [← Nat.add_assoc, Nat.add_assoc _ (_ / 60 * 60), Nat.div_add_mod']
    exact Nat.add_sub_cancel' hle
  · rw [hyday]
    show (t - _) / 86400 = _
    have hh := hf.hour
    generalize daysBeforeYear (1970 + y) = B at *
    generalize daysBeforeMonth (1970 + y) m = M at *
    omega
  · rw [hyear, hyday]
    show (t / 86400 + 4) % 7 = _
    have hh := hf.hour
    generalize daysBeforeYear (1970 + y) = B at *
    generalize daysBeforeMonth (1970 + y) m = M at *
    omega

theorem Found.not_december
    (hlt : t < (daysBeforeYear (1970 + y) + daysBeforeMonth (1970 + y) m + d) * 86400 + h * 3600 + 3600) :
    ¬ December t := by
  rintro ⟨z, hz, hnext⟩
  have hyz := hf.year_eq ((Nat.mul_le_mul_right _ (Nat.le_add_right _ _)).trans hz) hnext
  rw [hyz] at hz
  have hmonth := daysBeforeMonth_mono (1970 + y) (show m + 1 ≤ 11 from hf.month)
  rw [daysBeforeMonth_succ] at hmonth
  have hday := hf.day
  have hhour := hf.hour
  generalize daysBeforeYear (1970 + y) = B at *
  generalize daysBeforeMonth (1970 + y) m = M at *
  generalize daysBeforeMonth (1970 + y) 11 = N at *
  omega

end

/-- Which seconds have their date: those outside of December that are not the first of an hour, and the
first of each year. -/
theorem localtime_denotes_iff (t : ℕ) (ht : t < 2145916800) :
    (∃ tm, localtimeR t = some tm ∧ tm.Denotes t) ↔ ¬ December t ∧ (t % 3600 ≠ 0 ∨ YearStart t) := by
  constructor
  · rintro ⟨tm, htm, hden⟩
    obtain ⟨y, m, d, h, hf, rfl⟩ := localtimeR_some htm
    have hle := hf.hour_le
    have hmin : (t - _) / 60 < 60 := hden.valid.min
    have hlt := Nat.sub_lt_iff_lt_add' hle |>.mp ((Nat.div_lt_iff_lt_mul (by decide)).mp hmin)
    refine ⟨hf.not_december hlt, or_iff_not_imp_left.mpr fun hhour => hf.yearStart_of_eq ?_⟩
    generalize daysBeforeYear (1970 + y) = B at *
    generalize daysBeforeMonth (1970 + y) m = M at *
    omega
  · rintro ⟨hdec, hhour⟩
    obtain ⟨tm, htm⟩ := localtimeR_isSome ht hdec
    obtain ⟨y, m, d, h, hf, rfl⟩ := localtimeR_some htm
    refine ⟨_, htm, hf.denotes ?_⟩
    have hend := hf.hourEnd
    rcases hhour with hhour | hstart
    · generalize daysBeforeYear (1970 + y) = B at *
      generalize daysBeforeMonth (1970 + y) m = M at *
      omega
    · rw [hf.eq_of_yearStart hstart]
      exact Nat.lt_add_of_pos_right (by decide)

theorem not_december_of_lt {t : ℕ} (h : t < 86400) : ¬ December t := by
  rintro ⟨y, hy, -⟩
  have hmono := daysBeforeMonth_mono (1970 + y) (show 1 ≤ 11 by decide)
  have hjanuary : daysBeforeMonth (1970 + y) 1 = 31 := daysBeforeMonth_succ (1970 + y) 0
  generalize daysBeforeYear (1970 + y) = B at *
  generalize daysBeforeMonth (1970 + y) 11 = N at *
  omega

theorem localtime_denotes_one : ∃ tm, localtimeR 1 = some tm ∧ tm.Denotes 1 :=
  (localtime_denotes_iff 1 (by decide)).mpr ⟨not_december_of_lt (by decide), .inl (by decide)⟩

theorem localtimeR_hour : localtimeR 3600 = some ⟨0, 60, 0, 1, 0, 70, 4, 0, 0⟩ := by decide +kernel

/-- At one o'clock it is 60 minutes after midnight, and in the last night of 1970 there is no date. -/
theorem localtime_one_oclock : ¬ (∃ tm, localtimeR 3600 = some tm ∧ tm.Denotes 3600) ∧ localtimeR 31492801 =
    none := by
  refine ⟨?_, by decide +kernel⟩
  rintro ⟨tm, htm, hden⟩
  obtain rfl := Option.some.inj (localtimeR_hour.symm.trans htm)
  exact absurd hden.valid.min (by decide)

/-! ### `mktime` -/

theorem daysOfYears_zero (leap : ℕ → Bool) {years : ℕ} (h : years ≤ 1969) : daysOfYears leap years = 0 := by
  cases years with
  | zero => rfl
  | succ years => exact if_neg (Nat.not_lt.mpr h)

theorem daysOfYears_eq {leap : ℕ → Bool} (hleap : ∀ year, leap year = true ↔ Leap year) {years : ℕ}
    (h : 1969 ≤ years) :
    daysOfYears leap years = daysBeforeYear (years + 1) := by
  induction years, h using Nat.le_induction with
  | base => rw [daysOfYears_zero leap le_rfl, daysBeforeYear_first]
  | succ years hle ih =>
    rw [daysOfYears, if_pos (by omega), ih, daysBeforeYear_succ (show 1970 ≤ years + 1 by omega), yearLength,
      Nat.add_comm]
    by_cases hl : Leap (years + 1)
    · rw [if_pos ((hleap _).mpr hl), if_pos hl]
    · rw [if_neg fun hn => hl ((hleap _).mp hn), if_neg hl]

theorem secsOfMonth_eq (months year : ℕ) : secsOfMonth months year =
    (months - 1) * daysInMonth months year * 86400 := by
  have hfold : ∀ (l : List ℕ) (days : ℕ), l.foldl (fun days _ => days + daysInMonth months year) days =
      days + l.length * daysInMonth months year := by
    intro l
    induction l with
    | nil => exact fun days => by rw [List.foldl_nil, List.length_nil, Nat.zero_mul, Nat.add_zero]
    | cons a l ih =>
      intro days
      rw [List.foldl_cons, ih, List.length_cons, Nat.succ_mul, Nat.add_assoc,
        Nat.add_comm (daysInMonth months year)]
  rw [secsOfMonth, hfold, List.length_range', Nat.zero_add, secDay]

theorem daysInMonth_le (months year : ℕ) : daysInMonth months year ≤ 31 := by
  unfold daysInMonth
  split
  any_goals omega
  split_ifs <;> omega

/-- The years up to the given one and 2000 more are counted. -/
theorem secsOfYears_eq {tm : Tm} (h : tm.Valid) : secsOfYears (tm.tmYear + 1900) = daysBeforeYear
    (tm.year + 2001) * 86400 % 2 ^ 32 := by
  have hyear := h.year
  have hnat : (tm.tmYear + 1900 + 2000).toNat = tm.year + 2000 := by
    rw [Tm.year]
    omega
  rw [secsOfYears, hnat, daysOfYears_eq yearIsLeap_iff (by omega)]

/-- Seconds that differ by less than 2^25 whole days differ in 32 bits. -/
theorem days_mod_ne {x y r : ℕ} (hlt : y < x) (hx : x < y + 2 ^ 25) :
    (x * 86400 + r) % 2 ^ 32 ≠ y * 86400 + r := by
  intro he
  have hmod : y * 86400 + r ≡ x * 86400 + r [MOD 2 ^ 32] := by
    rw [Nat.ModEq, ← he, Nat.mod_mod]
  have hdays := Nat.ModEq.cancel_right_div_gcd (by decide) (Nat.ModEq.add_right_cancel' r hmod)
  have hdvd : 2 ^ 25 ∣ x - y := (Nat.modEq_iff_dvd' hlt.le).mp hdays
  have hle := Nat.le_of_dvd (by omega) hdvd
  omega

/-- The days that are counted too much do not get lost in the reduction. -/
theorem mktime_ne {tm : Tm} (h : tm.Valid) : mktime tm ≠ tm.instant := by
  have hfrom : 1970 ≤ tm.year := by
    have := h.year
    rw [Tm.year]
    omega
  obtain ⟨hlo, hhi⟩ := daysBeforeYear_add hfrom 2001
  have hmonth := daysBeforeMonth_mono tm.year h.mon.le
  have hyear := (yearLength_bounds tm.year).2
  rw [daysBeforeMonth_year] at hmonth
  have hwrong : (tm.tmMon - 1) * daysInMonth tm.tmMon tm.year ≤ 10 * 31 :=
    Nat.mul_le_mul (by have := h.mon; omega) (daysInMonth_le _ _)
  have hbounds : ∀ {D D' P M L : ℕ} (d : ℕ), D + 365 * 2001 ≤ D' → D' ≤ D + 366 * 2001 → M ≤ L → L ≤ 366 →
    P ≤ 10 * 31 →
      D + (M + d) < D' + P + d ∧ D' + P + d < D + (M + d) + 2 ^ 25 := by
    intros
    omega
  obtain ⟨hlt, hgt⟩ := hbounds (tm.tmMday - 1) hlo hhi hmonth hyear hwrong
  have hne := @days_mod_ne (daysBeforeYear (tm.year + 2001) + (tm.tmMon - 1) * daysInMonth tm.tmMon
    tm.year + (tm.tmMday - 1))
    (daysBeforeYear tm.year + tm.yday) (tm.tmHour * 3600 + tm.tmMin * 60 + tm.tmSec) hlt hgt
  have hmk : mktime tm =
    ((daysBeforeYear (tm.year + 2001) + (tm.tmMon - 1) * daysInMonth tm.tmMon tm.year + (tm.tmMday - 1)) *
    86400 +
      (tm.tmHour * 3600 + tm.tmMin * 60 + tm.tmSec)) % 2 ^ 32 := by
    rw [mktime, secsOfYears_eq h, secsOfMonth_eq, Nat.add_assoc, Nat.add_assoc, Nat.add_assoc, Nat.add_assoc,
      Nat.mod_add_mod, Nat.add_mul, Nat.add_mul, Tm.year]
    simp only [Nat.add_assoc]
  rw [hmk, Tm.instant]
  simpa only [Nat.add_assoc] using hne

def firstOf (month : ℕ) (year : ℤ) : Tm := ⟨0, 0, 0, 1, month, year, 0, 0, 0⟩

theorem firstOf_valid {year : ℤ} (hy : 1970 ≤ year + 1900) {month : ℕ} (hm : month < 12) :
    (firstOf month year).Valid :=
  ⟨hy, hm, ⟨le_rfl, monthLength_pos _ _⟩, Nat.succ_pos 23, Nat.succ_pos 59, Nat.succ_pos 59⟩

/-- No time is right, and the first days of January and February are the same. -/
theorem mktime_never (tm : Tm) (h : tm.Valid) : mktime tm ≠ tm.instant ∧
    ∃ a b : Tm, a.Valid ∧ b.Valid ∧ a.tmYear = tm.tmYear ∧ b.tmYear = tm.tmYear ∧ a.instant < b.instant ∧
      mktime a = mktime b := by
  refine ⟨mktime_ne h, firstOf 0 tm.tmYear, firstOf 1 tm.tmYear, firstOf_valid h.year (by decide),
    firstOf_valid h.year (by decide),
    rfl, rfl, ?_, rfl⟩
  have hsecs : ∀ month, (firstOf month tm.tmYear).instant =
    (daysBeforeYear tm.year + daysBeforeMonth tm.year month) * 86400 := by
    intro month
    simp only [Tm.instant, Tm.yday, Tm.year, firstOf, Nat.sub_self, Nat.zero_mul, Nat.add_zero]
  have hjanuary : daysBeforeMonth tm.year 1 = 31 := daysBeforeMonth_succ _ 0
  rw [hsecs, hsecs, hjanuary, daysBeforeMonth_first]
  exact Nat.mul_lt_mul_of_pos_right (Nat.add_lt_add_left (by decide) _) (by decide)

theorem mktime_never_first : mktime (firstOf 0 70) ≠ 0 ∧ (firstOf 0 70).instant = 0 := by
  have hzero : (firstOf 0 70).instant = 0 := by decide +kernel
  have hne := (mktime_never (firstOf 0 70) (firstOf_valid (by decide) (by decide))).1
  rw [hzero] at hne
  exact ⟨hne, hzero⟩

theorem mktime_first : (firstOf 0 70).Valid ∧ (firstOf 0 70).instant = 0 ∧ mktime (firstOf 0 70) =
    3015897856 := by
  refine ⟨firstOf_valid (by decide) (by decide), ?_, ?_⟩
  · decide +kernel
  · decide +kernel

end ChiffOS.Time
