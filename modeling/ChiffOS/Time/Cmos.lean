import ChiffOS.Time.Localtime

/-! The real time clock, `cmos.c`: the registers are read until two readings agree, and the seconds from
1970 on are counted from their decimal digits. -/

namespace ChiffOS.Time.Cmos

def cmosSecond : ℕ := 0
def cmosMinute : ℕ := 2
def cmosHour : ℕ := 4
def cmosDay : ℕ := 7
def cmosMonth : ℕ := 8
def cmosYear : ℕ := 9

def fromBcd (val : ℕ) : ℕ := val / 16 * 10 + val % 16

def addsDay (years : ℕ) : Bool :=
  if years % 4 = 0 then
    if years % 100 = 0 then decide (years % 400 = 0) else true
  else false

def secsOfYears (years : ℤ) : ℕ := daysOfYears addsDay (years + 2000).toNat * 86400 % 2 ^ 32

/-- The days that a case of the `switch` adds; the cases fall through. -/
def caseDays (year : ℕ) : (months : ℕ) → ℕ
  | 11 => 30
  | 10 => 31
  | 9 => 30
  | 8 => 31
  | 7 => 31
  | 6 => 30
  | 5 => 31
  | 4 => 30
  | 3 => 31
  | 2 => 28 + if year % 4 = 0 ∧ (year % 100 ≠ 0 ∨ year % 400 = 0) then 1 else 0
  | 1 => 31
  | _ => 0

def casesFrom (year : ℕ) : (months : ℕ) → ℕ
  | 0 => 0
  | months + 1 => caseDays year (months + 1) + casesFrom year months

def daysOfMonth (months year : ℕ) : ℕ := if months ≤ 11 then casesFrom (year + 2000) months else 0

def secsOfMonth (months year : ℕ) : ℕ := daysOfMonth months year * 86400 % 2 ^ 32

/-- What the data port gives, for each access and the register that is selected. -/
abbrev Port := ℕ → ℕ → UInt8

section

variable (port : Port)

def isUpdateInProgress (k : ℕ) : Prop := port k 0x0a &&& 0x80 ≠ 0

instance (k : ℕ) : Decidable (isUpdateInProgress port k) := inferInstanceAs (Decidable (_ ≠ _))

def waitUpdate : (fuel k : ℕ) → Option ℕ
  | 0, _ => none
  | fuel + 1, k => if isUpdateInProgress port k then waitUpdate fuel (k + 1) else some (k + 1)

def cmosDump (k : ℕ) : ℕ → ℕ := fun index => (port (k + index) index).toNat

def registers : List ℕ := [cmosSecond, cmosMinute, cmosHour, cmosDay, cmosMonth, cmosYear]

def settle : (fuel k : ℕ) → (values : ℕ → ℕ) → Option (ℕ → ℕ)
  | 0, _, _ => none
  | fuel + 1, k, oldValues => do
    let k ← waitUpdate port fuel k
    let values := cmosDump port k
    if ∃ r ∈ registers, oldValues r ≠ values r then settle fuel (k + 128) values else some values

end

def mathTime (values : ℕ → ℕ) : ℕ :=
  (secsOfYears ((fromBcd (values cmosYear) : ℤ) - 1) + secsOfMonth (fromBcd (values cmosMonth) - 1)
    (fromBcd (values cmosYear)) +
    (fromBcd (values cmosDay) - 1) * 86400 + fromBcd (values cmosHour) * 3600 + fromBcd
      (values cmosMinute) * 60 +
    fromBcd (values cmosSecond)) % 2 ^ 32

def readCmos (port : Port) (fuel : ℕ) : Option ℕ := do
  let k ← waitUpdate port fuel 0
  let values ← settle port fuel (k + 128) (cmosDump port k)
  return mathTime values

/-! ### Stable registers -/

def bcd (n : ℕ) : UInt8 := UInt8.ofNat (n / 10 * 16 + n % 10)

/-- The clock stands at a time while it is read, and an update comes to its end. -/
structure Shows (port : Port) (tm : Tm) : Prop where
  valid : tm.Valid
  century : 2000 ≤ tm.tmYear + 1900 ∧ tm.tmYear + 1900 ≤ 2099
  second : ∀ k, port k cmosSecond = bcd tm.tmSec
  minute : ∀ k, port k cmosMinute = bcd tm.tmMin
  hour : ∀ k, port k cmosHour = bcd tm.tmHour
  day : ∀ k, port k cmosDay = bcd tm.tmMday
  month : ∀ k, port k cmosMonth = bcd (tm.tmMon + 1)
  year : ∀ k, port k cmosYear = bcd (tm.year - 2000)
  updated : ∀ k, ∃ j, ¬ isUpdateInProgress port (k + j)

theorem fromBcd_bcd {n : ℕ} (h : n < 100) : fromBcd (bcd n).toNat = n := by
  rw [bcd, UInt8.toNat_ofNat', fromBcd]
  omega

theorem addsDay_iff (year : ℕ) : addsDay year = true ↔ Leap year := by
  unfold addsDay Leap
  split_ifs with h4 h100
  · simp [h4, h100]
  · simp [h4, h100]
  · simp [h4]

theorem caseDays_eq (year : ℕ) {month : ℕ} (h : month < 11) : caseDays year (month + 1) =
    monthLength year month := by
  have hleap : (28 + if year % 4 = 0 ∧ (year % 100 ≠ 0 ∨ year % 400 = 0) then 1 else 0) =
    if Leap year then 29 else 28 := by
    by_cases hl : Leap year
    · rw [if_pos hl]
      exact congrArg (28 + ·) (if_pos hl)
    · rw [if_neg hl]
      exact congrArg (28 + ·) (if_neg hl)
  interval_cases month
  case «1» => exact hleap
  all_goals rfl

theorem casesFrom_eq (year : ℕ) {months : ℕ} (h : months ≤ 11) : casesFrom year months =
    daysBeforeMonth year months := by
  induction months with
  | zero => rw [daysBeforeMonth_first, casesFrom]
  | succ months ih => rw [casesFrom, ih (by omega), caseDays_eq year h, daysBeforeMonth_succ, Nat.add_comm]

theorem waitUpdate_spec {port : Port} (j : ℕ) : ∀ {k : ℕ}, ¬ isUpdateInProgress port (k + j) →
    ∃ k', ∀ fuel, j < fuel → waitUpdate port fuel k = some k' := by
  induction j with
  | zero =>
    intro k hk
    refine ⟨k + 1, fun fuel hfuel => ?_⟩
    obtain ⟨fuel, rfl⟩ := Nat.exists_eq_succ_of_ne_zero hfuel.ne'
    exact if_neg hk
  | succ j ih =>
    intro k hk
    obtain ⟨k', hk'⟩ := @ih (k + 1) (by rwa [Nat.add_right_comm, Nat.add_assoc])
    by_cases hnow : isUpdateInProgress port k
    · refine ⟨k', fun fuel hfuel => ?_⟩
      obtain ⟨fuel, rfl⟩ := Nat.exists_eq_succ_of_ne_zero (Nat.ne_of_gt (Nat.zero_lt_of_lt hfuel))
      rw [waitUpdate, if_pos hnow]
      exact hk' fuel (by omega)
    · refine ⟨k + 1, fun fuel hfuel => ?_⟩
      obtain ⟨fuel, rfl⟩ := Nat.exists_eq_succ_of_ne_zero (Nat.ne_of_gt (Nat.zero_lt_of_lt hfuel))
      exact if_neg hnow

section

variable {port : Port} {tm : Tm} (h : Shows port tm)
include h

theorem Shows.agree (k k' : ℕ) : ¬ ∃ r ∈ registers, cmosDump port k r ≠ cmosDump port k' r := by
  rintro ⟨r, hr, hne⟩
  simp only [registers, List.mem_cons, List.not_mem_nil, or_false] at hr
  rcases hr with rfl | rfl | rfl | rfl | rfl | rfl <;> apply hne <;> simp only [cmosDump]
  · rw [h.second, h.second]
  · rw [h.minute, h.minute]
  · rw [h.hour, h.hour]
  · rw [h.day, h.day]
  · rw [h.month, h.month]
  · rw [h.year, h.year]

theorem Shows.readCmos : ∃ k enough, ∀ fuel, enough ≤ fuel → readCmos port fuel =
    some (mathTime (cmosDump port k)) := by
  obtain ⟨i, hi⟩ := h.updated 0
  obtain ⟨k, hk⟩ := waitUpdate_spec i hi
  obtain ⟨j, hj⟩ := h.updated (k + 128)
  obtain ⟨l, hl⟩ := waitUpdate_spec j hj
  refine ⟨l, i + j + 2, fun fuel hfuel => ?_⟩
  obtain ⟨fuel, rfl⟩ := Nat.exists_eq_succ_of_ne_zero (show fuel ≠ 0 by omega)
  have hsettle : settle port (fuel + 1) (k + 128) (cmosDump port k) = some (cmosDump port l) := by
    rw [settle, hl fuel (by omega), Option.bind_eq_bind, Option.bind_some]
    exact if_neg (h.agree k l)
  rw [Cmos.readCmos, hk (fuel + 1) (by omega), Option.bind_eq_bind, Option.bind_some, hsettle]
  rfl

theorem Shows.year_eq : tm.year - 2000 < 100 ∧ (((tm.year - 2000 : ℕ) : ℤ) - 1 + 2000).toNat + 1 = tm.year ∧
    tm.year - 2000 + 2000 = tm.year ∧
    2000 ≤ tm.year := by
  have := h.century
  rw [Tm.year]
  omega

theorem Shows.mathTime (k : ℕ) : mathTime (cmosDump port k) = tm.instant % 2 ^ 32 := by
  obtain ⟨hyear, hprev, hback, hge⟩ := h.year_eq
  have hmon := h.valid.mon
  have hday : tm.tmMday < 100 := (h.valid.mday.2.trans (monthLength_le _ _)).trans_lt (by decide)
  have hyears : daysOfYears addsDay (((tm.year - 2000 : ℕ) : ℤ) - 1 + 2000).toNat =
    daysBeforeYear tm.year := by
    rw [daysOfYears_eq addsDay_iff (by omega), hprev]
  have hmonths : daysOfMonth tm.tmMon (tm.year - 2000) = daysBeforeMonth tm.year tm.tmMon := by
    rw [daysOfMonth, if_pos (by omega), hback, casesFrom_eq _ (by omega)]
  simp only [Cmos.mathTime, cmosDump, h.second, h.minute, h.hour, h.day, h.month, h.year]
  rw [fromBcd_bcd hyear, fromBcd_bcd (show tm.tmMon + 1 < 100 by omega), fromBcd_bcd hday,
    fromBcd_bcd (h.valid.hour.trans (by decide)),
    fromBcd_bcd (h.valid.min.trans (by decide)), fromBcd_bcd (h.valid.sec.trans (by decide)),
      Nat.add_sub_cancel, secsOfYears, secsOfMonth,
    hyears, hmonths, Tm.instant, Tm.yday]
  generalize daysBeforeYear tm.year = D
  generalize daysBeforeMonth tm.year tm.tmMon = M
  omega

theorem Shows.instant_lt : tm.instant < 2 ^ 32 := by
  have hyday := h.valid.yday_lt
  have hcentury := h.century
  obtain ⟨n, hn⟩ : ∃ n, tm.year + 1 + n = 2100 := ⟨2100 - (tm.year + 1), by rw [Tm.year]; omega⟩
  have hfrom : 1970 ≤ tm.year := by
    rw [Tm.year]
    omega
  have hlast := (daysBeforeYear_add (show 1970 ≤ tm.year + 1 by omega) n).1
  rw [hn, daysBeforeYear_succ hfrom, show daysBeforeYear 2100 = 47482 by decide +kernel] at hlast
  have hhour := h.valid.hour
  have hmin := h.valid.min
  have hsec := h.valid.sec
  rw [Tm.instant]
  generalize daysBeforeYear tm.year = D at *
  generalize yearLength tm.year = L at *
  omega

end

/-- The clock gives the time it stands at, and nothing overflows. -/
theorem read_cmos_instant (port : Port) (tm : Tm) (h : Shows port tm) :
    tm.instant < 2 ^ 32 ∧ ∃ enough, ∀ fuel, enough ≤ fuel → readCmos port fuel = some tm.instant := by
  have hlt := h.instant_lt
  obtain ⟨k, enough, hread⟩ := h.readCmos
  refine ⟨hlt, enough, fun fuel hfuel => ?_⟩
  rw [hread fuel hfuel, h.mathTime, Nat.mod_eq_of_lt hlt]

/-- A clock that stands at a time, without an update. -/
def standing (tm : Tm) : Port := fun _ r =>
  if r = cmosSecond then bcd tm.tmSec
  else if r = cmosMinute then bcd tm.tmMin
  else if r = cmosHour then bcd tm.tmHour
  else if r = cmosDay then bcd tm.tmMday
  else if r = cmosMonth then bcd (tm.tmMon + 1)
  else if r = cmosYear then bcd (tm.year - 2000)
  else 0

def leapDay : Tm := ⟨0, 0, 12, 29, 1, 124, 4, 59, 0⟩

theorem standing_shows : Shows (standing leapDay) leapDay :=
  ⟨⟨by decide, by decide, ⟨by decide, by decide +kernel⟩, by decide, by decide, by decide⟩, by decide,
    fun _ => rfl, fun _ => rfl, fun _ => rfl,
    fun _ => rfl, fun _ => rfl, fun _ => rfl, fun _ =>
      ⟨0, fun hn => hn (show (0 : UInt8) &&& 0x80 = 0 by decide)⟩⟩

theorem read_cmos_leapDay : ∃ enough, ∀ fuel, enough ≤ fuel → readCmos (standing leapDay) fuel =
    some 1709208000 := by
  have hinstant : leapDay.instant = 1709208000 := by decide +kernel
  rw [← hinstant]
  exact (read_cmos_instant (standing leapDay) leapDay standing_shows).2

end ChiffOS.Time.Cmos
