import Mathlib

/-!
# Civil dates

Dates of the proleptic Gregorian calendar and the days since the Unix epoch. `dayNumber` and
`ofDayNumber` are inverse to each other on valid dates (`dayNumber_ofDayNumber`,
`ofDayNumber_dayNumber`).

Both count years from March, so that the leap day is the last one of a year. `dayNumber` is linear in the
day, and takes month 13 to be the January of the next year.
-/

namespace FastOrchestration.Lib.Civil

structure Date where
  year : Int
  month : Int
  day : Int
deriving DecidableEq

def isLeapYear (y : Int) : Bool := y % 4 = 0 && (y % 100 ≠ 0 || y % 400 = 0)

def daysInMonth (m y : Int) : Int :=
  if m = 2 then if isLeapYear y then 29 else 28
  else if m = 4 ∨ m = 6 ∨ m = 9 ∨ m = 11 then 30
  else 31

structure Date.Valid (d : Date) : Prop where
  one_le_month : 1 ≤ d.month
  month_le : d.month ≤ 12
  one_le_day : 1 ≤ d.day
  day_le : d.day ≤ daysInMonth d.month d.year

/-- The days before March of year `y`. -/
def yearStart (y : Int) : Int := 365 * y + y / 4 - y / 100 + y / 400

/-- The days from the first of March to the first of the month, which is 0 for March. -/
def monthStart (m : Int) : Int := (153 * m + 2) / 5

/-- The days before 1970-01-01. -/
def epoch : Int := 719468

def dayNumber (d : Date) : Int :=
  yearStart (if d.month ≤ 2 then d.year - 1 else d.year) + monthStart ((d.month + 9) % 12) + d.day - 1 - epoch

/-- The year that a day falls in and the days of it before that day. Cycles of 400 years, centuries, leap
cycles and years are split off in turn; the last century and the last year of a cycle can be longer. -/
def yearOf (n : Int) : Int × Int :=
  let inCycle := n % 146097
  let century := min (inCycle / 36524) 3
  let inCentury := inCycle - 36524 * century
  let inLeap := inCentury % 1461
  let year := min (inLeap / 365) 3
  (400 * (n / 146097) + 100 * century + 4 * (inCentury / 1461) + year, inLeap - 365 * year)

def ofDayNumber (n : Int) : Date :=
  let (y, dayOfYear) := yearOf (n + epoch)
  let m := (5 * dayOfYear + 2) / 153
  { year := if m < 10 then y else y + 1
    month := if m < 10 then m + 3 else m - 9
    day := dayOfYear - monthStart m + 1 }

/-- The day of the week, from 0 for Sunday. -/
def weekday (n : Int) : Int := (n + 4) % 7

/-! ### Years -/

/-- The days of a year from March. Its February is the one of the next year. -/
lemma yearStart_succ (y : Int) : yearStart (y + 1) = yearStart y + 337 + daysInMonth 2 (y + 1) := by
  unfold yearStart daysInMonth isLeapYear
  simp only [if_true, ne_eq, Bool.and_eq_true, Bool.or_eq_true, decide_eq_true_eq, decide_not, Bool.not_eq_true',
    decide_eq_false_iff_not]
  split <;> omega

lemma february (y : Int) : daysInMonth 2 y = 28 ∨ daysInMonth 2 y = 29 := by
  show (if isLeapYear y then (29 : Int) else 28) = 28 ∨ (if isLeapYear y then (29 : Int) else 28) = 29
  split <;> simp

lemma yearStart_strictMono : StrictMono yearStart := by
  refine strictMono_int_of_lt_succ fun y => ?_
  have hlen := yearStart_succ y
  have hfeb := february (y + 1)
  omega

lemma yearStart_parts {c e q a} (he : 0 ≤ e ∧ e ≤ 3) (hq : 0 ≤ q ∧ q ≤ 24) (ha : 0 ≤ a ∧ a ≤ 3) :
    yearStart (400 * c + 100 * e + 4 * q + a) = 146097 * c + 36524 * e + 1461 * q + 365 * a := by
  unfold yearStart
  omega

/-- The next year starts after the days of a year, of a leap cycle, of a century or of a cycle. -/
lemma yearStart_parts_succ {c e q a} (he : 0 ≤ e ∧ e ≤ 3) (hq : 0 ≤ q ∧ q ≤ 24) (ha : 0 ≤ a ∧ a ≤ 3) :
    yearStart (400 * c + 100 * e + 4 * q + a + 1) =
      if a < 3 then 146097 * c + 36524 * e + 1461 * q + 365 * (a + 1)
      else if q < 24 then 146097 * c + 36524 * e + 1461 * (q + 1)
      else if e < 3 then 146097 * c + 36524 * (e + 1)
      else 146097 * (c + 1) := by
  unfold yearStart
  split_ifs <;> omega

lemma yearOf_spec (n : Int) : yearStart (yearOf n).1 + (yearOf n).2 = n ∧ 0 ≤ (yearOf n).2 ∧
    n < yearStart ((yearOf n).1 + 1) := by
  unfold yearOf
  dsimp only
  have hcycle : 0 ≤ n % 146097 ∧ n % 146097 < 146097 := by omega
  have hn : n = 146097 * (n / 146097) + n % 146097 := by omega
  generalize n / 146097 = c at *
  generalize n % 146097 = r at *
  have he : 0 ≤ min (r / 36524) 3 ∧ min (r / 36524) 3 ≤ 3 := by omega
  have hcentury : 0 ≤ r - 36524 * min (r / 36524) 3 ∧
      r - 36524 * min (r / 36524) 3 < if min (r / 36524) 3 < 3 then 36524 else 36525 := by
    split <;> omega
  generalize min (r / 36524) 3 = e at *
  generalize hr' : r - 36524 * e = r' at *
  have hq : 0 ≤ r' / 1461 ∧ r' / 1461 ≤ 24 := by split at hcentury <;> omega
  have hleap : r' = 1461 * (r' / 1461) + r' % 1461 ∧ 0 ≤ r' % 1461 ∧ r' % 1461 < 1461 := by omega
  generalize r' / 1461 = q at *
  generalize r' % 1461 = k at *
  have ha : 0 ≤ min (k / 365) 3 ∧ min (k / 365) 3 ≤ 3 := by omega
  have hk : 0 ≤ k - 365 * min (k / 365) 3 ∧ (min (k / 365) 3 < 3 → k - 365 * min (k / 365) 3 < 365) := by omega
  generalize min (k / 365) 3 = a at *
  rw [yearStart_parts he hq ha, yearStart_parts_succ he hq ha]
  refine ⟨by omega, by omega, ?_⟩
  split at hcentury <;> split_ifs <;> omega

lemma yearOf_eq {y k} (h0 : 0 ≤ k) (hk : yearStart y + k < yearStart (y + 1)) : yearOf (yearStart y + k) = (y, k) := by
  obtain ⟨hn, hnonneg, hlt⟩ := yearOf_spec (yearStart y + k)
  generalize yearOf (yearStart y + k) = found at hn hnonneg hlt
  obtain ⟨y', k'⟩ := found
  have hle : y' < y + 1 := yearStart_strictMono.lt_iff_lt.mp (by simp only at *; omega)
  have hge : y < y' + 1 := yearStart_strictMono.lt_iff_lt.mp (by simp only at *; omega)
  obtain rfl : y' = y := by omega
  simp only at hn
  congr 1
  omega

/-! ### Months -/

/-- The month with the given distance from March. -/
def monthOfYear (m : Int) : Int := if m < 10 then m + 3 else m - 9

lemma monthStart_succ {m} (h0 : 0 ≤ m) (h11 : m < 11) (y : Int) :
    monthStart (m + 1) = monthStart m + daysInMonth (monthOfYear m) y := by
  obtain rfl | rfl | rfl | rfl | rfl | rfl | rfl | rfl | rfl | rfl | rfl : m = 0 ∨ m = 1 ∨ m = 2 ∨ m = 3 ∨ m = 4 ∨ m = 5 ∨
    m = 6 ∨ m = 7 ∨ m = 8 ∨ m = 9 ∨ m = 10 := by omega
  all_goals simp [monthStart, daysInMonth, monthOfYear]

lemma monthStart_february : monthStart 11 = 337 := rfl

lemma monthOf_eq {m k} (hle : monthStart m ≤ k) (hlt : k < monthStart (m + 1)) : (5 * k + 2) / 153 = m := by
  unfold monthStart at *
  omega

/-! ### The round trip -/

/-- The year of a month given by its distance from March of year `y`. -/
def yearOfMonth (y m : Int) : Int := if m < 10 then y else y + 1

lemma monthStart_daysInMonth {m} (h0 : 0 ≤ m) (h11 : m ≤ 11) (y : Int) :
    monthStart m + daysInMonth (monthOfYear m) (yearOfMonth y m) ≤ monthStart (m + 1) ∧
      yearStart y + monthStart m + daysInMonth (monthOfYear m) (yearOfMonth y m) ≤ yearStart (y + 1) := by
  have hlen := yearStart_succ y
  have hfeb := february (y + 1)
  obtain rfl | hlt : m = 11 ∨ m < 11 := by omega
  · show monthStart 11 + daysInMonth 2 (y + 1) ≤ 367 ∧ yearStart y + monthStart 11 + daysInMonth 2 (y + 1) ≤ _
    rw [monthStart_february]
    omega
  have hsucc := monthStart_succ h0 hlt (yearOfMonth y m)
  have hle : monthStart (m + 1) ≤ 337 := by
    unfold monthStart
    omega
  omega

lemma dayNumber_eq {y m day} (h0 : 0 ≤ m) (h11 : m ≤ 11) :
    dayNumber ⟨yearOfMonth y m, monthOfYear m, day⟩ = yearStart y + monthStart m + day - 1 - epoch := by
  unfold dayNumber yearOfMonth monthOfYear
  dsimp only
  have hmonth : ((if m < 10 then m + 3 else m - 9) + 9) % 12 = m := by split <;> omega
  have hyear : (if (if m < 10 then m + 3 else m - 9) ≤ 2 then (if m < 10 then y else y + 1) - 1
      else if m < 10 then y else y + 1) = y := by
    split_ifs <;> omega
  rw [hmonth, hyear]

lemma ofDayNumber_eq {y m day} (h0 : 0 ≤ m) (h11 : m ≤ 11) (hday : 1 ≤ day)
    (hlast : day ≤ daysInMonth (monthOfYear m) (yearOfMonth y m)) :
    ofDayNumber (yearStart y + monthStart m + day - 1 - epoch) = ⟨yearOfMonth y m, monthOfYear m, day⟩ := by
  obtain ⟨hmonth, hyear⟩ := monthStart_daysInMonth h0 h11 y
  have hstart : 0 ≤ monthStart m := by
    unfold monthStart
    omega
  have hof : yearOf (yearStart y + monthStart m + day - 1 - epoch + epoch) = (y, monthStart m + day - 1) := by
    rw [← yearOf_eq (y := y) (k := monthStart m + day - 1) (by omega) (by omega)]
    congr 1
    omega
  unfold ofDayNumber
  rw [hof]
  dsimp only
  rw [@monthOf_eq m _ (by omega) (by omega)]
  unfold yearOfMonth monthOfYear
  congr 1
  omega

lemma exists_month (n : Int) : ∃ y m day, 0 ≤ m ∧ m ≤ 11 ∧ 1 ≤ day ∧ day ≤ daysInMonth (monthOfYear m) (yearOfMonth y m) ∧
    n = yearStart y + monthStart m + day - 1 - epoch := by
  obtain ⟨hn, hnonneg, hlt⟩ := yearOf_spec (n + epoch)
  generalize yearOf (n + epoch) = found at *
  obtain ⟨y, k⟩ := found
  dsimp only at *
  have hlen := yearStart_succ y
  have hfeb := february (y + 1)
  have hm : 0 ≤ (5 * k + 2) / 153 ∧ (5 * k + 2) / 153 ≤ 11 := by omega
  have hle : monthStart ((5 * k + 2) / 153) ≤ k := by
    unfold monthStart
    omega
  have hlt : k < monthStart ((5 * k + 2) / 153 + 1) := by
    unfold monthStart
    omega
  generalize (5 * k + 2) / 153 = m at *
  refine ⟨y, m, k - monthStart m + 1, hm.1, hm.2, by omega, ?_, by omega⟩
  obtain rfl | hm11 : m = 11 ∨ m < 11 := by omega
  -- February ends the year, so its length is what is left of the year.
  · show k - monthStart 11 + 1 ≤ daysInMonth 2 (y + 1)
    rw [monthStart_february]
    omega
  have hsucc := monthStart_succ hm.1 hm11 (yearOfMonth y m)
  omega

lemma valid_ofDayNumber (n : Int) : (ofDayNumber n).Valid := by
  obtain ⟨y, m, day, h0, h11, hday, hlast, rfl⟩ := exists_month n
  rw [ofDayNumber_eq h0 h11 hday hlast]
  have hmonth : 1 ≤ monthOfYear m ∧ monthOfYear m ≤ 12 := by
    unfold monthOfYear
    split <;> omega
  exact ⟨hmonth.1, hmonth.2, hday, hlast⟩

lemma dayNumber_ofDayNumber (n : Int) : dayNumber (ofDayNumber n) = n := by
  obtain ⟨y, m, day, h0, h11, hday, hlast, rfl⟩ := exists_month n
  rw [ofDayNumber_eq h0 h11 hday hlast, dayNumber_eq h0 h11]

lemma ofDayNumber_dayNumber {d : Date} (h : d.Valid) : ofDayNumber (dayNumber d) = d := by
  obtain ⟨year, month, day⟩ := d
  obtain ⟨h1, h12, hday, hlast⟩ := h
  dsimp only at h1 h12 hday hlast
  obtain ⟨y, m, h0, h11, rfl, rfl⟩ : ∃ y m, 0 ≤ m ∧ m ≤ 11 ∧ year = yearOfMonth y m ∧ month = monthOfYear m := by
    refine ⟨if month ≤ 2 then year - 1 else year, (month + 9) % 12, by omega, by omega, ?_, ?_⟩
    · unfold yearOfMonth
      split_ifs <;> omega
    unfold monthOfYear
    split <;> omega
  rw [dayNumber_eq h0 h11, ofDayNumber_eq h0 h11 hday hlast]

/-! ### Months and years as intervals of days -/

lemma dayNumber_day (y m d d' : Int) : dayNumber ⟨y, m, d⟩ = dayNumber ⟨y, m, d'⟩ + d - d' := by
  simp only [dayNumber]
  omega

lemma dayNumber_nextMonth {y m} (h1 : 1 ≤ m) (h12 : m ≤ 12) :
    dayNumber ⟨y, m, daysInMonth m y + 1⟩ = dayNumber ⟨y, m + 1, 1⟩ := by
  obtain rfl | hne := eq_or_ne m 2
  · have hlen := yearStart_succ (y - 1)
    rw [Int.sub_add_cancel] at hlen
    show yearStart (y - 1) + 337 + (daysInMonth 2 y + 1) - 1 - epoch = yearStart y + 0 + 1 - 1 - epoch
    omega
  obtain rfl | rfl | rfl | rfl | rfl | rfl | rfl | rfl | rfl | rfl | rfl : m = 1 ∨ m = 3 ∨ m = 4 ∨ m = 5 ∨ m = 6 ∨
    m = 7 ∨ m = 8 ∨ m = 9 ∨ m = 10 ∨ m = 11 ∨ m = 12 := by omega
  all_goals
    simp [dayNumber, daysInMonth, monthStart]
    omega

lemma dayNumber_nextYear (y : Int) : dayNumber ⟨y, 13, 1⟩ = dayNumber ⟨y + 1, 1, 1⟩ := by
  simp [dayNumber]

lemma one_le_daysInMonth (m y : Int) : 1 ≤ daysInMonth m y := by
  unfold daysInMonth
  split_ifs <;> omega

lemma dayNumber_month_mono {y m m'} (h1 : 1 ≤ m) (hle : m ≤ m') (h13 : m' ≤ 13) :
    dayNumber ⟨y, m, 1⟩ ≤ dayNumber ⟨y, m', 1⟩ := by
  induction m', hle using Int.leInduction with
  | base => exact le_rfl
  | succ m' hle ih =>
    have hnext := @dayNumber_nextMonth y m' (by omega) (by omega)
    have hday := dayNumber_day y m' (daysInMonth m' y + 1) 1
    have hlen := one_le_daysInMonth m' y
    have := ih (by omega)
    omega

lemma Date.Valid.month {d : Date} (h : d.Valid) :
    dayNumber ⟨d.year, d.month, 1⟩ ≤ dayNumber d ∧ dayNumber d < dayNumber ⟨d.year, d.month + 1, 1⟩ := by
  obtain ⟨h1, h12, hday, hlast⟩ := h
  have hd : dayNumber d = dayNumber ⟨d.year, d.month, 1⟩ + d.day - 1 := dayNumber_day ..
  have hnext := @dayNumber_nextMonth d.year d.month h1 h12
  have hdays := dayNumber_day d.year d.month (daysInMonth d.month d.year + 1) 1
  omega

lemma Date.Valid.year {d : Date} (h : d.Valid) :
    dayNumber ⟨d.year, 1, 1⟩ ≤ dayNumber d ∧ dayNumber d < dayNumber ⟨d.year + 1, 1, 1⟩ := by
  obtain ⟨hle, hlt⟩ := h.month
  have hfirst := @dayNumber_month_mono d.year 1 d.month le_rfl h.one_le_month (by have := h.month_le; omega)
  have hlast := @dayNumber_month_mono d.year (d.month + 1) 13 (by have := h.one_le_month; omega)
    (by have := h.month_le; omega) le_rfl
  rw [dayNumber_nextYear] at hlast
  exact ⟨by omega, by omega⟩

lemma newYear_strictMono : StrictMono fun y => dayNumber ⟨y, 1, 1⟩ := by
  have h : ∀ y, dayNumber ⟨y, 1, 1⟩ = yearStart (y - 1) + 306 - epoch := by
    intro y
    simp only [dayNumber, monthStart, Int.reduceLE, if_true, Int.reduceAdd, Int.reduceMod, Int.reduceMul, Int.reduceDiv]
    omega
  intro y y' hlt
  have hstart : yearStart (y - 1) < yearStart (y' - 1) := yearStart_strictMono (by omega)
  simp only [h]
  omega

lemma year_le_iff {n y} : (ofDayNumber n).year ≤ y ↔ n < dayNumber ⟨y + 1, 1, 1⟩ := by
  have hn := (valid_ofDayNumber n).year
  rw [dayNumber_ofDayNumber] at hn
  constructor
  · intro h
    have hle : dayNumber ⟨(ofDayNumber n).year + 1, 1, 1⟩ ≤ dayNumber ⟨y + 1, 1, 1⟩ :=
      newYear_strictMono.monotone (by omega : (ofDayNumber n).year + 1 ≤ y + 1)
    omega
  intro h
  have hlt : (ofDayNumber n).year < y + 1 := newYear_strictMono.lt_iff_lt.mp (hn.1.trans_lt h)
  omega

lemma month_lt_iff {n m} (h1 : 1 ≤ m) (h13 : m ≤ 13) :
    (ofDayNumber n).month < m ↔ n < dayNumber ⟨(ofDayNumber n).year, m, 1⟩ := by
  have hvalid := valid_ofDayNumber n
  have hn := hvalid.month
  rw [dayNumber_ofDayNumber] at hn
  constructor
  · intro h
    have hle := @dayNumber_month_mono (ofDayNumber n).year ((ofDayNumber n).month + 1) m
      (by have := hvalid.one_le_month; omega) (by omega) h13
    omega
  intro h
  by_contra hge
  have hle := @dayNumber_month_mono (ofDayNumber n).year m (ofDayNumber n).month h1 (by omega)
    (by have := hvalid.month_le; omega)
  omega

end FastOrchestration.Lib.Civil
