import Mathlib.Algebra.Order.Ring.Int
import Mathlib.Order.Lattice
import Mathlib.Tactic.Common

/-!
# The Proleptic Gregorian Calendar

Dates as year, month and day, in either direction without end: their order, the next day, the
number of a day and its weekday.

## Main results

* `Date.lt_tomorrow`, `Date.tomorrow_le`: the next day is the least later one;
* `Date.number_tomorrow`: days are numbered one after the other;
* `Date.tomorrow_lastOfMonth`: months come one after the other.
-/

namespace EchoMuse.Gregorian

/-- A leap year. -/
def Leap (year : ℤ) : Prop := year % 4 = 0 ∧ (year % 100 ≠ 0 ∨ year % 400 = 0)

instance : DecidablePred Leap := fun _ => inferInstanceAs (Decidable (_ ∧ _))

/-- The days of a month, 1 to 12. -/
def daysInMonth (year : ℤ) (month : ℕ) : ℕ :=
  match month with
  | 2 => if Leap year then 29 else 28
  | 4 | 6 | 9 | 11 => 30
  | _ => 31

theorem daysInMonth_le (year : ℤ) (month : ℕ) : daysInMonth year month ≤ 31 := by
  unfold daysInMonth
  split <;> (try split_ifs) <;> decide

theorem le_daysInMonth (year : ℤ) (month : ℕ) : 28 ≤ daysInMonth year month := by
  unfold daysInMonth
  split <;> (try split_ifs) <;> decide

/-- Only February has a number of days that depends on the year. -/
theorem daysInMonth_eq {month : ℕ} (h : month ≠ 2) (year year' : ℤ) :
    daysInMonth year month = daysInMonth year' month := by
  unfold daysInMonth
  split <;> first | rfl | exact absurd rfl h

/-- A date. -/
@[ext] structure Date where
  year : ℤ
  month : ℕ
  day : ℕ
  month_pos : 1 ≤ month
  month_le : month ≤ 12
  day_pos : 1 ≤ day
  day_le : day ≤ daysInMonth year month
deriving DecidableEq

namespace Date

/-- The month of a date, counted from January of the year 0. -/
def monthIndex (d : Date) : ℤ := d.year * 12 + (d.month - 1)

/-- The place of a date in the order by year, month and day. -/
def key (d : Date) : ℤ := d.monthIndex * 31 + (d.day - 1)

theorem key_injective : Function.Injective key := by
  intro d e h
  have := d.month_pos; have := d.month_le; have := d.day_pos
  have := e.month_pos; have := e.month_le; have := e.day_pos
  have := d.day_le.trans (daysInMonth_le _ _)
  have := e.day_le.trans (daysInMonth_le _ _)
  simp only [key, monthIndex] at h
  ext <;> omega

instance : LinearOrder Date := LinearOrder.lift' key key_injective

theorem lt_iff_key {d e : Date} : d < e ↔ d.key < e.key := Iff.rfl

theorem le_iff_key {d e : Date} : d ≤ e ↔ d.key ≤ e.key := Iff.rfl

/-- Dates are ordered by year, then by month, then by day. -/
theorem lt_iff {d e : Date} : d < e ↔ d.year < e.year ∨
    d.year = e.year ∧ (d.month < e.month ∨ d.month = e.month ∧ d.day < e.day) := by
  have := d.month_pos; have := d.month_le; have := d.day_pos
  have := e.month_pos; have := e.month_le; have := e.day_pos
  have := d.day_le.trans (daysInMonth_le _ _)
  have := e.day_le.trans (daysInMonth_le _ _)
  rw [lt_iff_key, key, key, monthIndex, monthIndex]
  omega

/-- Years are ordered as their dates are. -/
theorem year_le {d e : Date} (h : d ≤ e) : d.year ≤ e.year := by
  rw [← not_lt, lt_iff] at h
  omega

/-! ### The next day -/

/-- The next day. -/
def tomorrow (d : Date) : Date :=
  if h : d.day < daysInMonth d.year d.month then
    ⟨d.year, d.month, d.day + 1, d.month_pos, d.month_le, by omega, h⟩
  else if hm : d.month < 12 then
    ⟨d.year, d.month + 1, 1, by omega, hm, le_rfl, (by decide : 1 ≤ 28).trans (le_daysInMonth _ _)⟩
  else ⟨d.year + 1, 1, 1, le_rfl, by decide, le_rfl, (by decide : 1 ≤ 28).trans (le_daysInMonth _ _)⟩

theorem lt_tomorrow (d : Date) : d < d.tomorrow := by
  have := d.month_pos; have := d.month_le
  rw [lt_iff, tomorrow]
  split_ifs with hday hmonth
  · exact .inr ⟨rfl, .inr ⟨rfl, Nat.lt_succ_self _⟩⟩
  · exact .inr ⟨rfl, .inl (Nat.lt_succ_self _)⟩
  · exact .inl (Int.lt_succ _)

/-- The next day is the least later one. -/
theorem tomorrow_le {d e : Date} (h : d < e) : d.tomorrow ≤ e := by
  have := e.day_pos; have := e.month_pos; have hm := e.month_le; have hd := e.day_le
  rw [← not_lt]
  intro hlt
  rw [lt_iff] at h
  rw [lt_iff, tomorrow] at hlt
  split_ifs at hlt with hday hmonth
  · simp only at hlt
    omega
  · simp only at hlt
    have hsame : e.year = d.year ∧ e.month = d.month := by omega
    rw [hsame.1, hsame.2] at hd
    omega
  · simp only at hlt
    have := d.month_le
    have hsame : e.year = d.year ∧ e.month = d.month := by omega
    rw [hsame.1, hsame.2] at hd
    omega

/-! ### Months -/

/-- The first day of the month. -/
def firstOfMonth (d : Date) : Date :=
  ⟨d.year, d.month, 1, d.month_pos, d.month_le, le_rfl,
    (by decide : 1 ≤ 28).trans (le_daysInMonth _ _)⟩

/-- The last day of the month. -/
def lastOfMonth (d : Date) : Date :=
  ⟨d.year, d.month, daysInMonth d.year d.month, d.month_pos, d.month_le,
    (by decide : 1 ≤ 28).trans (le_daysInMonth _ _), le_rfl⟩

@[simp] theorem monthIndex_firstOfMonth (d : Date) : d.firstOfMonth.monthIndex = d.monthIndex := rfl

/-- The day after the last one of a month is in the next month. -/
theorem tomorrow_lastOfMonth (d : Date) :
    d.lastOfMonth.tomorrow.monthIndex = d.monthIndex + 1 := by
  have := d.month_pos; have := d.month_le
  rw [tomorrow, dif_neg (by exact lt_irrefl _)]
  split_ifs with hmonth
  · simp only [monthIndex, lastOfMonth]
    omega
  · have : ¬ d.month < 12 := hmonth
    simp only [monthIndex, lastOfMonth]
    omega

/-- A date of an earlier month is earlier. -/
theorem lt_of_monthIndex {d e : Date} (h : d.monthIndex < e.monthIndex) : d < e := by
  have := d.day_pos; have := e.day_pos
  have := d.day_le.trans (daysInMonth_le _ _)
  rw [lt_iff_key, key, key]
  omega

/-- Months are ordered as their dates are. -/
theorem monthIndex_le {d e : Date} (h : d ≤ e) : d.monthIndex ≤ e.monthIndex :=
  not_lt.mp fun hlt => absurd h (not_le.mpr (lt_of_monthIndex hlt))

/-- A date is determined by its month and its day. -/
theorem eq_of_monthIndex {d e : Date} (hm : d.monthIndex = e.monthIndex) (hd : d.day = e.day) :
    d = e := by
  apply key_injective
  rw [key, key, hm, hd]

/-- In one month the later date is the one of the later day. -/
theorem lt_iff_day {d e : Date} (hm : d.monthIndex = e.monthIndex) : d < e ↔ d.day < e.day := by
  rw [lt_iff_key, key, key]
  omega

/-! ### Numbers of days -/

/-- The days of a year before a month. -/
def daysBefore (year : ℤ) : ℕ → ℕ
  | 0 | 1 => 0
  | month + 2 => daysBefore year (month + 1) + daysInMonth year (month + 1)

/-- The days since 1 January of the year 1. -/
def number (d : Date) : ℤ :=
  365 * (d.year - 1) + (d.year - 1) / 4 - (d.year - 1) / 100 + (d.year - 1) / 400 +
    daysBefore d.year d.month + (d.day - 1)

/-- The days of the eleven months before December. -/
theorem daysBefore_december (year : ℤ) :
    daysBefore year 12 = if Leap year then 335 else 334 := by
  simp only [daysBefore, daysInMonth]
  split_ifs <;> rfl

/-- A year is as long as the numbers of its first days say. -/
theorem leap_days (year : ℤ) :
    year / 4 - year / 100 + year / 400 =
      (year - 1) / 4 - (year - 1) / 100 + (year - 1) / 400 + if Leap year then 1 else 0 := by
  by_cases hleap : Leap year
  · rw [if_pos hleap]
    rw [Leap] at hleap
    omega
  · rw [if_neg hleap]
    rw [Leap] at hleap
    omega

/-- Days are numbered one after the other. -/
theorem number_tomorrow (d : Date) : d.tomorrow.number = d.number + 1 := by
  have hpos := d.month_pos; have hle := d.month_le; have hday := d.day_le
  rw [tomorrow]
  split_ifs with hlt hmonth
  · simp only [number]
    omega
  · have hd : d.day = daysInMonth d.year d.month := by omega
    obtain ⟨m, hm⟩ : ∃ m, d.month = m + 1 := ⟨d.month - 1, by omega⟩
    simp only [number, hm, daysBefore] at hd ⊢
    omega
  · have hm : d.month = 12 := by omega
    have hd : d.day = 31 := by
      rw [hm] at hlt hday
      exact le_antisymm hday (not_lt.mp hlt)
    have hleap := leap_days d.year
    simp only [number, hd, hm, daysBefore_december, add_sub_cancel_right]
    split_ifs at hleap ⊢ <;> simp only [daysBefore] <;> omega

/-- The day of the week, Monday 0. -/
def weekday (d : Date) : ℕ := (d.number % 7).toNat

theorem weekday_lt (d : Date) : d.weekday < 7 := by
  rw [weekday]
  omega

theorem weekday_tomorrow (d : Date) : d.tomorrow.weekday = (d.weekday + 1) % 7 := by
  rw [weekday, weekday, number_tomorrow]
  omega

/-- The first of January 1970 is a Thursday. -/
example : (⟨1970, 1, 1, by decide, by decide, by decide, by decide⟩ : Date).weekday = 3 := by
  decide

end Date

end EchoMuse.Gregorian
