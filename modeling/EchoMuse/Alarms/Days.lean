import EchoMuse.Alarms.Schedule
import EchoMuse.Gregorian

/-!
# The Day of an Asked Alarm

Which date an alarm asked for by voice is set for. The day is one of the next weekday of a name,
the next date of a month and day, or the next day of a number; three searches find it, and each
takes today when the time is still ahead.

The dates are those of the proleptic Gregorian calendar in the date library's range.

## Main results

* `seek_earliest`, `monthly_earliest`: the walks over the days of a week and over the months;
* `yearly_earliest_iff`: the search over years misses only a February 29th this year lacks;
* `AlarmRequest.when_meets_iff`: the day is the earliest that fits, unless it is February 29th,
  asked for in a year that has none while a later year does.
-/

namespace EchoMuse.Alarms

open Gregorian (Leap daysInMonth)

/-! ### The date library -/

/-- The day of the week of a number of days after a Monday. -/
def Weekday.ofMondayZeroOffset (n : ℕ) : Weekday :=
  match n with
  | 0 => .monday
  | 1 => .tuesday
  | 2 => .wednesday
  | 3 => .thursday
  | 4 => .friday
  | 5 => .saturday
  | _ => .sunday

theorem Weekday.ofMondayZeroOffset_succ {n : ℕ} (h : n < 7) :
    ofMondayZeroOffset ((n + 1) % 7) = (ofMondayZeroOffset n).tomorrow := by
  match n, h with
  | 0, _ | 1, _ | 2, _ | 3, _ | 4, _ | 5, _ | 6, _ => rfl

/-- Walking on from another weekday comes nearer to one. -/
theorem Weekday.offset_decreases {a b : Weekday} (h : b ≠ a) :
    (a.toMondayZeroOffset + 7 - b.tomorrow.toMondayZeroOffset) % 7 <
      (a.toMondayZeroOffset + 7 - b.toMondayZeroOffset) % 7 := by
  cases a <;> cases b <;> first | exact absurd rfl h | decide

/-- The dates of the library. -/
abbrev Date : Type := {d : Gregorian.Date // -9999 ≤ d.year ∧ d.year ≤ 9999}

namespace Date

def year (d : Date) : ℤ := d.val.year

def month (d : Date) : ℕ := d.val.month

def day (d : Date) : ℕ := d.val.day

/-- A date, checked. -/
def new (year month day : ℤ) : Option Date :=
  if h : (-9999 ≤ year ∧ year ≤ 9999) ∧ (1 ≤ month ∧ month ≤ 12) ∧
      1 ≤ day ∧ day ≤ daysInMonth year month.toNat then
    some ⟨⟨year, month.toNat, day.toNat, by omega, by omega, by omega, by omega⟩, h.1⟩
  else none

def weekday (d : Date) : Weekday := .ofMondayZeroOffset d.val.weekday

/-- The next day; `none` at the end of the range. -/
def tomorrow (d : Date) : Option Date :=
  if h : d.val.tomorrow.year ≤ 9999 then
    some ⟨d.val.tomorrow, d.prop.1.trans (Gregorian.Date.year_le d.val.lt_tomorrow.le), h⟩
  else none

def firstOfMonth (d : Date) : Date := ⟨d.val.firstOfMonth, d.prop⟩

def lastOfMonth (d : Date) : Date := ⟨d.val.lastOfMonth, d.prop⟩

/-- What `new` makes is the date asked for. -/
theorem new_eq_some_iff {year month day : ℤ} {d : Date} :
    new year month day = some d ↔ d.year = year ∧ (d.month : ℤ) = month ∧ (d.day : ℤ) = day := by
  rw [new]
  constructor
  · intro h
    split_ifs at h with hvalid
    cases h
    refine ⟨rfl, Int.toNat_of_nonneg ?_, Int.toNat_of_nonneg ?_⟩ <;> omega
  · rintro ⟨rfl, rfl, rfl⟩
    have := d.val.month_pos; have := d.val.month_le
    have := d.val.day_pos; have := d.val.day_le
    rw [dif_pos ⟨d.prop, by rw [month]; omega, by rw [day]; omega,
      by rw [Int.toNat_natCast, day, year, month]; omega⟩]
    rfl

/-- Dates with the same month and day are ordered by year. -/
theorem le_of_year {d e : Date} (hm : d.month = e.month) (hd : d.day = e.day)
    (hy : d.year ≤ e.year) : d ≤ e := by
  change d.val ≤ e.val
  rw [year, year] at hy
  rw [month, month] at hm
  rw [day, day] at hd
  rw [← not_lt, Gregorian.Date.lt_iff]
  omega

/-- A date of a later year is later. -/
theorem lt_of_year {d e : Date} (hy : d.year < e.year) : d < e :=
  Gregorian.Date.lt_iff.mpr (.inl hy)

theorem year_mono {d e : Date} (h : d ≤ e) : d.year ≤ e.year := Gregorian.Date.year_le h

/-- Every year has every date but February 29th. -/
theorem exists_in_year {e : Date} (h : ¬ (e.month = 2 ∧ e.day = 29)) {year : ℤ}
    (hmin : -9999 ≤ year) (hmax : year ≤ 9999) :
    ∃ d : Date, d.year = year ∧ d.month = e.month ∧ d.day = e.day := by
  have hle : e.day ≤ daysInMonth year e.month := by
    by_cases hm : e.month = 2
    · have hday : e.day ≤ daysInMonth e.year e.month := e.val.day_le
      have h28 := Gregorian.le_daysInMonth year e.month
      have h29 : daysInMonth e.year e.month ≤ 29 := by
        rw [hm, daysInMonth]
        split_ifs <;> decide
      omega
    · exact Gregorian.daysInMonth_eq hm e.year year ▸ e.val.day_le
  exact ⟨⟨⟨year, e.month, e.day, e.val.month_pos, e.val.month_le, e.val.day_pos, hle⟩,
    hmin, hmax⟩, rfl, rfl, rfl⟩

/-- Leap years have a February 29th. -/
theorem exists_leap_day {year : ℤ} (hleap : Leap year) (hmin : -9999 ≤ year)
    (hmax : year ≤ 9999) : ∃ d : Date, d.year = year ∧ d.month = 2 ∧ d.day = 29 := by
  refine ⟨⟨⟨year, 2, 29, by decide, by decide, by decide, ?_⟩, hmin, hmax⟩, rfl, rfl, rfl⟩
  rw [daysInMonth, if_pos hleap]

/-- Only leap years have one. -/
theorem leap_of_day {d : Date} (hm : d.month = 2) (hd : d.day = 29) : Leap d.year := by
  have hle : d.day ≤ daysInMonth d.year d.month := d.val.day_le
  by_contra hleap
  rw [hm, hd, daysInMonth, if_neg hleap] at hle
  exact absurd hle (by decide)

theorem tomorrow_some {d e : Date} (h : d.tomorrow = some e) : d < e ∧ ∀ f, d < f → e ≤ f := by
  rw [tomorrow] at h
  split_ifs at h
  cases h
  exact ⟨d.val.lt_tomorrow, fun f hf => Gregorian.Date.tomorrow_le hf⟩

theorem tomorrow_none {d : Date} (h : d.tomorrow = none) (f : Date) : f ≤ d := by
  rw [tomorrow] at h
  split_ifs at h with hyear
  by_contra hlt
  have hle := Gregorian.Date.year_le (Gregorian.Date.tomorrow_le (not_le.mp hlt : d.val < f.val))
  exact hyear (hle.trans f.prop.2)

theorem weekday_tomorrow {d e : Date} (h : d.tomorrow = some e) :
    e.weekday = d.weekday.tomorrow := by
  rw [tomorrow] at h
  split_ifs at h
  cases h
  rw [weekday, weekday, Gregorian.Date.weekday_tomorrow,
    Weekday.ofMondayZeroOffset_succ d.val.weekday_lt]

end Date

/-- The dates as the schedule's calendar. -/
abbrev gregorian : Calendar where
  Date := Date
  weekday := Date.weekday
  tomorrow := Date.tomorrow
  tomorrow_some := Date.tomorrow_some
  tomorrow_none := Date.tomorrow_none
  weekday_tomorrow := Date.weekday_tomorrow

/-- A local date and time. -/
structure DateTime where
  date : Date
  time : TimeOfDay
  nanosecond : Fin 1000000000
deriving DecidableEq

/-- The nanoseconds since midnight. -/
def DateTime.sinceMidnight (t : DateTime) : ℕ :=
  ((t.time.hour * 60 + t.time.minute) * 60 + t.time.second) * 1000000000 + t.nanosecond

/-- Date-times are ordered by date, then by time. -/
instance : LT DateTime :=
  ⟨fun a b => a.date < b.date ∨ a.date = b.date ∧ a.sinceMidnight < b.sinceMidnight⟩

instance (a b : DateTime) : Decidable (a < b) :=
  inferInstanceAs (Decidable (_ ∨ _))

/-! ### The request -/

/-- Which day an alarm request names. -/
inductive AlarmDay
  /-- The next time the time comes round. -/
  | next
  | today
  | tomorrow
  /-- The next such weekday, today included while the time is still ahead. -/
  | weekday (day : Weekday)
  /-- A date; without a month, this month or the next that has that day. -/
  | date (month : Option UInt8) (day : UInt8)
  | repeats (repeats : Repeat)
deriving DecidableEq

/-- A complete request to set an alarm. -/
structure AlarmRequest where
  time : TimeOfDay
  day : AlarmDay
  label : Option String

/-- Why a request names no day the calendar has. -/
inductive DayError
  | noSuchDate
deriving DecidableEq

/-- The days from `date` on until one is on `day`. -/
def seek (day : Weekday) (date : Date) : Except DayError Date :=
  if date.weekday = day then .ok date
  else
    match _h : date.tomorrow with
    | none => .error .noSuchDate
    | some next => seek day next
termination_by (day.toMondayZeroOffset + 7 - date.weekday.toMondayZeroOffset) % 7
decreasing_by
  rw [Date.weekday_tomorrow ‹date.tomorrow = some next›]
  exact Weekday.offset_decreases ‹_›

/-- Whether `date` is later than `today`, or is today and the time is still ahead. -/
def isAhead (today : Date) (aheadToday : Bool) (date : Date) : Bool :=
  today < date || (date = today && aheadToday)

/-- The date with `month` and `day` of this year, or else of the next that has it. -/
def yearly (today : Date) (aheadToday : Bool) (month day : ℤ) : Except DayError Date :=
  match Date.new today.year month day with
  | none => .error .noSuchDate
  | some thisYear =>
    if isAhead today aheadToday thisYear then .ok thisYear
    else
      -- February 29th waits for the next leap year.
      match (List.range' 1 8).findSome? fun years : ℕ =>
          Date.new (today.year + years) month day with
      | none => .error .noSuchDate
      | some date => .ok date

/-- The date with `day` in the first of `n` months from `first` on that has it ahead. -/
def monthly (today : Date) (aheadToday : Bool) (day : ℤ) :
    ℕ → Date → Except DayError (Option Date)
  | 0, _ => .ok none
  | n + 1, first =>
    match (Date.new first.year first.month day).filter (isAhead today aheadToday) with
    | some date => .ok (some date)
    | none =>
      match first.lastOfMonth.tomorrow with
      | none => .error .noSuchDate
      | some first => monthly today aheadToday day n first

namespace AlarmRequest

/-- The alarm rings once, on `date`. -/
def once (r : AlarmRequest) (date : Date) : AlarmWhen gregorian :=
  ⟨r.time, some date, .once⟩

/-- The request's time on `date`. -/
def timeOn (r : AlarmRequest) (date : Date) : DateTime := ⟨date, r.time, 0⟩

/-- When it rings, given the local date and time now. -/
def when (r : AlarmRequest) (now : DateTime) : Except DayError (AlarmWhen gregorian) := do
  let today := now.date
  let aheadToday : Bool := now < r.timeOn today
  match r.day with
  | .next => return ⟨r.time, none, .once⟩
  | .today => return r.once today
  | .tomorrow =>
    match today.tomorrow with
    | none => throw .noSuchDate
    | some date => return r.once date
  | .weekday day =>
    if today.weekday = day && !aheadToday then
      match today.tomorrow with
      | none => throw .noSuchDate
      | some date => return r.once (← seek day date)
    else return r.once (← seek day today)
  | .date (some month) day =>
    return r.once (← yearly today aheadToday month.toInt8.toInt day.toInt8.toInt)
  | .date none day =>
    match ← monthly today aheadToday day.toInt8.toInt 13 today.firstOfMonth with
    | none => throw .noSuchDate
    | some date => return r.once date
  | .repeats repeats => return ⟨r.time, none, repeats⟩

end AlarmRequest

/-! ### What the searches are for -/

/-- A search finds the earliest date that fits, and fails when none does. -/
def Earliest (fits : Date → Prop) : Except DayError Date → Prop
  | .ok d => IsLeast {e | fits e} d
  | .error _ => ∀ e, ¬ fits e

theorem Earliest.congr {fits fits' : Date → Prop} (h : ∀ e, fits e ↔ fits' e)
    (r : Except DayError Date) : Earliest fits r ↔ Earliest fits' r := by
  rw [show fits = fits' from funext fun e => propext (h e)]

/-- The dates a day names. -/
def AlarmDay.Names : AlarmDay → Date → Prop
  | .weekday day, d => d.weekday = day
  | .date (some month) day, d => d.month = month.toNat ∧ d.day = day.toNat
  | .date none day, d => d.day = day.toNat
  | _, _ => False

namespace AlarmRequest

/-- A date the request names at which its time is after `now`. -/
def Fits (r : AlarmRequest) (now : DateTime) (d : Date) : Prop :=
  r.day.Names d ∧ now < r.timeOn d

/-- Next and the repeats are set for no date, today and tomorrow for theirs; every other day
gives the earliest date that fits, and there is no such date only when none does. -/
def Meets (r : AlarmRequest) (now : DateTime)
    (result : Except DayError (AlarmWhen gregorian)) : Prop :=
  match r.day with
  | .next => result = .ok ⟨r.time, none, .once⟩
  | .today => result = .ok (r.once now.date)
  | .tomorrow => ∃ found, Earliest (now.date < ·) found ∧ result = found.map r.once
  | .repeats repeats => result = .ok ⟨r.time, none, repeats⟩
  | _ => ∃ found, Earliest (r.Fits now) found ∧ result = found.map r.once

end AlarmRequest

/-! ### The searches -/

theorem tomorrow_earliest (d : Date) :
    Earliest (d < ·) (match d.tomorrow with | none => .error .noSuchDate | some e => .ok e) := by
  split
  next h => exact fun e hlt => absurd (Date.tomorrow_none h e) (not_le.mpr hlt)
  next e h => exact ⟨(Date.tomorrow_some h).1, (Date.tomorrow_some h).2⟩

/-- The walk finds the first day from `date` on that is on `day`. -/
theorem seek_earliest (day : Weekday) (date : Date) :
    Earliest (fun e => date ≤ e ∧ e.weekday = day) (seek day date) := by
  fun_induction seek day date with
  | case1 date hday => exact ⟨⟨le_rfl, hday⟩, fun e he => he.1⟩
  | case2 date hday hnone =>
    rintro e ⟨hle, heq⟩
    have : e = date := le_antisymm (Date.tomorrow_none hnone e) hle
    exact hday (this ▸ heq)
  | case3 date hday next hnext ih =>
    refine (Earliest.congr (fun e => ?_) _).mp ih
    have htomorrow := Date.tomorrow_some hnext
    constructor
    · exact fun h => ⟨htomorrow.1.le.trans h.1, h.2⟩
    · intro h
      exact ⟨htomorrow.2 e (h.1.lt_of_ne fun heq => hday (heq ▸ h.2)), h.2⟩

/-- What the first hit in a range of numbers is. -/
theorem findSome?_range'_some {α : Type*} {f : ℕ → Option α} {b : α} :
    ∀ {n a : ℕ}, (List.range' a n).findSome? f = some b →
      ∃ k, a ≤ k ∧ f k = some b ∧ ∀ j, a ≤ j → j < k → f j = none
  | 0, a, h => nomatch h
  | n + 1, a, h => by
    rw [List.range'_succ, List.findSome?_cons] at h
    split at h
    next c hc => exact ⟨a, le_rfl, hc.trans h, fun j ha hk => absurd ha (not_le.mpr hk)⟩
    next hnone =>
      obtain ⟨k, hak, hk, hbefore⟩ := findSome?_range'_some h
      refine ⟨k, (Nat.le_succ a).trans hak, hk, fun j ha hj => ?_⟩
      obtain rfl | hlt := ha.eq_or_lt
      · exact hnone
      · exact hbefore j hlt hj

theorem isAhead_iff {today date : Date} {aheadToday : Bool} :
    isAhead today aheadToday date = true ↔
      today < date ∨ date = today ∧ aheadToday = true := by
  rw [isAhead, Bool.or_eq_true, Bool.and_eq_true, decide_eq_true_iff, decide_eq_true_iff]

/-- What is ahead is not before today. -/
theorem le_of_isAhead {today date : Date} {aheadToday : Bool}
    (h : isAhead today aheadToday date = true) : today ≤ date := by
  obtain hlt | ⟨heq, -⟩ := isAhead_iff.mp h
  · exact hlt.le
  · exact heq.ge

section Yearly

variable {today : Date} {aheadToday : Bool} {month day : ℤ}

/-- The dates a search for a month and a day is for. -/
def OfYear (today : Date) (aheadToday : Bool) (month day : ℤ) (e : Date) : Prop :=
  (e.month : ℤ) = month ∧ (e.day : ℤ) = day ∧ isAhead today aheadToday e = true

theorem new_year {e : Date} (h : OfYear today aheadToday month day e) :
    Date.new e.year month day = some e :=
  Date.new_eq_some_iff.mpr ⟨rfl, h.1, h.2.1⟩

/-- A leap year is four or eight years before one. -/
theorem leap_four_or_eight {year : ℤ} (h : Leap year) : Leap (year + 4) ∨ Leap (year + 8) := by
  rw [Leap] at h
  rw [Leap, Leap]
  omega

/-- A date this year does not have is one no year has, or February 29th. -/
theorem ofYear_iff_of_none (hnone : Date.new today.year month day = none) :
    (∀ e, ¬ OfYear today aheadToday month day e) ↔
      (month = 2 → day = 29 → ¬ Leap today.year → 9996 ≤ today.year) := by
  constructor
  · rintro h rfl rfl hleap
    by_contra hlt
    obtain ⟨d, hy, hm, hd⟩ := Date.exists_leap_day (show Leap 9996 by decide) (by decide)
      (by decide)
    refine h d ⟨by rw [hm]; rfl, by rw [hd]; rfl, isAhead_iff.mpr (.inl (Date.lt_of_year ?_))⟩
    omega
  · rintro h e he
    have hle := Date.year_mono (le_of_isAhead he.2.2)
    by_cases h29 : e.month = 2 ∧ e.day = 29
    · have hleap := Date.leap_of_day h29.1 h29.2
      have hne : ¬ Leap today.year := by
        intro hleap'
        obtain ⟨d, hy, hm, hd⟩ := Date.exists_leap_day hleap' today.prop.1 today.prop.2
        have hsome : Date.new today.year month day = some d := Date.new_eq_some_iff.mpr
          ⟨hy, by rw [hm, ← h29.1]; exact he.1, by rw [hd, ← h29.2]; exact he.2.1⟩
        rw [hnone] at hsome
        cases hsome
      have hbound := h (by have := he.1; omega) (by have := he.2.1; omega) hne
      have hmax : e.year ≤ 9999 := e.prop.2
      rw [Leap] at hleap hne
      omega
    · obtain ⟨d, hy, hm, hd⟩ := Date.exists_in_year h29 today.prop.1 today.prop.2
      have hsome : Date.new today.year month day = some d := Date.new_eq_some_iff.mpr
        ⟨hy, by rw [hm]; exact he.1, by rw [hd]; exact he.2.1⟩
      rw [hnone] at hsome
      cases hsome

/-- Past this year's date, the one that fits is of a later year. -/
theorem year_lt_of_not_ahead {thisYear e : Date}
    (hthis : Date.new today.year month day = some thisYear)
    (hpast : ¬ isAhead today aheadToday thisYear = true)
    (he : OfYear today aheadToday month day e) : today.year < e.year := by
  obtain hlt | heq := (Date.year_mono (le_of_isAhead he.2.2)).lt_or_eq
  · exact hlt
  · have hnew := new_year he
    rw [← heq, hthis] at hnew
    cases hnew
    exact absurd he.2.2 hpast

/-- Within the next eight years there is one with the date, when any has it. -/
theorem exists_years {thisYear e : Date} (hthis : Date.new today.year month day = some thisYear)
    (he : OfYear today aheadToday month day e) (hlt : today.year < e.year) :
    ∃ k : ℕ, 1 ≤ k ∧ k < 1 + 8 ∧ ∃ d, Date.new (today.year + k) month day = some d := by
  obtain ⟨hy, hm, hd⟩ := Date.new_eq_some_iff.mp hthis
  have hmin : -9999 ≤ today.year := today.prop.1
  have hmax : e.year ≤ 9999 := e.prop.2
  by_cases hnear : e.year ≤ today.year + 8
  · refine ⟨(e.year - today.year).toNat, by omega, by omega, e, ?_⟩
    rw [show today.year + ((e.year - today.year).toNat : ℕ) = e.year by omega]
    exact new_year he
  · by_cases h29 : thisYear.month = 2 ∧ thisYear.day = 29
    · have hleap := Date.leap_of_day h29.1 h29.2
      rw [hy] at hleap
      obtain hfour | height := leap_four_or_eight hleap
      · obtain ⟨d, hy', hm', hd'⟩ := Date.exists_leap_day hfour (by omega) (by omega)
        exact ⟨4, by decide, by decide, d, Date.new_eq_some_iff.mpr
          ⟨hy', by rw [hm', ← h29.1, hm], by rw [hd', ← h29.2, hd]⟩⟩
      · obtain ⟨d, hy', hm', hd'⟩ := Date.exists_leap_day height (by omega) (by omega)
        exact ⟨8, by decide, by decide, d, Date.new_eq_some_iff.mpr
          ⟨hy', by rw [hm', ← h29.1, hm], by rw [hd', ← h29.2, hd]⟩⟩
    · obtain ⟨d, hy', hm', hd'⟩ :=
        @Date.exists_in_year _ h29 (today.year + 1) (by omega) (by omega)
      exact ⟨1, le_rfl, by decide, d, Date.new_eq_some_iff.mpr
        ⟨hy', by rw [hm', hm], by rw [hd', hd]⟩⟩

/-- The search over years is right, but for a February 29th this year does not have. -/
theorem yearly_earliest_iff :
    Earliest (OfYear today aheadToday month day) (yearly today aheadToday month day) ↔
      (month = 2 → day = 29 → ¬ Leap today.year → 9996 ≤ today.year) := by
  rw [yearly]
  split
  next hnone => exact ofYear_iff_of_none hnone
  next thisYear hthis =>
    obtain ⟨hy, hm, hd⟩ := Date.new_eq_some_iff.mp hthis
    have hright : month = 2 → day = 29 → ¬ Leap today.year → 9996 ≤ today.year := by
      rintro rfl rfl hleap
      have := Date.leap_of_day (d := thisYear) (by omega) (by omega)
      exact absurd (hy ▸ this) hleap
    refine iff_of_true ?_ hright
    split
    next hahead =>
      refine ⟨⟨hm, hd, hahead⟩, fun e he => Date.le_of_year ?_ ?_ ?_⟩
      · have := he.1; omega
      · have := he.2.1; omega
      · exact hy ▸ Date.year_mono (le_of_isAhead he.2.2)
    next hpast =>
      split
      next hnone =>
        intro e he
        obtain ⟨k, h1, h8, d, hnew⟩ :=
          exists_years hthis he (year_lt_of_not_ahead hthis hpast he)
        have := List.findSome?_eq_none_iff.mp hnone k (List.mem_range'_1.mpr ⟨h1, h8⟩)
        rw [hnew] at this
        cases this
      next d hsome =>
        obtain ⟨k, h1, hnew, hbefore⟩ := findSome?_range'_some hsome
        obtain ⟨hy', hm', hd'⟩ := Date.new_eq_some_iff.mp hnew
        refine ⟨⟨hm', hd', isAhead_iff.mpr (.inl (Date.lt_of_year (by omega)))⟩, fun e he => ?_⟩
        have hlt := year_lt_of_not_ahead hthis hpast he
        have hnot : ¬ e.year < d.year := by
          intro hearlier
          have := hbefore (e.year - today.year).toNat (by omega) (by omega)
          rw [show today.year + ((e.year - today.year).toNat : ℕ) = e.year by omega,
            new_year he] at this
          cases this
        refine Date.le_of_year ?_ ?_ (not_lt.mp hnot)
        · have := he.1; omega
        · have := he.2.1; omega

end Yearly

/-! ### The search over months -/

/-- The dates a search for a day of the month is for. -/
def OfMonth (today : Date) (aheadToday : Bool) (day : ℤ) (e : Date) : Prop :=
  (e.day : ℤ) = day ∧ isAhead today aheadToday e = true

namespace Date

/-- The month of a date, counted from January of the year 0. -/
def monthIndex (d : Date) : ℤ := d.val.monthIndex

theorem monthIndex_eq (d : Date) : d.monthIndex = d.year * 12 + (d.month - 1) := rfl

theorem monthIndex_le {d e : Date} (h : d ≤ e) : d.monthIndex ≤ e.monthIndex :=
  Gregorian.Date.monthIndex_le h

/-- The day after the last one of a month is in the next month, unless the range ends there. -/
theorem monthIndex_next {d e : Date} (h : d.lastOfMonth.tomorrow = some e) :
    e.monthIndex = d.monthIndex + 1 := by
  rw [tomorrow] at h
  split_ifs at h
  cases h
  exact d.val.tomorrow_lastOfMonth

theorem monthIndex_of_next_none {d : Date} (h : d.lastOfMonth.tomorrow = none) (e : Date) :
    e.monthIndex ≤ d.monthIndex := @monthIndex_le e d.lastOfMonth (tomorrow_none h e)

/-- `new` finds the date of a month with a day. -/
theorem new_month {d e : Date} (h : e.monthIndex = d.monthIndex) :
    new d.year d.month e.day = some e := by
  rw [monthIndex_eq, monthIndex_eq] at h
  have : 1 ≤ d.month := d.val.month_pos
  have : d.month ≤ 12 := d.val.month_le
  have : 1 ≤ e.month := e.val.month_pos
  have : e.month ≤ 12 := e.val.month_le
  exact new_eq_some_iff.mpr ⟨by omega, by omega, rfl⟩

theorem monthIndex_new {d e : Date} {day : ℤ} (h : new d.year d.month day = some e) :
    e.monthIndex = d.monthIndex ∧ (e.day : ℤ) = day := by
  obtain ⟨hy, hm, hd⟩ := new_eq_some_iff.mp h
  refine ⟨?_, hd⟩
  rw [monthIndex_eq, monthIndex_eq, hy, hm]

end Date

section Monthly

variable {today : Date} {aheadToday : Bool} {day : ℤ}

/-- What one month has of the dates the search is for. -/
theorem filter_new_eq_some {first e : Date} :
    (Date.new first.year first.month day).filter (isAhead today aheadToday) = some e ↔
      OfMonth today aheadToday day e ∧ e.monthIndex = first.monthIndex := by
  rw [Option.filter_eq_some_iff]
  constructor
  · rintro ⟨hnew, hahead⟩
    obtain ⟨hm, hd⟩ := Date.monthIndex_new hnew
    exact ⟨⟨hd, hahead⟩, hm⟩
  · rintro ⟨⟨hd, hahead⟩, hm⟩
    exact ⟨hd ▸ Date.new_month hm, hahead⟩

/-- What a walk over `n` months from `index` on finds: the first month that has one of the dates,
or that none of the months has, or none of the range from there on. -/
def FromMonth (today : Date) (aheadToday : Bool) (day index : ℤ) (n : ℕ) :
    Except DayError (Option Date) → Prop
  | .ok (some d) => OfMonth today aheadToday day d ∧
      ∀ e, OfMonth today aheadToday day e → index ≤ e.monthIndex → d.monthIndex ≤ e.monthIndex
  | .ok none => ∀ e, OfMonth today aheadToday day e → index ≤ e.monthIndex →
      index + n ≤ e.monthIndex
  | .error _ => ∀ e, OfMonth today aheadToday day e → ¬ index ≤ e.monthIndex

/-- A month without the dates is no part of the walk. -/
theorem FromMonth.later {index : ℤ} {n : ℕ} {r : Except DayError (Option Date)}
    (h : FromMonth today aheadToday day (index + 1) n r)
    (hnone : ∀ e, OfMonth today aheadToday day e → e.monthIndex ≠ index) :
    FromMonth today aheadToday day index (n + 1) r := by
  have hlater : ∀ e, OfMonth today aheadToday day e → index ≤ e.monthIndex →
      index + 1 ≤ e.monthIndex := fun e he hle => hle.lt_of_ne (hnone e he).symm
  match r, h with
  | .ok (some d), h => exact ⟨h.1, fun e he hle => h.2 e he (hlater e he hle)⟩
  | .ok none, h =>
    intro e he hle
    have := h e he (hlater e he hle)
    push_cast
    omega
  | .error _, h => exact fun e he hle => h e he (hlater e he hle)

theorem monthly_fromMonth : ∀ (n : ℕ) (first : Date),
    FromMonth today aheadToday day first.monthIndex n (monthly today aheadToday day n first)
  | 0, first => fun e _ hle => by simpa using hle
  | n + 1, first => by
    rw [monthly]
    split
    next d hd =>
      obtain ⟨hof, hm⟩ := filter_new_eq_some.mp hd
      exact ⟨hof, fun e _ hle => hm ▸ hle⟩
    next hnone =>
      have hmonth : ∀ e, OfMonth today aheadToday day e → e.monthIndex ≠ first.monthIndex := by
        intro e he heq
        rw [filter_new_eq_some.mpr ⟨he, heq⟩] at hnone
        cases hnone
      split
      next hend =>
        exact fun e he hle =>
          hmonth e he (le_antisymm (Date.monthIndex_of_next_none hend e) hle)
      next next hnext =>
        exact (Date.monthIndex_next hnext ▸ monthly_fromMonth n next).later hmonth

/-- When any day of the number is ahead, one of the thirteen months has one. -/
theorem exists_within_year {e : Date} (he : OfMonth today aheadToday day e) :
    ∃ d, OfMonth today aheadToday day d ∧ today.monthIndex ≤ d.monthIndex ∧
      d.monthIndex < today.monthIndex + 13 := by
  have hle := Date.monthIndex_le (le_of_isAhead he.2)
  by_cases hnear : e.monthIndex < today.monthIndex + 13
  · exact ⟨e, he, hle, hnear⟩
  · -- January of the next year is in the range, and has thirty-one days.
    have hmin : -9999 ≤ today.year := today.prop.1
    have hmax : e.year ≤ 9999 := e.prop.2
    have h1 : 1 ≤ today.month := today.val.month_pos
    have h12 : today.month ≤ 12 := today.val.month_le
    have hd : 1 ≤ e.day := e.val.day_pos
    have hd31 : e.day ≤ 31 := e.val.day_le.trans (Gregorian.daysInMonth_le _ _)
    have hm12 : e.month ≤ 12 := e.val.month_le
    rw [Date.monthIndex_eq, Date.monthIndex_eq] at hnear
    have hrange : -9999 ≤ today.year + 1 ∧ today.year + 1 ≤ 9999 := by omega
    let january : Date :=
      ⟨⟨today.year + 1, 1, e.day, le_rfl, by decide, hd, hd31⟩, hrange⟩
    have hindex : january.monthIndex = (today.year + 1) * 12 + (1 - 1) := rfl
    refine ⟨january, ⟨he.1, isAhead_iff.mpr (.inl (Date.lt_of_year (Int.lt_succ _)))⟩, ?_, ?_⟩
    · rw [hindex, Date.monthIndex_eq]
      omega
    · rw [hindex, Date.monthIndex_eq]
      omega

/-- The search over months finds the earliest date. -/
theorem monthly_earliest :
    Earliest (OfMonth today aheadToday day)
      (match monthly today aheadToday day 13 today.firstOfMonth with
        | .error e => .error e
        | .ok none => .error .noSuchDate
        | .ok (some d) => .ok d) := by
  have hwalk := @monthly_fromMonth today aheadToday day 13 today.firstOfMonth
  have hindex : today.firstOfMonth.monthIndex = today.monthIndex := rfl
  have hfrom : ∀ e, OfMonth today aheadToday day e → today.monthIndex ≤ e.monthIndex :=
    fun e he => Date.monthIndex_le (le_of_isAhead he.2)
  rw [hindex] at hwalk
  generalize monthly today aheadToday day 13 today.firstOfMonth = r at hwalk ⊢
  match r, hwalk with
  | .ok (some d), hwalk =>
    refine ⟨hwalk.1, fun e he => ?_⟩
    obtain hlt | hsame := (hwalk.2 e he (hfrom e he)).lt_or_eq
    · exact (Gregorian.Date.lt_of_monthIndex hlt).le
    · have hday : d.day = e.day := Int.natCast_inj.mp (hwalk.1.1.trans he.1.symm)
      exact (Subtype.ext (Gregorian.Date.eq_of_monthIndex hsame hday)).le
  | .ok none, hwalk =>
    intro e he
    obtain ⟨d, hd, hle, hlt⟩ := exists_within_year he
    have := hwalk d hd hle
    omega
  | .error _, hwalk => exact fun e he => hwalk e he (hfrom e he)

end Monthly

/-! ### The request's day -/

/-- A byte read as signed names a month or a day only as itself. -/
theorem toInt8_eq_iff {n : ℕ} (h : n < 128) (b : UInt8) :
    (n : ℤ) = b.toInt8.toInt ↔ n = b.toNat := by
  have hb : b.toInt8.toInt = b.toBitVec.toInt := rfl
  have hn : b.toBitVec.toNat = b.toNat := rfl
  have hlt : b.toNat < 256 := b.toNat_lt
  rw [hb, BitVec.toInt_eq_toNat_cond, hn]
  split_ifs <;> omega

namespace AlarmRequest

/-- A date is ahead when it is later, or today with the time still to come. -/
theorem lt_timeOn_iff (r : AlarmRequest) (now : DateTime) (d : Date) :
    now < r.timeOn d ↔ isAhead now.date (decide (now < r.timeOn now.date)) d = true := by
  have hlt : ∀ e, now < r.timeOn e ↔
      now.date < e ∨ now.date = e ∧ now.sinceMidnight < (r.timeOn now.date).sinceMidnight :=
    fun _ => Iff.rfl
  rw [isAhead_iff, decide_eq_true_iff, hlt, hlt]
  constructor
  · rintro (h | ⟨h, ht⟩)
    · exact .inl h
    · exact .inr ⟨h.symm, .inr ⟨rfl, ht⟩⟩
  · rintro (h | ⟨h, h' | ⟨-, ht⟩⟩)
    · exact .inl h
    · exact absurd h' (lt_irrefl _)
    · exact .inr ⟨h.symm, ht⟩

variable {r : AlarmRequest} {now : DateTime}

theorem fits_weekday {day : Weekday} (h : r.day = .weekday day) (d : Date) :
    r.Fits now d ↔ d.weekday = day ∧ now < r.timeOn d := by
  rw [Fits, h, AlarmDay.Names]

theorem fits_date {month day : UInt8} (h : r.day = .date (some month) day) (d : Date) :
    r.Fits now d ↔ OfYear now.date (decide (now < r.timeOn now.date)) month.toInt8.toInt
      day.toInt8.toInt d := by
  have hm : d.month ≤ 12 := d.val.month_le
  have hd : d.day ≤ 31 := d.val.day_le.trans (Gregorian.daysInMonth_le _ _)
  rw [Fits, h, AlarmDay.Names, OfYear, toInt8_eq_iff (by omega), toInt8_eq_iff (by omega),
    lt_timeOn_iff, and_assoc]

theorem fits_day {day : UInt8} (h : r.day = .date none day) (d : Date) :
    r.Fits now d ↔
      OfMonth now.date (decide (now < r.timeOn now.date)) day.toInt8.toInt d := by
  have hd : d.day ≤ 31 := d.val.day_le.trans (Gregorian.daysInMonth_le _ _)
  rw [Fits, h, AlarmDay.Names, OfMonth, toInt8_eq_iff (by omega), lt_timeOn_iff]

/-- The search for a weekday starts tomorrow when today is that day and the time is past. -/
theorem weekday_earliest {day : Weekday} (h : r.day = .weekday day) :
    ∃ found, Earliest (r.Fits now) found ∧ r.when now = found.map r.once := by
  rw [when, h]
  simp only
  split_ifs with hpast
  · rw [Bool.and_eq_true, decide_eq_true_iff, Bool.not_eq_true', decide_eq_false_iff_not] at hpast
    -- Nothing that fits is today.
    have hnot : ∀ e, r.Fits now e → now.date < e := by
      intro e he
      rw [fits_weekday h, lt_timeOn_iff] at he
      refine (le_of_isAhead he.2).lt_of_ne ?_
      rintro rfl
      exact hpast.2 ((lt_timeOn_iff r now _).mpr he.2)
    split
    next hend =>
      exact ⟨.error .noSuchDate,
        fun e he => absurd (Date.tomorrow_none hend e) (not_le.mpr (hnot e he)), rfl⟩
    next next hnext =>
      have htomorrow := Date.tomorrow_some hnext
      refine ⟨seek day next, (Earliest.congr (fun e => ?_) _).mp (seek_earliest day next), ?_⟩
      · constructor
        · rintro ⟨hle, hday⟩
          exact (fits_weekday h e).mpr ⟨hday, .inl (htomorrow.1.trans_le hle)⟩
        · exact fun he => ⟨htomorrow.2 e (hnot e he), ((fits_weekday h e).mp he).1⟩
      · cases seek day next <;> rfl
  · rw [Bool.and_eq_true, decide_eq_true_iff, Bool.not_eq_true', decide_eq_false_iff_not,
      not_and, not_not] at hpast
    refine ⟨seek day now.date, (Earliest.congr (fun e => ?_) _).mp (seek_earliest day _), ?_⟩
    · rw [fits_weekday h, lt_timeOn_iff]
      constructor
      · rintro ⟨hle, hday⟩
        obtain hlt | rfl := hle.lt_or_eq
        · exact ⟨hday, isAhead_iff.mpr (.inl hlt)⟩
        · exact ⟨hday, (lt_timeOn_iff r now _).mp (hpast hday)⟩
      · exact fun he => ⟨le_of_isAhead he.2, he.1⟩
    · cases seek day now.date <;> rfl

/-- A result says which date it was made of. -/
theorem map_once_injective {f g : Except DayError Date} (h : f.map r.once = g.map r.once) :
    f = g := by
  cases f <;> cases g <;> cases h <;> rfl

/-- The search over years decides a request for a month and a day. -/
theorem date_earliest_iff {month day : UInt8} (h : r.day = .date (some month) day) :
    (∃ found, Earliest (r.Fits now) found ∧ r.when now = found.map r.once) ↔
      ¬ (r.day = .date (some 2) 29 ∧ ¬ Leap now.date.year ∧ now.date.year < 9996) := by
  have hwhen : r.when now = (yearly now.date (decide (now < r.timeOn now.date))
      month.toInt8.toInt day.toInt8.toInt).map r.once := by
    rw [when, h]
    simp only
    cases yearly now.date _ month.toInt8.toInt day.toInt8.toInt <;> rfl
  have hm : month.toInt8.toInt = 2 ↔ month = 2 := by
    rw [eq_comm, ← Nat.cast_two, toInt8_eq_iff (by decide), eq_comm, ← UInt8.toNat_inj]
    rfl
  have hd : day.toInt8.toInt = 29 ↔ day = 29 := by
    rw [eq_comm, show (29 : ℤ) = (29 : ℕ) from rfl, toInt8_eq_iff (by decide), eq_comm,
      ← UInt8.toNat_inj]
    rfl
  have hday : r.day = .date (some 2) 29 ↔ month = 2 ∧ day = 29 := by
    rw [h, AlarmDay.date.injEq, Option.some.injEq]
  calc (∃ found, Earliest (r.Fits now) found ∧ r.when now = found.map r.once)
    _ ↔ Earliest (r.Fits now) (yearly now.date (decide (now < r.timeOn now.date))
          month.toInt8.toInt day.toInt8.toInt) := by
        constructor
        · rintro ⟨found, hfound, heq⟩
          exact map_once_injective (hwhen.symm.trans heq) ▸ hfound
        · exact fun hfound => ⟨_, hfound, hwhen⟩
    _ ↔ (month.toInt8.toInt = 2 → day.toInt8.toInt = 29 → ¬ Leap now.date.year →
          9996 ≤ now.date.year) := (Earliest.congr (fits_date h) _).trans yearly_earliest_iff
    _ ↔ ¬ (r.day = .date (some 2) 29 ∧ ¬ Leap now.date.year ∧ now.date.year < 9996) := by
        rw [hm, hd, hday, and_assoc]
        simp only [not_and, not_lt]

/-- The search over months is right. -/
theorem day_earliest {day : UInt8} (h : r.day = .date none day) :
    ∃ found, Earliest (r.Fits now) found ∧ r.when now = found.map r.once := by
  refine ⟨_, (Earliest.congr (fits_day h) _).mpr monthly_earliest, ?_⟩
  rw [when, h]
  simp only
  match monthly now.date (decide (now < r.timeOn now.date)) day.toInt8.toInt 13
    now.date.firstOfMonth with
  | .ok (some _) | .ok none | .error _ => rfl

/-- The request is met unless it names February 29th, the year has none and a later year has. -/
theorem when_meets_iff (r : AlarmRequest) (now : DateTime) :
    r.Meets now (r.when now) ↔
      ¬ (r.day = .date (some 2) 29 ∧ ¬ Leap now.date.year ∧ now.date.year < 9996) := by
  have hother : r.day ≠ .date (some 2) 29 →
      ¬ (r.day = .date (some 2) 29 ∧ ¬ Leap now.date.year ∧ now.date.year < 9996) :=
    fun hne h => hne h.1
  rw [Meets]
  match h : r.day with
  | .next | .today | .repeats _ =>
    rw [h] at hother
    refine iff_of_true ?_ (hother (by simp))
    rw [when, h]
    rfl
  | .tomorrow =>
    rw [h] at hother
    refine iff_of_true ⟨_, tomorrow_earliest now.date, ?_⟩ (hother (by simp))
    rw [when, h]
    simp only
    split <;> rfl
  | .weekday _ =>
    rw [h] at hother
    exact iff_of_true (weekday_earliest h) (hother (by simp))
  | .date none _ =>
    rw [h] at hother
    exact iff_of_true (day_earliest h) (hother (by simp))
  | .date (some _) _ =>
    have hdate := @date_earliest_iff r now _ _ h
    rw [h] at hdate
    exact hdate

/-- Asked for in October 2026, February 29th is no date, though 2028 has one. -/
theorem leapDay_refused :
    ¬ ∀ (r : AlarmRequest) (now : DateTime), r.Meets now (r.when now) := by
  intro h
  let r : AlarmRequest := ⟨⟨7, 0, 0⟩, .date (some 2) 29, none⟩
  let now : DateTime :=
    ⟨⟨⟨2026, 10, 28, by decide, by decide, by decide, by decide⟩, by decide⟩, ⟨20, 0, 0⟩, 0⟩
  obtain ⟨found, hfound, heq⟩ := h r now
  have hrefused : r.when now = .error .noSuchDate := rfl
  rw [hrefused] at heq
  cases found with
  | ok d => cases heq
  | error e =>
    exact hfound ⟨⟨2028, 2, 29, by decide, by decide, by decide, by decide⟩, by decide⟩
      ⟨⟨rfl, rfl⟩, by decide⟩

end AlarmRequest

end EchoMuse.Alarms
