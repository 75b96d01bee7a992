import Mathlib.Algebra.Order.Ring.Int
import Mathlib.Order.Lattice
import Mathlib.Tactic.Common

/-!
# The First Ring of a New Alarm

When a new alarm first rings: a one-shot alarm on a date rings then or not at all; every other
alarm rings on the first day, from a given one or today, that its repeat allows and whose time is
still ahead. The search walks eight days from the first one.

The calendar and the time zone are those of the date library: `Calendar` and `TimeZone` are what
the search uses of them.

## Main results

* `search_ok`, `search_error`: what a walk over the days finds and what it leaves out;
* `firstDue_meets_iff`: the search is right exactly when an allowed day among the first eight is
  ahead, or none of the calendar is;
* `firstDue_meets_of_ahead`: it is right when every day after the first one is ahead.
-/

namespace EchoMuse.Alarms

/-! ### Days -/

/-- A day of the week. -/
inductive Weekday
  | monday | tuesday | wednesday | thursday | friday | saturday | sunday
deriving DecidableEq, Repr

/-- The day's number, Monday zero. -/
def Weekday.toMondayZeroOffset : Weekday → ℕ
  | .monday => 0
  | .tuesday => 1
  | .wednesday => 2
  | .thursday => 3
  | .friday => 4
  | .saturday => 5
  | .sunday => 6

/-- The weekday of the next day. -/
def Weekday.tomorrow : Weekday → Weekday
  | .monday => .tuesday
  | .tuesday => .wednesday
  | .wednesday => .thursday
  | .thursday => .friday
  | .friday => .saturday
  | .saturday => .sunday
  | .sunday => .monday

/-- The next seven days hold every weekday. -/
theorem Weekday.exists_tomorrow (a b : Weekday) : ∃ k < 7, tomorrow^[k + 1] a = b := by
  have hall : ∀ k < 7, ∀ a : Weekday, tomorrow^[k + 1] a = b →
      ∃ k < 7, tomorrow^[k + 1] a = b := fun k hk a h => ⟨k, hk, h⟩
  refine hall ((b.toMondayZeroOffset + 13 - a.toMondayZeroOffset) % 7) (Nat.mod_lt _ (by decide)) a ?_
  cases a <;> cases b <;> rfl

/-- A set of weekdays, one bit each. -/
structure Weekdays where
  bits : BitVec 8
deriving DecidableEq

namespace Weekdays

/-- No day. -/
def none : Weekdays := ⟨0⟩

/-- Every day. -/
def all : Weekdays := ⟨0x7f⟩

def bit (day : Weekday) : BitVec 8 := 1#8 <<< day.toMondayZeroOffset

/-- The set with `day` added. -/
def insert (s : Weekdays) (day : Weekday) : Weekdays := ⟨s.bits ||| bit day⟩

/-- Whether `day` is in the set. -/
def contains (s : Weekdays) (day : Weekday) : Bool := s.bits &&& bit day != 0

@[simp] theorem contains_all (day : Weekday) : all.contains day = true := by
  cases day <;> rfl

end Weekdays

/-- A time of day. -/
structure TimeOfDay where
  hour : Fin 24
  minute : Fin 60
  second : Fin 60
deriving DecidableEq

/-- The dates of the calendar: an interval of days. -/
structure Calendar where
  Date : Type
  [order : LinearOrder Date]
  weekday : Date → Weekday
  /-- The next day; `none` at the end of the range. -/
  tomorrow : Date → Option Date
  tomorrow_some : ∀ {d e : Date}, tomorrow d = some e → d < e ∧ ∀ f, d < f → e ≤ f
  tomorrow_none : ∀ {d : Date}, tomorrow d = none → ∀ f, f ≤ d
  weekday_tomorrow : ∀ {d e : Date}, tomorrow d = some e → weekday e = (weekday d).tomorrow

attribute [instance] Calendar.order

/-- An instant, in nanoseconds. -/
abbrev Timestamp := ℤ

/-- Home Assistant's time zone. -/
structure TimeZone (C : Calendar) where
  /-- The local date of an instant. -/
  date : Timestamp → C.Date
  /-- The instant of a local date and time. -/
  resolve : C.Date → TimeOfDay → Option Timestamp

/-- Every local time of the calendar's range has an instant. -/
def TimeZone.Defined {C : Calendar} (zone : TimeZone C) : Prop :=
  ∀ d time, ∃ due, zone.resolve d time = some due

/-- A time of day is not earlier on a later date. -/
def TimeZone.Monotone {C : Calendar} (zone : TimeZone C) : Prop :=
  ∀ d e time due due', d ≤ e → zone.resolve d time = some due → zone.resolve e time = some due' →
    due ≤ due'

/-! ### The search -/

/-- How an alarm repeats. -/
inductive Repeat
  | once
  | daily
  | weekly (days : Weekdays)
deriving DecidableEq

/-- When a new alarm rings. -/
structure AlarmWhen (C : Calendar) where
  /-- The time of day. -/
  time : TimeOfDay
  /-- The first day it may ring; `none` means the next time the time comes round. -/
  date : Option C.Date
  /-- How it repeats. -/
  repeats : Repeat

/-- Why an alarm has no first instance. -/
inductive ScheduleError
  | inThePast
  | outOfRange
deriving DecidableEq, Repr

namespace AlarmWhen

variable {C : Calendar}

/-- The days the repeat allows. -/
def days (w : AlarmWhen C) : Weekdays :=
  match w.repeats with
  | .once | .daily => .all
  | .weekly days => days

/-- The day the search starts at. -/
def start (w : AlarmWhen C) (zone : TimeZone C) (now : Timestamp) : C.Date :=
  w.date.getD (zone.date now)

/-- The first of `n` days from `date` that the repeat allows and whose instant is after `now`. -/
def search (w : AlarmWhen C) (zone : TimeZone C) (now : Timestamp) :
    ℕ → C.Date → Except ScheduleError Timestamp
  | 0, _ => .error .outOfRange
  | n + 1, date =>
    let later := match C.tomorrow date with
      | none => .error .outOfRange
      | some date => search w zone now n date
    if w.days.contains (C.weekday date) then
      match zone.resolve date w.time with
      | none => .error .outOfRange
      | some due => if now < due then .ok due else later
    else later

/-- The first instant after `now` at which the alarm rings, in `zone`. -/
def firstDue (w : AlarmWhen C) (zone : TimeZone C) (now : Timestamp) :
    Except ScheduleError Timestamp :=
  match w.repeats, w.date with
  | .once, some date =>
    match zone.resolve date w.time with
    | none => .error .outOfRange
    | some due => if now < due then .ok due else .error .inThePast
  | _, _ => w.search zone now 8 (w.start zone now)

/-! ### What the search is for -/

/-- A day the repeat allows whose instant `due` is after `now`. -/
structure Ahead (w : AlarmWhen C) (zone : TimeZone C) (now : Timestamp) (d : C.Date)
    (due : Timestamp) : Prop where
  allowed : w.days.contains (C.weekday d) = true
  resolves : zone.resolve d w.time = some due
  after : now < due

/-- A dated one-shot alarm rings on its date. -/
def dated (w : AlarmWhen C) : Prop := w.repeats = .once ∧ w.date.isSome = true

instance (w : AlarmWhen C) : Decidable w.dated := inferInstanceAs (Decidable (_ ∧ _))

/-- A dated one-shot alarm rings on its date when that is ahead. Every other alarm rings at the
earliest allowed day from the start on that is ahead, and fails only when there is none. -/
def Meets (w : AlarmWhen C) (zone : TimeZone C) (now : Timestamp)
    (r : Except ScheduleError Timestamp) : Prop :=
  if w.dated then
    ∃ due, zone.resolve (w.start zone now) w.time = some due ∧
      r = if now < due then .ok due else .error .inThePast
  else
    match r with
    | .ok due => ∃ d, w.start zone now ≤ d ∧ w.Ahead zone now d due ∧
        ∀ d' due', w.start zone now ≤ d' → w.Ahead zone now d' due' → d ≤ d'
    | .error _ => ∀ d due, w.start zone now ≤ d → ¬ w.Ahead zone now d due

end AlarmWhen

/-! ### Days in a row -/

namespace Calendar

variable {C : Calendar}

/-- At most `n` days in a row from `d`. -/
def daysFrom (C : Calendar) : ℕ → C.Date → List C.Date
  | 0, _ => []
  | n + 1, d =>
    d :: match C.tomorrow d with
      | none => []
      | some e => daysFrom C n e

/-- The days in a row are none before the first. -/
theorem le_of_mem_daysFrom {n : ℕ} {d e : C.Date} (h : e ∈ C.daysFrom n d) : d ≤ e := by
  induction n generalizing d with
  | zero => cases h
  | succ n ih =>
      rcases List.mem_cons.mp h with rfl | h
      · exact le_rfl
      · cases ht : C.tomorrow d with
        | none =>
            rw [ht] at h
            cases h
        | some f =>
            rw [ht] at h
            exact (C.tomorrow_some ht).1.le.trans (ih h)

/-- A day that is not among the `n` in a row from `d` comes after a whole row of `n`: the `k`th
of them is there and has the weekday `k` days on. -/
theorem exists_mem_daysFrom {n : ℕ} {d e : C.Date} (hle : d ≤ e) (h : e ∉ C.daysFrom n d) {k : ℕ}
    (hk : k < n) :
    ∃ f ∈ C.daysFrom n d, C.weekday f = Weekday.tomorrow^[k] (C.weekday d) ∧ (0 < k → d < f) := by
  induction n generalizing d k with
  | zero => omega
  | succ n ih =>
      cases k with
      | zero => exact ⟨d, List.mem_cons_self, rfl, fun h => absurd h (Nat.lt_irrefl 0)⟩
      | succ k =>
          obtain ⟨hne, hrest⟩ := not_or.mp (List.mem_cons.not.mp h)
          have hlt : d < e := lt_of_le_of_ne hle (Ne.symm hne)
          cases ht : C.tomorrow d with
          | none => exact absurd (C.tomorrow_none ht e) (not_le.mpr hlt)
          | some f =>
              rw [ht] at hrest
              obtain ⟨hf, hnext⟩ := C.tomorrow_some ht
              obtain ⟨g, hg, hweek, -⟩ := ih (hnext e hlt) hrest (Nat.lt_of_succ_lt_succ hk)
              have hmem : g ∈ C.daysFrom (n + 1) d := by
                refine List.mem_cons_of_mem d ?_
                rw [ht]
                exact hg
              refine ⟨g, hmem, ?_, fun _ => hf.trans_le (le_of_mem_daysFrom hg)⟩
              rw [hweek, C.weekday_tomorrow ht, Function.iterate_succ_apply]

end Calendar

namespace AlarmWhen

variable {C : Calendar} {w : AlarmWhen C} {zone : TimeZone C} {now : Timestamp}

/-! ### What a walk finds -/

/-- A walk ends at the first day ahead. -/
theorem search_ok {n : ℕ} {date : C.Date} {due : Timestamp}
    (h : w.search zone now n date = .ok due) :
    ∃ d ∈ C.daysFrom n date, w.Ahead zone now d due ∧
      ∀ e due', date ≤ e → w.Ahead zone now e due' → d ≤ e := by
  induction n generalizing date with
  | zero => cases h
  | succ n ih =>
      -- Once `date` itself is not ahead, the rest of the walk decides.
      have hlater : (∀ due', ¬ w.Ahead zone now date due') →
          (match C.tomorrow date with
            | none => .error .outOfRange
            | some date => w.search zone now n date : Except ScheduleError Timestamp) = .ok due →
          ∃ d ∈ C.daysFrom (n + 1) date, w.Ahead zone now d due ∧
            ∀ e due', date ≤ e → w.Ahead zone now e due' → d ≤ e := by
        intro hnot hrest
        cases ht : C.tomorrow date with
        | none =>
            rw [ht] at hrest
            cases hrest
        | some next =>
            rw [ht] at hrest
            obtain ⟨d, hmem, hd, hmin⟩ := ih hrest
            refine ⟨d, ?_, hd, ?_⟩
            · refine List.mem_cons_of_mem date ?_
              rw [ht]
              exact hmem
            · intro e due' hle he
              rcases hle.eq_or_lt with rfl | hlt
              · exact absurd he (hnot due')
              · exact hmin e due' ((C.tomorrow_some ht).2 e hlt) he
      rw [search] at h
      by_cases hday : w.days.contains (C.weekday date) = true
      · rw [if_pos hday] at h
        cases hr : zone.resolve date w.time with
        | none =>
            rw [hr] at h
            cases h
        | some at' =>
            rw [hr] at h
            dsimp only at h
            by_cases hnow : now < at'
            · rw [if_pos hnow] at h
              cases h
              exact ⟨date, List.mem_cons_self, ⟨hday, hr, hnow⟩, fun e _ hle _ => hle⟩
            · rw [if_neg hnow] at h
              refine hlater (fun due' ha => hnow ?_) h
              obtain rfl : at' = due' := Option.some.inj (hr.symm.trans ha.resolves)
              exact ha.after
      · rw [if_neg hday] at h
        exact hlater (fun due' ha => hday ha.allowed) h

/-- A walk fails only when no day of it is ahead. -/
theorem search_error (hz : zone.Defined) {n : ℕ} {date : C.Date} {e : ScheduleError}
    (h : w.search zone now n date = .error e) :
    ∀ d ∈ C.daysFrom n date, ∀ due, ¬ w.Ahead zone now d due := by
  induction n generalizing date with
  | zero => exact fun d hd => absurd hd List.not_mem_nil
  | succ n ih =>
      have hlater : (∀ due, ¬ w.Ahead zone now date due) →
          (match C.tomorrow date with
            | none => .error .outOfRange
            | some date => w.search zone now n date : Except ScheduleError Timestamp) = .error e →
          ∀ d ∈ C.daysFrom (n + 1) date, ∀ due, ¬ w.Ahead zone now d due := by
        intro hnot hrest d hd
        rcases List.mem_cons.mp hd with rfl | hd
        · exact hnot
        · cases ht : C.tomorrow date with
          | none =>
              rw [ht] at hd
              cases hd
          | some next =>
              rw [ht] at hd hrest
              exact ih hrest d hd
      rw [search] at h
      by_cases hday : w.days.contains (C.weekday date) = true
      · rw [if_pos hday] at h
        obtain ⟨at', hr⟩ := hz date w.time
        rw [hr] at h
        dsimp only at h
        by_cases hnow : now < at'
        · rw [if_pos hnow] at h
          cases h
        · rw [if_neg hnow] at h
          refine hlater (fun due ha => hnow ?_) h
          obtain rfl : at' = due := Option.some.inj (hr.symm.trans ha.resolves)
          exact ha.after
      · rw [if_neg hday] at h
        exact hlater (fun due ha => hday ha.allowed) h

/-! ### When the search is right -/

/-- The walk is enough: a day of the first eight is ahead, or no later day of the calendar is. -/
def InReach (w : AlarmWhen C) (zone : TimeZone C) (now : Timestamp) : Prop :=
  (∃ d ∈ C.daysFrom 8 (w.start zone now), ∃ due, w.Ahead zone now d due) ∨
    ∀ d due, w.start zone now ≤ d → ¬ w.Ahead zone now d due

/-- The search of an alarm that is not a dated one-shot. -/
theorem firstDue_of_not_dated (h : ¬ w.dated) :
    w.firstDue zone now = w.search zone now 8 (w.start zone now) := by
  unfold firstDue
  cases hrep : w.repeats with
  | once =>
      cases hdate : w.date with
      | none => rfl
      | some date => exact absurd ⟨hrep, by rw [hdate]; rfl⟩ h
  | daily => rfl
  | weekly days => rfl

/-- A dated one-shot alarm is always right. -/
theorem firstDue_of_dated (hz : zone.Defined) (h : w.dated) :
    ∃ due, zone.resolve (w.start zone now) w.time = some due ∧
      w.firstDue zone now = if now < due then .ok due else .error .inThePast := by
  obtain ⟨hrep, hdate⟩ := h
  obtain ⟨date, hdate⟩ := Option.isSome_iff_exists.mp hdate
  obtain ⟨due, hr⟩ := hz date w.time
  refine ⟨due, ?_, ?_⟩
  · rw [start, hdate]
    exact hr
  · unfold firstDue
    rw [hrep, hdate]
    dsimp only
    rw [hr]

/-- The walk of eight days finds what it is for exactly when that is in its reach. -/
theorem search_meets_iff (hz : zone.Defined) (h : ¬ w.dated) :
    w.Meets zone now (w.search zone now 8 (w.start zone now)) ↔ w.InReach zone now := by
  unfold Meets
  rw [if_neg h]
  cases hs : w.search zone now 8 (w.start zone now) with
  | ok due =>
      obtain ⟨d, hmem, hd, hmin⟩ := search_ok hs
      constructor
      · exact fun _ => Or.inl ⟨d, hmem, due, hd⟩
      · exact fun _ => ⟨d, Calendar.le_of_mem_daysFrom hmem, hd, hmin⟩
  | error e =>
      have hnone := search_error hz hs
      constructor
      · exact Or.inr
      · rintro (⟨d, hmem, due, hd⟩ | hall)
        · exact absurd hd (hnone d hmem due)
        · exact hall

/-- The first ring is the one the alarm is for exactly when it is a dated one-shot or its day is
in reach. -/
theorem firstDue_meets_iff (w : AlarmWhen C) (zone : TimeZone C) (now : Timestamp)
    (hz : zone.Defined) :
    w.Meets zone now (w.firstDue zone now) ↔ w.dated ∨ w.InReach zone now := by
  by_cases h : w.dated
  · refine iff_of_true ?_ (Or.inl h)
    unfold Meets
    rw [if_pos h]
    exact firstDue_of_dated hz h
  · rw [firstDue_of_not_dated h, search_meets_iff hz h]
    exact (or_iff_right h).symm

/-- Eight days reach every weekday after the first one. -/
theorem firstDue_meets_of_ahead (hz : zone.Defined)
    (h : ∀ d due, w.start zone now < d → zone.resolve d w.time = some due → now < due) :
    w.Meets zone now (w.firstDue zone now) := by
  rw [firstDue_meets_iff w zone now hz]
  by_cases hd : w.dated
  · exact Or.inl hd
  · refine Or.inr ?_
    by_cases hsome : ∃ d due, w.start zone now ≤ d ∧ w.Ahead zone now d due
    · obtain ⟨d, due, hle, ha⟩ := hsome
      by_cases hmem : d ∈ C.daysFrom 8 (w.start zone now)
      · exact Or.inl ⟨d, hmem, due, ha⟩
      · obtain ⟨k, hk, hweek⟩ := Weekday.exists_tomorrow (C.weekday (w.start zone now)) (C.weekday d)
        obtain ⟨f, hf, hfweek, hlt⟩ :=
          Calendar.exists_mem_daysFrom hle hmem (Nat.succ_lt_succ hk)
        obtain ⟨due', hr⟩ := hz f w.time
        refine Or.inl ⟨f, hf, due', ?_, hr, h f due' (hlt k.succ_pos) hr⟩
        rw [hfweek, hweek]
        exact ha.allowed
    · exact Or.inr fun d due hle ha => hsome ⟨d, due, hle, ha⟩

end AlarmWhen

/-! ### Dates as day numbers -/

/-- The calendar from -9999-01-01 to 9999-12-31, as days from 1970-01-01. -/
def civil : Calendar where
  Date := { d : ℤ // -4371587 ≤ d ∧ d ≤ 2932896 }
  weekday d :=
    match (d.val + 3) % 7 with
    | 0 => .monday
    | 1 => .tuesday
    | 2 => .wednesday
    | 3 => .thursday
    | 4 => .friday
    | 5 => .saturday
    | _ => .sunday
  tomorrow d := if h : d.val < 2932896 then some ⟨d.val + 1, by omega⟩ else none
  tomorrow_some := by
    rintro ⟨d, hd⟩ ⟨e, he⟩ h
    by_cases hlt : d < 2932896
    · rw [dif_pos hlt] at h
      obtain rfl : d + 1 = e := congrArg Subtype.val (Option.some.inj h)
      refine ⟨Subtype.mk_lt_mk.mpr (by omega), ?_⟩
      rintro ⟨f, hf⟩ hdf
      have hdf' : d < f := hdf
      exact Subtype.mk_le_mk.mpr (by omega)
    · rw [dif_neg hlt] at h
      cases h
  tomorrow_none := by
    rintro ⟨d, hd⟩ h ⟨f, hf⟩
    by_cases hlt : d < 2932896
    · rw [dif_pos hlt] at h
      cases h
    · exact Subtype.mk_le_mk.mpr (by omega)
  weekday_tomorrow := by
    rintro ⟨d, hd⟩ ⟨e, he⟩ h
    by_cases hlt : d < 2932896
    · rw [dif_pos hlt] at h
      obtain rfl : d + 1 = e := congrArg Subtype.val (Option.some.inj h)
      have hcases : (d + 3) % 7 = 0 ∨ (d + 3) % 7 = 1 ∨ (d + 3) % 7 = 2 ∨ (d + 3) % 7 = 3 ∨
          (d + 3) % 7 = 4 ∨ (d + 3) % 7 = 5 ∨ (d + 3) % 7 = 6 := by omega
      have hnext : (d + 1 + 3) % 7 = ((d + 3) % 7 + 1) % 7 := by omega
      dsimp only
      rw [hnext]
      rcases hcases with h | h | h | h | h | h | h <;> rw [h] <;> rfl
    · rw [dif_neg hlt] at h
      cases h

/-- The nanoseconds from 1970-01-01 to a time of day. -/
def instant (day : ℤ) (time : TimeOfDay) : ℤ :=
  (((day * 24 + time.hour) * 60 + time.minute) * 60 + time.second) * 1000000000

theorem instant_mono {d e : ℤ} (h : d ≤ e) (time : TimeOfDay) : instant d time ≤ instant e time := by
  unfold instant
  omega

/-- Coordinated universal time. -/
def utc : TimeZone civil where
  date now := ⟨max (-4371587) (min 2932896 (now / 86400000000000)), by omega⟩
  resolve d time := some (instant d.val time)

namespace AlarmWhen

/-- A daily alarm at seven from 1970-01-01. -/
def sevenDaily : AlarmWhen civil where
  time := ⟨7, 0, 0⟩
  date := some ⟨0, by decide⟩
  repeats := .daily

theorem utc_defined : utc.Defined := fun _ _ => ⟨_, rfl⟩

/-- At noon of its first day, the next morning is in reach. -/
theorem sevenDaily_meets :
    sevenDaily.Meets utc 43200000000000 (sevenDaily.firstDue utc 43200000000000) := by
  refine (firstDue_meets_iff sevenDaily utc 43200000000000 utc_defined).mpr (Or.inr (Or.inl ?_))
  refine ⟨⟨1, by decide⟩, List.mem_cons_of_mem _ List.mem_cons_self, instant 1 ⟨7, 0, 0⟩, ?_, rfl, ?_⟩
  · decide +kernel
  · decide

/-- At noon of the eighth day after its first, a daily alarm is refused as out of range, with
the next morning still ahead. -/
theorem sevenDaily_refused :
    ¬ ∀ (C : Calendar) (zone : TimeZone C) (w : AlarmWhen C) (now : Timestamp), zone.Defined →
      zone.Monotone → w.Meets zone now (w.firstDue zone now) := by
  intro h
  have hmono : utc.Monotone := by
    intro d e time due due' hle hd he
    cases hd
    cases he
    exact instant_mono hle time
  have hmeets := h civil utc sevenDaily (8 * 86400000000000 + 43200000000000) utc_defined hmono
  have hrefused : sevenDaily.firstDue utc (8 * 86400000000000 + 43200000000000) =
      .error .outOfRange := by decide +kernel
  have hdated : ¬ sevenDaily.dated := by
    rintro ⟨hrep, -⟩
    cases hrep
  unfold Meets at hmeets
  rw [if_neg hdated, hrefused] at hmeets
  refine hmeets ⟨9, by decide⟩ (9 * 86400000000000 + 25200000000000) ?_ ⟨?_, ?_, ?_⟩
  · exact Subtype.mk_le_mk.mpr (by decide)
  · decide +kernel
  · decide +kernel
  · decide

end AlarmWhen

end EchoMuse.Alarms
