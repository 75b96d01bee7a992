import EchoMuse.Narrowing
import Mathlib.Data.List.Nodup
import EchoMuse.Grammar.Stable

/-!
# Cancelling Timers

Which timers a local cancel asks Home Assistant to cancel, and in which requests. Home Assistant owns
the timers and finds the one a request means by its own search; `pick` foresees that search with the
timers Home Assistant reported. Of a name only its normalization matters here, so this is a parameter
of everything below.

## Main results

* `pick_eq_some_iff`: a timer is picked when the search of its own slots finds it;
* `findTimer_of_pick`: Home Assistant's search finds it too, whichever finer names it tells apart.
-/

namespace EchoMuse.Timers

open Narrowing (search narrow lone)

/-! ### Timers -/

/-- One timer Home Assistant reports; a unit it was not given is reported as 0. -/
structure HaTimer where
  id : String
  name : Option (List Char)
  haDevice : Option String
  startHours : UInt32
  startMinutes : UInt32
  startSeconds : UInt32
deriving DecidableEq

/-- The slots of a request for one timer. -/
structure TimerSelector where
  name : Option (List Char)
  startHours : Option UInt32
  startMinutes : Option UInt32
  startSeconds : Option UInt32
deriving DecidableEq

inductive DirectIntent
  | cancelTimer (selector : TimerSelector)
  /-- Every timer in Home Assistant, not only this speaker's. -/
  | cancelAllTimers
deriving DecidableEq

def startUnits (timer : HaTimer) : UInt32 × UInt32 × UInt32 :=
  (timer.startHours, timer.startMinutes, timer.startSeconds)

/-- A timer's length in seconds. -/
def timerSeconds (timer : HaTimer) : UInt32 :=
  timer.startHours * 3600 + timer.startMinutes * 60 + timer.startSeconds

/-! ### Home Assistant's search -/

section Search

variable (same : List Char → List Char → Bool)

/-- The steps of the search: the name, the start units, then the asking device. -/
def slotSteps (device : String) (selector : TimerSelector) : List (HaTimer → Bool) :=
  [fun t => selector.name.all fun wanted => t.name.any fun name => same name wanted,
    fun t => startUnits t = (selector.startHours.getD 0, selector.startMinutes.getD 0,
      selector.startSeconds.getD 0),
    fun t => t.haDevice = some device]

/-- The timer a request means; each step returns a lone match. -/
def findTimer (device : String) (selector : TimerSelector) (timers : List HaTimer) : Option HaTimer :=
  search (slotSteps same device selector) timers

/-- The timers a request removes. -/
def removes (device : String) (intent : DirectIntent) (timers : List HaTimer) : List HaTimer :=
  match intent with
  | .cancelTimer selector => (findTimer same device selector timers).toList
  | .cancelAllTimers => timers

end Search

section

variable {ν : Type*} [DecidableEq ν] (norm : List Char → ν)

/-! ### Picking one timer -/

def sameName (name : Option (List Char)) (wanted : List Char) : Bool :=
  name.any fun name => norm name = norm wanted

/-- A unit that is not zero. -/
def unit (n : UInt32) : Option UInt32 := if n ≠ 0 then some n else none

/-- The slots a timer is asked for by. -/
def slotsOf (target : HaTimer) : TimerSelector where
  name := target.name
  startHours := unit target.startHours
  startMinutes := unit target.startMinutes
  startSeconds := unit target.startSeconds

/-- The slots under which the search finds exactly `target`; none when it cannot. -/
def pick (target : HaTimer) (every : List HaTimer) (device : String) : Option TimerSelector :=
  let left := every.filter fun t => target.name.all fun name => sameName norm t.name name
  let left := narrow (fun t => startUnits t = startUnits target) left
  let left := narrow (fun t => t.haDevice = some device) left
  match left with
  | [only] => if only.id = target.id then some (slotsOf target) else none
  | _ => none

/-! ### Runs of cancels -/

/-- Timer cancels carried out one request at a time. -/
structure TimerCancelRun where
  every : List HaTimer
  device : String
  queue : List HaTimer
  /-- The request to send next, or waiting for its answer, and the timers it cancels. -/
  sent : Option (DirectIntent × List HaTimer)
  cancelled : List HaTimer
  total : ℕ
deriving DecidableEq

namespace TimerCancelRun

/-- The first timer of the queue that can be picked. -/
def popQueue (every : List HaTimer) (device : String) :
    List HaTimer → Option (TimerSelector × HaTimer) × List HaTimer
  | [] => (none, [])
  | timer :: queue =>
    match pick norm timer every device with
    | some selector => (some (selector, timer), queue)
    | none => popQueue every device queue

/-- The next request to send; none once every timer was tried. -/
def nextIntent (run : TimerCancelRun) : Option DirectIntent × TimerCancelRun :=
  match run.sent with
  | some (intent, _) => (some intent, run)
  | none =>
    match popQueue norm run.every run.device run.queue with
    | (some (selector, timer), queue) =>
      (some (.cancelTimer selector),
        { run with queue, sent := some (.cancelTimer selector, [timer]) })
    | (none, queue) => (none, { run with queue })

/-- The answer to the request. -/
def answered (run : TimerCancelRun) (applied : Bool) : TimerCancelRun :=
  match run.sent with
  | none => run
  | some (_, timers) =>
    if applied then
      { run with
        sent := none
        every := run.every.filter fun t => timers.all fun done => done.id ≠ t.id
        cancelled := run.cancelled ++ timers }
    else { run with sent := none }

end TimerCancelRun

/-! ### Plans -/

/-- Which timers a local cancel names. -/
inductive TimerCancel
  | any
  | all

/-- What the answer to "Which one?" picked among the timers it offered. -/
inductive ChosenTimers
  | one (timer : HaTimer)
  | all (offered : List HaTimer)

/-- Every timer Home Assistant reported, and the speaker's device. -/
structure SpeakerTimers where
  every : List HaTimer
  device : String

/-- What to do about a timer cancel. -/
inductive TimerCancelPlan
  | noTimers
  | whichOne (timers : List HaTimer)
  | alreadyFinished (timer : HaTimer)
  | indistinct (timer : HaTimer) (count : ℕ)
  | cancel (run : TimerCancelRun)
deriving DecidableEq

namespace SpeakerTimers

/-- This speaker's timers. -/
def mine (timers : SpeakerTimers) : List HaTimer :=
  timers.every.filter fun t => t.haDevice = some timers.device

def cancelOne (timers : SpeakerTimers) (timer : HaTimer) : TimerCancelPlan :=
  match pick norm timer timers.every timers.device with
  | some selector =>
    .cancel { every := timers.every, device := timers.device, queue := [],
              sent := some (.cancelTimer selector, [timer]), cancelled := [], total := 1 }
  | none =>
    .indistinct timer <| (timers.mine.filter fun t => timerSeconds t = timerSeconds timer &&
      timer.name.all fun name => sameName norm t.name name).length

def cancelSet (timers : SpeakerTimers) (set : List HaTimer) : TimerCancelPlan :=
  if set = [] then .noTimers
  else if set.length = timers.every.length then
    .cancel { every := timers.every, device := timers.device, queue := [],
              sent := some (.cancelAllTimers, set), cancelled := [], total := set.length }
  else
    .cancel { every := timers.every, device := timers.device, queue := set, sent := none,
              cancelled := [], total := set.length }

/-- Decides a cancel just asked for. -/
def plan (timers : SpeakerTimers) (cancel : TimerCancel) : TimerCancelPlan :=
  match cancel, timers.mine with
  | .all, mine => timers.cancelSet mine
  | .any, [] => .noTimers
  | .any, [one] => timers.cancelOne norm one
  | .any, mine => .whichOne mine

/-- Decides the answer to "Which one?" against the timers as they are now. -/
def planChosen (timers : SpeakerTimers) (chosen : ChosenTimers) : TimerCancelPlan :=
  match chosen with
  | .one timer =>
    match timers.mine.find? fun t => t.id = timer.id with
    | some now => timers.cancelOne norm now
    | none => .alreadyFinished timer
  | .all offered => timers.cancelSet (timers.mine.filter fun t => offered.any fun o => o.id = t.id)

end SpeakerTimers

end

/-! ### What is picked -/

section Pick

variable {ν : Type*} [DecidableEq ν] {norm : List Char → ν}

theorem getD_unit (n : UInt32) : (unit n).getD 0 = n := by
  rw [unit]
  split_ifs with h
  · rfl
  · exact (not_not.mp h).symm

/-- A timer is among those its own slots mean, if it is the asking device's. -/
theorem slotSteps_self {same : List Char → List Char → Bool} (hrefl : ∀ a, same a a = true)
    {device : String} {target : HaTimer} (hdevice : target.haDevice = some device) :
    ∀ p ∈ slotSteps same device (slotsOf target), p target = true := by
  have hname : (target.name.all fun wanted => target.name.any fun name => same name wanted) = true := by
    cases target.name with
    | none => rfl
    | some name => exact hrefl name
  have hunits : startUnits target = ((unit target.startHours).getD 0,
      (unit target.startMinutes).getD 0, (unit target.startSeconds).getD 0) := by
    rw [getD_unit, getD_unit, getD_unit]
    rfl
  intro p hp
  simp only [slotSteps, List.mem_cons, List.not_mem_nil, or_false] at hp
  obtain rfl | rfl | rfl := hp
  · exact hname
  · exact decide_eq_true hunits
  · exact decide_eq_true hdevice

/-- The names the crate takes for one. -/
def normalized (norm : List Char → ν) (name wanted : List Char) : Bool := norm name = norm wanted

/-- The steps for a timer's own slots. -/
theorem slotSteps_slotsOf (target : HaTimer) (device : String) :
    slotSteps (normalized norm) device (slotsOf target) =
      [fun t => target.name.all fun name => sameName norm t.name name,
        fun t => startUnits t = startUnits target, fun t => t.haDevice = some device] := by
  simp only [slotSteps, slotsOf, getD_unit]
  rfl

/-- A timer is picked when the search of its own slots, by normalized names, finds it. -/
theorem pick_eq (target : HaTimer) (every : List HaTimer) (device : String) :
    pick norm target every device =
      match findTimer (normalized norm) device (slotsOf target) every with
      | some t => if t.id = target.id then some (slotsOf target) else none
      | none => none := by
  rw [findTimer, slotSteps_slotsOf, Narrowing.search_eq, List.foldl_cons, List.foldl_cons,
    List.foldl_nil, pick]
  generalize narrow _ _ = left
  match left with
  | [] => rfl
  | [t] => rfl
  | t :: t' :: left => rfl

theorem pick_eq_some_iff {target : HaTimer} {every : List HaTimer} {device : String}
    {selector : TimerSelector} (hids : (every.map (·.id)).Nodup) (hmem : target ∈ every) :
    pick norm target every device = some selector ↔
      findTimer (normalized norm) device (slotsOf target) every = some target ∧
        selector = slotsOf target := by
  rw [pick_eq]
  cases hfind : findTimer (normalized norm) device (slotsOf target) every with
  | none => exact iff_of_false nofun fun h => nomatch h.1
  | some t =>
    have ht : t ∈ every := (Narrowing.search_eq_some hfind).1
    have hsame : t.id = target.id ↔ t = target :=
      ⟨fun h => List.inj_on_of_nodup_map hids ht hmem h, fun h => h ▸ rfl⟩
    simp only [hsame]
    split_ifs with h
    · simp [h, eq_comm]
    · simp [h]

/-- Home Assistant's search finds a picked timer too: names it takes for one are one here. -/
theorem findTimer_of_pick {same : List Char → List Char → Bool} (hrefl : ∀ a, same a a = true)
    (hfine : ∀ a b, same a b = true → norm a = norm b) {target : HaTimer} {every : List HaTimer}
    {device : String} {selector : TimerSelector} (hids : (every.map (·.id)).Nodup)
    (hmem : target ∈ every) (hdevice : target.haDevice = some device)
    (h : pick norm target every device = some selector) :
    findTimer same device selector every = some target := by
  obtain ⟨hfind, rfl⟩ := (pick_eq_some_iff hids hmem).mp h
  refine Narrowing.search_of_finer ?_ (slotSteps_self hrefl hdevice) (List.Sublist.refl every) hmem
    hfind
  refine .cons (fun _ t ht => ?_) (.cons (fun _ _ ht => ht) (.cons (fun _ _ ht => ht) .nil))
  rw [Option.all_eq_true] at ht ⊢
  intro wanted hwanted
  obtain ⟨name, hname, hsame⟩ := (Option.any_eq_true _ _).mp (ht wanted hwanted)
  exact (Option.any_eq_true _ _).mpr ⟨name, hname, decide_eq_true (hfine name wanted hsame)⟩

/-- A timer that is not picked no request finds, where names are one as they are here. -/
theorem findTimer_of_not_pick {target : HaTimer} {every : List HaTimer} {device : String}
    (hids : (every.map (·.id)).Nodup) (hmem : target ∈ every)
    (hdevice : target.haDevice = some device) (h : pick norm target every device = none)
    (selector : TimerSelector) :
    findTimer (normalized norm) device selector every ≠ some target := by
  intro hfind
  have hown : findTimer (normalized norm) device (slotsOf target) every = some target := by
    refine Narrowing.search_of_finer ?_ (slotSteps_self (fun a => decide_eq_true rfl) hdevice)
      (List.Sublist.refl every) hmem hfind
    rw [slotSteps_slotsOf]
    refine .cons (fun htarget t ht => ?_) (.cons (fun htarget t ht => ?_)
      (.cons (fun _ _ ht => ht) .nil))
    · rw [Option.all_eq_true] at htarget ht ⊢
      intro wanted hwanted
      obtain ⟨own, hown, hsame⟩ := (Option.any_eq_true _ _).mp (htarget wanted hwanted)
      obtain ⟨name, hname, hown'⟩ := (Option.any_eq_true _ _).mp (ht own hown)
      exact (Option.any_eq_true _ _).mpr ⟨name, hname,
        decide_eq_true ((of_decide_eq_true hown').trans (of_decide_eq_true hsame))⟩
    · exact decide_eq_true ((of_decide_eq_true ht).trans (of_decide_eq_true htarget))
  rw [(pick_eq_some_iff hids hmem).mpr ⟨hown, rfl⟩] at h
  cases h

end Pick

end EchoMuse.Timers
