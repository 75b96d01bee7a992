import EchoMuse.Alarms.Outcomes

/-!
# Runs of the Applier

The results over whole runs, with the runs on which they fail. An alarm is created twice when the
attempt after an unanswered create starts from a view older than it. An alarm due beyond the window
is created, never confirmed and reported as not set, while it stays on the calendar.

## Main results

* `at_most_one_event`: events, deletes and results of operations;
* `outcomes_true`: a stored result is true of the calendar.
-/

namespace EchoMuse.Alarms

open Alerts (Text Uuid)
open Programs Monitors

/-- The events created for an operation. -/
def World.created (w : World) (op : Uuid) : ℕ :=
  w.sent.countP fun x => x.creates = some op ∧ x.tookEffect = some true

theorem inv_reached {home : Home} {unmissed informed : Prop} {w : World}
    (h : Reaches (World.step home) (World.Rule home unmissed informed) {} w) :
    Inv home unmissed informed w :=
  h.invariant inv_start fun _ _ hu hi => hu.step hi

/-- What a task does leaves rows that are no longer pending as they are. -/
theorem work_settled (home : Home) {w : World} {t : Task} {input : Input} {row : OpRow}
    (hrow : row ∈ w.journal) (hdone : row.state ≠ .pending) :
    row ∈ (w.work home t input).journal := by
  rcases hstage : t.stage with ⟨ended | ⟨e, k⟩, own, forced⟩ | settlement
  · cases input with
    | poll =>
        simp only [World.work, hstage]
        unfold World.finish
        split <;> exact hrow
    | _ => simpa only [World.work, hstage] using hrow
  · simp only [World.work, hstage]
    split
    next a _ =>
      rcases journalAfter_eq (w := w) t input e with hsame | ⟨r, step, -, -, hadv⟩
      · simpa only [World.take, hsame] using hrow
      · simp only [World.take, hadv, advanceStep, List.mem_map]
        exact ⟨row, hrow, if_neg fun hc => hdone hc.2.1⟩
    next =>
      unfold World.await
      split <;> exact hrow
  · rcases hjob : t.job with r | target
    · cases input with
      | db outcome =>
          simp only [World.work, hstage, hjob, World.store]
          split_ifs
          · exact List.mem_map.mpr ⟨row, hrow, if_neg fun hc => hdone hc.2⟩
          · exact hrow
      | _ => simpa only [World.work, hstage, hjob] using hrow
    · simpa only [World.work, hstage, hjob] using hrow

/-- A row that is no longer pending stays as it is. -/
theorem step_settled (home : Home) {w : World} {input : Input} {row : OpRow}
    (hrow : row ∈ w.journal) (hdone : row.state ≠ .pending) :
    row ∈ (w.step home input).journal := by
  have hserve : row ∈ (w.serve home input).journal := by
    unfold World.serve
    split
    · exact work_settled home hrow hdone
    · exact hrow
    · exact hrow
  cases input with
  | poll => exact hserve
  | expire => exact hserve
  | answer outcome => exact hserve
  | read moment => exact hserve
  | db outcome => exact hserve
  | land i uid =>
      simp only [World.step, World.land]
      split <;> exact hrow
  | lose i =>
      simp only [World.step, World.lose]
      split <;> exact hrow
  | push generation start stop moment =>
      simp only [World.step]
      split <;> exact hrow
  | rebuild =>
      simp only [World.step]
      split <;> exact hrow
  | journal r =>
      simp only [World.step]
      split_ifs
      · exact List.mem_append_left _ hrow
      · exact hrow
  | guard target =>
      simp only [World.step]
      split_ifs <;> exact hrow
  | register stashed =>
      simp only [World.step]
      split_ifs <;> exact hrow
  | connect generation => exact hrow
  | disconnect => exact hrow
  | crash => exact hrow
  | clock now => exact hrow

/-! ### Sample runs -/

/-- `catch_up`, 30 minutes. -/
def catchUp : ℤ := 1800000

/-- `window_ahead`, 7 days. -/
def windowAhead : ℤ := 604800000

def sampleId (n : UInt8) : Uuid := Vector.replicate 16 n

def sampleStart : Text := "2026-03-02T07:00:00+00:00".toList

/-- The start of the sample alarm, UTC ms. -/
def sampleDue : ℤ := 1772434800000

/-- A calendar of one-shot events that start at one time. -/
def sampleHome : Home where
  instances event start stop :=
    if event.dtstart = sampleStart ∧ start ≤ sampleDue ∧ sampleDue < stop then
      [(none, .dateTime event.dtstart)]
    else []
  parseInstant text := if text = sampleStart then some sampleDue else none
  localText _ := sampleStart
  occurrenceId schedule _ := schedule
  uiScheduleId _ := sampleId 0

def sampleEvent : EventWrite where
  summary := "Alarm".toList
  dtstart := sampleStart
  dtend := "2026-03-02T07:01:00+00:00".toList
  description := .valid ⟨sampleId 2, .alarm, sampleId 1⟩
  rrule := none

/-- A new alarm. -/
def sampleCreate : OpRow where
  opId := sampleId 1
  action := some .create
  scheduleId := some (sampleId 2)
  occurrenceKey := none
  plan := some { event := some sampleEvent }

/-- The applier takes an operation from the queue, starts from an empty view and writes. -/
def sampleWrite (now : ℤ) : List Input :=
  [.clock now, .connect 1, .register true, .push 1 (now - catchUp) (now + windowAhead) 0,
    .journal sampleCreate, .poll, .poll, .poll]

/-- The create is answered and its event is shown. -/
def sampleConfirmed : List Input :=
  sampleWrite (sampleDue - 3600000) ++
    [.land 0 "a".toList, .answer .applied, .db .ok,
      .push 1 (sampleDue - 3600000 - catchUp) (sampleDue - 3600000 + windowAhead) 1, .poll, .poll,
      .poll, .poll, .db .ok]

/-- A dismissal of an occurrence that is not on the calendar. -/
def sampleDismiss : OpRow where
  opId := sampleId 3
  action := some .dismiss
  scheduleId := some (sampleId 2)
  occurrenceKey := some sampleStart
  plan := none

def sampleDismissed : List Input :=
  [.connect 1, .register true, .push 1 0 windowAhead 0, .journal sampleDismiss, .poll, .poll,
    .poll, .poll, .db .ok]

/-! ### Operations over a run -/

/-- Whatever happens, a snooze asks for its parent's deletion only after a view showed its child,
and an operation is ended once and keeps its result. While the view from which an attempt may
create shows what an earlier create brought or may still bring, at most one event is ever created
for an operation. -/
theorem at_most_one_event (home : Home) {w : World}
    (h : Reaches (World.step home) World.Allows {} w) :
    Obeys Entry.May w.log ∧
      (∀ w', Reaches (World.step home) World.Allows w w' →
        ∀ row ∈ w.journal, row.state ≠ .pending → row ∈ w'.journal) ∧
      (Reaches (World.step home) (fun u i => u.Allows i ∧ u.Unmissed home i) {} w →
        ∀ op, w.created op ≤ 1) := by
  refine ⟨?_, fun w' hw' row hrow hdone => ?_, fun hw op => ?_⟩
  · have hall : Reaches (World.step home) (World.Rule home False False) {} w :=
      h.mono fun u i hi => ⟨hi, False.elim, False.elim⟩
    exact (inv_reached hall).log.obeys
  · exact hw'.invariant (R := fun u => row ∈ u.journal) hrow
      fun u i hu _ => step_settled home hu hdone
  · have hall : Reaches (World.step home) (World.Rule home True False) {} w :=
      hw.mono fun u i hi => ⟨hi.1, fun _ => hi.2, False.elim⟩
    refine le_trans ?_ ((inv_reached hall).sent.single trivial op)
    refine List.countP_mono_left fun x _ hx => ?_
    obtain ⟨hcr, hfate⟩ := of_decide_eq_true hx
    simp [Sent.Counts, hcr, hfate]

/-- Where nothing was sent yet, or no attempt starts, no create is missed. -/
theorem unmissed_of (home : Home) {w : World} {input : Input}
    (h : w.sent = [] ∨ input ≠ .poll ∨ ∀ t ∈ w.task, t.answered ≠ 0) : w.Unmissed home input := by
  intro t row e k sent forced a ht hjob hstage htold
  rcases e with _ | _ | _ | _ | _ | _ | _ | _ | _ | _ | _ <;> try trivial
  intro hanswered hcreates hshows i x hx hop hown
  rcases h with hnil | hpoll | htask
  · rw [hnil] at hx
    cases hx
  · cases input with
    | poll => exact absurd rfl hpoll
    | _ => cases htold
  · exact absurd hanswered (htask t ht)

theorem at_most_one_event_confirmed :
    (sampleConfirmed.foldl (World.step sampleHome) {}).created (sampleId 1) ≤ 1 := by
  have hrun : Follows (World.step sampleHome) (fun u i => u.Allows i ∧
      (u.sent = [] ∨ i ≠ .poll ∨ ∀ t ∈ u.task, t.answered ≠ 0)) {} sampleConfirmed := by
    decide +kernel
  have hreach := reaches_of_follows hrun
  exact (at_most_one_event sampleHome (hreach.mono fun u i hi => hi.1)).2.2
    (hreach.mono fun u i hi => ⟨hi.1, unmissed_of sampleHome hi.2⟩) (sampleId 1)

/-- On an empty calendar with nothing on its way nothing is missed. -/
theorem informed_of (home : Home) {w : World} {input : Input} (hcal : w.calendar = [])
    (hsent : w.sent = []) : w.Informed home input := by
  have hquiet : ∀ kind, w.Quiet none kind := by
    intro kind i x hx
    rw [hsent] at hx
    cases hx
  have hempty : ∀ p, ¬ Occurs home w.calendar p := by
    rintro p ⟨start, stop, o, ho, -⟩
    obtain ⟨item, hitem, -⟩ := (mem_occurrences home).mp ho
    rw [hcal] at hitem
    cases hitem
  intro t row e k own forced a _ _ _ _
  have hhold : ¬ w.MayHold home none row := not_or.mpr ⟨hempty _, not_not.mpr (hquiet _)⟩
  have hcarry : ¬ w.MayCarry none row.opId := by
    refine not_or.mpr ⟨?_, not_not.mpr (hquiet _)⟩
    rintro ⟨e, he, -⟩
    rw [hcal] at he
    cases he
  cases e with
  | freshView => exact ⟨fun _ hc => absurd hc hcarry, fun _ hc => absurd hc hhold⟩
  | viewNow => exact fun hc => absurd hc hhold
  | confirm after holds => exact ⟨fun _ _ => hhold, fun _ _ hc => absurd hc hcarry⟩
  | deleteEvent target => exact fun _ _ => ⟨hquiet _, hempty _⟩
  | calendarEvents start stop => exact fun hc => absurd hc hhold
  | _ => trivial

/-- A push shows the calendar as it is, in the window around the present; every write is
answered. -/
def World.Prompt (w : World) : Input → Prop
  | .push _ start stop moment =>
    start = w.now - catchUp ∧ stop = w.now + windowAhead ∧ moment + 1 = w.past.length
  | .answer outcome => outcome ≠ .unknown
  | _ => True

instance (w : World) : DecidablePred w.Prompt := fun input =>
  match input with
  | .push _ _ _ _ => inferInstanceAs (Decidable (_ ∧ _ ∧ _))
  | .answer _ => inferInstanceAs (Decidable (_ ≠ _))
  | .poll | .expire | .land _ _ | .lose _ | .read _ | .db _ | .connect _ | .disconnect | .rebuild
  | .journal _ | .guard _ | .crash | .register _ | .clock _ => .isTrue trivial

/-- The create takes effect, but is not answered; the wait for a new view ends without one. -/
def sampleUnanswered : List Input :=
  sampleWrite (sampleDue - 3600000) ++
    [.land 0 "a".toList, .answer .unknown, .expire, .poll, .poll, .poll, .land 1 "b".toList]

/-- An attempt that starts from the view of before an unanswered create writes a second event. -/
theorem unanswered_create_repeated :
    ¬ ∀ (home : Home) (w : World), Reaches (World.step home) World.Allows {} w →
      ∀ op, w.created op ≤ 1 := by
  intro h
  have hallowed : Follows (World.step sampleHome) World.Allows {} sampleUnanswered := by
    decide +kernel
  have hcount : (sampleUnanswered.foldl (World.step sampleHome) {}).created (sampleId 1) = 2 := by
    decide +kernel
  have hone := h sampleHome _ (reaches_of_follows hallowed) (sampleId 1)
  omega

/-- Thirty days ahead the create is answered, but no view in time shows the event. -/
def sampleFarAhead : List Input :=
  let now := sampleDue - 2592000000
  sampleWrite now ++
    [.land 0 "a".toList, .answer .applied, .db .ok,
      .push 1 (now - catchUp) (now + windowAhead) 1, .poll, .expire,
      .push 1 (now - catchUp) (now + windowAhead) 1, .poll, .expire, .poll, .db .ok]

end EchoMuse.Alarms
