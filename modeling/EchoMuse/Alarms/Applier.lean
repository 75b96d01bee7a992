import EchoMuse.Alarms.Calendar
import EchoMuse.Programs

/-!
# The Applier's Attempts

One speaker's applier takes its journaled operations in order and attempts each until it is
settled. An attempt is a program over what the applier asks: the current calendar view, a write to
Home Assistant, a wait for a view that confirms it, a read of events outside the window.

## Main results

* `create`, `cancel`, `deleteOccurrence`, `snooze`: the attempts of each action;
* `attempt`: the attempt of an operation.
-/

namespace EchoMuse.Alarms

open Alerts (Text Uuid)
open Programs

/-! ### The journal -/

/-- `alert_ops.action`. -/
inductive Action
  | create | update | dismiss | snooze | expire | cancel
deriving DecidableEq

/-- `alert_ops.state`. -/
inductive State
  | pending | applied | rejected
deriving DecidableEq

/-- The stable rejection codes of the applier. -/
inductive RejectionCode
  | haRefused | notConfirmed | parentGone
deriving DecidableEq

/-- A stored result. -/
inductive Result
  | created (o : Occurrence)
  | snoozed (o : Occurrence)
  | deleted (written : Bool)
  | rejected (code : RejectionCode) (detail : Text)
deriving DecidableEq

/-- The writes an operation resolved to, as the applier reads them. -/
structure Plan where
  event : Option EventWrite := none
  child : Option EventWrite := none
  target : Option EventTarget := none
  dueUtcMs : Option ℤ := none
deriving DecidableEq

/-- One `alert_ops` row. -/
structure OpRow where
  opId : Uuid
  action : Option Action
  scheduleId : Option Uuid
  occurrenceKey : Option Text
  plan : Option Plan
  state : State := .pending
  step : ℕ := 0
  result : Option Result := none
  appliedMs : Option ℤ := none
deriving DecidableEq

/-- How a pending operation ended. -/
inductive Settlement
  | applied (at_ : ℤ) (result : Result)
  | rejected (result : Result)
deriving DecidableEq

/-- How one attempt at an operation ended. -/
inductive Step
  | done (settlement : Settlement)
  | again
  | stuck (detail : Text)
deriving DecidableEq

/-! ### What an attempt asks -/

/-- The result of a write to Home Assistant. -/
inductive EffectOutcome
  | notDispatched
  | rejected (code message : Text)
  | applied
  | unknown
deriving DecidableEq

/-- What the applier asks. -/
inductive Ask
  /-- The view of the present connection (`fresh_view`). -/
  | freshView
  /-- The view as it stands (`views.borrow()`). -/
  | viewNow
  | createEvent (event : EventWrite)
  | deleteEvent (target : EventTarget)
  /-- The events between two instants, through REST. -/
  | calendarEvents (start stop : ℤ)
  /-- A view after a push in which something holds, awaited twice (`confirm`). -/
  | confirm (after : ℕ) (holds : CalendarView → Bool)
  /-- Any view after a push, awaited once (`reread`). -/
  | reread (after : ℕ)
  | advance (step : ℕ)
  | waitReconnect
  | nowUtcMs
  /-- An expectation failed: the task ends. -/
  | panics

/-- What is answered. -/
@[reducible] def Ask.Answer : Ask → Type
  | .freshView => CalendarView
  | .viewNow => Option CalendarView
  | .createEvent _ => EffectOutcome
  | .deleteEvent _ => EffectOutcome
  | .calendarEvents _ _ => Option (List CalendarItem)
  | .confirm _ _ => Bool
  | .reread _ => Unit
  | .advance _ => Unit
  | .waitReconnect => Unit
  | .nowUtcMs => ℤ
  | .panics => Empty

/-- A program of the applier. -/
abbrev Asks (α : Type) : Type := Prog Ask.Answer α

section

variable {α : Type}

def freshView : Asks CalendarView := .perform Ask.freshView

def viewNow : Asks (Option CalendarView) := .perform Ask.viewNow

def createEvent (event : EventWrite) : Asks EffectOutcome := .perform (Ask.createEvent event)

def deleteEvent (target : EventTarget) : Asks EffectOutcome := .perform (Ask.deleteEvent target)

def calendarEvents (start stop : ℤ) : Asks (Option (List CalendarItem)) :=
  .perform (Ask.calendarEvents start stop)

def confirm (after : ℕ) (holds : CalendarView → Bool) : Asks Bool :=
  .perform (Ask.confirm after holds)

def reread (after : ℕ) : Asks Unit := .perform (Ask.reread after)

def advance (step : ℕ) : Asks Unit := .perform (Ask.advance step)

def waitReconnect : Asks Unit := .perform Ask.waitReconnect

def nowUtcMs : Asks ℤ := .perform Ask.nowUtcMs

def panics : Asks α := .ask .panics Empty.elim

end

/-! ### The attempts -/

/-- Settles an operation as applied now. -/
def applied (result : Result) : Asks Step := do
  let at_ ← nowUtcMs
  pure (.done (.applied at_ result))

/-- Settles an operation as rejected. -/
def rejected (code : RejectionCode) (detail : Text) : Step :=
  .done (.rejected (.rejected code detail))

/-- The detail of a refused write. -/
def refusal (code message : Text) : Text := code ++ ": ".toList ++ message

/-- A create: unless a view shows the operation's event, it is written. -/
def create (row : OpRow) : Asks Step :=
  match row.plan.bind (·.event) with
  | none => pure (.stuck "create without a recorded event".toList)
  | some event => do
    let view ← freshView
    match view.createdBy row.opId with
    | some created => applied (.created created)
    | none => do
      let outcome ← createEvent event
      match outcome with
      | .applied => do
        advance 1
        let confirmed ← confirm view.push fun v => (v.createdBy row.opId).isSome
        if confirmed then do
          let view ← viewNow
          match view.bind (·.createdBy row.opId) with
          | some created => applied (.created created)
          | none => panics
        else
          pure (rejected .notConfirmed "the event never appeared on the calendar".toList)
      | .rejected code message => pure (rejected .haRefused (refusal code message))
      | .notDispatched => do
        waitReconnect
        pure .again
      | .unknown => do
        reread view.push
        pure .again

/-- A delete of a target the view shows, done once the views show it gone. -/
def deleteShown (target : EventTarget) (before : ℕ) (gone : CalendarView → Bool) : Asks Step := do
  let outcome ← deleteEvent target
  match outcome with
  | .applied => do
    let confirmed ← confirm before gone
    if confirmed then applied (.deleted true)
    else pure (rejected .notConfirmed "it is still on the calendar".toList)
  | .rejected code message => do
    -- Not found counts as done: read afresh and look.
    reread before
    let view ← viewNow
    if view.any fun v => decide (before < v.push) && gone v then applied (.deleted false)
    else pure (rejected .haRefused (refusal code message))
  | .notDispatched => do
    waitReconnect
    pure .again
  | .unknown => do
    reread before
    pure .again

/-- A cancel: the event of the schedule is deleted, with every instance. -/
def cancel (row : OpRow) : Asks Step :=
  match row.scheduleId with
  | none => pure (.stuck "cancel without a schedule".toList)
  | some schedule => do
    let view ← freshView
    match view.scheduleUid schedule with
    | none => applied (.deleted false)
    | some uid =>
      deleteShown ⟨uid, none⟩ view.push fun v => (v.scheduleUid schedule).isNone

/-- The instants a `Timestamp` can hold, as UTC ms. -/
def timestamp (ms : ℤ) : Option ℤ :=
  if -377705023201000 ≤ ms ∧ ms ≤ 253402207200999 then some ms else none

/-- Whether an item is the targeted instance. -/
def isTarget (target : EventTarget) (item : CalendarItem) : Bool :=
  item.uid = some target.uid ∧ item.recurrenceId = target.recurrenceId

/-- Whether the target is still on the calendar around its due time; `none` when it could not be
read. -/
def presentBeforeWindow (target : EventTarget) (due : ℤ) : Asks (Option Bool) :=
  match timestamp (due - 60000), timestamp (due + 60000) with
  | some start, some stop => do
    let items ← calendarEvents start stop
    pure (items.map fun items => items.any (isTarget target))
  | _, _ => pure none

/-- A delete of a recorded target due before the window of the view. -/
def deleteMissed (target : EventTarget) (due : ℤ) : Asks Step := do
  let present ← presentBeforeWindow target due
  match present with
  | none => do
    waitReconnect
    pure .again
  | some false => applied (.deleted false)
  | some true => do
    let outcome ← deleteEvent target
    match outcome with
    | .applied => applied (.deleted true)
    | .rejected code message => do
      let present ← presentBeforeWindow target due
      match present with
      | some false => applied (.deleted false)
      | _ => pure (rejected .haRefused (refusal code message))
    | .notDispatched => do
      waitReconnect
      pure .again
    -- The next attempt looks the instance up again before deleting it.
    | .unknown => pure .again

/-- A dismissal or an expiry: the occurrence is deleted where the view or its record shows it. -/
def deleteOccurrence (row : OpRow) : Asks Step :=
  match row.scheduleId, row.occurrenceKey with
  | some schedule, some key => do
    let view ← freshView
    match view.find schedule key with
    | some occurrence =>
      deleteShown (occurrenceTarget occurrence) view.push fun v => (v.find schedule key).isNone
    | none =>
      match row.plan.bind (·.target), row.plan.bind (·.dueUtcMs) with
      | some target, some due =>
        if view.windowStartMs ≤ due then applied (.deleted false) else deleteMissed target due
      | _, _ => applied (.deleted false)
  | _, _ => pure (.stuck "an occurrence operation without its occurrence".toList)

/-- Creates a snooze child; `none` once it is on the calendar. -/
def createChild (op : Uuid) (child : EventWrite) (before : ℕ) : Asks (Option Step) := do
  let outcome ← createEvent child
  match outcome with
  | .applied => do
    let confirmed ← confirm before fun v => (v.createdBy op).isSome
    if confirmed then pure none
    else pure (some (rejected .notConfirmed "the snooze never appeared on the calendar".toList))
  | .rejected code message => pure (some (rejected .haRefused (refusal code message)))
  | .notDispatched => do
    waitReconnect
    pure (some .again)
  | .unknown => do
    reread before
    pure (some .again)

/-- The second half of a snooze: its parent is deleted. -/
def deleteParent (op schedule : Uuid) (key : Text) : Asks Step := do
  let view ← freshView
  match view.find schedule key with
  | none => applied (((view.createdBy op).map .snoozed).getD (.deleted false))
  | some parent => do
    let attempt ←
      deleteShown (occurrenceTarget parent) view.push fun v => (v.find schedule key).isNone
    match attempt with
    | .done (.applied at_ _) => do
      let view ← viewNow
      match view with
      | none => panics
      | some view =>
        let result := ((view.createdBy op).map .snoozed).getD (.deleted true)
        pure (.done (.applied at_ result))
    | other => pure other

/-- A snooze: step 0 creates the child, step 1 deletes the parent. The step reached comes with
the result. -/
def snooze (row : OpRow) (step : ℕ) : Asks (Step × ℕ) :=
  match row.scheduleId, row.occurrenceKey with
  | some schedule, some key =>
    match row.plan.bind (·.child) with
    | none => pure (.stuck "a snooze without its recorded child".toList, step)
    | some child => do
      let view ← freshView
      if step = 0 then
        if (view.createdBy row.opId).isSome then do
          advance 1
          let ended ← deleteParent row.opId schedule key
          pure (ended, 1)
        else if (view.scheduleUid schedule).isNone then
          pure (rejected .parentGone "the snoozed alarm no longer exists".toList, step)
        else do
          let early ← createChild row.opId child view.push
          match early with
          | some early => pure (early, step)
          | none => do
            advance 1
            let ended ← deleteParent row.opId schedule key
            pure (ended, 1)
      else do
        let ended ← deleteParent row.opId schedule key
        pure (ended, step)
  | _, _ => pure (.stuck "a snooze without its occurrence".toList, step)

/-- One attempt at an operation, from the step reached. -/
def attempt (row : OpRow) (step : ℕ) : Asks (Step × ℕ) :=
  let unchanged (p : Asks Step) : Asks (Step × ℕ) := do
    let ended ← p
    pure (ended, step)
  match row.action with
  | some .create => unchanged (create row)
  | some .cancel => unchanged (cancel row)
  | some .dismiss => unchanged (deleteOccurrence row)
  | some .expire => unchanged (deleteOccurrence row)
  | some .snooze => snooze row step
  | _ => unchanged (pure (.stuck "an action this controller does not write".toList))

end EchoMuse.Alarms
