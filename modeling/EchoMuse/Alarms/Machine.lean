import EchoMuse.Alarms.Attempts
import EchoMuse.Monitors

/-!
# The Applier at Work

A speaker's journal, its applier, and the calendar in Home Assistant. The applier takes the jobs in
order and runs each attempt one ask at a time; between two asks anything else may happen: a write
takes effect or is lost, a push shows the calendar as it was at some earlier moment, the connection
changes, the process ends and starts again.

What was sent to Home Assistant and what the applier was shown is recorded beside the state.

## Main results

* `World.step`: what each input does;
* `World.Allows`: what Home Assistant, the database and the callers may do.
-/

namespace EchoMuse.Alarms

open Alerts (Text Uuid)
open Programs

/-! ### Writes -/

/-- A write to Home Assistant. -/
inductive Request
  | create (event : EventWrite)
  | delete (target : EventTarget)
deriving DecidableEq

/-- The operation whose event a write creates. -/
def Request.creates : Request → Option Uuid
  | .create event => event.op
  | .delete _ => none

/-- The uid a write deletes. -/
def Request.deletes : Request → Option Text
  | .create _ => none
  | .delete target => some target.uid

/-- A write that was sent; on its way it has no fate, then it took effect or was lost. -/
structure Sent where
  request : Request
  tookEffect : Option Bool := none
deriving DecidableEq

/-- The write creates an event. -/
def Sent.IsCreate (s : Sent) : Prop := ∃ event, s.request = .create event

/-- The operation whose event was, or may be, created. -/
def Sent.creates (s : Sent) : Option Uuid := s.request.creates

/-! ### The applier's task -/

/-- Work for the applier. -/
inductive ApplierJob
  | op (row : OpRow)
  | guardDelete (target : EventTarget)
deriving DecidableEq

/-- How a job's program ends. -/
inductive Ended
  | attempt (ended : Step) (step : ℕ)
  | guarded

/-- The program of a job, from the step reached. -/
def ApplierJob.program : ApplierJob → ℕ → Asks Ended
  | .op row, step => do
    let ended ← attempt row step
    pure (.attempt ended.1 ended.2)
  | .guardDelete target, _ => do
    let _ ← freshView
    let _ ← deleteEvent target
    pure .guarded

/-- Where a job stands: at an ask, with the write it sent there, or settling. -/
inductive Stage
  | asking (program : Asks Ended) (sent : Option ℕ) (forced : Bool)
  | settling (settlement : Settlement)

/-- The job in hand, the step reached, and how many asks of the attempt were answered. -/
structure Task where
  job : ApplierJob
  step : ℕ
  answered : ℕ := 0
  stage : Stage

/-- A job taken from the queue. -/
def ApplierJob.begin (job : ApplierJob) : Task :=
  let step := match job with
    | .op row => row.step
    | .guardDelete _ => 0
  { job, step, stage := .asking (job.program step) none false }

/-! ### The journal -/

/-- `AdvanceStep`: only a pending row moves, and only forward. -/
def advanceStep (op : Uuid) (step : ℕ) (journal : List OpRow) : List OpRow :=
  journal.map fun row =>
    if row.opId = op ∧ row.state = .pending ∧ row.step < step then { row with step } else row

/-- A row ended. -/
def OpRow.settle (row : OpRow) : Settlement → OpRow
  | .applied at_ result =>
    { row with state := .applied, appliedMs := some at_, result := some result }
  | .rejected result => { row with state := .rejected, appliedMs := none, result := some result }

/-- `Settle`: a row that is no longer pending is left as it is. -/
def settleRow (op : Uuid) (settlement : Settlement) (journal : List OpRow) : List OpRow :=
  journal.map fun row =>
    if row.opId = op ∧ row.state = .pending then row.settle settlement else row

/-! ### The world -/

/-- What is recorded of a run. -/
inductive Entry
  /-- A view showed the applier the event of an operation. -/
  | showed (op : Uuid)
  /-- A write was sent for a job. -/
  | sent (job : ApplierJob) (request : Request)
  /-- A pending operation was ended, with the calendar as it was then. -/
  | stored (row : OpRow) (settlement : Settlement) (calendar : List Event)
deriving DecidableEq

/-- A speaker's journal and applier, and its calendar. -/
structure World where
  /-- UTC ms. -/
  now : ℤ := 0
  journal : List OpRow := []
  /-- The speaker is registered. -/
  running : Bool := false
  jobs : List ApplierJob := []
  task : Option Task := none
  /-- The connection to Home Assistant. -/
  status : Option ℕ := none
  view : Option CalendarView := none
  /-- Pushes of the speaker in this process. -/
  pushes : ℕ := 0
  /-- The moment the last push showed. -/
  moment : ℕ := 0
  calendar : List Event := []
  /-- The calendar at every moment, up to now. -/
  past : List (List Event) := [[]]
  sent : List Sent := []
  log : List Entry := []

/-- How a write to the database ends; a failed one may have been applied. -/
inductive DbOutcome
  | ok
  | failed (applied : Bool)
deriving DecidableEq

/-- The write was applied. -/
def DbOutcome.applies : DbOutcome → Bool
  | .ok => true
  | .failed applied => applied

/-- What happens to a world. -/
inductive Input
  /-- The applier goes on, where nothing keeps it waiting. -/
  | poll
  /-- A wait of the applier ends. -/
  | expire
  /-- A write is answered. -/
  | answer (outcome : EffectOutcome)
  /-- A REST read is answered with the calendar at a moment, or fails. -/
  | read (moment : Option ℕ)
  | db (outcome : DbOutcome)
  /-- A write takes effect; a new event gets the uid. -/
  | land (i : ℕ) (uid : Text)
  | lose (i : ℕ)
  | connect (generation : ℕ)
  | disconnect
  /-- A push of the window, showing the calendar at a moment. -/
  | push (generation : ℕ) (start stop : ℤ) (moment : ℕ)
  /-- The last push is read again. -/
  | rebuild
  | journal (row : OpRow)
  | guard (target : EventTarget)
  /-- The process ends, or the speaker is removed. -/
  | crash
  /-- The speaker is registered, with its pending rows or without. -/
  | register (stashed : Bool)
  | clock (now : ℤ)
deriving DecidableEq

namespace World

/-- The view of the present connection. -/
def fresh (w : World) : Option CalendarView :=
  match w.status with
  | some generation => w.view.filter fun v => v.generation = generation
  | none => none

/-- The view, where it is newer than a push and something holds in it. -/
def seen (w : World) (after : ℕ) (holds : CalendarView → Bool) : Option CalendarView :=
  w.view.filter fun v => decide (after < v.push) && holds v

variable (home : Home)

/-- What an input answers to the ask of a task; `none` keeps it waiting. -/
def told (w : World) (sent : Option ℕ) (forced : Bool) (input : Input) :
    (e : Ask) → Option e.Answer
  | .freshView =>
    match input with
    | .poll => w.fresh
    | _ => none
  | .viewNow =>
    match input with
    | .poll => some w.view
    | _ => none
  | .nowUtcMs =>
    match input with
    | .poll => some w.now
    | _ => none
  | .createEvent _ =>
    match input, sent with
    | .answer outcome, some _ => some outcome
    | _, _ => none
  | .deleteEvent _ =>
    match input, sent with
    | .answer outcome, some _ => some outcome
    | _, _ => none
  | .calendarEvents start stop =>
    match input with
    | .read moment =>
      some ((moment.bind (w.past[·]?)).map fun calendar => itemsIn home calendar start stop)
    | _ => none
  | .confirm after holds =>
    match input with
    | .poll => if (w.seen after holds).isSome then some true else none
    -- A view that came in time is still seen when the wait ends.
    | .expire =>
      if (w.seen after holds).isSome then some true else if forced then some false else none
    | _ => none
  | .reread after =>
    match input with
    | .poll => if w.view.any fun v => after < v.push then some () else none
    | .expire => some ()
    | _ => none
  | .advance _ =>
    match input with
    | .db _ => some ()
    | _ => none
  | .waitReconnect =>
    match input with
    | .expire => some ()
    | _ => none
  | .panics => none

/-- The view an ask is answered from. -/
def viewOf (w : World) : Ask → Option CalendarView
  | .freshView => w.fresh
  | .confirm after holds => w.seen after holds
  | _ => none

/-- The entry of a view shown to a task. -/
def note (w : World) (t : Task) (e : Ask) : List Entry :=
  match t.job, w.viewOf e with
  | .op row, some v => if (v.createdBy row.opId).isSome then [.showed row.opId] else []
  | _, _ => []

/-- The journal after an ask of a task was answered. -/
def journalAfter (w : World) (t : Task) (input : Input) : Ask → List OpRow
  | .advance step =>
    match t.job, input with
    | .op row, .db outcome =>
      if outcome.applies then advanceStep row.opId step w.journal else w.journal
    | _, _ => w.journal
  | _ => w.journal

/-- The task goes on with a program. -/
def goOn (t : Task) (program : Asks Ended) : Task :=
  { t with answered := t.answered + 1, stage := .asking program none false }

/-- The ask of a task is answered, and the task goes on. -/
def take (w : World) (t : Task) (input : Input) (e : Ask) (program : Asks Ended) : World :=
  { w with
    task := some (goOn t program)
    log := w.log ++ w.note t e
    journal := w.journalAfter t input e }

/-- Sends a write; the task waits for its answer. -/
def dispatch (w : World) (t : Task) (program : Asks Ended) (request : Request) : World :=
  { w with
    task := some { t with stage := .asking program (some w.sent.length) false }
    sent := w.sent ++ [{ request }]
    log := w.log ++ [.sent t.job request] }

/-- The task's ask is not answered yet: a write is sent, a confirmation is forced. -/
def await (w : World) (t : Task) (sent : Option ℕ) (input : Input) (program : Asks Ended) : World :=
  match program, input, sent with
  | .ask (.createEvent event) _, .poll, none => w.dispatch t program (.create event)
  | .ask (.deleteEvent target) _, .poll, none => w.dispatch t program (.delete target)
  | .ask (.confirm _ _) _, .expire, _ =>
    { w with task := some { t with stage := .asking program none true } }
  | _, _, _ => w

/-- The program of a task ended. -/
def finish (w : World) (t : Task) : Ended → World
  | .attempt (.done settlement) step =>
    { w with task := some { t with step, stage := .settling settlement } }
  | .attempt .again step =>
    { w with
      task := some { job := t.job, step, stage := .asking (t.job.program step) none false } }
  | .attempt (.stuck _) _ => { w with task := none }
  | .guarded => { w with task := none }

/-- The journal writes how an operation ended; a failed write is made again. -/
def store (w : World) (row : OpRow) (settlement : Settlement) (outcome : DbOutcome) : World :=
  let pending := w.journal.any fun r => r.opId = row.opId ∧ r.state = .pending
  { w with
    task := if outcome = .ok then none else w.task
    journal := if outcome.applies then settleRow row.opId settlement w.journal else w.journal
    log :=
      if outcome.applies && pending then w.log ++ [.stored row settlement w.calendar] else w.log }

/-- A task takes an input. -/
def work (w : World) (t : Task) (input : Input) : World :=
  match t.stage, t.job, input with
  | .asking (.ret ended) _ _, _, .poll => w.finish t ended
  | .asking (.ask e k) sent forced, _, _ =>
    match w.told home sent forced input e with
    | some a => w.take t input e (k a)
    | none => w.await t sent input (.ask e k)
  | .settling settlement, .op row, .db outcome => w.store row settlement outcome
  | _, _, _ => w

/-- The applier takes an input: for the job in hand, or it takes the next job. -/
def serve (w : World) (input : Input) : World :=
  match w.task, input, w.jobs with
  | some t, _, _ => w.work home t input
  | none, .poll, job :: jobs => { w with jobs, task := some job.begin }
  | none, _, _ => w

/-- The calendar changes. -/
def change (w : World) (calendar : List Event) : World :=
  { w with calendar, past := w.past ++ [calendar] }

/-- A write takes effect. -/
def land (w : World) (i : ℕ) (uid : Text) : World :=
  match w.sent[i]? with
  | some s =>
    let calendar := match s.request with
      | .create event => w.calendar ++ [{ uid, write := event, deleted := [] }]
      | .delete target => delete w.calendar target
    { w with sent := w.sent.set i { s with tookEffect := some true } }.change calendar
  | none => w

/-- A write is lost. -/
def lose (w : World) (i : ℕ) : World :=
  match w.sent[i]? with
  | some s => { w with sent := w.sent.set i { s with tookEffect := some false } }
  | none => w

/-- What an input does. -/
def step (w : World) (input : Input) : World :=
  match input with
  | .land i uid => w.land i uid
  | .lose i => w.lose i
  | .connect generation => { w with status := some generation }
  | .disconnect => { w with status := none }
  | .push generation start stop moment =>
    match w.running, w.past[moment]? with
    | true, some calendar =>
      { w with
        pushes := w.pushes + 1, moment
        view := some
          { generation, push := w.pushes + 1, windowStartMs := start, windowEndMs := stop,
            occurrences := occurrences home (itemsIn home calendar start stop) } }
    | _, _ => w
  | .rebuild =>
    match w.view with
    | some v =>
      { w with pushes := w.pushes + 1, view := some { v with push := w.pushes + 1 } }
    | none => w
  | .journal row =>
    if w.running then { w with journal := w.journal ++ [row], jobs := w.jobs ++ [.op row] } else w
  | .guard target => if w.running then { w with jobs := w.jobs ++ [.guardDelete target] } else w
  | .crash =>
    { w with running := false, jobs := [], task := none, status := none, view := none, pushes := 0 }
  | .register stashed =>
    if w.running then w
    else
      let pending := w.journal.filter fun row => row.state = .pending
      { w with running := true, jobs := if stashed then pending.map .op else [] }
  | .clock now => { w with now }
  | input => w.serve home input

/-- The write a task waits for. -/
def awaited (w : World) : Option Sent :=
  match w.task with
  | some t =>
    match t.stage with
    | .asking _ (some i) _ => w.sent[i]?
    | _ => none
  | none => none

/-- What Home Assistant answers: applied only what took effect, refused or not sent only what was
lost. A write takes effect once or not at all. -/
def Answers (w : World) : EffectOutcome → Prop
  | .applied => (w.awaited.bind (·.tookEffect)) = some true
  | .rejected _ _ => (w.awaited.bind (·.tookEffect)) = some false
  | .notDispatched => (w.awaited.bind (·.tookEffect)) = some false
  | .unknown => True

instance (w : World) : DecidablePred w.Answers := fun o =>
  match o with
  | .applied => inferInstanceAs (Decidable (_ = _))
  | .rejected _ _ => inferInstanceAs (Decidable (_ = _))
  | .notDispatched => inferInstanceAs (Decidable (_ = _))
  | .unknown => .isTrue trivial

/-- What may happen in a world: a write has one fate, a new event gets a new uid, pushes show
moments in order, and what is journaled is new, pending and carries its own id. -/
def Allows (w : World) : Input → Prop
  | .answer outcome => w.Answers outcome
  | .land i uid =>
    (w.sent[i]?).map (·.tookEffect) = some none ∧ (∀ e ∈ w.calendar, e.uid ≠ uid) ∧
      ∀ x ∈ w.sent, x.request.deletes ≠ some uid
  | .lose i => (w.sent[i]?).map (·.tookEffect) = some none
  | .push _ _ _ moment => w.moment ≤ moment
  | .journal row =>
    row.opId ∉ w.journal.map (·.opId) ∧ row.Formed ∧ row.state = .pending ∧ row.step = 0 ∧
      row.result = none
  | _ => True

instance (w : World) : DecidablePred w.Allows := fun input =>
  match input with
  | .answer outcome => inferInstanceAs (Decidable (w.Answers outcome))
  | .land _ _ => inferInstanceAs (Decidable (_ ∧ _ ∧ _))
  | .lose _ => inferInstanceAs (Decidable (_ = _))
  | .push _ _ _ _ => inferInstanceAs (Decidable (_ ≤ _))
  | .journal _ => inferInstanceAs (Decidable (_ ∧ _ ∧ _ ∧ _ ∧ _))
  | .poll | .expire | .read _ | .db _ | .connect _ | .disconnect | .rebuild | .guard _ | .crash
  | .register _ | .clock _ => .isTrue trivial

end World

end EchoMuse.Alarms
