import EchoMuse.Alarms.Applier

/-!
# What an Attempt Knows

An attempt learns from what it is answered. A view may tell it that its event is missing, or that
what it handles is gone; an answered write changes that again. The monitor below keeps this
knowledge, and says when an attempt may create, delete or advance.

## Main results

* `create_meets`, `deleteOccurrence_meets`, `cancel_meets`, `snooze_meets`: what each attempt does
  and claims, it does and claims on such knowledge;
* `attempt_meets`: the same for every operation.
-/

namespace EchoMuse.Alarms

open Alerts (Text Uuid)
open Programs

/-! ### Operations -/

/-- An operation that takes something off the calendar. -/
def OpRow.Removes (row : OpRow) : Prop :=
  row.action = some .cancel ∨ row.action = some .dismiss ∨ row.action = some .expire ∨
    row.action = some .snooze

/-- An occurrence the operation handles: of a cancel, every one of its schedule. -/
def OpRow.Handles (row : OpRow) (o : Occurrence) : Prop :=
  row.scheduleId = some o.scheduleId ∧
    (row.action = some .cancel ∨ row.occurrenceKey = some o.key)

/-- A view lists an occurrence the operation handles. -/
def OpRow.Lists (row : OpRow) (v : CalendarView) : Prop := ∃ o ∈ v.occurrences, row.Handles o

/-- The operation is looked up by its record: it is due before the window of the view. -/
def OpRow.LooksUp (row : OpRow) (v : CalendarView) : Prop :=
  (row.action = some .dismiss ∨ row.action = some .expire) ∧
    ∃ target due, row.plan.bind (·.target) = some target ∧ row.plan.bind (·.dueUtcMs) = some due ∧
      due < v.windowStartMs

/-- From the step reached, an attempt may create an event. -/
def OpRow.Creates (row : OpRow) (step : ℕ) : Prop :=
  row.action = some .create ∨ row.action = some .snooze ∧ step = 0

/-- A view shows the event of an operation. -/
def CalendarView.Shows (v : CalendarView) (op : Uuid) : Prop := (v.createdBy op).isSome = true

/-- The recorded events carry the operation. -/
def OpRow.Formed (row : OpRow) : Prop :=
  ∀ plan ∈ row.plan, (∀ event ∈ plan.event, event.op = some row.opId) ∧
    ∀ child ∈ plan.child, child.op = some row.opId

instance : DecidablePred OpRow.Formed := fun row =>
  inferInstanceAs (Decidable (∀ plan ∈ row.plan, _))

/-- The target recorded for the operation. -/
def OpRow.recorded (row : OpRow) : Option EventTarget := row.plan.bind (·.target)

/-! ### Knowledge -/

/-- What an attempt knows. -/
structure Known where
  /-- No view was asked for yet. -/
  first : Prop
  /-- No view was asked for yet, and the attempt may create. -/
  creating : Prop
  /-- No event of the operation was ever created, and none is on its way. -/
  clear : Prop
  /-- No event of the operation is on the calendar, and none is on its way. -/
  absent : Prop
  /-- A view showed the event of the operation. -/
  shown : Prop
  /-- What the operation handles is off the calendar. -/
  gone : Prop

/-- Before any answer only what the step reached tells is known. -/
def Known.start (row : OpRow) (step : ℕ) : Known where
  first := True
  creating := row.Creates step
  clear := False
  absent := False
  shown := row.action = some .snooze ∧ 0 < step
  gone := False

/-- What an attempt may ask. -/
def Known.may (row : OpRow) (s : Known) : Ask → Prop
  | .createEvent event => s.clear ∧ event.op = some row.opId
  | .deleteEvent _ => row.action = some .snooze → s.shown
  | .advance _ => row.action = some .snooze → s.shown
  | _ => True

/-- What is known once something was answered. -/
def Known.moved (s : Known) : Known := { s with first := False, creating := False }

/-- What an attempt learns from an answer. -/
def Known.next (row : OpRow) (s : Known) : (e : Ask) → e.Answer → Known
  | .freshView, v =>
    { first := False, creating := False, clear := s.creating ∧ ¬ v.Shows row.opId,
      absent := row.action = some .create ∧ ¬ v.Shows row.opId,
      shown := s.shown ∨ v.Shows row.opId,
      gone := (row.action = some .snooze → ¬ s.first) ∧ ¬ row.Lists v ∧ ¬ row.LooksUp v }
  | .viewNow, v => { s.moved with gone := s.gone ∨ ∃ w, v = some w ∧ ¬ row.Lists w }
  | .createEvent _, (outcome : EffectOutcome) =>
    let refused : Prop := outcome ≠ .applied ∧ outcome ≠ .unknown
    { s.moved with clear := s.clear ∧ refused, absent := s.absent ∧ refused, gone := False }
  | .deleteEvent target, (outcome : EffectOutcome) =>
    { s.moved with gone := s.gone ∨ outcome = .applied ∧ row.recorded = some target }
  | .calendarEvents _ _, (items : Option (List CalendarItem)) =>
    { s.moved with
      gone := s.gone ∨
        ∃ l t, items = some l ∧ row.recorded = some t ∧ l.any (isTarget t) = false }
  | .confirm _ holds, (confirmed : Bool) =>
    { s.moved with
      absent := s.absent ∨ row.action = some .create ∧ confirmed = false ∧
        ∀ v, v.Shows row.opId → holds v = true
      shown := s.shown ∨ confirmed = true ∧ ∀ v, holds v = true → v.Shows row.opId
      gone := s.gone ∨ confirmed = true ∧ ∀ v, holds v = true → ¬ row.Lists v }
  | _, _ => s.moved

/-- The knowledge of an attempt as a monitor. -/
def Known.monitor (row : OpRow) : Monitor Ask.Answer Known := ⟨Known.may row, Known.next row⟩

@[simp] theorem monitor_may (row : OpRow) (s : Known) (e : Ask) :
    (Known.monitor row).may s e = Known.may row s e := rfl

@[simp] theorem monitor_next (row : OpRow) (s : Known) (e : Ask) (a : e.Answer) :
    (Known.monitor row).next s e a = Known.next row s e a := rfl

/-! ### Results -/

/-- A result says that the operation was applied. -/
def Step.IsApplied : Step → Prop
  | .done (.applied _ _) => True
  | _ => False

/-- A result says that the operation was rejected. -/
def Step.IsRejected : Step → Prop
  | .done (.rejected _) => True
  | _ => False

/-- What a result claims is known. -/
structure Claims (row : OpRow) (s : Known) (ended : Step) : Prop where
  removed : row.Removes → ended.IsApplied → s.gone
  created : row.action = some .create → ended.IsApplied → s.shown
  refused : row.action = some .create → ended.IsRejected → s.absent

/-- What an attempt ends with: its claim is known, and a snooze has moved on only after its child
was shown. -/
def Ends (row : OpRow) (s : Known) (r : Step × ℕ) : Prop :=
  Claims row s r.1 ∧ (row.action = some .snooze → 0 < r.2 → s.shown)

theorem claims_open (row : OpRow) (s : Known) {ended : Step} (ha : ¬ ended.IsApplied)
    (hr : ¬ ended.IsRejected) : Claims row s ended :=
  ⟨fun _ h => absurd h ha, fun _ h => absurd h ha, fun _ h => absurd h hr⟩

theorem claims_rejected {row : OpRow} (s : Known) {code : RejectionCode} {detail : Text}
    (h : row.action = some .create → s.absent) : Claims row s (rejected code detail) :=
  ⟨fun _ h => h.elim, fun _ h => h.elim, fun hrow _ => h hrow⟩

/-- An applied result is claimed when its own conditions are known. -/
theorem claims_applied {row : OpRow} (s : Known) {at_ : ℤ} {result : Result}
    (hgone : row.Removes → s.gone) (hshown : row.action = some .create → s.shown) :
    Claims row s (.done (.applied at_ result)) :=
  ⟨fun hrow _ => hgone hrow, fun hrow _ => hshown hrow, fun _ h => h.elim⟩

theorem OpRow.Removes.ne_create {row : OpRow} (h : row.Removes) : row.action ≠ some .create := by
  rcases h with h | h | h | h <;> simp [h]

/-- Applying asks the clock only. -/
theorem applied_meets {row : OpRow} {post : Known → Step → Prop} {s : Known} {result : Result}
    (h : ∀ at_, post s.moved (.done (.applied at_ result))) :
    (applied result).Meets (Known.monitor row) post s :=
  ⟨trivial, h⟩

/-! ### Views -/

theorem lists_find {row : OpRow} {schedule : Uuid} {key : Text} {v : CalendarView}
    (hs : row.scheduleId = some schedule) (hk : row.occurrenceKey = some key)
    (ha : row.action ≠ some .cancel) (h : v.find schedule key = none) : ¬ row.Lists v := by
  rintro ⟨o, ho, hsched, hcancel | hkey⟩
  · exact ha hcancel
  · have hnone := List.find?_eq_none.mp h o ho
    have h1 : o.scheduleId = schedule := Option.some.inj (hsched.symm.trans hs)
    have h2 : o.key = key := Option.some.inj (hkey.symm.trans hk)
    exact hnone (by simp [h1, h2])

theorem lists_scheduleUid {row : OpRow} {schedule : Uuid} {v : CalendarView}
    (hs : row.scheduleId = some schedule) (h : v.scheduleUid schedule = none) : ¬ row.Lists v := by
  rintro ⟨o, ho, hsched, -⟩
  rw [CalendarView.scheduleUid, Option.map_eq_none_iff] at h
  have hnone := List.find?_eq_none.mp h o ho
  have h1 : o.scheduleId = schedule := Option.some.inj (hsched.symm.trans hs)
  exact hnone (by simp [h1])

/-! ### Deletes -/

/-- A delete of what a view shows is claimed only when a later view shows it gone. -/
theorem deleteShown_meets {row : OpRow} (hrow : row.Removes) {target : EventTarget} {before : ℕ}
    {gone : CalendarView → Bool} (hgone : ∀ v, gone v = true → ¬ row.Lists v) {s : Known}
    (hshown : row.action = some .snooze → s.shown) :
    (deleteShown target before gone).Meets (Known.monitor row)
      (fun t r => Claims row t r ∧ (s.shown → t.shown)) s := by
  have hnot := hrow.ne_create
  refine ⟨hshown, fun outcome => ?_⟩
  rcases outcome with - | ⟨code, message⟩ | - | -
  · exact ⟨trivial, fun _ => ⟨claims_open row _ id id, id⟩⟩
  · refine ⟨trivial, fun _ => ⟨trivial, fun view => ?_⟩⟩
    simp only [Prog.ret_andThen]
    split_ifs with hview
    · refine applied_meets fun at_ => ⟨claims_applied _ (fun _ => ?_) fun h => absurd h hnot, id⟩
      rcases view with _ | v
      · cases hview
      · exact .inr ⟨v, rfl, hgone v (Bool.and_eq_true_iff.mp hview).2⟩
    · exact ⟨claims_rejected _ fun h => absurd h hnot, id⟩
  · refine ⟨trivial, fun confirmed => ?_⟩
    rcases confirmed with _ | _
    · exact ⟨claims_rejected _ fun h => absurd h hnot, .inl⟩
    · refine applied_meets fun at_ => ⟨claims_applied _ (fun _ => ?_) fun h => absurd h hnot, .inl⟩
      exact .inr ⟨rfl, hgone⟩
  · exact ⟨trivial, fun _ => ⟨claims_open row _ id id, id⟩⟩

/-- A look around the due time ends with what it read. -/
theorem presentBeforeWindow_meets {row : OpRow} {target : EventTarget} {due : ℤ}
    (hrec : row.recorded = some target) (s : Known) :
    (presentBeforeWindow target due).Meets (Known.monitor row)
      (fun t r => (r = some false → t.gone) ∧ (s.shown → t.shown)) s := by
  unfold presentBeforeWindow
  split
  · refine ⟨trivial, fun items => ?_⟩
    rcases items with _ | l
    · exact ⟨nofun, id⟩
    · refine ⟨fun h => ?_, id⟩
      exact .inr ⟨l, target, rfl, hrec, Option.some.inj h⟩
  · exact ⟨nofun, id⟩

/-- A delete of the recorded target is claimed once the write is answered or the target is not
found. -/
theorem deleteMissed_meets {row : OpRow} (hrow : row.Removes) (hsn : row.action ≠ some .snooze)
    {target : EventTarget} {due : ℤ} (hrec : row.recorded = some target) (s : Known) :
    (deleteMissed target due).Meets (Known.monitor row) (Claims row) s := by
  have hnot := hrow.ne_create
  rw [deleteMissed, Prog.bind_eq, Prog.meets_andThen]
  refine (presentBeforeWindow_meets hrec s).mono fun t present ht => ?_
  rcases present with _ | _ | _
  · exact ⟨trivial, fun _ => claims_open row _ id id⟩
  · exact applied_meets fun at_ => claims_applied _ (fun _ => ht.1 rfl) fun h => absurd h hnot
  · refine ⟨fun h => absurd h hsn, fun outcome => ?_⟩
    rcases outcome with - | ⟨code, message⟩ | - | -
    · exact ⟨trivial, fun _ => claims_open row _ id id⟩
    · simp only [Prog.ret_andThen, Prog.bind_eq]
      rw [Prog.meets_andThen]
      refine (presentBeforeWindow_meets hrec _).mono fun u again hu => ?_
      rcases again with _ | _ | _
      · exact claims_rejected _ fun h => absurd h hnot
      · exact applied_meets fun at_ => claims_applied _ (fun _ => hu.1 rfl) fun h => absurd h hnot
      · exact claims_rejected _ fun h => absurd h hnot
    · exact applied_meets fun at_ =>
        claims_applied _ (fun _ => .inr ⟨rfl, hrec⟩) fun h => absurd h hnot
    · exact claims_open row _ id id

/-! ### The attempts -/

/-- A create writes only where a view does not show its event, and is refused only where the
event stayed away. -/
theorem create_meets {row : OpRow} (hrow : row.action = some .create) (hformed : row.Formed)
    {s : Known} (hcreating : s.creating) : (create row).Meets (Known.monitor row) (Claims row) s := by
  have hnot : ¬ row.Removes := fun h => h.ne_create hrow
  unfold create
  rcases hevent : row.plan.bind (·.event) with _ | event
  · exact claims_open row _ id id
  obtain ⟨plan, hplan, hplanned⟩ := Option.bind_eq_some_iff.mp hevent
  refine ⟨trivial, fun view => ?_⟩
  simp only [Prog.ret_andThen]
  split
  next created hcreated =>
    refine applied_meets fun at_ => claims_applied _ (fun h => absurd h hnot) fun _ => .inr ?_
    rw [CalendarView.Shows, hcreated]
    rfl
  next hmissing =>
    have hclear : ¬ view.Shows row.opId := by rw [CalendarView.Shows, hmissing]; exact nofun
    refine ⟨⟨⟨hcreating, hclear⟩, (hformed plan hplan).1 event hplanned⟩, fun outcome => ?_⟩
    rcases outcome with - | ⟨code, message⟩ | - | -
    · exact ⟨trivial, fun _ => claims_open row _ id id⟩
    · exact claims_rejected _ fun _ => ⟨⟨hrow, hclear⟩, nofun, nofun⟩
    · refine ⟨fun h => by simp [hrow] at h, fun _ => ⟨trivial, fun confirmed => ?_⟩⟩
      rcases confirmed with _ | _
      · exact claims_rejected _ fun _ => .inr ⟨hrow, rfl, fun v hv => hv⟩
      · refine ⟨trivial, fun view => ?_⟩
        simp only [Prog.ret_andThen]
        split
        · refine applied_meets fun at_ => claims_applied _ (fun h => absurd h hnot) fun _ => ?_
          exact .inr ⟨rfl, fun v hv => hv⟩
        · exact ⟨trivial, nofun⟩
    · exact ⟨trivial, fun _ => claims_open row _ id id⟩

/-- A cancel is claimed only where no occurrence of the schedule is listed. -/
theorem cancel_meets {row : OpRow} (hrow : row.action = some .cancel) (s : Known) :
    (cancel row).Meets (Known.monitor row) (Claims row) s := by
  have hremoves : row.Removes := .inl hrow
  have hnot := hremoves.ne_create
  unfold cancel
  rcases hschedule : row.scheduleId with _ | schedule
  · exact claims_open row _ id id
  refine ⟨trivial, fun view => ?_⟩
  simp only [Prog.ret_andThen]
  split
  next hnone =>
    refine applied_meets fun at_ => claims_applied _ (fun _ => ?_) fun h => absurd h hnot
    refine ⟨fun h => by simp [hrow] at h, lists_scheduleUid hschedule hnone, ?_⟩
    rintro ⟨h | h, -⟩ <;> simp [hrow] at h
  next uid huid =>
    refine (deleteShown_meets hremoves (fun v hv => ?_) fun h => by simp [hrow] at h).mono
      fun t r h => h.1
    exact lists_scheduleUid hschedule (Option.isNone_iff_eq_none.mp hv)

/-- A dismissal or an expiry is claimed only where the occurrence is not listed, or the recorded
target is not found. -/
theorem deleteOccurrence_meets {row : OpRow}
    (hrow : row.action = some .dismiss ∨ row.action = some .expire) (s : Known) :
    (deleteOccurrence row).Meets (Known.monitor row) (Claims row) s := by
  have hremoves : row.Removes := by rcases hrow with h | h <;> simp [OpRow.Removes, h]
  have hnot := hremoves.ne_create
  have hsn : row.action ≠ some .snooze := by rcases hrow with h | h <;> simp [h]
  have hcancel : row.action ≠ some .cancel := by rcases hrow with h | h <;> simp [h]
  unfold deleteOccurrence
  split
  case h_2 => exact claims_open row _ id id
  case h_1 schedule key hschedule hkey =>
    refine ⟨trivial, fun view => ?_⟩
    simp only [Prog.ret_andThen]
    split
    next occurrence hfound =>
      refine (deleteShown_meets hremoves (fun v hv => ?_) fun h => absurd h hsn).mono
        fun t r h => h.1
      exact lists_find hschedule hkey hcancel (Option.isNone_iff_eq_none.mp hv)
    next hnone =>
      have hgone : ¬ row.Lists view := lists_find hschedule hkey hcancel hnone
      have hdone : ¬ row.LooksUp view → (applied (.deleted false)).Meets (Known.monitor row)
          (Claims row) (Known.next row s .freshView view) := fun hlook =>
        applied_meets fun at_ =>
          claims_applied _ (fun _ => ⟨fun h => absurd h hsn, hgone, hlook⟩) fun h => absurd h hnot
      split
      next target due htarget hdue =>
        split_ifs with hwindow
        · refine hdone ?_
          rintro ⟨-, _, due', -, hdue', hlt⟩
          obtain rfl : due = due' := Option.some.inj (hdue.symm.trans hdue')
          omega
        · exact deleteMissed_meets hremoves hsn htarget _
      next hnot' =>
        refine hdone ?_
        rintro ⟨-, target, due, htarget, hdue, -⟩
        exact hnot' target due htarget hdue

/-- The child of a snooze is written only where a view does not show it; the snooze goes on only
once one does. -/
theorem createChild_meets {row : OpRow} (hrow : row.action = some .snooze) {child : EventWrite}
    {before : ℕ} {s : Known} (hclear : s.clear) (hop : child.op = some row.opId) :
    (createChild row.opId child before).Meets (Known.monitor row)
      (fun t early => (∀ r, early = some r → Claims row t r) ∧ (early = none → t.shown)) s := by
  have hnot : row.action ≠ some .create := by simp [hrow]
  refine ⟨⟨hclear, hop⟩, fun outcome => ?_⟩
  rcases outcome with - | ⟨code, message⟩ | - | -
  · refine ⟨trivial, fun _ => ⟨?_, by simp⟩⟩
    rintro r ⟨rfl⟩
    exact claims_open row _ id id
  · refine ⟨?_, by simp⟩
    rintro r ⟨rfl⟩
    exact claims_rejected _ fun h => absurd h hnot
  · refine ⟨trivial, fun confirmed => ?_⟩
    rcases confirmed with _ | _
    · refine ⟨?_, by simp⟩
      rintro r ⟨rfl⟩
      exact claims_rejected _ fun h => absurd h hnot
    · exact ⟨by simp, fun _ => .inr ⟨rfl, fun v hv => hv⟩⟩
  · refine ⟨trivial, fun _ => ⟨?_, by simp⟩⟩
    rintro r ⟨rfl⟩
    exact claims_open row _ id id

/-- The parent of a snooze is deleted once the child was shown, and the snooze is claimed only
where the parent is not listed. -/
theorem deleteParent_meets {row : OpRow} (hrow : row.action = some .snooze) {schedule : Uuid}
    {key : Text} (hschedule : row.scheduleId = some schedule) (hkey : row.occurrenceKey = some key)
    {s : Known} (hshown : s.shown) (hfirst : ¬ s.first) :
    (deleteParent row.opId schedule key).Meets (Known.monitor row)
      (fun t r => Claims row t r ∧ t.shown) s := by
  have hremoves : row.Removes := .inr (.inr (.inr hrow))
  have hnot := hremoves.ne_create
  have hcancel : row.action ≠ some .cancel := by simp [hrow]
  refine ⟨trivial, fun view => ?_⟩
  simp only [Prog.ret_andThen]
  split
  next hnone =>
    refine applied_meets fun at_ =>
      ⟨claims_applied _ (fun _ => ?_) fun h => absurd h hnot, .inl hshown⟩
    refine ⟨fun _ => hfirst, lists_find hschedule hkey hcancel hnone, ?_⟩
    rintro ⟨h | h, -⟩ <;> simp [hrow] at h
  next parent hparent =>
    rw [Prog.bind_eq, Prog.meets_andThen]
    refine (deleteShown_meets hremoves (fun v hv => ?_) fun _ => Or.inl hshown).mono
      fun t r ht => ?_
    · exact lists_find hschedule hkey hcancel (Option.isNone_iff_eq_none.mp hv)
    · have ht' : t.shown := ht.2 (.inl hshown)
      split
      next at_ result =>
        refine ⟨trivial, fun view => ?_⟩
        rcases view with _ | v
        · exact ⟨trivial, nofun⟩
        · refine ⟨claims_applied _ (fun _ => ?_) fun h => absurd h hnot, ht'⟩
          exact .inl (ht.1.removed hremoves trivial)
      next => exact ⟨ht.1, ht'⟩

/-- A snooze deletes its parent only after its child was shown. -/
theorem snooze_meets {row : OpRow} (hrow : row.action = some .snooze) (hformed : row.Formed)
    (step : ℕ) {s : Known} (hshown : 0 < step → s.shown) (hcreating : step = 0 → s.creating) :
    (snooze row step).Meets (Known.monitor row) (Ends row) s := by
  have hnot : row.action ≠ some .create := by simp [hrow]
  unfold snooze
  split
  case h_2 => exact ⟨claims_open row _ id id, fun _ => hshown⟩
  case h_1 schedule key hschedule hkey =>
    have hend : ∀ (t : Known) (n : ℕ), t.shown → ¬ t.first →
        ((deleteParent row.opId schedule key).andThen fun ended => Prog.ret (ended, n)).Meets
          (Known.monitor row) (Ends row) t := by
      intro t n ht hfirst
      rw [Prog.meets_andThen]
      refine (deleteParent_meets hrow hschedule hkey ht hfirst).mono fun u r h => ?_
      exact ⟨h.1, fun _ _ => h.2⟩
    rcases hchild : row.plan.bind (·.child) with _ | child
    · exact ⟨claims_open row _ id id, fun _ => hshown⟩
    obtain ⟨plan, hplan, hplanned⟩ := Option.bind_eq_some_iff.mp hchild
    refine ⟨trivial, fun view => ?_⟩
    simp only [Prog.ret_andThen]
    split_ifs with hstep hpresent hparent
    · exact ⟨fun _ => .inr hpresent, fun _ => hend _ 1 (.inr hpresent) id⟩
    · exact ⟨claims_rejected _ fun h => absurd h hnot, fun _ h => absurd h (by omega)⟩
    · rw [Prog.bind_eq, Prog.meets_andThen]
      have hclear : (Known.next row s .freshView view).clear := ⟨hcreating hstep, hpresent⟩
      refine (createChild_meets hrow hclear ((hformed plan hplan).2 child hplanned)).mono
        fun t early ht => ?_
      rcases early with _ | early
      · exact ⟨fun _ => ht.2 rfl, fun _ => hend _ 1 (ht.2 rfl) id⟩
      · exact ⟨ht.1 early rfl, fun _ h => absurd h (by omega)⟩
    · exact hend _ step (.inl (hshown (by omega))) id

/-- Every attempt does and claims what it knows. -/
theorem attempt_meets {row : OpRow} (hformed : row.Formed) (step : ℕ) {s : Known}
    (hshown : row.action = some .snooze → 0 < step → s.shown)
    (hcreating : row.Creates step → s.creating) :
    (attempt row step).Meets (Known.monitor row) (Ends row) s := by
  have hplain : ∀ p : Asks Step, row.action ≠ some .snooze →
      p.Meets (Known.monitor row) (Claims row) s →
      (p.andThen fun ended => Prog.ret (ended, step)).Meets (Known.monitor row) (Ends row) s := by
    intro p hsn hp
    rw [Prog.meets_andThen]
    exact hp.mono fun t r h => ⟨h, fun h => absurd h hsn⟩
  unfold attempt
  split
  case h_1 hrow => exact hplain _ (by simp [hrow]) (create_meets hrow hformed (hcreating (.inl hrow)))
  case h_2 hrow => exact hplain _ (by simp [hrow]) (cancel_meets hrow s)
  case h_3 hrow => exact hplain _ (by simp [hrow]) (deleteOccurrence_meets (.inl hrow) s)
  case h_4 hrow => exact hplain _ (by simp [hrow]) (deleteOccurrence_meets (.inr hrow) s)
  case h_5 hrow => exact snooze_meets hrow hformed step (hshown hrow) fun h0 => hcreating (.inr ⟨hrow, h0⟩)
  case h_6 hsn => exact hplain _ hsn (claims_open row _ id id)

end EchoMuse.Alarms
