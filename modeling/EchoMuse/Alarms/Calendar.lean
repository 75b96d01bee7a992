import EchoMuse.Alerts.Objects

/-!
# A Speaker's Calendar

The Local Calendar a speaker's alarms are stored in, and how the controller reads it. The calendar
holds events; Home Assistant lists an event's instances that fall into a window, each as an item.
The controller reads the items of a window as occurrences and keeps them as a view.

An event stays on the calendar while none of its instances falls into the window of a view.

## Main results

* `mem_occurrences`: an occurrence is read from an item of the list;
* `CalendarView.createdBy_isSome`: what it means that a view shows the event of an operation;
* `occurs_delete`: deleting takes exactly the targeted occurrences off the calendar.
-/

namespace EchoMuse.Alarms

open Alerts (Text Uuid OccurrenceKind)

/-! ### Events and items -/

/-- The `echomuse:` line of an event: its schedule's id, its kind and the creating operation. -/
structure EchomuseLine where
  id : Uuid
  kind : OccurrenceKind
  op : Uuid
deriving DecidableEq

/-- What is read in a description. -/
inductive LineOf
  | none
  | malformed (why : Text)
  | valid (line : EchomuseLine)
deriving DecidableEq

/-- A calendar event to create. -/
structure EventWrite where
  summary : Text
  dtstart : Text
  dtend : Text
  description : LineOf
  rrule : Option Text
deriving DecidableEq

/-- The event, or the one instance of a repeating event, a delete acts on. -/
structure EventTarget where
  uid : Text
  recurrenceId : Option Text
deriving DecidableEq

/-- When an item starts. -/
inductive CalendarTime
  | dateTime (text : Text)
  | date (text : Text)
deriving DecidableEq

/-- One event, or one instance of a repeating event, as Home Assistant lists it. -/
structure CalendarItem where
  start : CalendarTime
  description : LineOf
  uid : Option Text
  recurrenceId : Option Text
deriving DecidableEq

/-- An event on the calendar, and the instances deleted from it. -/
structure Event where
  uid : Text
  write : EventWrite
  deleted : List Text
deriving DecidableEq

/-- What is taken from outside: the instances of an event that fall into a window, as Home
Assistant expands them, the reading of times, and the ids made by hashing. -/
structure Home where
  instances : EventWrite → ℤ → ℤ → List (Option Text × CalendarTime)
  parseInstant : Text → Option ℤ
  localText : ℤ → Text
  occurrenceId : Uuid → Text → Uuid
  uiScheduleId : Text → Uuid

variable (home : Home)

/-- The operation an event carries. -/
def EventWrite.op (w : EventWrite) : Option Uuid :=
  match w.description with
  | .valid line => some line.op
  | _ => none

/-- The instances of an event in a window. -/
def Event.items (e : Event) (start stop : ℤ) : List CalendarItem :=
  (home.instances e.write start stop).filterMap fun i =>
    if i.1.any (e.deleted.contains ·) then none
    else some
      { start := i.2, description := e.write.description, uid := some e.uid, recurrenceId := i.1 }

/-- The items of a calendar in a window. -/
def itemsIn (calendar : List Event) (start stop : ℤ) : List CalendarItem :=
  calendar.flatMap fun e => e.items home start stop

/-- A delete: the one instance, or the event with all its instances. -/
def delete (calendar : List Event) (target : EventTarget) : List Event :=
  match target.recurrenceId with
  | none => calendar.filter fun e => e.uid ≠ target.uid
  | some r => calendar.map fun e =>
    if e.uid = target.uid then { e with deleted := r :: e.deleted } else e

/-! ### Occurrences -/

/-- One occurrence on a speaker's calendar. -/
structure Occurrence where
  occurrenceId : Uuid
  scheduleId : Uuid
  key : Text
  dueUtcMs : ℤ
  dueLocal : Text
  uid : Text
  recurrenceId : Option Text
  /-- The creating operation, for an event written by the controller. -/
  creatingOp : Option Uuid
deriving DecidableEq

/-- One item read; all-day items, items without a uid and unreadable starts are skipped. -/
def Home.occurrence (item : CalendarItem) : Option Occurrence :=
  match item.start, item.uid with
  | .dateTime start, some uid =>
    match home.parseInstant start with
    | none => none
    | some instant =>
      let dueLocal := home.localText instant
      let (scheduleId, op) := match item.description with
        | .valid line => (line.id, some line.op)
        | _ => (home.uiScheduleId uid, none)
      let key := item.recurrenceId.getD dueLocal
      some
        { occurrenceId := home.occurrenceId scheduleId key, scheduleId, key, dueUtcMs := instant,
          dueLocal, uid, recurrenceId := item.recurrenceId, creatingOp := op }
  | _, _ => none

/-- The order of occurrences: by due time, then by id. -/
def occurrenceLe (a b : Occurrence) : Bool :=
  ((compare a.dueUtcMs b.dueUtcMs).then (compare a.occurrenceId b.occurrenceId)).isLE

/-- The occurrences of a list of items. -/
def occurrences (items : List CalendarItem) : List Occurrence :=
  (items.filterMap home.occurrence).mergeSort occurrenceLe

/-- An occurrence is read from an item. -/
theorem mem_occurrences {items : List CalendarItem} {o : Occurrence} :
    o ∈ occurrences home items ↔ ∃ item ∈ items, home.occurrence item = some o := by
  rw [occurrences, List.mem_mergeSort, List.mem_filterMap]

/-- The target of an occurrence. -/
def occurrenceTarget (o : Occurrence) : EventTarget := ⟨o.uid, o.recurrenceId⟩

/-! ### Views -/

/-- One push of a speaker's calendar subscription, read. -/
structure CalendarView where
  generation : ℕ
  push : ℕ
  windowStartMs : ℤ
  windowEndMs : ℤ
  occurrences : List Occurrence
deriving DecidableEq

namespace CalendarView

/-- The occurrence of a schedule with a key. -/
def find (v : CalendarView) (schedule : Uuid) (key : Text) : Option Occurrence :=
  v.occurrences.find? fun o => o.scheduleId = schedule ∧ o.key = key

/-- The uid of a schedule's event, when any of its occurrences is in the window. -/
def scheduleUid (v : CalendarView) (schedule : Uuid) : Option Text :=
  (v.occurrences.find? fun o => o.scheduleId = schedule).map (·.uid)

/-- The occurrence of an event created by an operation. -/
def createdBy (v : CalendarView) (op : Uuid) : Option Occurrence :=
  v.occurrences.find? fun o => o.creatingOp = some op

theorem createdBy_isSome (v : CalendarView) (op : Uuid) :
    (v.createdBy op).isSome ↔ ∃ o ∈ v.occurrences, o.creatingOp = some op := by
  simp [createdBy, List.find?_isSome]

end CalendarView

/-! ### What is on the calendar -/

/-- Some window of the calendar lists an occurrence like this. -/
def Occurs (calendar : List Event) (p : Occurrence → Prop) : Prop :=
  ∃ start stop, ∃ o ∈ occurrences home (itemsIn home calendar start stop), p o

/-- An event on the calendar carries the operation. -/
def Carried (calendar : List Event) (op : Uuid) : Prop := ∃ e ∈ calendar, e.write.op = some op

theorem Home.occurrence_target {item : CalendarItem} {o : Occurrence}
    (h : home.occurrence item = some o) :
    item.uid = some o.uid ∧ item.recurrenceId = o.recurrenceId := by
  unfold Home.occurrence at h
  split at h
  case h_1 start uid hstart huid =>
    split at h
    · cases h
    · simp only [Option.some.injEq] at h
      subst h
      exact ⟨huid, rfl⟩
  case h_2 => cases h

theorem Home.occurrence_creatingOp {item : CalendarItem} {o : Occurrence} {op : Uuid}
    (h : home.occurrence item = some o) (hop : o.creatingOp = some op) :
    ∃ line, item.description = .valid line ∧ line.op = op := by
  unfold Home.occurrence at h
  split at h
  case h_1 =>
    split at h
    · cases h
    · simp only [Option.some.injEq] at h
      subst h
      dsimp only at hop
      split at hop
      next line hline => exact ⟨line, hline, Option.some.inj hop⟩
      next => cases hop
  case h_2 => cases h

theorem mem_itemsIn {calendar : List Event} {start stop : ℤ} {item : CalendarItem} :
    item ∈ itemsIn home calendar start stop ↔
      ∃ e ∈ calendar, ∃ i ∈ home.instances e.write start stop,
        (∀ r ∈ i.1, r ∉ e.deleted) ∧ item =
          { start := i.2, description := e.write.description, uid := some e.uid,
            recurrenceId := i.1 } := by
  simp only [itemsIn, Event.items, List.mem_flatMap, List.mem_filterMap]
  constructor
  · rintro ⟨e, he, i, hi, heq⟩
    split_ifs at heq with hdel
    refine ⟨e, he, i, hi, fun r hr => ?_, (Option.some.inj heq).symm⟩
    simp only [Option.any_eq_true, not_exists, not_and] at hdel
    simpa using hdel r hr
  · rintro ⟨e, he, i, hi, hdel, rfl⟩
    refine ⟨e, he, i, hi, ?_⟩
    have hany : ¬ i.1.any (e.deleted.contains ·) = true := by
      simp only [Option.any_eq_true, not_exists, not_and]
      intro r hr
      simpa using hdel r hr
    rw [if_neg hany]

/-- A view of the calendar shows an operation's event only when the event is there. -/
theorem carried_of_occurs {calendar : List Event} {start stop : ℤ} {o : Occurrence} {op : Uuid}
    (ho : o ∈ occurrences home (itemsIn home calendar start stop))
    (hop : o.creatingOp = some op) : Carried calendar op := by
  obtain ⟨item, hitem, hread⟩ := (mem_occurrences home).mp ho
  obtain ⟨e, he, i, -, -, rfl⟩ := (mem_itemsIn home).mp hitem
  obtain ⟨line, hline, rfl⟩ := home.occurrence_creatingOp hread hop
  refine ⟨e, he, ?_⟩
  have hdesc : e.write.description = .valid line := hline
  rw [EventWrite.op, hdesc]

/-- An event left by a delete was there, and where it has the targeted uid the targeted instance
is deleted from it. -/
theorem mem_delete {calendar : List Event} {target : EventTarget} {e : Event}
    (h : e ∈ delete calendar target) :
    ∃ e' ∈ calendar, e'.uid = e.uid ∧ e'.write = e.write ∧ e'.deleted ⊆ e.deleted ∧
      (e.uid = target.uid → ∃ r, target.recurrenceId = some r ∧ r ∈ e.deleted) := by
  rcases hrec : target.recurrenceId with _ | r
  · simp only [delete, hrec, List.mem_filter, decide_eq_true_eq] at h
    exact ⟨e, h.1, rfl, rfl, List.Subset.refl _, fun heq => absurd heq h.2⟩
  · simp only [delete, hrec, List.mem_map] at h
    obtain ⟨e', he', rfl⟩ := h
    refine ⟨e', he', ?_⟩
    split_ifs with hsame
    · exact ⟨rfl, rfl, List.subset_cons_self _ _, fun _ => ⟨r, rfl, List.mem_cons_self⟩⟩
    · exact ⟨rfl, rfl, List.Subset.refl _, fun heq => absurd heq hsame⟩

theorem carried_delete {calendar : List Event} {target : EventTarget} {op : Uuid}
    (h : Carried (delete calendar target) op) : Carried calendar op := by
  obtain ⟨e, he, hop⟩ := h
  obtain ⟨e', he', -, hw, -⟩ := mem_delete he
  exact ⟨e', he', by rw [hw]; exact hop⟩

/-- The occurrences a new event brings are its own. -/
theorem occurs_concat {calendar : List Event} {new : Event} {p : Occurrence → Prop}
    (h : Occurs home (calendar ++ [new]) p) : Occurs home calendar p ∨ Occurs home [new] p := by
  obtain ⟨start, stop, o, ho, hp⟩ := h
  obtain ⟨item, hitem, hread⟩ := (mem_occurrences home).mp ho
  obtain ⟨e, he, hrest⟩ := (mem_itemsIn home).mp hitem
  rcases List.mem_append.mp he with he | he
  · left
    refine ⟨start, stop, o, (mem_occurrences home).mpr ⟨item, ?_, hread⟩, hp⟩
    exact (mem_itemsIn home).mpr ⟨e, he, hrest⟩
  · right
    refine ⟨start, stop, o, (mem_occurrences home).mpr ⟨item, ?_, hread⟩, hp⟩
    exact (mem_itemsIn home).mpr ⟨e, he, hrest⟩

/-- The occurrences of one event have its uid. -/
theorem occurs_uid {e : Event} {p : Occurrence → Prop} (h : Occurs home [e] p) :
    ∃ o, p o ∧ o.uid = e.uid := by
  obtain ⟨start, stop, o, ho, hp⟩ := h
  obtain ⟨item, hitem, hread⟩ := (mem_occurrences home).mp ho
  obtain ⟨huid, -⟩ := home.occurrence_target hread
  obtain ⟨e', he, i, -, -, rfl⟩ := (mem_itemsIn home).mp hitem
  obtain rfl := List.mem_singleton.mp he
  exact ⟨o, hp, (Option.some.inj huid).symm⟩

/-- Deleting takes exactly the targeted occurrences off the calendar. -/
theorem occurs_delete {calendar : List Event} {target : EventTarget} {p : Occurrence → Prop}
    (h : Occurs home (delete calendar target) p) :
    Occurs home calendar fun o => p o ∧ occurrenceTarget o ≠ target := by
  obtain ⟨start, stop, o, ho, hp⟩ := h
  obtain ⟨item, hitem, hread⟩ := (mem_occurrences home).mp ho
  obtain ⟨huid, hrid⟩ := home.occurrence_target hread
  obtain ⟨e, he, i, hi, hdel, rfl⟩ := (mem_itemsIn home).mp hitem
  obtain ⟨e', he', hu, hw, hsub, hgone⟩ := mem_delete he
  refine ⟨start, stop, o, (mem_occurrences home).mpr ⟨_, ?_, hread⟩, hp, ?_⟩
  · refine (mem_itemsIn home).mpr ⟨e', he', i, hw ▸ hi, fun r hr hmem => ?_, by rw [hu, hw]⟩
    exact hdel r hr (hsub hmem)
  · intro heq
    have hsame : e.uid = target.uid := by
      rw [← heq]
      exact Option.some.inj huid
    obtain ⟨r, hr, hmem⟩ := hgone hsame
    have hi1 : i.1 = some r := by
      rw [← hr, ← heq]
      exact hrid
    exact hdel r hi1 hmem

end EchoMuse.Alarms
