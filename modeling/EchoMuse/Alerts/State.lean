import EchoMuse.Alerts.Validation

/-!
# The Device's Durable Alert State

What a speaker keeps across restarts: the delivery position, the delivered occurrences, local
operations and snooze children, armed deadlines, ring records and the trusted clock anchor. The
state changes only by whole transactions, each of which deletes and then puts entries of its
tables, so a replay of the transactions reproduces it.

## Main results

* `State.apply_occ`, `State.apply_position`: what a transaction does to the delivered occurrences
  and to the position they stand at;
* `State.Keyed.apply`: every table keeps its entries under the ids they carry.
-/

namespace EchoMuse.Alerts

/-- A local operation's action. -/
inductive Action
  | dismiss | snooze | expire
deriving DecidableEq, Repr

/-- The reason of an executor expiry. -/
inductive ExpireReason
  | timedOut | missed
deriving DecidableEq, Repr

/-- Who requested a local operation. -/
inductive Source
  | button | voice | entity | llm | dashboard | executor
deriving DecidableEq, Repr

/-- The state of an operation's result. -/
inductive ResultState
  | applied | rejected
deriving DecidableEq, Repr

/-- The controller's answer to an operation. -/
structure OpResult where
  opId : Uuid
  state : ResultState
  error : Option Text
deriving DecidableEq

/-- The snooze child of a snooze operation. -/
structure ChildRef where
  scheduleId : Uuid
  occurrenceId : Uuid
  dueUtcMs : ℤ
  dueLocal : Text
deriving DecidableEq

/-- A journaled dismiss, snooze or expire. -/
structure LocalOp where
  seq : ℕ
  opId : Uuid
  action : Action
  occurrenceId : Uuid
  scheduleId : Uuid
  revision : ℕ
  /-- The target's due time. -/
  dueUtcMs : ℤ
  /-- Why it expired; for an expiry only. -/
  reason : Option ExpireReason
  source : Source
  /-- For a snooze only. -/
  child : Option ChildRef
  result : Option OpResult
deriving DecidableEq

/-- A snooze child created on the device. -/
structure LocalChild where
  occurrence : Occurrence
  opId : Uuid
  /-- The creating snooze was reported applied; a later snapshot without the child removes it. -/
  resolved : Bool
deriving DecidableEq

/-- The monotonic deadline of one armed occurrence, valid in one boot. -/
structure ArmedRecord where
  occurrenceId : Uuid
  bootId : Text
  dueMonoNs : ℤ
  dueUtcMs : ℤ
deriving DecidableEq

/-- When an occurrence first rang and its ring deadline, on both clocks. -/
structure RingRecord where
  occurrenceId : Uuid
  bootId : Text
  firstMonoNs : ℤ
  deadlineMonoNs : ℤ
  firstUtcMs : ℤ
  deadlineUtcMs : ℤ
deriving DecidableEq

/-- Maps one boot's monotonic clock to trusted UTC. -/
structure ClockAnchor where
  bootId : Text
  offsetMs : ℤ
deriving DecidableEq

/-- The delivery epoch and acknowledged sequence. -/
structure DeliveryPos where
  epoch : Text
  acked : ℕ
deriving DecidableEq

/-- One transaction. Within each table, deletes apply before puts. -/
structure Txn where
  /-- A snapshot install: replaces the delivered occurrences and clears the corrupt mark. -/
  reset : Bool := false
  delivery : Option DeliveryPos := none
  delOcc : List Uuid := []
  putOcc : List Occurrence := []
  delOps : List Uuid := []
  putOps : List LocalOp := []
  delChildren : List Uuid := []
  putChildren : List LocalChild := []
  delArmed : List Uuid := []
  putArmed : List ArmedRecord := []
  delRings : List Uuid := []
  putRings : List RingRecord := []
  clock : Option ClockAnchor := none
deriving DecidableEq

/-- The durable device alert state. -/
structure State where
  /-- The delivery epoch; `none` until the first snapshot. -/
  epoch : Option Text := none
  acked : ℕ := 0
  /-- Live occurrences the controller delivered. -/
  occ : Table Uuid Occurrence := ∅
  /-- Local operations: pending until answered, then kept while the target is delivered. -/
  ops : Table Uuid LocalOp := ∅
  /-- The highest operation number ever assigned. -/
  opSeq : ℕ := 0
  children : Table Uuid LocalChild := ∅
  armed : Table Uuid ArmedRecord := ∅
  rings : Table Uuid RingRecord := ∅
  clock : Option ClockAnchor := none
  /-- A damaged store was quarantined; cleared only by a controller snapshot. -/
  corrupt : Bool := false

/-- A transaction that changes nothing is not journaled. -/
def Txn.empty (t : Txn) : Bool :=
  !t.reset && t.delivery.isNone && t.clock.isNone &&
    t.delOcc.length + t.putOcc.length + t.delOps.length + t.putOps.length + t.delArmed.length +
      t.putArmed.length + t.delChildren.length + t.putChildren.length + t.delRings.length +
      t.putRings.length == 0

namespace State

/-- Applies one transaction. -/
def apply (s : State) (t : Txn) : State where
  epoch := match t.delivery with
    | some d => some d.epoch
    | none => s.epoch
  acked := match t.delivery with
    | some d => d.acked
    | none => s.acked
  occ := Table.putAll (·.occurrenceId)
    (Table.deleteAll (if t.reset then ∅ else s.occ) t.delOcc) t.putOcc
  ops := Table.putAll (·.opId) (Table.deleteAll s.ops t.delOps) t.putOps
  opSeq := t.putOps.foldl (fun seq op => max seq op.seq) s.opSeq
  children := Table.putAll (·.occurrence.occurrenceId) (Table.deleteAll s.children t.delChildren)
    t.putChildren
  armed := Table.putAll (·.occurrenceId)
    (Table.deleteAll (if t.reset then ∅ else s.armed) t.delArmed) t.putArmed
  rings := Table.putAll (·.occurrenceId) (Table.deleteAll s.rings t.delRings) t.putRings
  clock := match t.clock with
    | some c => some c
    | none => s.clock
  corrupt := if t.reset then false else s.corrupt

/-- The operations in creation order. -/
def opsInOrder (s : State) : List LocalOp :=
  (Table.vals s.ops).insertionSort (fun a b => a.seq ≤ b.seq)

end State

/-- An operation targets an occurrence by its id, or by its schedule and due time: a copy whose
key was formatted differently. -/
def opTargets (op : LocalOp) (o : Occurrence) : Bool :=
  op.occurrenceId == o.occurrenceId || (op.scheduleId == o.scheduleId && op.dueUtcMs == o.dueUtcMs)

/-- A delivered occurrence replaces a local child under the same rule. -/
def supersedes (o : Occurrence) (c : LocalChild) : Bool :=
  o.occurrenceId == c.occurrence.occurrenceId ||
    (o.scheduleId == c.occurrence.scheduleId && o.dueUtcMs == c.occurrence.dueUtcMs)

/-- A local operation tombstones the occurrence. -/
def State.protects (s : State) (o : Occurrence) : Bool := (Table.vals s.ops).any (opTargets · o)

/-! ### What a transaction does -/

/-- A transaction that carries a position is journaled. -/
theorem Txn.empty_of_delivery {t : Txn} {p : DeliveryPos} (h : t.delivery = some p) :
    t.empty = false := by
  unfold Txn.empty
  rw [h]
  simp

namespace State

@[simp] theorem apply_occ (s : State) (t : Txn) : (s.apply t).occ =
    Table.putAll (·.occurrenceId) (Table.deleteAll (if t.reset then ∅ else s.occ) t.delOcc)
      t.putOcc := rfl

/-- A transaction that carries no position leaves it. -/
theorem apply_position {s : State} {t : Txn} (h : t.delivery = none) :
    (s.apply t).epoch = s.epoch ∧ (s.apply t).acked = s.acked := by
  unfold apply
  rw [h]
  exact ⟨rfl, rfl⟩

/-- A transaction that carries a position moves the state there. -/
theorem apply_position_some {s : State} {t : Txn} {d : DeliveryPos} (h : t.delivery = some d) :
    (s.apply t).epoch = some d.epoch ∧ (s.apply t).acked = d.acked := by
  unfold apply
  rw [h]
  exact ⟨rfl, rfl⟩

/-- Every table holds its entries under the ids they carry. -/
structure Keyed (s : State) : Prop where
  occ : Table.Keyed (·.occurrenceId) s.occ
  ops : Table.Keyed (·.opId) s.ops
  children : Table.Keyed (·.occurrence.occurrenceId) s.children
  armed : Table.Keyed (·.occurrenceId) s.armed
  rings : Table.Keyed (·.occurrenceId) s.rings

/-- A transaction keeps every table keyed. -/
theorem Keyed.apply {s : State} (h : s.Keyed) (t : Txn) : (s.apply t).Keyed where
  occ := by
    refine Table.Keyed.putAll (Table.Keyed.deleteAll ?_ _) _
    by_cases hr : t.reset = true
    · rw [if_pos hr]
      exact Table.Keyed.empty _
    · rw [if_neg hr]
      exact h.occ
  ops := (h.ops.deleteAll _).putAll _
  children := (h.children.deleteAll _).putAll _
  armed := by
    refine Table.Keyed.putAll (Table.Keyed.deleteAll ?_ _) _
    by_cases hr : t.reset = true
    · rw [if_pos hr]
      exact Table.Keyed.empty _
    · rw [if_neg hr]
      exact h.armed
  rings := (h.rings.deleteAll _).putAll _

end State

end EchoMuse.Alerts
