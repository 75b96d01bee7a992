import EchoMuse.Alerts.Objects

/-!
# Delivery of a Speaker's Alert Cache

The controller's delivery state of one speaker: its epoch, the last assigned sequence, the
acknowledged one, the objects the device holds once it has applied everything sent, and the deltas
not yet acknowledged. It decides what to send and reports the position to persist first.
-/

namespace EchoMuse.Alerts

abbrev SessionId := ℕ

/-- The alert part of `session.hello`. -/
structure HelloAlerts where
  deliveryEpoch : Option Text
  ackedSequence : Option ℕ

/-- `alert.ack`: the device's durable delivery position after a snapshot or delta. -/
structure AlertAck where
  /-- The device's epoch after handling the message; `none` before any snapshot. -/
  deliveryEpoch : Option Text
  appliedThrough : ℕ
  durable : Bool
  needSnapshot : Bool
deriving DecidableEq

/-- The live set a speaker should hold, and why an occurrence left it. -/
structure Desired where
  live : List OccurrenceObject
  /-- An occurrence missing here is deleted. -/
  reasons : Table Uuid TombstoneReason

/-- A message body of the delivery. -/
inductive PostBody
  | snapshot (page : AlertSnapshotPage)
  | delta (delta : AlertDelta)
deriving DecidableEq

/-- What a step of delivery produced. -/
structure Outbox where
  /-- Bodies to send, in order, after persisting the position. -/
  bodies : List PostBody := []
  /-- The position to persist first, when it moved: the sequence and the acknowledged one. -/
  position : Option (ℕ × ℕ) := none

structure Attached where
  session : SessionId
  snapshotOwed : Bool

/-- One speaker's delivery state. -/
structure Delivery where
  epoch : Text
  sequence : ℕ
  acked : ℕ
  /-- The objects the device holds once it has applied everything sent; `none` when this process
  has not sent this epoch's state. -/
  sent : Option (Table Uuid OccurrenceObject)
  /-- Deltas sent after the acknowledged sequence. -/
  unacked : List AlertDelta
  attached : Option Attached

/-- Two objects are the same occurrence content whatever their revisions. -/
def sameContent (a b : OccurrenceObject) : Bool :=
  { a with revision := 0 } == { b with revision := 0 }

/-- An object stamped with the sequence that carries it. -/
def CacheObject.stamp (sequence : ℕ) : CacheObject → CacheObject
  | .occurrence o => .occurrence { o with revision := sequence }
  | .tombstone t => .tombstone { t with revision := sequence }

/-- What an object does to a map of occurrences. -/
def CacheObject.applyTo (m : Table Uuid OccurrenceObject) :
    CacheObject → Table Uuid OccurrenceObject
  | .occurrence o => m.insert o.occurrenceId o
  | .tombstone t => m.erase t.occurrenceId

namespace Delivery

/-- The state of a speaker whose row holds `epoch`, `sequence` and `acked`. -/
def new (epoch : Text) (sequence acked : ℕ) : Delivery where
  epoch := epoch
  sequence := sequence
  acked := min acked sequence
  sent := none
  unacked := []
  attached := none

/-- The session deliveries go to. -/
def session (d : Delivery) : Option SessionId := d.attached.map (·.session)

/-- Whether the device has durably applied the object of `id` as this process last sent it. -/
def armed (d : Delivery) (id : Uuid) : Bool :=
  match d.sent with
  | some sent =>
    match sent[id]? with
    | some object => object.revision ≤ d.acked
    | none => false
  | none => false

/-- The position a hello reports, when it reports one. -/
def HelloAlerts.position (hello : Option HelloAlerts) : Option (Text × ℕ) := do
  let h ← hello
  return (← h.deliveryEpoch, ← h.ackedSequence)

/-- The acknowledged sequence of a device that resending can bring up to date. -/
def inStep (d : Delivery) (hello : Option HelloAlerts) : Option ℕ :=
  match HelloAlerts.position hello with
  | some (epoch, acked) =>
    if epoch = d.epoch ∧ d.sent.isSome = true ∧ acked ≤ d.sequence ∧
        (acked = d.sequence ∨ ∃ first ∈ d.unacked.head?, first.sequence ≤ acked + 1)
    then some acked
    else none
  | none => none

/-- A session started. Unacknowledged deltas the device still lacks are resent; otherwise a
snapshot is owed. -/
def attach (d : Delivery) (session : SessionId) (hello : Option HelloAlerts) :
    Delivery × Outbox :=
  match d.inStep hello with
  | some deviceAcked =>
    let position :=
      if d.acked < deviceAcked then some (d.sequence, deviceAcked) else none
    let unacked := d.unacked.filter fun delta => deviceAcked < delta.sequence
    ({ d with
       acked := max d.acked deviceAcked
       unacked
       attached := some { session, snapshotOwed := false } },
     { bodies := unacked.map .delta, position })
  | none => ({ d with attached := some { session, snapshotOwed := true } }, {})

/-- The session ended. -/
def detach (d : Delivery) (session : SessionId) : Delivery :=
  if d.session = some session then { d with attached := none } else d

/-- An `alert.ack` from the current session. -/
def ack (d : Delivery) (ack : AlertAck) : Delivery × Outbox :=
  let d := if ack.needSnapshot then
      { d with attached := d.attached.map fun a => { a with snapshotOwed := true } }
    else d
  if ack.durable ∧ ack.deliveryEpoch = some d.epoch ∧ ack.appliedThrough ≤ d.sequence ∧
      d.acked < ack.appliedThrough then
    ({ d with
       acked := ack.appliedThrough
       unacked := d.unacked.filter fun delta => ack.appliedThrough < delta.sequence },
     { position := some (d.sequence, ack.appliedThrough) })
  else (d, {})

/-- Whether a snapshot is owed to the current session. -/
def snapshotOwed (d : Delivery) : Bool := d.attached.any (·.snapshotOwed)

/-- The next delta, carrying `objects` stamped with its sequence; only once this process has sent
the epoch's state, `sent`. -/
def nextDelta (d : Delivery) (sent : Table Uuid OccurrenceObject) (objects : List CacheObject) :
    Delivery × AlertDelta :=
  let sequence := d.sequence + 1
  let objects := objects.map (CacheObject.stamp sequence)
  let delta : AlertDelta := { deliveryEpoch := d.epoch, sequence, objects }
  ({ d with
     sequence
     sent := some (objects.foldl CacheObject.applyTo sent)
     unacked := d.unacked ++ [delta] },
   delta)

/-- The deltas of `pieces` one after the other, each with the state after it. -/
def deltas (d : Delivery) : List (List CacheObject) → List (Delivery × AlertDelta)
  | [] => []
  | objects :: pieces =>
    match d.sent with
    | some sent =>
      let next := d.nextDelta sent objects
      next :: deltas next.1 pieces
    | none => []

/-- The live set by id. -/
def Desired.table (desired : Desired) : Table Uuid OccurrenceObject :=
  Table.putAll (·.occurrenceId) ∅ desired.live

/-- What changed from `sent` to the live set: tombstones for what left it, then what is new or has
other content. -/
def changes (sent : Table Uuid OccurrenceObject) (desired : Desired) : List CacheObject :=
  let live := Desired.table desired
  (sent.toList.filter fun (id, _) => live[id]?.isNone).map
      (fun (id, _) => .tombstone
        { occurrenceId := id, revision := 0
          tombstone := (desired.reasons[id]?).getD .deleted }) ++
    (live.toList.filter fun (id, object) =>
      match sent[id]? with
      | some old => !sameContent old object
      | none => true).map fun (_, object) => .occurrence object

/-- The objects of a snapshot: unchanged content keeps its revision. -/
def snapshotObjects (previous : Table Uuid OccurrenceObject) (highWaterMark : ℕ)
    (desired : Desired) : List OccurrenceObject :=
  desired.live.map fun object =>
    { object with
      revision :=
        match previous[object.occurrenceId]? with
        | some old => if sameContent old object then old.revision else highWaterMark
        | none => highWaterMark }

section

variable (digest : List OccurrenceObject → Except SnapshotError Sha256)

/-- Sends the whole live set; a snapshot that cannot be built leaves what was sent, or nothing. -/
def snapshot (d : Delivery) (desired : Desired) : Delivery × Except SnapshotError Outbox :=
  let highWaterMark := d.sequence + 1
  let previous := d.sent.getD ∅
  let objects := snapshotObjects previous highWaterMark desired
  match snapshotPages digest d.epoch highWaterMark objects with
  | .error e => ({ d with sent := some previous }, .error e)
  | .ok pages =>
    ({ d with
       sequence := highWaterMark
       sent := some (Table.putAll (·.occurrenceId) ∅ objects)
       unacked := []
       attached := d.attached.map fun a => { a with snapshotOwed := false } },
     .ok { bodies := pages.map .snapshot, position := some (highWaterMark, d.acked) })

/-- The state after the last of `steps`, or `d` when there is none. -/
def lastOf (d : Delivery) (steps : List (Delivery × AlertDelta)) : Delivery :=
  match steps.getLast? with
  | some last => last.1
  | none => d

/-- Brings the current session to `desired`: a snapshot when one is owed, otherwise a delta for
each page of changes. -/
def refresh (d : Delivery) (desired : Desired) : Delivery × Except SnapshotError Outbox :=
  match d.attached with
  | none => (d, .ok {})
  | some attached =>
    match d.sent with
    | none => d.snapshot digest desired
    | some sent =>
      if attached.snapshotOwed then d.snapshot digest desired
      else
        let steps := d.deltas (chunks snapshotPageObjects (changes sent desired))
        let d' := d.lastOf steps
        (d', .ok
          { bodies := steps.map fun s => .delta s.2
            position := if steps.isEmpty then none else some (d'.sequence, d'.acked) })

end

/-- Tombstones occurrences the device may hold that this speaker never delivered. -/
def retract (d : Delivery) (removed : List (Uuid × TombstoneReason)) : Delivery × Outbox :=
  match d.attached, d.sent with
  | some attached, some sent =>
    if attached.snapshotOwed ∨ removed = [] then (d, {})
    else
      let next := d.nextDelta sent (removed.map fun (id, reason) =>
        .tombstone { occurrenceId := id, revision := 0, tombstone := reason })
      (next.1,
       { bodies := [.delta next.2], position := some (next.1.sequence, next.1.acked) })
  | _, _ => (d, {})

end Delivery

end EchoMuse.Alerts
