import EchoMuse.Alerts.Cache
import EchoMuse.Alerts.Delivery

/-!
# The Controller and the Device

The delivery of one speaker's alerts as a whole: the controller's delivery state and the row it
persists before it sends, the device and its store, and the messages in flight between them. A
session's messages arrive in order and are lost when its link ends; either side can restart at any
time, and the device can lose or quarantine its store.

Two histories are kept beside the state, which no step reads: every body posted, and the map the
controller held in `sent` when it assigned each sequence.
-/

namespace EchoMuse.Alerts

/-! ### The device -/

/-- How a commit ends: journaled, undone, or failed in a way that leaves the store refusing
commits until it is opened again, the record on disk or not. -/
inductive CommitOutcome
  | durable
  | undone
  | broken (onDisk : Bool)

/-- The device's part of the delivery. -/
structure Device where
  /-- The state in memory. -/
  st : State
  /-- What opening the store again recovers. -/
  disk : State
  /-- A failed write could not be rolled back. -/
  broken : Bool := false
  stage : Option SnapshotStage := none

namespace Device

/-- Makes `t` durable and then applies it; on error the state is unchanged. -/
def commit (d : Device) (outcome : CommitOutcome) (t : Txn) : Device × Bool :=
  if t.empty then (d, true)
  else if d.broken then (d, false)
  else
    match outcome with
    | .durable => ({ d with st := d.st.apply t, disk := d.st.apply t }, true)
    | .undone => (d, false)
    | .broken onDisk =>
      ({ d with disk := if onDisk then d.st.apply t else d.disk, broken := true }, false)

/-- Reports the device's delivery position. -/
def ack (d : Device) (needSnapshot durable : Bool) : AlertAck where
  deliveryEpoch := d.st.epoch
  appliedThrough := d.st.acked
  durable := durable
  needSnapshot := needSnapshot || d.st.corrupt

/-- `session.hello.alerts`: a corrupt store reports a null epoch. -/
def hello (d : Device) : HelloAlerts where
  deliveryEpoch := if d.st.corrupt then none else d.st.epoch
  ackedSequence := some d.st.acked

/-- Commits the transaction of a message and acknowledges it. -/
def install (d : Device) (outcome : CommitOutcome) (t : Txn) : Device × AlertAck :=
  let r := d.commit outcome t
  (r.1, if r.2 then r.1.ack false true else r.1.ack true false)

end Device

/-- A delta as the firmware decodes it. -/
def AlertDelta.body (F : FloatText) (d : AlertDelta) : DeltaBody where
  deliveryEpoch := d.deliveryEpoch
  sequence := d.sequence
  objects := d.objects.map fun o => o.value.wire F

/-! ### The system -/

/-- How a restarting device finds its store. -/
inductive Opened
  | intact
  /-- The store is gone. -/
  | lost
  /-- The store is damaged: what an earlier point of the journal recovers, marked corrupt. -/
  | quarantined (point : ℕ)

/-- The controller and the device of one speaker. -/
structure Link where
  ctl : Delivery
  /-- The persisted position: the sequence and the acknowledged one. -/
  row : ℕ × ℕ
  dev : Device
  /-- The session whose link is up. -/
  link : Option SessionId := none
  /-- Bodies in flight to the device. -/
  down : List PostBody := []
  /-- Acknowledgements in flight to the controller. -/
  up : List AlertAck := []
  /-- Every state the store has held. -/
  past : List State
  /-- Every body posted. -/
  posted : List PostBody := []
  /-- The map held in `sent` when each sequence was assigned, from sequence 1 on. -/
  held : List (Table Uuid OccurrenceObject) := []

/-- One step of the system. -/
inductive Event
  /-- The device opens a session. -/
  | connect (session : SessionId)
  /-- The link of the session ends. -/
  | hangUp
  /-- The controller learns that a session ended. -/
  | detach (session : SessionId)
  | refresh (desired : Desired)
  | retract (removed : List (Uuid × TombstoneReason))
  /-- The device handles the next body, with its clock and the outcome of its commit. -/
  | deliver (clock : TrustedClock) (outcome : CommitOutcome)
  /-- The controller handles the next acknowledgement. -/
  | acknowledge
  | restartController
  | restartDevice (store : Opened)

namespace Link

/-- The map held when sequence `s` was assigned. -/
def heldAt (w : Link) : ℕ → Option (Table Uuid OccurrenceObject)
  | 0 => none
  | s + 1 => w.held[s]?

/-- The first state of a speaker: no sequence assigned, and a device of another epoch or none. -/
def start (epoch : Text) (s : State) : Link where
  ctl := Delivery.new epoch 0 0
  row := (0, 0)
  dev := { st := s, disk := s }
  past := [s]

/-- Persists the position of an outbox, then posts its bodies to the attached session. -/
def send (w : Link) (ctl : Delivery) (outbox : Outbox) : Link :=
  { w with
    ctl
    row := outbox.position.getD w.row
    down := if w.link.isSome ∧ w.link = ctl.session then w.down ++ outbox.bodies else w.down
    posted := w.posted ++ outbox.bodies }

/-- The link ends: what is in flight is lost. -/
def cut (w : Link) : Link := { w with link := none, down := [], up := [] }

/-- The device after a step of its store. -/
def store (w : Link) (dev : Device) : Link := { w with dev, past := w.past ++ [dev.disk] }

end Link

/-- The device handles one body; a page of a snapshot still incomplete is not acknowledged. -/
def Device.receive (F : FloatText) (digest : List (Json Text) → Option Text) (clock : TrustedClock)
    (outcome : CommitOutcome) (d : Device) : PostBody → Device × Option AlertAck
  | .delta delta =>
    match deltaTxn F clock d.st (delta.body F) with
    | none => (d, some (d.ack true true))
    | some t => let r := d.install outcome t; (r.1, some r.2)
  | .snapshot page =>
    match stagePage F digest clock d.st d.stage (page.body F) with
    | .rejected => ({ d with stage := none }, some (d.ack true true))
    | .staged stage => ({ d with stage := some stage }, none)
    | .install t => let r := { d with stage := none }.install outcome t; (r.1, some r.2)

/-- The store as a restart finds it. -/
def Opened.recover (past : List State) (disk : State) : Opened → State
  | .intact => disk
  | .lost => {}
  | .quarantined point =>
    match past[point]? with
    | some s => { s with corrupt := true }
    | none => { corrupt := true }

/-- The map a step that assigned at most one sequence left in `sent` with it. -/
def Delivery.assigned (d d' : Delivery) : List (Table Uuid OccurrenceObject) :=
  if d'.sequence = d.sequence then [] else d'.sent.toList

/-- The maps `refresh` leaves in `sent` with each sequence it assigns. -/
def Delivery.refreshHeld (snapshotDigest : List OccurrenceObject → Except SnapshotError Sha256)
    (d : Delivery) (desired : Desired) : List (Table Uuid OccurrenceObject) :=
  match d.attached, d.sent with
  | some { snapshotOwed := false, .. }, some sent =>
    (d.deltas (chunks snapshotPageObjects (changes sent desired))).filterMap (·.1.sent)
  | _, _ => d.assigned (d.refresh snapshotDigest desired).1

section

variable (F : FloatText) (snapshotDigest : List OccurrenceObject → Except SnapshotError Sha256)
  (digest : List (Json Text) → Option Text)

/-- One step. Events that cannot happen change nothing. -/
def Link.apply (w : Link) : Event → Link
  | .connect session =>
    if w.link.isSome then w
    else
      let r := w.ctl.attach session (some w.dev.hello)
      { w with link := some session }.send r.1 r.2
  | .hangUp => w.cut
  | .detach session => { w with ctl := w.ctl.detach session }
  | .refresh desired =>
    let r := w.ctl.refresh snapshotDigest desired
    match r.2 with
    | .ok outbox =>
      { w.send r.1 outbox with held := w.held ++ w.ctl.refreshHeld snapshotDigest desired }
    | .error _ => { w with ctl := r.1 }
  | .retract removed =>
    let r := w.ctl.retract removed
    { w.send r.1 r.2 with held := w.held ++ w.ctl.assigned r.1 }
  | .deliver clock outcome =>
    match w.down with
    | [] => w
    | body :: rest =>
      let r := w.dev.receive F digest clock outcome body
      { w.store r.1 with down := rest, up := w.up ++ r.2.toList }
  | .acknowledge =>
    match w.up with
    | [] => w
    | ack :: rest =>
      -- Only the attached session's messages are handled.
      if w.link = w.ctl.session then
        let r := w.ctl.ack ack
        { w with up := rest }.send r.1 r.2
      else { w with up := rest }
  | .restartController => { w.cut with ctl := Delivery.new w.ctl.epoch w.row.1 w.row.2 }
  | .restartDevice opened =>
    let disk := opened.recover w.past w.dev.disk
    w.cut.store { st := disk, disk }

/-- The states of a run. -/
def Link.run (w : Link) (events : List Event) : Link :=
  events.foldl (Link.apply F snapshotDigest digest) w

end

/-! ### A sample -/

/-- Doubles written after a point as the number their bits are. -/
def bitText : FloatText where
  print d := '.' :: decimal d.toNat
  parse s := (parseDigits s.tail).map (BitVec.ofNat 64)
  scientific d := (decimal d.toNat, 0)
  parse_print := by
    intro d _
    rw [List.tail_cons, parseDigits_decimal, Option.map_some, BitVec.ofNat_toNat,
      BitVec.setWidth_eq]
  print_float := fun _ _ => rfl

/-- A digest of zeros. -/
def zeroSha : Sha256 :=
  ⟨List.replicate 64 '0', List.length_replicate, fun c hc => by
    rw [List.eq_of_mem_replicate hc]
    rfl⟩

/-- An alarm of one schedule, with an id and a label. -/
def sampleAlarm (n : UInt8) (label : Text) : OccurrenceObject where
  dueLocal := "2026-09-23T06:30:00-05:00".toList
  dueUtcMs := 1790163000000
  kind := .alarm
  label := label
  loopGapMs := 500
  maxRingMs := 600000
  occurrenceId := Vector.replicate 16 n
  rampMs := 3000
  revision := 0
  scheduleId := Vector.replicate 16 9
  snoozeMs := 540000
  sound := .fallback
  volume := none

/-- The clock of a device that does not know the time. -/
def untrustedClock : TrustedClock := ⟨[], false, 0⟩

end EchoMuse.Alerts
