import EchoMuse.Ema.Codec

/-!
# The Uplink Stream Registry

The controller records the stream epochs the device announced in a session and checks every
uplink packet against its epoch. This module is the `StreamRegistry` of
`protocol/src/streams.rs`: `stream.open` and `stream.end`, backfill grants, and the check of
one packet, with the code and text of every error.
-/

namespace EchoMuse.Streams

open EchoMuse.Ema

/-! ### Streams and errors -/

/-- A stream the device may send. -/
inductive StreamId
  | mic
  | reference
  | cells
  | afe
  deriving DecidableEq, Repr

namespace StreamId

/-- The wire name of a stream. -/
def toWire : StreamId → String
  | .mic => "mic"
  | .reference => "reference"
  | .cells => "cells"
  | .afe => "afe"

instance : ToString StreamId := ⟨toWire⟩

/-- The EMA1 kind this stream's packets carry. -/
def kind : StreamId → Kind
  | .mic => .mic
  | .reference => .reference
  | .cells => .cells
  | .afe => .afe

/-- The stream an uplink packet of `kind` belongs to; `none` for render. -/
def ofKind : Kind → Option StreamId
  | .mic => some .mic
  | .reference => some .reference
  | .cells => some .cells
  | .afe => some .afe
  | .render => none

end StreamId

/-- The `protocol.error` codes the registry answers with. -/
inductive ProtocolErrorCode
  | badStream
  | unknownEpoch
  | streamEnded
  | sequence
  | sampleOrder
  | unexpectedKind
  deriving DecidableEq, Repr

/-- A violation of the device link contract. -/
structure ProtocolError where
  code : ProtocolErrorCode
  detail : String
  deriving DecidableEq, Repr

/-- `stream.open`: a new epoch of one uplink stream. -/
structure StreamOpen where
  streamId : StreamId
  epoch : UInt64
  /-- Epoch 0 is reserved. -/
  epoch_ne : epoch ≠ 0

/-- `stream.end`: one uplink stream epoch is over. -/
structure StreamEnd where
  streamId : StreamId
  epoch : UInt64
  /-- The first sample index the epoch never reached. -/
  finalSample : UInt64

/-- Which epochs a new subscription's backfill grant covers. -/
inductive BackfillGrant
  | epoch (e : UInt64)
  | everyOpenEpoch
  deriving DecidableEq, Repr

/-- Whether a grant covers `epoch`. -/
def BackfillGrant.covers (grant : BackfillGrant) (epoch : UInt64) : Bool :=
  match grant with
  | .epoch e => e = epoch
  | .everyOpenEpoch => true

/-- How many ended epochs the registry remembers. -/
def ENDED_EPOCHS_REMEMBERED : ℕ := 64

/-! ### One epoch -/

/-- The ordering state of one epoch. -/
structure EpochState where
  ended : Bool
  lastSequence : Option UInt64
  /-- The highest first sample of any packet so far: the live position. -/
  live : Option UInt64
  /-- For each backfill run under way, the sample its next packet starts at or after. -/
  runs : List UInt64
  /-- Granted runs that have not started. -/
  grants : UInt32
  deriving DecidableEq, Repr

namespace EpochState

/-- An epoch just opened. -/
def opened : EpochState :=
  ⟨false, none, none, [], 0⟩

/-- One more granted run, unless the count is at its limit. -/
def grant (state : EpochState) : EpochState :=
  { state with grants := if state.grants = 0xFFFFFFFF then state.grants else state.grants + 1 }

/-- The run with the largest next position not after `first`, with its index; of equal
positions the last. -/
def continuing (first : UInt64) : List UInt64 → Option (ℕ × UInt64)
  | [] => none
  | next :: runs =>
    match continuing first runs with
    | some (i, best) =>
      if next ≤ first ∧ best < next then some (0, next) else some (i + 1, best)
    | none => if next ≤ first then some (0, next) else none

/-- The live position moves to `first`; runs at or past it are over. -/
def advance (state : EpochState) (first : UInt64) : EpochState :=
  { state with runs := state.runs.filter (· < first), live := some first }

/-- The sample order rule for a packet of an open epoch: it is live, or continues a run, or
starts a granted one. The error is the live position a packet goes back from. -/
def order (state : EpochState) (first endSample : UInt64) : Except UInt64 EpochState :=
  match state.live with
  | some live =>
    if first < live then
      match continuing first state.runs with
      | some (i, _) => .ok { state with runs := state.runs.set i endSample }
      | none =>
        if state.grants > 0 then
          .ok { state with grants := state.grants - 1, runs := state.runs ++ [endSample] }
        else .error live
    else .ok (state.advance first)
  | none => .ok (state.advance first)

end EpochState

/-! ### The registry -/

/-- The stream epochs the device announced in the current session. -/
structure StreamRegistry where
  afeMetadata : Bool
  epochs : StreamId → UInt64 → Option EpochState
  current : StreamId → Option UInt64
  /-- The ended epochs remembered, oldest first. -/
  ended : List (StreamId × UInt64)

namespace StreamRegistry

/-- An empty registry for a session. -/
def new (afeMetadata : Bool) : StreamRegistry :=
  ⟨afeMetadata, fun _ _ => none, fun _ => none, []⟩

/-- The registry with the state of one epoch replaced. -/
def set (r : StreamRegistry) (stream : StreamId) (epoch : UInt64)
    (state : Option EpochState) : StreamRegistry :=
  { r with
    epochs := fun s e => if s = stream ∧ e = epoch then state else r.epochs s e }

/-- Records a `stream.open`. -/
def «open» (r : StreamRegistry) (o : StreamOpen) : Except ProtocolError StreamRegistry :=
  if o.streamId = .afe ∧ ¬ r.afeMetadata then
    .error ⟨.badStream, "afe stream in a session without afe_metadata"⟩
  else
    let current := fun s => if s = o.streamId then some o.epoch else r.current s
    match r.epochs o.streamId o.epoch with
    | some state =>
      if state.ended then
        .error ⟨.badStream, s!"{o.streamId} epoch {o.epoch} already ended"⟩
      else .ok { r with current := current }
    | none => .ok { r.set o.streamId o.epoch (some .opened) with current := current }

/-- Records a `stream.end`. -/
def «end» (r : StreamRegistry) (e : StreamEnd) : Except ProtocolError StreamRegistry :=
  match r.epochs e.streamId e.epoch with
  | none =>
    .error ⟨.unknownEpoch, s!"stream.end for unknown {e.streamId} epoch {e.epoch}"⟩
  | some state =>
    if state.ended then .ok r
    else
      let finished : EpochState := { state with ended := true, runs := [], grants := 0 }
      let marked :=
        { r.set e.streamId e.epoch (some finished) with
          current := fun s =>
            if s = e.streamId ∧ r.current s = some e.epoch then none else r.current s
          ended := r.ended ++ [(e.streamId, e.epoch)] }
      match marked.ended with
      | oldest :: rest =>
        if marked.ended.length > ENDED_EPOCHS_REMEMBERED then
          .ok { marked.set oldest.1 oldest.2 none with ended := rest }
        else .ok marked
      | [] => .ok marked

/-- Whether `epoch` of `stream` is open. -/
def isOpen (r : StreamRegistry) (stream : StreamId) (epoch : UInt64) : Bool :=
  match r.epochs stream epoch with
  | some state => !state.ended
  | none => false

/-- A subscription starts wanting `stream`: one more backfill run on each open epoch the
grant covers. -/
def grantBackfill (r : StreamRegistry) (stream : StreamId) (grant : BackfillGrant) :
    StreamRegistry :=
  { r with
    epochs := fun s e =>
      (r.epochs s e).map fun state =>
        if s = stream ∧ grant.covers e ∧ ¬ state.ended then state.grant else state }

/-- The stream that packets of `kind` belong to in this session. -/
def streamOf (r : StreamRegistry) (kind : Kind) : Option StreamId :=
  match StreamId.ofKind kind with
  | some .afe => if r.afeMetadata then some .afe else none
  | other => other

/-- Checks one parsed uplink packet against its epoch and returns its stream. A rejected
packet changes no state. -/
def check (r : StreamRegistry) (packet : Packet) :
    Except ProtocolError (StreamId × StreamRegistry) :=
  let header := packet.header
  match r.streamOf header.kind with
  | none =>
    .error ⟨.unexpectedKind,
      s!"kind {header.kind.toU8} is not an uplink stream of this session"⟩
  | some stream =>
    match r.epochs stream header.epoch with
    | none => .error ⟨.unknownEpoch, s!"{stream} epoch {header.epoch} was never opened"⟩
    | some state =>
      if state.ended then
        .error ⟨.streamEnded, s!"{stream} epoch {header.epoch} already ended"⟩
      else
        match state.lastSequence.filter (header.sequence ≤ ·) with
        | some last =>
          .error ⟨.sequence, s!"{stream} sequence {header.sequence} after {last}"⟩
        | none =>
          match state.order header.firstSample packet.endSample with
          | .error live =>
            .error ⟨.sampleOrder,
              s!"{stream} first sample {header.firstSample} goes back from {live} " ++
                "outside a backfill run"⟩
          | .ok state =>
            .ok (stream, r.set stream header.epoch
              (some { state with lastSequence := some header.sequence }))

/-- Forgets every epoch: the session is over. -/
def clear (r : StreamRegistry) : StreamRegistry :=
  new r.afeMetadata

end StreamRegistry

end EchoMuse.Streams
