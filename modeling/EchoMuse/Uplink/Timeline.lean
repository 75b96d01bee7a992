import EchoMuse.Traverse
import EchoMuse.Uplink.Buffer

/-!
# The Session's Audio Timeline

The controller's `uplink/src/timeline.rs` and `config.rs`: for every stream the epochs kept,
each with its buffer and a track of how its packets arrived. Live packets only move forward;
a packet that goes back below the live position belongs to a backfill run, and a new run is
handed to the oldest subscription still waiting for one.
-/

namespace EchoMuse.Uplink

open EchoMuse.Ema EchoMuse.Streams EchoMuse.Intervals EchoMuse.Traverse

/-! ### The track of one stream epoch -/

/-- A subscription's identity within the session. -/
structure SubKey where
  val : ℕ
  deriving DecidableEq, Repr

/-- A subscription waiting for its backfill run on one stream epoch. -/
structure Claim where
  key : SubKey
  /-- No other subscription wanted the stream when it was granted. -/
  fresh : Bool
  /-- The run cannot start before this sample. -/
  floor : Option ℕ
  deriving DecidableEq, Repr

/-- How the device came to send a packet. -/
inductive Path
  /-- At or past the live position. -/
  | advance
  /-- Inside a backfill run, owned by the subscription the run was handed to. -/
  | run (owner : Option SubKey)
  deriving DecidableEq, Repr

/-- What a run start tells the subscription it was handed to. -/
inductive Attribution
  | run (start : ℕ)
  /-- A later subscription's run began below this one's start. -/
  | noRun
  deriving DecidableEq, Repr

structure Run where
  next : ℕ
  owner : Option SubKey
  deriving DecidableEq, Repr

/-- One packet's place in its stream epoch. -/
structure Classified where
  path : Path
  /-- A range the device skipped and flagged with the discontinuity flag. -/
  missing : Option Span
  attributed : List (SubKey × Attribution)
  deriving DecidableEq, Repr

/-- The arrival order of one stream epoch's packets. -/
structure Track where
  /-- The live position: one past the furthest packet that moved forward. -/
  liveEnd : Option ℕ
  runs : List Run
  claims : List Claim
  deriving DecidableEq, Repr

namespace Track

def default : Track := ⟨none, [], []⟩

def claim (t : Track) (c : Claim) : Track :=
  { t with claims := t.claims ++ [c] }

def dropClaims (t : Track) (key : SubKey) : Track :=
  { t with claims := t.claims.filter (·.key ≠ key) }

/-- The run with the largest next position not after `first`, with its index; of equal
positions the last. -/
def continuing (first : ℕ) : List Run → Option (ℕ × Run)
  | [] => none
  | run :: runs =>
    match continuing first runs with
    | some (i, best) =>
      if run.next ≤ first ∧ best.next < run.next then some (0, run) else some (i + 1, best)
    | none => if run.next ≤ first then some (0, run) else none

/-- Hands a run starting at `first` to the oldest waiting claim; with `freshOnly`, only to a
fresh one. Returns the claims left, its owner and what to tell each subscription asked. -/
def handOver (first : ℕ) (freshOnly : Bool) :
    List Claim → List Claim × Option SubKey × List (SubKey × Attribution)
  | [] => ([], none, [])
  | front :: claims =>
    if freshOnly && !front.fresh then (front :: claims, none, [])
    else if front.floor.any (first < ·) then
      -- not its run: a run never starts before its start
      if freshOnly then (front :: claims, none, [])
      else
        let rest := handOver first freshOnly claims
        (rest.1, rest.2.1, (front.key, .noRun) :: rest.2.2)
    else (claims, some front.key, [(front.key, .run first)])

/-- A packet that goes back: it continues a run, or starts one. -/
def back (t : Track) (first stop : ℕ) (discontinuity : Bool) : Track × Classified :=
  match (continuing first t.runs).filter fun r => first = r.2.next || discontinuity with
  | some (i, run) =>
    -- a run skips forward only over missing audio, and then flags its next packet
    ({ t with runs := t.runs.set i { run with next := stop } },
      { path := .run run.owner
        missing := if run.next < first then some ⟨run.next, first⟩ else none
        attributed := [] })
  | none =>
    let handed := handOver first false t.claims
    ({ t with runs := t.runs ++ [⟨stop, handed.2.1⟩], claims := handed.1 },
      { path := .run handed.2.1, missing := none, attributed := handed.2.2 })

/-- A packet at or past the live position, or the first packet. -/
def forward (t : Track) (first stop : ℕ) (discontinuity : Bool) : Track × Classified :=
  let handed := handOver first true t.claims
  ({ liveEnd := some stop, runs := [], claims := handed.1 },
    { path := .advance
      missing :=
        match t.liveEnd with
        | some live => if discontinuity && live < first then some ⟨live, first⟩ else none
        | none => none
      attributed := handed.2.2 })

/-- Places a packet of samples `[first, stop)`, `discontinuity` its flag. -/
def classify (t : Track) (first stop : ℕ) (discontinuity : Bool) : Track × Classified :=
  match t.liveEnd with
  | some live =>
    if first < live then t.back first stop discontinuity else t.forward first stop discontinuity
  | none => t.forward first stop discontinuity

end Track

/-! ### Bounds and timings -/

/-- How much of each stream is kept per epoch, in stream samples. -/
structure Retention where
  mic : ℕ
  reference : ℕ
  cells : ℕ
  afe : ℕ
  deriving DecidableEq, Repr

namespace Retention

def default : Retention where
  mic := 40 * 16000
  reference := 40 * 16000
  cells := 60 * 16000
  afe := 60 * 16000

/-- The retention of `stream`. -/
def of (r : Retention) : StreamId → ℕ
  | .mic => r.mic
  | .reference => r.reference
  | .cells => r.cells
  | .afe => r.afe

end Retention

/-- The uplink's bounds and timings; durations in nanoseconds. -/
structure UplinkConfig where
  retention : Retention
  maxBlocks : ℕ
  captureEpochsKept : ℕ
  referenceEpochsKept : ℕ
  /-- How long later audio may wait behind a hole before it is declared missing. -/
  holeWait : ℕ
  maxBacklogBytes : ℕ
  maxBacklogDeliveries : ℕ
  deriving DecidableEq, Repr

def UplinkConfig.default : UplinkConfig where
  retention := .default
  maxBlocks := 4096
  captureEpochsKept := 2
  referenceEpochsKept := 2
  holeWait := 2 * 10 ^ 9
  maxBacklogBytes := 2 * 2 ^ 20
  maxBacklogDeliveries := 8192

/-! ### The timeline -/

/-- One epoch of one stream. -/
structure EpochStream where
  epoch : UInt64
  buffer : EpochBuffer
  track : Track
  deriving DecidableEq, Repr

/-- Why a read failed. -/
inductive ReadError
  | unknownEpoch
  | wrongStream
  | misaligned
  /-- Part of the range is not held; this is its first piece. -/
  | notHeld (segment : Segment)
  deriving DecidableEq, Repr

/-- Every stream's retained epochs, oldest first. -/
structure Timeline where
  config : UplinkConfig
  stores : StreamId → List EpochStream
  /-- The current capture epoch, shared by mic, cells and AFE records. -/
  capture : Option UInt64
  reference : Option UInt64
  /-- Capture epochs a mute erased; their packets are refused. -/
  erased : List UInt64

namespace Timeline

def new (config : UplinkConfig) : Timeline where
  config := config
  stores := fun _ => []
  capture := none
  reference := none
  erased := []

/-- The epochs of `stream` held, oldest first. -/
def epochs (t : Timeline) (stream : StreamId) : List UInt64 :=
  (t.stores stream).map EpochStream.epoch

def get (t : Timeline) (stream : StreamId) (epoch : UInt64) : Option EpochStream :=
  (t.stores stream).find? (·.epoch = epoch)

/-- The timeline with one stream's store replaced. -/
def setStore (t : Timeline) (stream : StreamId) (store : List EpochStream) : Timeline :=
  { t with stores := fun s => if s = stream then store else t.stores s }

/-- The timeline with the epoch that `get` finds replaced. -/
def set (t : Timeline) (stream : StreamId) (held : EpochStream) : Timeline :=
  t.setStore stream
    (updateFirst (·.epoch = held.epoch) (fun _ s => (held, s)) (t.stores stream) ()).1

def isErased (t : Timeline) (stream : StreamId) (epoch : UInt64) : Bool :=
  stream ≠ .reference && t.erased.contains epoch

/-- An epoch's storage before its first packet. -/
def emptyEpoch (config : UplinkConfig) (stream : StreamId) (epoch : UInt64) : EpochStream :=
  ⟨epoch, .new stream (config.retention.of stream) config.maxBlocks, .default⟩

/-- How many epochs of a stream are kept, at least one. -/
def kept (config : UplinkConfig) (stream : StreamId) : ℕ :=
  max (if stream = .reference then config.referenceEpochsKept else config.captureEpochsKept) 1

/-- Creates the epoch's storage when first needed. Keeps at most the configured number of
epochs per stream, dropping the oldest. -/
def ensure (t : Timeline) (stream : StreamId) (epoch : UInt64) : Timeline :=
  let store := t.stores stream
  if store.any (·.epoch = epoch) then t
  else
    t.setStore stream
      (store.drop (store.length + 1 - kept t.config stream) ++
        [emptyEpoch t.config stream epoch])

/-- Drops a subscription's waiting claims everywhere. -/
def dropClaims (t : Timeline) (key : SubKey) : Timeline :=
  { t with
    stores := fun s => (t.stores s).map fun e => { e with track := e.track.dropClaims key } }

/-- The privacy mute: forgets every capture epoch and refuses its packets from now on, and
empties the reference epochs while keeping them open. -/
def erase (t : Timeline) : Timeline where
  config := t.config
  stores := fun s =>
    if s = .reference then (t.stores s).map fun e => emptyEpoch t.config s e.epoch else []
  capture := none
  reference := t.reference
  erased :=
    t.erased ++ (t.epochs .mic ++ t.epochs .cells ++ t.epochs .afe) ++ t.capture.toList

/-- The session is over: forgets everything. -/
def clear (t : Timeline) : Timeline :=
  { t with stores := fun _ => [], capture := none, reference := none }

/-! ### Reads -/

def checkGrid (stream : StreamId) (span : Span) : Except ReadError Unit :=
  let unit := stream.kind.samplesPerFrame
  if span.start % unit ≠ 0 ∨ span.end % unit ≠ 0 then .error .misaligned else .ok ()

def isData : SegmentKind → Bool
  | .data _ _ => true
  | _ => false

/-- The pieces of `span` of one stream epoch. -/
def segments (t : Timeline) (stream : StreamId) (epoch : UInt64) (span : Span) :
    Except ReadError (List Segment) :=
  match t.get stream epoch with
  | none => .error .unknownEpoch
  | some held => (checkGrid stream span).map fun _ => held.buffer.segments span

/-- One past the highest position known in an epoch. -/
def «end» (t : Timeline) (stream : StreamId) (epoch : UInt64) : Option ℕ :=
  (t.get stream epoch).map fun held => held.buffer.end

/-- The buffer of an epoch that holds all of `span`. -/
def held (t : Timeline) (stream : StreamId) (epoch : UInt64) (span : Span) :
    Except ReadError EpochBuffer :=
  match t.get stream epoch with
  | none => .error .unknownEpoch
  | some held =>
    match checkGrid stream span with
    | .error e => .error e
    | .ok () =>
      match (held.buffer.segments span).find? fun s => !isData s.kind with
      | some gap => .error (.notHeld gap)
      | none => .ok held.buffer

/-- The PCM of `span`, if every sample is held. -/
def readPcm (t : Timeline) (stream : StreamId) (epoch : UInt64) (span : Span) :
    Except ReadError (List Int16) :=
  if stream = .mic ∨ stream = .reference then
    (t.held stream epoch span).map (·.copyPcm span)
  else .error .wrongStream

/-- The cells of `span`, if every cell is held. -/
def readCells (t : Timeline) (epoch : UInt64) (span : Span) : Except ReadError (List Cell) :=
  (t.held .cells epoch span).map (·.copyCells span)

/-- The AFE records of `span`, if every record is held. -/
def readAfe (t : Timeline) (epoch : UInt64) (span : Span) : Except ReadError (List AfeRecord) :=
  (t.held .afe epoch span).map (·.copyAfe span)

end Timeline

end EchoMuse.Uplink
