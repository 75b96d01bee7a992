import EchoMuse.Uplink.Buffer

/-!
# Subscriptions on the Wire and Their Deliveries

The data of the controller's `uplink/src/wire.rs`, `chunk.rs` and `starts.rs`: subscription
commands and reports, the chunks and end notices a consumer gets, and where a subscription's
streams start. Instants and durations are nanoseconds; instants saturate.
-/

namespace EchoMuse.Uplink

open EchoMuse.Ema EchoMuse.Streams

/-! ### Commands and reports -/

/-- A subscription's ID, the wire's `lease_id`. -/
structure SubscriptionId where
  text : String
  deriving DecidableEq, Repr

/-- What a subscription serves. -/
structure Owner where
  text : String
  deriving DecidableEq, Repr

/-- A candidate subscription's owner: its own ID. -/
def Owner.ofSubscription (id : SubscriptionId) : Owner := ⟨id.text⟩

/-- A subscription's generation. -/
structure Generation where
  value : UInt32
  deriving DecidableEq, Repr

namespace Generation

def FIRST : Generation := ⟨1⟩

/-- The generation after this one, which converts a candidate. -/
def next (g : Generation) : Generation :=
  if g.value = 0xFFFFFFFF then g else ⟨g.value + 1⟩

end Generation

inductive SubscriptionReason
  | candidate
  | turn
  | reply
  | diagnostic
  | nearMiss
  deriving DecidableEq, Repr

/-- `uplink.open.reason`: every reason but `candidate`. -/
inductive OpenReason
  | turn
  | reply
  | diagnostic
  | nearMiss
  deriving DecidableEq, Repr

def SubscriptionReason.of : OpenReason → SubscriptionReason
  | .turn => .turn
  | .reply => .reply
  | .diagnostic => .diagnostic
  | .nearMiss => .nearMiss

/-- `uplink.close.reason`. -/
inductive CloseReason
  | rejected
  | arbitrationLost
  | committed
  | closed
  deriving DecidableEq, Repr

/-- Where a stream of a subscription starts. -/
inductive StreamStart
  /-- At a capture-epoch sample, rounded down to the stream's grid. -/
  | «at» (sample : ℕ)
  | live
  deriving DecidableEq, Repr

/-- The start of each wanted stream. -/
abbrev Starts := StreamId → Option StreamStart

/-- The streams in the order of their declaration. -/
def streamIds : List StreamId := [.mic, .reference, .cells, .afe]

/-- A body the device is sent. -/
inductive UplinkCommand
  | open (id : SubscriptionId) (owner : Owner) (reason : OpenReason) (streams : Starts)
  /-- With an owner it converts a candidate into the turn's subscription. -/
  | renew (id : SubscriptionId) (conversion : Option Owner)
  | close (id : SubscriptionId) (reason : CloseReason)

/-- The subscription a command concerns. -/
def UplinkCommand.subscriptionId : UplinkCommand → SubscriptionId
  | .open id _ _ _ => id
  | .renew id _ => id
  | .close id _ => id

/-- A command to send in an envelope carrying `generation`. -/
structure Outgoing where
  generation : Generation
  command : UplinkCommand

inductive UplinkEndedReason
  | closed
  | ttl
  | mute
  | epoch
  | overrun
  | session
  deriving DecidableEq, Repr

/-- `uplink.ended`: the device ended an audio subscription. -/
structure UplinkEnded where
  subscriptionId : String
  reason : UplinkEndedReason
  /-- Per wanted stream, the last index sent. -/
  lastSample : StreamId → Option ℕ
  /-- Per wanted stream, the backfill start after clipping to the device's ring. -/
  clippedStart : StreamId → Option ℕ

/-- How long the device keeps a subscription without a renewal: 3 s. -/
def SUBSCRIPTION_TTL : ℕ := 3 * 10 ^ 9

/-- How often the controller renews a live subscription: every second. -/
def RENEW_INTERVAL : ℕ := 10 ^ 9

/-- The instant `d` after `now`. -/
def after (now d : ℕ) : ℕ := saturatingAdd now d

/-! ### Deliveries -/

/-- Why a range of a subscription's stream will never be delivered. -/
inductive MissingCause
  | device
  | clipped
  | notSent
  | overwritten
  | timedOut
  | evicted
  deriving DecidableEq, Repr

/-- The bytes these records took on the wire. -/
def ChunkData.payloadBytes : ChunkData → ℕ
  | .pcm bytes => bytes.length
  | .digitalSilence _ => 0
  | .cells records => records.length * CELL_RECORD_BYTES
  | .afe records => records.length * AFE_RECORD_BYTES

inductive ChunkBody
  | data (info : BlockMeta) (discontinuity : Bool) (data : ChunkData)
  | missing (cause : MissingCause)
  deriving DecidableEq, Repr

/-- One ordered piece of one stream epoch for one subscription. -/
structure Chunk where
  subscription : SubscriptionId
  generation : Generation
  stream : StreamId
  epoch : UInt64
  span : Span
  body : ChunkBody
  deriving DecidableEq, Repr

/-- The wire bytes of its records; 0 for a missing range. -/
def Chunk.payloadBytes (c : Chunk) : ℕ :=
  match c.body with
  | .data _ _ data => data.payloadBytes
  | .missing _ => 0

/-- Why a subscription ended. -/
inductive EndCause
  | closed (reason : CloseReason)
  | device (report : UplinkEnded)
  | captureEpoch
  | muted
  | sessionLost
  | rejected (code : Option String)
  | overflow

/-- A subscription's last delivery. -/
structure Ended where
  subscription : SubscriptionId
  owner : Owner
  reason : SubscriptionReason
  generation : Generation
  cause : EndCause

/-- One delivery for a subscription's consumer. -/
inductive Delivery
  | chunk (chunk : Chunk)
  | ended (ended : Ended)

namespace Delivery

/-- The subscription it belongs to. -/
def subscription : Delivery → SubscriptionId
  | .chunk c => c.subscription
  | .ended e => e.subscription

def payloadBytes : Delivery → ℕ
  | .chunk c => c.payloadBytes
  | .ended _ => 0

def isEnded : Delivery → Bool
  | .chunk _ => false
  | .ended _ => true

end Delivery

/-- Deliveries waiting for a consumer. -/
structure Backlog where
  deliveries : ℕ
  payloadBytes : ℕ
  deriving DecidableEq, Repr

/-- Deliveries a consumer has taken. -/
structure Accounting where
  chunks : ℕ
  payloadBytes : ℕ
  deriving DecidableEq, Repr

structure Account where
  backlog : Backlog
  delivered : Accounting
  deriving DecidableEq, Repr

def Account.default : Account := ⟨⟨0, 0⟩, ⟨0, 0⟩⟩

/-- The deliveries waiting, with what each subscription has waiting and has taken. -/
structure Outbox where
  queue : List Delivery
  accounts : SubscriptionId → Option Account
  maxBytes : ℕ
  maxDeliveries : ℕ

namespace Outbox

def setAccount (o : Outbox) (id : SubscriptionId) (account : Option Account) : Outbox :=
  { o with accounts := fun i => if i = id then account else o.accounts i }

/-- Queues a delivery; false when its subscription is now over its bounds. -/
def push (o : Outbox) (delivery : Delivery) : Outbox × Bool :=
  let account := (o.accounts delivery.subscription).getD .default
  let backlog : Backlog :=
    ⟨account.backlog.deliveries + 1, account.backlog.payloadBytes + delivery.payloadBytes⟩
  let o := o.setAccount delivery.subscription (some { account with backlog := backlog })
  ({ o with queue := o.queue ++ [delivery] },
    backlog.payloadBytes ≤ o.maxBytes && backlog.deliveries ≤ o.maxDeliveries)

/-- The account of a subscription after one of its deliveries was taken. -/
def taken (account : Account) (delivery : Delivery) : Option Account :=
  match delivery with
  | .chunk c =>
    some
      { backlog := ⟨account.backlog.deliveries - 1, account.backlog.payloadBytes - c.payloadBytes⟩
        delivered :=
          ⟨account.delivered.chunks + 1, account.delivered.payloadBytes + c.payloadBytes⟩ }
  | .ended _ => none

/-- Takes every delivery queued. -/
def drain (o : Outbox) : Outbox × List Delivery :=
  (o.queue.foldl (fun o d =>
      match o.accounts d.subscription with
      | some account => o.setAccount d.subscription (taken account d)
      | none => o)
    { o with queue := [] }, o.queue)

/-- Drops every queued chunk, keeping only end notices. -/
def discardChunks (o : Outbox) : Outbox :=
  let queue := o.queue.filter Delivery.isEnded
  { o with
    queue := queue
    accounts := fun id =>
      (o.accounts id).map fun account =>
        { account with backlog := ⟨queue.countP (·.subscription = id), 0⟩ } }

/-- Drops the queued chunks of one subscription. -/
def discardChunksOf (o : Outbox) (id : SubscriptionId) : Outbox :=
  { o with queue := o.queue.filter fun d => d.subscription ≠ id || d.isEnded }.setAccount id
    ((o.accounts id).map fun account : Account => { account with backlog := ⟨0, 0⟩ })

end Outbox

/-! ### Where streams start -/

/-- A near miss's AFE lead before its support start: 1 s. -/
def NEAR_MISS_AFE_LEAD : ℕ := 16000

/-- How far past a near miss's support end its mic must reach: 300 ms. -/
def NEAR_MISS_TAIL : ℕ := 4800

/-- How much further the mic may run while a near miss's AFE records are missing: 1 s. -/
def NEAR_MISS_GRACE : ℕ := 16000

/-- The reference and AFE lead before the mic start: 2.5 s. -/
def REFERENCE_LEAD : ℕ := 40000

def roundDown (sample grid : ℕ) : ℕ := sample - sample % grid

/-- The starts the device gives a candidate subscription; every subtraction stops at 0. -/
structure CandidateStarts where
  mic : ℕ
  cells : ℕ
  reference : ℕ
  /-- Only in a session with AFE metadata. -/
  afe : Option ℕ
  deriving DecidableEq, Repr

namespace CandidateStarts

def new (supportStart : ℕ) (afeSession : Bool) : CandidateStarts :=
  let mic := roundDown (supportStart - 4800) CELL_SAMPLES
  { mic := mic
    cells := (mic - 160000) / CELL_SAMPLES * CELL_SAMPLES
    reference := mic - REFERENCE_LEAD
    afe := if afeSession then some (roundDown (mic - REFERENCE_LEAD) AFE_PERIOD_SAMPLES) else none }

/-- The streams a candidate subscription wants. -/
def streams (starts : CandidateStarts) : Starts
  | .mic => some (.«at» starts.mic)
  | .cells => some (.«at» starts.cells)
  | .reference => some (.«at» starts.reference)
  | .afe => starts.afe.map .«at»

end CandidateStarts

/-- The grid the device rounds a stream's start to, in stream samples. -/
def deviceGrid : StreamId → ℕ
  | .mic | .cells => CELL_SAMPLES
  | .afe => AFE_PERIOD_SAMPLES
  | .reference => 2560

/-- Where a capture stream requested at capture sample `requested` really starts. `none` for
the reference, whose start the device maps into another epoch. -/
def deviceGridStart (stream : StreamId) (requested : ℕ) : Option ℕ :=
  if stream = .reference then none else some (roundDown requested (deviceGrid stream))

/-- How much of a stream the device's ring holds, in stream samples. -/
def deviceHistory : StreamId → ℕ
  | .mic => 96000
  | .reference => 128000
  | .cells => 500 * CELL_SAMPLES
  | .afe => 100 * AFE_PERIOD_SAMPLES

end EchoMuse.Uplink
