import EchoMuse.Uplink.Buffer

/-!
# The First-Copy-Wins Window

What an epoch buffer is for, record by record: each record index is held as the first packet
that brought it had it, or is marked missing where only missing was reported, and everything
below a floor is forgotten. The floor rises to the highest record known less the capacity,
and past the oldest block while there are more blocks than the limit. A block is a maximal
run of records from one store or one report.

The window knows nothing of interval lists, trimmed metadata or rings.
-/

namespace EchoMuse.Uplink

open EchoMuse.Ema EchoMuse.Streams EchoMuse.Intervals

/-- One record of any stream. -/
inductive Record
  | pcm (sample : Int16)
  | cell (cell : Cell)
  | afe (record : AfeRecord)
  deriving DecidableEq, Repr

/-- The records a packet carries; digital silence stands for zero samples. -/
def recordsOf (p : Packet) : List Record :=
  match p.content with
  | .pcm samples => samples.map .pcm
  | .digitalSilence frames => List.replicate frames.toNat (.pcm 0)
  | .cells cells => cells.map .cell
  | .afe records => records.map .afe

/-- What is known of one record: the event it came from, and for data the first record and
metadata of the packet that brought it and its value. -/
inductive Mark
  | data (event : ℕ) (info : BlockMeta) (first : ℕ) (discontinuity : Bool) (value : Record)
  | missing (event : ℕ)
  deriving DecidableEq, Repr

namespace Mark

/-- The store or report a mark came from. -/
def event : Mark → ℕ
  | .data event _ _ _ _ => event
  | .missing event => event

def isData : Mark → Bool
  | .data _ _ _ _ _ => true
  | .missing _ => false

end Mark

/-- The window over one stream epoch, by record index. -/
structure Window where
  unit : ℕ
  capacity : ℕ
  maxBlocks : ℕ
  held : ℕ → Option Mark
  /-- One past the highest record known. -/
  known : ℕ
  floor : ℕ
  /-- How many stores and reports there were. -/
  events : ℕ

namespace Window

/-- An empty window. -/
def new (stream : StreamId) (retention maxBlocks : ℕ) : Window where
  unit := stream.kind.samplesPerFrame
  capacity := max (retention / stream.kind.samplesPerFrame) 1
  maxBlocks := max maxBlocks 1
  held := fun _ => none
  known := 0
  floor := 0
  events := 0

/-- Forgets everything below `f`. -/
def raise (w : Window) (f : ℕ) : Window :=
  { w with
    floor := max w.floor f
    held := fun i => if i < f then none else w.held i }

/-- The records up to `stop` exist; those a capacity behind are forgotten. -/
def advance (w : Window) (stop : ℕ) : Window :=
  { w with known := max w.known stop }.raise (max w.known stop - w.capacity)

instance (w : Window) (i : ℕ) : Decidable (IsHead Mark.event w.held i) :=
  match h : w.held i, h' : w.held (i - 1) with
  | none, _ => isFalse fun ⟨x, hx, _⟩ => by rw [h] at hx; cases hx
  | some x, none => isTrue ⟨x, h, fun y _ hy => by rw [h'] at hy; cases hy⟩
  | some x, some y =>
    if hd : 0 < i → y.event ≠ x.event then
      isTrue ⟨x, h, fun z hpos hz => by
        rw [h', Option.some.injEq] at hz
        exact hz ▸ hd hpos⟩
    else isFalse fun ⟨z, hz, hdiff⟩ => hd fun hpos => by
      rw [h, Option.some.injEq] at hz
      exact hz ▸ hdiff y hpos h'

/-- The records that start a block, in order. -/
def heads (w : Window) : List ℕ :=
  (List.range w.known).filter (IsHead Mark.event w.held)

/-- Where the block of record `h` stops: the next record of another event, or none. -/
def blockEnd (w : Window) (h : ℕ) : ℕ :=
  ((List.range w.known).find? fun j =>
    h < j ∧ (w.held j).map Mark.event ≠ (w.held h).map Mark.event).getD w.known

/-- Forgets the oldest block and everything before its end. -/
def dropOldest (w : Window) : Window :=
  match w.heads with
  | [] => w
  | h :: _ => w.raise (w.blockEnd h)

/-- Forgets the oldest blocks while there are more than the limit. -/
def limit (w : Window) : Window :=
  dropOldest^[w.heads.length - w.maxBlocks] w

/-- One more event: the records `p` get new marks. -/
def mark (w : Window) (p : ℕ → Prop) [DecidablePred p] (m : ℕ → Mark) : Window :=
  { w with
    events := w.events + 1
    held := fun i => if p i then some (m i) else w.held i }

/-- Whether a packet with records `[first, stop)` brings record `i`. -/
def Brings (w : Window) (first stop i : ℕ) : Prop :=
  first ≤ i ∧ i < stop ∧ w.floor ≤ i ∧ ∀ x ∈ w.held i, x.isData = false

instance (w : Window) (first stop : ℕ) : DecidablePred (w.Brings first stop) :=
  fun i => inferInstanceAs (Decidable (_ ∧ _ ∧ _ ∧ ∀ x ∈ w.held i, _))

/-- Stores a packet's records, the first of them `first`; also returns how many samples were
newly brought. -/
def store (w : Window) (first : ℕ) (info : BlockMeta) (discontinuity : Bool)
    (records : List Record) : Window × ℕ :=
  let stop := first + records.length
  let w := w.advance stop
  ((w.mark (w.Brings first stop) fun i =>
      .data w.events info first discontinuity (records.getD (i - first) (.pcm 0))).limit,
    (List.range' first records.length).countP (fun i => w.Brings first stop i) * w.unit)

/-- Stores a packet. -/
def storePacket (w : Window) (p : Packet) : Window × ℕ :=
  w.store (p.header.firstSample.toNat / w.unit) (BlockMeta.of p)
    (p.header.flags.contains Flags.DISCONTINUITY) (recordsOf p)

/-- Marks the records `[first, stop)` missing wherever nothing is known. -/
def markMissing (w : Window) (first stop : ℕ) : Window :=
  let w := w.advance stop
  (w.mark (fun i => first ≤ i ∧ i < stop ∧ w.floor ≤ i ∧ w.held i = none) fun _ =>
    .missing w.events).limit

/-- The metadata of record `i` of a packet whose first record is `first`: the device time is
62,500 ns per sample later, and stops at the largest 64-bit number. -/
def infoAt (unit : ℕ) (info : BlockMeta) (first i : ℕ) : BlockMeta :=
  { info with monoNs := min (info.monoNs + (i - first) * unit * SAMPLE_NS) U64_MAX }

/-- What the window says of a record: the discontinuity is on a packet's own first record. -/
def classify (w : Window) (i : ℕ) : SegmentKind :=
  if i < w.floor then .evicted
  else match w.held i with
    | some (.data _ info first discontinuity _) =>
      .data (infoAt w.unit info first i) (discontinuity && i = first)
    | some (.missing _) => .missing
    | none => .unknown

/-- The kind of a record, `n` records after one of kind `k` in the same stretch. -/
def carried (unit n : ℕ) (k : SegmentKind) : SegmentKind :=
  match k with
  | .data info discontinuity => .data (infoAt unit info 0 n) (discontinuity && n = 0)
  | k => k

/-- The answers that are right for record `i`, in record indices: the kind of `i`, and how
far the stretch of one block, of nothing known or of forgotten records goes. -/
def Answers (w : Window) (i : ℕ) : Lookup → Prop
  | .data stop info discontinuity =>
    w.classify i = .data info discontinuity ∧ i < stop ∧
      (w.held stop).map Mark.event ≠ (w.held i).map Mark.event ∧
      ∀ j, i ≤ j → j < stop → w.classify j = carried w.unit (j - i) (.data info discontinuity)
  | .missing stop =>
    i < stop ∧ (w.held stop).map Mark.event ≠ (w.held i).map Mark.event ∧
      ∀ j, i ≤ j → j < stop → w.classify j = .missing
  | .evicted u => i < u ∧ u = w.floor
  | .unknown none => ∀ j, i ≤ j → w.classify j = .unknown
  | .unknown (some next) =>
    i < next ∧ w.classify next ≠ .unknown ∧
      ∀ j, i ≤ j → j < next → w.classify j = .unknown

/-- The value held at a record. -/
def value (w : Window) (i : ℕ) : Option Record :=
  match w.held i with
  | some (.data _ _ _ _ value) => some value
  | _ => none

end Window

end EchoMuse.Uplink
