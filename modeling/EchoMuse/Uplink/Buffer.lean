import EchoMuse.Intervals
import EchoMuse.Streams.Registry

/-!
# Bounded Storage for One Stream Epoch

This module is the controller's `uplink/src/buffer.rs`. A buffer keeps the newest records of
one stream epoch in a ring addressed by position, beside a sorted list of blocks: runs of
records one packet brought, with that packet's metadata, and ranges the device reported
missing. The first copy of every position wins.

Positions are natural numbers: no position here passes `2 ^ 64 - 1` while the end of every
record fits in 64 bits, so the source's `u64` sums do not wrap. Device time saturates, and is
kept at or below `U64_MAX` explicitly.
-/

namespace EchoMuse.Uplink

open EchoMuse.Ema EchoMuse.Streams EchoMuse.Intervals

/-- Device monotonic nanoseconds per 16 kHz sample. -/
def SAMPLE_NS : ℕ := 62500

def U64_MAX : ℕ := 2 ^ 64 - 1

/-- Addition that stops at the largest 64-bit number. -/
def saturatingAdd (a b : ℕ) : ℕ := min (a + b) U64_MAX

/-- Multiplication that stops at the largest 64-bit number. -/
def saturatingMul (a b : ℕ) : ℕ := min (a * b) U64_MAX

/-- A half-open range of stream samples on one epoch. -/
structure Span where
  start : ℕ
  «end» : ℕ
  deriving DecidableEq, Repr

/-- How many stream samples it covers. -/
def Span.len (s : Span) : ℕ := s.end - s.start

/-- Whether it covers nothing. -/
def Span.isEmpty (s : Span) : Bool := s.start = s.end

/-- The timing and state the device stamped on a run of records. -/
structure BlockMeta where
  flags : Flags
  monoNs : ℕ
  uncertaintyUs : Option UInt32
  sourceMask : SourceMask
  deriving DecidableEq, Repr

namespace BlockMeta

/-- The metadata of a packet's first record. -/
def of (packet : Packet) : BlockMeta where
  flags := (Flags.fromBits
    (packet.header.flags.bits &&& ~~~Flags.DISCONTINUITY.bits)).getD Flags.NONE
  monoNs := packet.header.monoNs.toNat
  uncertaintyUs := packet.header.uncertaintyUs
  sourceMask := packet.header.sourceMask

/-- The same run, `records` records further on. -/
def advanced (m : BlockMeta) (records unit : ℕ) : BlockMeta :=
  { m with monoNs := saturatingAdd m.monoNs (saturatingMul records (unit * SAMPLE_NS)) }

end BlockMeta

/-- What a stretch of a stream epoch holds. -/
inductive SegmentKind
  | data (info : BlockMeta) (discontinuity : Bool)
  | missing
  | evicted
  | unknown
  deriving DecidableEq, Repr

/-- One ordered piece of a read. -/
structure Segment where
  span : Span
  kind : SegmentKind
  deriving DecidableEq, Repr

/-- What one position holds, in stream samples. -/
inductive Lookup
  /-- Held data with the same metadata up to `end`. -/
  | data («end» : ℕ) (info : BlockMeta) (discontinuity : Bool)
  /-- Reported missing up to `end`. -/
  | missing («end» : ℕ)
  /-- Older than the buffer keeps; the oldest kept position is `until`. -/
  | evicted («until» : ℕ)
  /-- Not known; the next position that is held or known missing. -/
  | unknown (nextKnown : Option ℕ)
  deriving DecidableEq, Repr

inductive BlockKind
  | data (info : BlockMeta) (discontinuity : Bool)
  | missing
  deriving DecidableEq, Repr

/-- A run of records `[first, stop)`; `stop` is the source's `end`. -/
abbrev Block := Piece BlockKind

/-! ### The block index -/

/-- The block bookkeeping, in record indices. -/
structure BlockIndex where
  unit : ℕ
  capacity : ℕ
  maxBlocks : ℕ
  /-- Sorted, non-overlapping. -/
  blocks : List Block
  /-- One past the highest record known. -/
  «end» : ℕ
  /-- Nothing below this record is held. -/
  floor : ℕ
  deriving DecidableEq, Repr

namespace BlockIndex

/-- What a block that lost the records before `floor` says of the rest. -/
def trimmed (unit floor : ℕ) (b : Block) : BlockKind :=
  match b.kind with
  | .data info _ => .data (info.advanced (floor - b.first) unit) false
  | .missing => .missing

def raiseFloor (x : BlockIndex) (floor : ℕ) : BlockIndex :=
  if floor ≤ x.floor then x
  else { x with floor := floor, blocks := dropBelow (trimmed x.unit) floor x.blocks }

def advance (x : BlockIndex) («end» : ℕ) : BlockIndex :=
  let highest := max x.end «end»
  { x with «end» := highest }.raiseFloor (highest - x.capacity)

/-- Drops the oldest of `blocks` while there are more than `maxBlocks`; also returns the
floor then. -/
def dropOldest (maxBlocks : ℕ) : ℕ → List Block → ℕ × List Block
  | floor, [] => (floor, [])
  | floor, oldest :: blocks =>
    if maxBlocks < (oldest :: blocks).length then
      dropOldest maxBlocks (max floor oldest.stop) blocks
    else (floor, oldest :: blocks)

def enforceBlockLimit (x : BlockIndex) : BlockIndex :=
  let kept := dropOldest x.maxBlocks x.floor x.blocks
  { x with floor := kept.1, blocks := kept.2 }

/-- The blocks from the first that ends after `pos` on. -/
def after (x : BlockIndex) (pos : ℕ) : List Block :=
  x.blocks.dropWhile fun b => b.stop ≤ pos

/-- Whether a block covers its records; with `dataOnly`, missing blocks do not. -/
def counts (dataOnly : Bool) (b : Block) : Bool :=
  !(dataOnly && b.kind = .missing)

/-- The parts of `[first, end)` no block covers. -/
def uncovered (x : BlockIndex) (first «end» : ℕ) (dataOnly : Bool) : List (ℕ × ℕ) :=
  gaps (counts dataOnly) «end» first (x.after first)

/-- Records `[first, end)` as held, except what is already held or too old; also returns the
newly held ranges. -/
def insertData (x : BlockIndex) (first «end» : ℕ) (info : BlockMeta) (discontinuity : Bool) :
    BlockIndex × List (ℕ × ℕ) :=
  let x := x.advance «end»
  let start := max first x.floor
  if «end» ≤ start then (x, [])
  else
    let novel := x.uncovered start «end» true
    let block := fun g : ℕ × ℕ =>
      (⟨g.1, g.2, .data (info.advanced (g.1 - first) x.unit) (discontinuity && g.1 = first)⟩
        : Block)
    let blocks := novel.foldl (fun bs g => place (block g) (cut g.1 g.2 bs)) x.blocks
    ({ x with blocks := blocks }.enforceBlockLimit, novel)

/-- Records `[first, end)` as missing wherever nothing is known yet. -/
def insertMissing (x : BlockIndex) (first «end» : ℕ) : BlockIndex :=
  let x := x.advance «end»
  let start := max first x.floor
  if «end» ≤ start then x
  else
    let novel := x.uncovered start «end» false
    let blocks := novel.foldl (fun bs g => place (⟨g.1, g.2, .missing⟩ : Block) bs) x.blocks
    { x with blocks := blocks }.enforceBlockLimit

def lookup (x : BlockIndex) (pos : ℕ) : Lookup :=
  if pos < x.floor then .evicted x.floor
  else match x.after pos with
    | b :: _ =>
      if b.first ≤ pos then
        match b.kind with
        | .data info discontinuity =>
          .data b.stop (info.advanced (pos - b.first) x.unit)
            (discontinuity && pos = b.first)
        | .missing => .missing b.stop
      else .unknown (some b.first)
    | [] => .unknown none

end BlockIndex

/-! ### The buffer -/

/-- The records themselves, sized to the ring's capacity on first use. -/
inductive Records
  | pcm (ring : List Int16)
  | cells (ring : List Cell)
  | afe (ring : List AfeRecord)
  deriving DecidableEq, Repr

/-- One stream epoch's retained records. -/
structure EpochBuffer where
  index : BlockIndex
  records : Records
  deriving DecidableEq, Repr

/-- A gap cell, the ring's filler for cells it has not been sent. -/
def GAP_CELL : Cell := ⟨Cell.E_MIN, CellFlags.GAP, SourceMask.NONE⟩

/-- Goes through the values from position `pos` on, writing those whose position lies in one
of the ranges left. -/
def writeFrom {T : Type} (capacity : ℕ) : ℕ → List (ℕ × ℕ) → List T → List T → List T
  | _, _, [], ring => ring
  | pos, ranges, value :: values, ring =>
    match ranges.dropWhile fun r => r.2 ≤ pos with
    | [] => ring
    | r :: rest =>
      writeFrom capacity (pos + 1) (r :: rest) values
        (if r.1 ≤ pos then ring.set (pos % capacity) value else ring)

/-- Writes the values of the novel record ranges, skipping the rest. -/
def write {T : Type} (ring : List T) (capacity : ℕ) (fill : T) (first : ℕ) (values : List T)
    (novel : List (ℕ × ℕ)) : List T :=
  writeFrom capacity first novel values
    (if ring.isEmpty then List.replicate capacity fill else ring)

/-- The records of one data chunk; PCM stays little-endian bytes. -/
inductive ChunkData
  | pcm (bytes : List UInt8)
  | digitalSilence (frames : ℕ)
  | cells (records : List Cell)
  | afe (records : List AfeRecord)
  deriving DecidableEq, Repr

namespace EpochBuffer

/-- A buffer keeping the newest `retention` stream samples of `stream` in at most
`maxBlocks` runs of distinct metadata. -/
def new (stream : StreamId) (retention maxBlocks : ℕ) : EpochBuffer where
  index :=
    { unit := stream.kind.samplesPerFrame
      capacity := max (retention / stream.kind.samplesPerFrame) 1
      maxBlocks := max maxBlocks 1
      blocks := []
      «end» := 0
      floor := 0 }
  records := match stream with
    | .mic | .reference => .pcm []
    | .cells => .cells []
    | .afe => .afe []

def unit (b : EpochBuffer) : ℕ := b.index.unit

/-- One past the highest position known, in stream samples. -/
def «end» (b : EpochBuffer) : ℕ := b.index.end * b.unit

/-- Stores the records of `packet` this buffer does not hold yet; also returns how many
stream samples that was. -/
def store (b : EpochBuffer) (packet : Packet) : EpochBuffer × ℕ :=
  let header := packet.header
  let first := header.firstSample.toNat / b.unit
  let «end» := first + header.frameCount.toNat
  let inserted := b.index.insertData first «end» (BlockMeta.of packet)
    (header.flags.contains Flags.DISCONTINUITY)
  let novel := inserted.2
  let capacity := b.index.capacity
  let stored := (novel.map fun r => r.2 - r.1).sum
  let records :=
    if stored = 0 then b.records
    else match b.records, packet.content with
      | .pcm ring, .pcm samples => .pcm (write ring capacity 0 first samples novel)
      | .pcm ring, .digitalSilence frames =>
        .pcm (write ring capacity 0 first (List.replicate frames.toNat 0) novel)
      | .cells ring, .cells cells => .cells (write ring capacity GAP_CELL first cells novel)
      | .afe ring, .afe records =>
        .afe (write ring capacity AfeRecord.default first records novel)
      | records, _ => records
  (⟨inserted.1, records⟩, stored * b.unit)

/-- Records that the device skipped `span` and will never send it. -/
def markMissing (b : EpochBuffer) (span : Span) : EpochBuffer :=
  { b with
    index := b.index.insertMissing (span.start / b.unit) ((span.end + b.unit - 1) / b.unit) }

/-- What `pos` holds, in stream samples. -/
def lookup (b : EpochBuffer) (pos : ℕ) : Lookup :=
  match b.index.lookup (pos / b.unit) with
  | .data e info discontinuity => .data (e * b.unit) info discontinuity
  | .missing e => .missing (e * b.unit)
  | .evicted u => .evicted (u * b.unit)
  | .unknown next => .unknown (next.map (· * b.unit))

/-- The end and kind of the piece of a read to `stop` that starts at `pos`. -/
def pieceAt (b : EpochBuffer) (stop pos : ℕ) : ℕ × SegmentKind :=
  match b.lookup pos with
  | .data e info discontinuity => (e, .data info discontinuity)
  | .missing e => (e, .missing)
  | .evicted u => (u, .evicted)
  | .unknown next => (next.getD stop, .unknown)

/-- The pieces from `pos` to `stop`. Each is at least one sample long, so the loop makes at
most `fuel = stop - pos` steps. -/
def segmentsFrom (b : EpochBuffer) (stop : ℕ) : ℕ → ℕ → List Segment
  | 0, _ => []
  | fuel + 1, pos =>
    if pos < stop then
      let piece := b.pieceAt stop pos
      let e := min piece.1 stop
      ⟨⟨pos, e⟩, piece.2⟩ :: segmentsFrom b stop fuel e
    else []

/-- The ordered pieces of `span`, whose ends must be on the record grid. -/
def segments (b : EpochBuffer) (span : Span) : List Segment :=
  b.segmentsFrom span.end span.len span.start

/-- The ring positions of a span. -/
def slots (b : EpochBuffer) (span : Span) : List ℕ :=
  (List.range' (span.start / b.unit) (span.end / b.unit - span.start / b.unit)).map
    (· % b.index.capacity)

/-- The PCM of a held span. -/
def copyPcm (b : EpochBuffer) (span : Span) : List Int16 :=
  match b.records with
  | .pcm ring => (b.slots span).map fun i => ring.getD i 0
  | _ => []

/-- The cells of a held span. -/
def copyCells (b : EpochBuffer) (span : Span) : List Cell :=
  match b.records with
  | .cells ring => (b.slots span).map fun i => ring.getD i GAP_CELL
  | _ => []

/-- The AFE records of a held span. -/
def copyAfe (b : EpochBuffer) (span : Span) : List AfeRecord :=
  match b.records with
  | .afe ring => (b.slots span).map fun i => ring.getD i AfeRecord.default
  | _ => []

/-- Whether PCM for `span` may be sliced from `packet`: the packet carries samples for all
of it. -/
def sliceable (span : Span) (packet : Packet) : Bool :=
  !packet.header.flags.contains Flags.DIGITAL_SILENCE &&
    packet.header.firstSample.toNat ≤ span.start && span.end ≤ packet.endSample.toNat

/-- The records of a held span for a chunk. PCM inside `packet` is a slice of the packet's
payload rather than a copy; digital silence carries no samples. -/
def chunkData (b : EpochBuffer) (span : Span) (info : BlockMeta) (packet : Option Packet) :
    ChunkData :=
  match b.records with
  | .pcm _ =>
    if info.flags.contains Flags.DIGITAL_SILENCE then .digitalSilence span.len
    else match packet.filter (sliceable span) with
      | some p =>
        let first := p.header.firstSample.toNat
        .pcm (field p.payload ((span.start - first) * 2)
          ((span.end - first) * 2 - (span.start - first) * 2))
      | none => .pcm ((b.copyPcm span).map i16ToLe).flatten
  | .cells _ => .cells (b.copyCells span)
  | .afe _ => .afe (b.copyAfe span)

end EpochBuffer

end EchoMuse.Uplink
