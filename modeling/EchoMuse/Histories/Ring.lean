import EchoMuse.Circular
import Mathlib.Algebra.Ring.Nat

/-!
# The Device's Audio Histories

The firmware's `internal/audio/ring/ring.go`: samples of one epoch under their absolute indices,
with the timing of every block and explicit missing ranges. Indices are 64-bit and wrap as the
source's do. Where the source would panic, by a remainder of an empty table, the result is
`none`.
-/

namespace EchoMuse.Histories

/-- The timing of a stored block: the instant of its first index, and what it was recorded
with. -/
structure Meta where
  monoNs : Int64
  uncertaintyUs : UInt32
  flags : UInt8
  mask : UInt8
  deriving DecidableEq, Repr

def Meta.zero : Meta := ⟨0, 0, 0, 0⟩

/-- One ordered piece of a read: part of a stored block, or a missing range. -/
structure Segment where
  first : UInt64
  «end» : UInt64
  gap : Bool
  timing : Meta
  deriving DecidableEq, Repr

/-- A stored block or a missing range. -/
structure Record where
  first : UInt64
  «end» : UInt64
  gap : Bool
  timing : Meta
  deriving DecidableEq, Repr

inductive RingError
  | notContiguous
  | tooLarge
  | notRetained
  deriving DecidableEq, Repr

/-- Stores the latest indices of one epoch, as many as `data` has slots. -/
structure Ring (T : Type) where
  data : List T
  recs : Circular Record
  unitNs : Int64
  /-- The oldest retained index. -/
  start : UInt64
  /-- The next index to append. -/
  «end» : UInt64

namespace Ring

variable {T : Type}

/-- A ring of `capacity` samples and at most `maxBlocks` stored blocks and gaps. -/
def new [Inhabited T] (capacity maxBlocks : ℕ) (unitNs : Int64) : Ring T where
  data := List.replicate capacity default
  recs := ⟨List.replicate maxBlocks ⟨0, 0, false, .zero⟩, 0, 0⟩
  unitNs := unitNs
  start := 0
  «end» := 0

/-- How many indices the ring retains. -/
def capacity (r : Ring T) : ℕ := r.data.length

/-- How many records the ring keeps. -/
def maxBlocks (r : Ring T) : ℕ := r.recs.slots.length

/-- Empties the ring for a new epoch whose first index is `first`. -/
def reset (r : Ring T) (first : UInt64) : Ring T :=
  { r with recs := r.recs.clear, start := first, «end» := first }

/-- The record `i` places after the oldest one. -/
def record? (r : Ring T) (i : ℕ) : Option Record := r.recs.get i

/-- The first record from `i` on that is no gap. -/
def oldestFrom (r : Ring T) : ℕ → ℕ → Option UInt64
  | 0, _ => none
  | fuel + 1, i =>
    match r.record? i with
    | none => none
    | some rec => if rec.gap then oldestFrom r fuel (i + 1) else some (max rec.first r.start)

/-- The first retained index that holds a sample. -/
def oldestValid (r : Ring T) : Option UInt64 := r.oldestFrom r.recs.count 0

/-- Advances the start to cover at most the capacity, and drops records that end before it. -/
def trim (r : Ring T) : Ring T :=
  let r :=
    if r.capacity < (r.end - r.start).toNat then
      { r with start := r.end - UInt64.ofNat r.capacity }
    else r
  { r with recs := r.recs.dropWhile (fun rec => rec.end ≤ r.start) r.recs.count }

/-- Makes room for one more record. -/
def evict (r : Ring T) : Option (Ring T) :=
  if r.recs.count = r.maxBlocks then
    (r.record? 0).map fun old => { r with start := max r.start old.end, recs := r.recs.drop }
  else some r

def push (r : Ring T) (rec : Record) : Option (Ring T) :=
  r.evict.map fun r => { r with recs := r.recs.push rec, «end» := rec.end }.trim

/-- Stores samples starting at `first`, which must equal the end. -/
def append (r : Ring T) (first : UInt64) (samples : List T) (m : Meta) :
    Option (Ring T × Except RingError Unit) :=
  if r.capacity < samples.length then some (r, .error .tooLarge)
  else if first ≠ r.end then some (r, .error .notContiguous)
  else if samples.isEmpty then some (r, .ok ())
  else
    let written := { r with data := ringWrite r.data first.toNat samples }
    (written.push ⟨first, first + UInt64.ofNat samples.length, false, m⟩).map fun r => (r, .ok ())

/-- The newest record, if it is a gap that ends at the end of the ring. -/
def lastGap (r : Ring T) : Option Record :=
  if 0 < r.recs.count then
    (r.record? (r.recs.count - 1)).filter fun last => last.gap && last.end = r.end
  else none

/-- Records everything from the end up to `to` as missing. -/
def missing (r : Ring T) («to» : UInt64) : Option (Ring T) :=
  if «to» ≤ r.end then some r
  else match r.lastGap with
    | some last =>
      some { r with
        recs := r.recs.set (r.recs.count - 1) { last with «end» := «to» }
        «end» := «to» }.trim
    | none => r.push ⟨r.end, «to», true, .zero⟩

/-- The position of the first record that ends after `index`. -/
def find (r : Ring T) (index : UInt64) : ℕ :=
  bisect (fun i => (r.record? i).any (·.end ≤ index)) r.recs.count 0 r.recs.count

/-- The piece of a record between `from` and `to`. -/
def segment (r : Ring T) («from» «to» : UInt64) (rec : Record) : Segment :=
  let first := max rec.first «from»
  { first := first
    «end» := min rec.end «to»
    gap := rec.gap
    timing :=
      if rec.gap then .zero
      else { rec.timing with
        monoNs := rec.timing.monoNs + (first - rec.first).toInt64 * r.unitNs } }

/-- The segments of the records from `i` on that start before `to`. -/
def segmentsFrom (r : Ring T) («from» «to» : UInt64) : ℕ → ℕ → List Segment → List Segment
  | 0, _, segs => segs
  | fuel + 1, i, segs =>
    match r.record? i with
    | none => segs
    | some rec =>
      if «to» ≤ rec.first then segs
      else segmentsFrom r «from» «to» fuel (i + 1) (segs ++ [r.segment «from» «to» rec])

/-- Adds to `dst` the ordered segments that cover `[from, to)`, clipped to what is retained; also
returns the clipped start. -/
def read (r : Ring T) («from» «to» : UInt64) (dst : List Segment) : UInt64 × List Segment :=
  let «from» := max «from» r.start
  let «to» := min «to» r.end
  if «to» ≤ «from» then («from», dst)
  else («from», r.segmentsFrom «from» «to» (r.recs.count - r.find «from») (r.find «from») dst)

/-- Whether one of the records from `i` on that start before `last` is a gap. -/
def gapFrom (r : Ring T) (last : UInt64) : ℕ → ℕ → Bool
  | 0, _ => false
  | fuel + 1, i =>
    match r.record? i with
    | none => false
    | some rec => if last ≤ rec.first then false else rec.gap || gapFrom r last fuel (i + 1)

/-- Fills `dst` with the samples from `first` on. -/
def copy (r : Ring T) (dst : List T) (first : UInt64) : Option (Except RingError (List T)) :=
  let last := first + UInt64.ofNat dst.length
  if first < r.start ∨ r.end < last then some (.error .notRetained)
  else if r.gapFrom last (r.recs.count - r.find first) (r.find first) then
    some (.error .notRetained)
  else if r.capacity = 0 then none
  else some (.ok (ringRead r.data first.toNat dst))

end Ring

/-! ### Runs -/

/-- A call that changes a ring. -/
inductive Call (T : Type)
  | append (first : UInt64) (samples : List T) (m : Meta)
  | missing («to» : UInt64)
  | reset (first : UInt64)

/-- One call: the ring then, and what an append answers. -/
def Ring.apply {T : Type} (r : Ring T) : Call T → Option (Ring T × Except RingError Unit)
  | .append first samples m => r.append first samples m
  | .missing «to» => (r.missing «to»).map fun r => (r, .ok ())
  | .reset first => some (r.reset first, .ok ())

end EchoMuse.Histories
