import EchoMuse.Ema.Firmware

/-!
# The Loudness Accumulator

The device's per-cell loudness records (`device/internal/audio/cells`): one record for every 512
capture samples. The final mix's mask source and the loudness of a sum of squares, which is
floating point, are parameters. Counters and positions wrap as Go's do.
-/

namespace EchoMuse.Cells

open Firmware (Cell CellEMin CellGap)

def cellSamples : UInt64 := 512
def sampleNs : Int64 := 62500
def batchCells : ℕ := 64
def CellMuted : UInt8 := 2

/-- The record of a cell that overlaps a missing range. -/
def gapCell (flags mask : UInt8) : Cell := ⟨CellEMin, flags ||| CellGap, mask⟩

/-- A block or missing range did not start where the previous one ended. -/
inductive Err
  | notContiguous
deriving DecidableEq

/-- One call of the sink: `cells[i]` is cell `firstCell + i`. -/
structure Batch where
  firstCell : UInt64
  cells : List Cell
  monoNs : Int64

structure Accumulator where
  /-- Next capture sample expected. -/
  next : UInt64
  /-- Squares of the samples of the open cell. -/
  sumSq : UInt64
  /-- The open cell overlaps a missing range. -/
  gap : Bool
  /-- The open cell holds a muted sample. -/
  muted : Bool
  /-- The cells that the sink has not been handed. -/
  batch : List Cell
  batchFirst : UInt64
  batchNs : Int64

/-- The square of a sample, as the code adds it. -/
def square (s : Int16) : UInt64 := (s.toInt64 * s.toInt64).toUInt64

/-- Adds the squares of samples. -/
def addSquares (sumSq : UInt64) (pcm : List Int16) : UInt64 :=
  pcm.foldl (fun sq s => sq + square s) sumSq

section

variable (maskFor : UInt64 → UInt64 → UInt8) (energyOf : UInt64 → ℕ → Int16)

/-- The loudness of samples. -/
def energy (samples : List Int16) : Int16 := energyOf (addSquares 0 samples) samples.length

namespace Accumulator

/-- Starts a new epoch at sample `first`, dropping any open cell. -/
def reset (a : Accumulator) (first : UInt64) : Accumulator :=
  { a with
    next := first, sumSq := 0, gap := decide (first % cellSamples ≠ 0), muted := false, batch := [] }

/-- Hands the sink the cells that are waiting. -/
def flush (a : Accumulator) : Accumulator × List Batch :=
  if a.batch = [] then (a, [])
  else ({ a with batch := [] }, [⟨a.batchFirst, a.batch, a.batchNs⟩])

/-- The record of the open cell, which starts at `start`. -/
def record (a : Accumulator) (start : UInt64) : Cell :=
  let flags := if a.muted then CellMuted else 0
  let mask := maskFor start (start + cellSamples)
  if a.gap then gapCell flags mask else ⟨energyOf a.sumSq 512, flags, mask⟩

/-- Closes the cell starting at capture sample `start`. -/
def emit (a : Accumulator) (start : UInt64) (startNs : Int64) : Accumulator × List Batch :=
  let added : Accumulator :=
    { a with
      sumSq := 0, gap := false, muted := false
      batch := a.batch ++ [a.record maskFor energyOf start]
      batchFirst := if a.batch = [] then start / cellSamples else a.batchFirst
      batchNs := if a.batch = [] then startNs else a.batchNs }
  if added.batch.length = batchCells then added.flush else (added, [])

/-- Closes the open cell if it is complete; the call at `first` was made at `monoNs`. -/
def emitIfComplete (first : UInt64) (monoNs : Int64) (a : Accumulator) :
    Accumulator × List Batch :=
  if a.next % cellSamples = 0 then
    let start := a.next - cellSamples
    a.emit maskFor energyOf start (monoNs + (start.toInt64 - first.toInt64) * sampleNs)
  else (a, [])

@[simp] theorem flush_next (a : Accumulator) : a.flush.1.next = a.next := by
  rw [flush]
  split_ifs <;> rfl

@[simp] theorem emit_next (a : Accumulator) (start : UInt64) (startNs : Int64) :
    (a.emit maskFor energyOf start startNs).1.next = a.next := by
  rw [emit]
  dsimp only
  by_cases hfull : (a.batch ++ [a.record maskFor energyOf start]).length = batchCells
  · rw [if_pos hfull, flush_next]
  · rw [if_neg hfull]

@[simp] theorem emitIfComplete_next (first : UInt64) (monoNs : Int64) (a : Accumulator) :
    (a.emitIfComplete maskFor energyOf first monoNs).1.next = a.next := by
  rw [emitIfComplete]
  split_ifs
  · exact emit_next maskFor energyOf a _ _
  · rfl

/-- How many samples the open cell has room for. -/
def room (a : Accumulator) : UInt64 := cellSamples - a.next % cellSamples

theorem toNat_room (a : Accumulator) : a.room.toNat = 512 - a.next.toNat % 512 := by
  have hmod : (a.next % cellSamples).toNat = a.next.toNat % 512 := UInt64.toNat_mod _ _
  have hle : a.next % cellSamples ≤ cellSamples := by
    rw [UInt64.le_iff_toNat_le, hmod]
    exact (Nat.mod_lt _ (by decide)).le
  rw [room, UInt64.toNat_sub_of_le _ _ hle, hmod]
  rfl

theorem room_pos (a : Accumulator) : 0 < a.room.toNat := by
  have hmod : a.next.toNat % 512 < 512 := Nat.mod_lt _ (by decide)
  rw [toNat_room]
  omega

/-- Samples of a block that go into the open cell. -/
def take (a : Accumulator) (samples : List Int16) (muted : Bool) : Accumulator :=
  { a with
    sumSq := addSquares a.sumSq samples
    muted := a.muted || muted
    next := a.next + .ofNat samples.length }

/-- Missing samples that fall into the open cell. -/
def skip (a : Accumulator) (step : UInt64) : Accumulator :=
  { a with gap := true, next := a.next + step }

/-- The loop of `Push`. -/
def pushLoop (first : UInt64) (monoNs : Int64) (muted : Bool) (a : Accumulator)
    (pcm : List Int16) : Accumulator × List Batch :=
  if pcm = [] then (a, [])
  else
    let n := min a.room.toNat pcm.length
    let closed := (a.take (pcm.take n) muted).emitIfComplete maskFor energyOf first monoNs
    let rest := pushLoop first monoNs muted closed.1 (pcm.drop n)
    (rest.1, closed.2 ++ rest.2)
termination_by pcm.length
decreasing_by
  have hroom := a.room_pos
  have hlen : 0 < pcm.length := List.length_pos_iff.mpr ‹_›
  rw [List.length_drop]
  omega

/-- Adds a capture block whose first sample is `first` and was captured at `monoNs`. -/
def push (a : Accumulator) (first : UInt64) (pcm : List Int16) (monoNs : Int64) (muted : Bool) :
    Accumulator × List Batch × Option Err :=
  if first ≠ a.next then (a, [], some .notContiguous)
  else
    let pushed := pushLoop maskFor energyOf first monoNs muted a pcm
    (pushed.1.flush.1, pushed.2 ++ pushed.1.flush.2, none)

/-- How far a missing range reaches in the open cell. -/
theorem toNat_step {a : Accumulator} {stop : UInt64} (h : a.next < stop) :
    (min a.room (stop - a.next)).toNat = min a.room.toNat (stop.toNat - a.next.toNat) := by
  have hsub : (stop - a.next).toNat = stop.toNat - a.next.toNat :=
    UInt64.toNat_sub_of_le _ _ (UInt64.le_of_lt h)
  have hmin : min a.room (stop - a.next) =
      if a.room ≤ stop - a.next then a.room else stop - a.next := rfl
  rw [hmin]
  split_ifs with hle <;> rw [UInt64.le_iff_toNat_le, hsub] at hle
  · rw [min_eq_left hle]
  · rw [min_eq_right (by omega), hsub]

theorem toNat_skip_next {a : Accumulator} {stop : UInt64} (h : a.next < stop) :
    (a.skip (min a.room (stop - a.next))).next.toNat =
      a.next.toNat + min a.room.toNat (stop.toNat - a.next.toNat) := by
  have hlt : a.next.toNat < stop.toNat := UInt64.lt_iff_toNat_lt.mp h
  have hstop : stop.toNat < 2 ^ 64 := stop.toNat_lt
  rw [skip, UInt64.toNat_add, toNat_step h, Nat.mod_eq_of_lt (by omega)]

/-- The loop of `Missing`. -/
def missingLoop (first stop : UInt64) (monoNs : Int64) (a : Accumulator) :
    Accumulator × List Batch :=
  if a.next < stop then
    let closed := (a.skip (min a.room (stop - a.next))).emitIfComplete maskFor energyOf first monoNs
    let rest := missingLoop first stop monoNs closed.1
    (rest.1, closed.2 ++ rest.2)
  else (a, [])
termination_by stop.toNat - a.next.toNat
decreasing_by
  have hroom := a.room_pos
  have hlt : a.next < stop := ‹_›
  have hnext : a.next.toNat < stop.toNat := UInt64.lt_iff_toNat_lt.mp hlt
  rw [emitIfComplete_next, toNat_skip_next hlt]
  omega

/-- Records the missing range from `first` to `stop`, whose first sample would have been captured
at `monoNs`. -/
def missing (a : Accumulator) (first stop : UInt64) (monoNs : Int64) :
    Accumulator × List Batch × Option Err :=
  if first ≠ a.next then (a, [], some .notContiguous)
  else
    let passed := missingLoop maskFor energyOf first stop monoNs a
    (passed.1.flush.1, passed.2 ++ passed.1.flush.2, none)

end Accumulator

/-- A call. -/
inductive Call
  | push (first : UInt64) (pcm : List Int16) (monoNs : Int64) (muted : Bool)
  | missing (first stop : UInt64) (monoNs : Int64)

namespace Accumulator

/-- Makes one call. -/
def call (a : Accumulator) : Call → Accumulator × List Batch × Option Err
  | .push first pcm monoNs muted => a.push maskFor energyOf first pcm monoNs muted
  | .missing first stop monoNs => a.missing maskFor energyOf first stop monoNs

/-- Makes calls one after the other: the accumulator, and what the sink was handed. -/
def run (a : Accumulator) : List Call → Accumulator × List Batch
  | [] => (a, [])
  | c :: cs =>
    let called := a.call maskFor energyOf c
    let rest := run called.1 cs
    (rest.1, called.2.1 ++ rest.2)

end Accumulator

end

end EchoMuse.Cells
