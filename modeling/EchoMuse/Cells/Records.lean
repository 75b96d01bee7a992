import EchoMuse.Blocks
import EchoMuse.Cells.Accumulator
import Mathlib.Data.List.Induction

/-!
# The Records of an Epoch

What the accumulator hands the sink, over any calls: the records of the complete cells of the line
of samples the calls brought or reported missing, whatever pieces it came in.

## Main results

* `follows_push`, `follows_missing`: a call carries the accumulator along the line;
* `cells_of_calls`: the records, their batches and times.
-/

namespace EchoMuse.Cells

open Blocks
open Firmware (Cell)

/-! ### The line of samples -/

/-- A sample of an epoch. -/
inductive Sample
  | taken (value : Int16) (muted : Bool)
  | missing
deriving DecidableEq

namespace Sample

def isMissing : Sample → Bool
  | taken _ _ => false
  | missing => true

def isMuted : Sample → Bool
  | taken _ muted => muted
  | missing => false

def value? : Sample → Option Int16
  | taken value _ => some value
  | missing => none

end Sample

/-- The samples that were not missing. -/
def values (l : List Sample) : List Int16 := l.filterMap Sample.value?

section

variable (maskFor : UInt64 → UInt64 → UInt8) (energyOf : UInt64 → ℕ → Int16)

/-- The record of a cell that starts at `start` and has these samples. -/
def cellOf (start : UInt64) (l : List Sample) : Cell :=
  let flags := if l.any Sample.isMuted then CellMuted else 0
  let mask := maskFor start (start + cellSamples)
  if l.any Sample.isMissing then gapCell flags mask
  else ⟨energy energyOf (values l), flags, mask⟩

/-- The records of a line that starts with cell `base`; positions count modulo `2 ^ 64`, cells
modulo `2 ^ 55`. -/
def records (base : ℕ) (line : List Sample) : List (ℕ × Cell) :=
  (blocks 512 line).zipIdx.map fun b =>
    ((base + b.2) % 2 ^ 55, cellOf maskFor energyOf (.ofNat (512 * (base + b.2))) b.1)

/-- Cells with their numbers. -/
def numbered (first : UInt64) (cells : List Cell) : List (ℕ × Cell) :=
  cells.zipIdx.map fun c => ((first.toNat + c.2) % 2 ^ 55, c.1)

def Batch.records (b : Batch) : List (ℕ × Cell) := numbered b.firstCell b.cells

/-- The accumulator has followed a line that starts with cell `base`, and handed the sink the
batches; a full batch may be waiting. -/
structure Tracks (base : ℕ) (line : List Sample) (sent : List Batch) (a : Accumulator) : Prop where
  next : a.next = .ofNat (512 * base + line.length)
  sum : a.sumSq = addSquares 0 (values (opened 512 line))
  gap : a.gap = (opened 512 line).any Sample.isMissing
  muted : a.muted = (opened 512 line).any Sample.isMuted
  records : sent.flatMap Batch.records ++ numbered a.batchFirst a.batch =
    records maskFor energyOf base line
  number : a.batch ≠ [] →
    (a.batchFirst.toNat + a.batch.length) % 2 ^ 55 = (base + line.length / 512) % 2 ^ 55
  sizes : ∀ b ∈ sent, b.cells ≠ [] ∧ b.cells.length ≤ batchCells
  room : a.batch.length ≤ batchCells

/-- And none is. -/
structure Follows (base : ℕ) (line : List Sample) (sent : List Batch) (a : Accumulator) : Prop
    extends Tracks maskFor energyOf base line sent a where
  open_batch : a.batch.length < batchCells

/-- The accumulator follows a line, and no cell is waiting. -/
structure Between (base : ℕ) (line : List Sample) (sent : List Batch) (a : Accumulator) : Prop
    extends Follows maskFor energyOf base line sent a where
  none_waiting : a.batch = []

/-- The time of a cell's first sample, counted from a call. -/
def timeOf (first : UInt64) (monoNs : Int64) (cell : UInt64) : Int64 :=
  monoNs + ((cell * cellSamples).toInt64 - first.toInt64) * sampleNs

/-- The batches and the cells that are waiting have the times of a call. -/
structure Timed (first : UInt64) (monoNs : Int64) (out : List Batch) (a : Accumulator) : Prop where
  sent : ∀ b ∈ out, b.monoNs = timeOf first monoNs b.firstCell
  waiting : a.batch ≠ [] → a.batchNs = timeOf first monoNs a.batchFirst

variable {maskFor energyOf}

theorem numbered_concat (first : UInt64) (cells : List Cell) (c : Cell) :
    numbered first (cells ++ [c]) =
      numbered first cells ++ [((first.toNat + cells.length) % 2 ^ 55, c)] := by
  rw [numbered, List.zipIdx_append, List.map_append, numbered]
  simp

theorem records_concat {base : ℕ} {line x b : List Sample}
    (h : blocks 512 (line ++ x) = blocks 512 line ++ [b]) :
    records maskFor energyOf base (line ++ x) = records maskFor energyOf base line ++
      [((base + line.length / 512) % 2 ^ 55,
        cellOf maskFor energyOf (.ofNat (512 * (base + line.length / 512))) b)] := by
  rw [records, h, List.zipIdx_append, List.map_append, records]
  simp

theorem values_append (a b : List Sample) : values (a ++ b) = values a ++ values b :=
  List.filterMap_append

/-- Without a missing sample all are there. -/
theorem length_values {l : List Sample} (h : ∀ s ∈ l, s.isMissing = false) :
    (values l).length = l.length := by
  induction l with
  | nil => rfl
  | cons s l ih =>
      obtain ⟨hs, hl⟩ := List.forall_mem_cons.mp h
      cases s with
      | taken v muted =>
          have hcons : values (.taken v muted :: l) = v :: values l := rfl
          rw [hcons, List.length_cons, List.length_cons, ih hl]
      | missing => cases hs

theorem addSquares_append (sq : UInt64) (a b : List Int16) :
    addSquares sq (a ++ b) = addSquares (addSquares sq a) b :=
  List.foldl_append

/-! ### One cell -/

/-- Where a complete cell starts. -/
theorem start_of_complete {base n : ℕ} {next : UInt64} (hnext : next = .ofNat (512 * base + n))
    (hn : n % 512 = 0) (hpos : 0 < n) :
    next - cellSamples = .ofNat (512 * (base + (n / 512 - 1))) := by
  have hsize : cellSamples = .ofNat 512 := rfl
  have hsplit := Nat.div_add_mod n 512
  rw [hnext, hsize, ← UInt64.toNat_inj, UInt64.toNat_sub, UInt64.toNat_ofNat', UInt64.toNat_ofNat',
    UInt64.toNat_ofNat']
  omega

/-- A cell's start and its number. -/
theorem start_div {n : ℕ} :
    (UInt64.ofNat (512 * n) / cellSamples).toNat = n % 2 ^ 55 ∧
      UInt64.ofNat (512 * n) / cellSamples * cellSamples = .ofNat (512 * n) := by
  have hsize : cellSamples.toNat = 512 := rfl
  have hdiv : (UInt64.ofNat (512 * n) / cellSamples).toNat = n % 2 ^ 55 := by
    rw [UInt64.toNat_div, UInt64.toNat_ofNat', hsize]
    omega
  refine ⟨hdiv, ?_⟩
  rw [← UInt64.toNat_inj, UInt64.toNat_mul, hdiv, UInt64.toNat_ofNat', hsize]
  omega

/-- Handing on what is waiting. -/
theorem Tracks.flush {base : ℕ} {line : List Sample} {sent : List Batch} {a : Accumulator}
    (h : Tracks maskFor energyOf base line sent a) :
    Follows maskFor energyOf base line (sent ++ a.flush.2) a.flush.1 ∧ a.flush.1.batch = [] := by
  by_cases hempty : a.batch = []
  · rw [Accumulator.flush, if_pos hempty, List.append_nil]
    exact ⟨⟨h, by rw [hempty]; exact Nat.zero_lt_succ 63⟩, hempty⟩
  · rw [Accumulator.flush, if_neg hempty]
    refine ⟨⟨⟨h.next, h.sum, h.gap, h.muted, ?_, fun hne => absurd rfl hne, ?_, Nat.zero_le 64⟩,
      Nat.zero_lt_succ 63⟩, rfl⟩
    · rw [← h.records, List.flatMap_append, List.flatMap_singleton]
      simp [numbered, Batch.records]
    · refine List.forall_mem_append.mpr ⟨h.sizes, ?_⟩
      intro b hb
      rw [List.mem_singleton] at hb
      rw [hb]
      exact ⟨hempty, h.room⟩

theorem Timed.flush {first : UInt64} {monoNs : Int64} {out : List Batch} {a : Accumulator}
    (h : Timed first monoNs out a) : Timed first monoNs (out ++ a.flush.2) a.flush.1 := by
  by_cases hempty : a.batch = []
  · rw [Accumulator.flush, if_pos hempty, List.append_nil]
    exact h
  · rw [Accumulator.flush, if_neg hempty]
    refine ⟨List.forall_mem_append.mpr ⟨h.sent, ?_⟩, fun hne => absurd rfl hne⟩
    intro b hb
    rw [List.mem_singleton] at hb
    rw [hb]
    exact h.waiting hempty

/-- The open cell with more samples in it, before the accumulator looks whether it is complete. -/
structure Filled (base : ℕ) (line x : List Sample) (a filled : Accumulator) : Prop where
  next : filled.next = .ofNat (512 * base + (line ++ x).length)
  sum : filled.sumSq = addSquares 0 (values (opened 512 line ++ x))
  gap : filled.gap = (opened 512 line ++ x).any Sample.isMissing
  muted : filled.muted = (opened 512 line ++ x).any Sample.isMuted
  batch : filled.batch = a.batch
  batchFirst : filled.batchFirst = a.batchFirst
  batchNs : filled.batchNs = a.batchNs
  some : 0 < x.length
  fits : (opened 512 line).length + x.length ≤ 512

/-- The record is the cell's. -/
theorem Filled.record {base : ℕ} {line x : List Sample} {a filled : Accumulator}
    (h : Filled base line x a filled) (hfull : (opened 512 line).length + x.length = 512)
    (start : UInt64) :
    filled.record maskFor energyOf start = cellOf maskFor energyOf start (opened 512 line ++ x) := by
  rw [Accumulator.record, cellOf, h.gap, h.muted]
  by_cases hgap : (opened 512 line ++ x).any Sample.isMissing = true
  · rw [if_pos hgap, if_pos hgap]
  · rw [if_neg hgap, if_neg hgap, h.sum, energy, length_values, List.length_append, hfull]
    rw [Bool.not_eq_true, List.any_eq_false] at hgap
    exact fun s hs => Bool.not_eq_true _ ▸ hgap s hs

/-- A complete cell is closed. -/
theorem Follows.emit {base : ℕ} {line x : List Sample} {sent : List Batch} {a filled : Accumulator}
    (h : Follows maskFor energyOf base line sent a) (hx : Filled base line x a filled)
    (hfull : (opened 512 line).length + x.length = 512) (startNs : Int64) :
    Follows maskFor energyOf base (line ++ x)
      (sent ++ (filled.emit maskFor energyOf (filled.next - cellSamples) startNs).2)
      (filled.emit maskFor energyOf (filled.next - cellSamples) startNs).1 := by
  have hlen := length_opened (n := 512) line
  have hdiv : (line ++ x).length / 512 = line.length / 512 + 1 := by
    rw [← length_blocks, blocks_append_of_eq line x hfull (by decide), List.length_append,
      length_blocks, List.length_singleton]
  have hstart : filled.next - cellSamples = .ofNat (512 * (base + line.length / 512)) := by
    have hmod : (line ++ x).length % 512 = 0 := by
      rw [List.length_append]
      omega
    rw [start_of_complete hx.next hmod (by rw [List.length_append]; omega), hdiv,
      Nat.add_sub_cancel]
  have hopen : opened 512 (line ++ x) = [] := opened_append_of_eq line x hfull
  rw [hstart, Accumulator.emit, hx.record hfull, hx.batch, hx.batchFirst, hx.batchNs]
  set c := cellOf maskFor energyOf (.ofNat (512 * (base + line.length / 512))) (opened 512 line ++ x)
    with hc
  have hfirst : ((if a.batch = [] then
        UInt64.ofNat (512 * (base + line.length / 512)) / cellSamples else a.batchFirst).toNat +
      a.batch.length) % 2 ^ 55 = (base + line.length / 512) % 2 ^ 55 := by
    split_ifs with hempty
    · rw [hempty, start_div.1, List.length_nil]
      omega
    · exact h.number hempty
  have hnumbered : numbered (if a.batch = [] then
        UInt64.ofNat (512 * (base + line.length / 512)) / cellSamples else a.batchFirst) a.batch =
      numbered a.batchFirst a.batch := by
    split_ifs with hempty
    · rw [hempty]
      rfl
    · rfl
  have htracks : Tracks maskFor energyOf base (line ++ x) sent
      { filled with
        sumSq := 0, gap := false, muted := false, batch := a.batch ++ [c]
        batchFirst := if a.batch = [] then
          UInt64.ofNat (512 * (base + line.length / 512)) / cellSamples else a.batchFirst
        batchNs := if a.batch = [] then startNs else a.batchNs } := by
    refine ⟨hx.next, by rw [hopen]; rfl, by rw [hopen]; rfl, by rw [hopen]; rfl, ?_, fun _ => ?_,
      h.sizes, ?_⟩
    · dsimp only
      rw [numbered_concat, hfirst, hnumbered, ← List.append_assoc, h.records,
        records_concat (blocks_append_of_eq line x hfull (by decide))]
    · dsimp only
      rw [List.length_append, List.length_singleton, hdiv]
      omega
    · dsimp only
      rw [List.length_append, List.length_singleton]
      exact h.open_batch
  dsimp only
  by_cases hbatch : (a.batch ++ [c]).length = batchCells
  · rw [if_pos hbatch]
    exact htracks.flush.1
  · rw [if_neg hbatch, List.append_nil]
    exact ⟨htracks, lt_of_le_of_ne htracks.room hbatch⟩

/-- **A cell is closed when it is complete, and not before.** -/
theorem Follows.emitIfComplete {base : ℕ} {line x : List Sample} {sent : List Batch}
    {a filled : Accumulator} (h : Follows maskFor energyOf base line sent a)
    (hx : Filled base line x a filled) (first : UInt64) (monoNs : Int64) :
    Follows maskFor energyOf base (line ++ x)
      (sent ++ (filled.emitIfComplete maskFor energyOf first monoNs).2)
      (filled.emitIfComplete maskFor energyOf first monoNs).1 := by
  have hlen := length_opened (n := 512) line
  have hmod : filled.next % cellSamples = 0 ↔ (opened 512 line).length + x.length = 512 := by
    have hsize : cellSamples.toNat = 512 := rfl
    have hfits := hx.fits
    have hsome := hx.some
    have hzero : (0 : UInt64).toNat = 0 := rfl
    rw [← UInt64.toNat_inj, UInt64.toNat_mod, hx.next, UInt64.toNat_ofNat', hsize,
      List.length_append]
    omega
  by_cases hfull : (opened 512 line).length + x.length = 512
  · rw [Accumulator.emitIfComplete, if_pos (hmod.mpr hfull)]
    exact h.emit hx hfull _
  · have hlt : (opened 512 line).length + x.length < 512 := lt_of_le_of_ne hx.fits hfull
    have hopen := opened_append_of_lt line x hlt
    have hdiv : (line ++ x).length / 512 = line.length / 512 := by
      rw [← length_blocks, blocks_append_of_lt line x hlt, length_blocks]
    rw [Accumulator.emitIfComplete, if_neg (mt hmod.mp hfull), List.append_nil]
    refine ⟨⟨hx.next, hopen ▸ hx.sum, hopen ▸ hx.gap, hopen ▸ hx.muted, ?_, ?_, h.sizes,
      hx.batch ▸ h.room⟩, hx.batch ▸ h.open_batch⟩
    · rw [hx.batch, hx.batchFirst, h.records, Cells.records, Cells.records,
        blocks_append_of_lt line x hlt]
    · rw [hx.batch, hx.batchFirst, hdiv]
      exact h.number

theorem Timed.emitIfComplete {base : ℕ} {line x : List Sample} {a filled : Accumulator}
    {first : UInt64} {monoNs : Int64} {out : List Batch} (h : Timed first monoNs out a)
    (hx : Filled base line x a filled) :
    Timed first monoNs (out ++ (filled.emitIfComplete maskFor energyOf first monoNs).2)
      (filled.emitIfComplete maskFor energyOf first monoNs).1 := by
  rw [Accumulator.emitIfComplete]
  split_ifs with hcomplete
  · have hcell : (filled.next - cellSamples) / cellSamples * cellSamples =
        filled.next - cellSamples := by
      have hsize : cellSamples.toNat = 512 := rfl
      have hzero : (0 : UInt64).toNat = 0 := rfl
      rw [← UInt64.toNat_inj, UInt64.toNat_mod, hsize, hzero] at hcomplete
      rw [← UInt64.toNat_inj, UInt64.toNat_mul, UInt64.toNat_div, UInt64.toNat_sub, hsize]
      have hlt : filled.next.toNat < 2 ^ 64 := filled.next.toNat_lt
      omega
    have hwaiting : (if filled.batch = [] then
          monoNs + ((filled.next - cellSamples).toInt64 - first.toInt64) * sampleNs
          else filled.batchNs) =
        timeOf first monoNs (if filled.batch = [] then (filled.next - cellSamples) / cellSamples
          else filled.batchFirst) := by
      split_ifs with hempty
      · rw [timeOf, hcell]
      · rw [hx.batchNs, hx.batchFirst]
        exact h.waiting (hx.batch ▸ hempty)
    have hadded : Timed first monoNs out
        { filled with
          sumSq := 0, gap := false, muted := false
          batch := filled.batch ++ [filled.record maskFor energyOf (filled.next - cellSamples)]
          batchFirst := if filled.batch = [] then (filled.next - cellSamples) / cellSamples
            else filled.batchFirst
          batchNs := if filled.batch = [] then
            monoNs + ((filled.next - cellSamples).toInt64 - first.toInt64) * sampleNs
            else filled.batchNs } := ⟨h.sent, fun _ => hwaiting⟩
    rw [Accumulator.emit]
    dsimp only
    by_cases hbatch : (filled.batch ++
        [filled.record maskFor energyOf (filled.next - cellSamples)]).length = batchCells
    · rw [if_pos hbatch]
      exact hadded.flush
    · rw [if_neg hbatch, List.append_nil]
      exact hadded
  · rw [List.append_nil]
    refine ⟨h.sent, fun hne => ?_⟩
    rw [hx.batchNs, hx.batchFirst]
    exact h.waiting (hx.batch ▸ hne)

/-! ### Calls -/

/-- The samples a block brings. -/
def taken (pcm : List Int16) (muted : Bool) : List Sample := pcm.map (.taken · muted)

theorem values_taken (pcm : List Int16) (muted : Bool) : values (taken pcm muted) = pcm := by
  induction pcm with
  | nil => rfl
  | cons v pcm ih =>
      have hcons : values (taken (v :: pcm) muted) = v :: values (taken pcm muted) := rfl
      rw [hcons, ih]

theorem any_isMissing_taken (pcm : List Int16) (muted : Bool) :
    (taken pcm muted).any Sample.isMissing = false := by
  simp [taken, Sample.isMissing]

theorem any_isMuted_taken {pcm : List Int16} (muted : Bool) (h : 0 < pcm.length) :
    (taken pcm muted).any Sample.isMuted = muted := by
  obtain ⟨v, pcm, rfl⟩ := List.exists_cons_of_length_pos h
  cases muted <;> simp [taken, Sample.isMuted]

theorem Follows.toNat_room {base : ℕ} {line : List Sample} {sent : List Batch} {a : Accumulator}
    (h : Follows maskFor energyOf base line sent a) :
    a.room.toNat = 512 - (opened 512 line).length := by
  rw [Accumulator.toNat_room, length_opened, h.next, UInt64.toNat_ofNat']
  omega

/-- Samples of a block in the open cell. -/
theorem Follows.take {base : ℕ} {line : List Sample} {sent : List Batch} {a : Accumulator}
    (h : Follows maskFor energyOf base line sent a) (pcm : List Int16) (muted : Bool)
    (hsome : 0 < pcm.length) (hfits : pcm.length ≤ a.room.toNat) :
    Filled base line (taken pcm muted) a (a.take pcm muted) where
  next := by
    have hlen : (taken pcm muted).length = pcm.length := List.length_map _
    rw [Accumulator.take, h.next, List.length_append, hlen, ← Nat.add_assoc,
      UInt64.ofNat_add (512 * base + line.length)]
  sum := by
    rw [Accumulator.take, h.sum, values_append, addSquares_append, values_taken]
  gap := by
    rw [Accumulator.take, h.gap, List.any_append, any_isMissing_taken, Bool.or_false]
  muted := by
    rw [Accumulator.take, h.muted, List.any_append, any_isMuted_taken muted hsome]
  batch := rfl
  batchFirst := rfl
  batchNs := rfl
  some := by rwa [taken, List.length_map]
  fits := by
    have hlen := length_opened (n := 512) line
    have hmod : line.length % 512 < 512 := Nat.mod_lt _ (by decide)
    rw [h.toNat_room] at hfits
    rw [taken, List.length_map]
    omega

/-- Missing samples in the open cell. -/
theorem Follows.skip {base : ℕ} {line : List Sample} {sent : List Batch} {a : Accumulator}
    (h : Follows maskFor energyOf base line sent a) (step : UInt64) (hsome : 0 < step.toNat)
    (hfits : step.toNat ≤ a.room.toNat) :
    Filled base line (List.replicate step.toNat .missing) a (a.skip step) where
  next := by
    rw [Accumulator.skip, h.next, List.length_append, List.length_replicate, ← Nat.add_assoc,
      UInt64.ofNat_add (512 * base + line.length), UInt64.ofNat_toNat]
  sum := by
    have hnone : values (List.replicate step.toNat .missing) = [] :=
      List.filterMap_replicate_of_none rfl
    rw [Accumulator.skip, h.sum, values_append, hnone, List.append_nil]
  gap := by
    obtain ⟨n, hn⟩ : ∃ n, step.toNat = n + 1 := ⟨step.toNat - 1, by omega⟩
    rw [hn, List.replicate_succ]
    simp [Accumulator.skip, Sample.isMissing]
  muted := by
    rw [Accumulator.skip, h.muted, List.any_append]
    simp [Sample.isMuted]
  batch := rfl
  batchFirst := rfl
  batchNs := rfl
  some := by rwa [List.length_replicate]
  fits := by
    have hlen := length_opened (n := 512) line
    have hmod : line.length % 512 < 512 := Nat.mod_lt _ (by decide)
    rw [h.toNat_room] at hfits
    rw [List.length_replicate]
    omega

theorem taken_append (x y : List Int16) (muted : Bool) :
    taken (x ++ y) muted = taken x muted ++ taken y muted := List.map_append

/-- The loop of `Push` carries the accumulator along its block. -/
theorem follows_pushLoop {base : ℕ} {line : List Sample} {sent out : List Batch} {a : Accumulator}
    {first : UInt64} {monoNs : Int64} (muted : Bool) (pcm : List Int16)
    (h : Follows maskFor energyOf base line sent a) (ht : Timed first monoNs out a) :
    Follows maskFor energyOf base (line ++ taken pcm muted)
        (sent ++ (a.pushLoop maskFor energyOf first monoNs muted pcm).2)
        (a.pushLoop maskFor energyOf first monoNs muted pcm).1 ∧
      Timed first monoNs (out ++ (a.pushLoop maskFor energyOf first monoNs muted pcm).2)
        (a.pushLoop maskFor energyOf first monoNs muted pcm).1 := by
  induction hn : pcm.length using Nat.strongRecOn generalizing pcm a line sent out with
  | ind n ih =>
      rw [Accumulator.pushLoop]
      by_cases hpcm : pcm = []
      · rw [if_pos hpcm, hpcm, taken, List.map_nil, List.append_nil, List.append_nil,
          List.append_nil]
        exact ⟨h, ht⟩
      · rw [if_neg hpcm]
        dsimp only
        have hpos : 0 < pcm.length := List.length_pos_iff.mpr hpcm
        have hroom := a.room_pos
        set k := min a.room.toNat pcm.length with hk
        have htake : (pcm.take k).length = k := by
          rw [List.length_take]
          omega
        have hfilled := h.take (pcm.take k) muted (by omega) (by omega)
        have hdrop : (pcm.drop k).length = pcm.length - k := List.length_drop
        have hnext := ih (pcm.drop k).length (by omega) (pcm.drop k)
          (h.emitIfComplete hfilled first monoNs) (ht.emitIfComplete hfilled) rfl
        rw [List.append_assoc, ← taken_append, List.take_append_drop, List.append_assoc,
          List.append_assoc] at hnext
        exact hnext

/-- The loop of `Missing` carries it along its range. -/
theorem follows_missingLoop {base : ℕ} {line : List Sample} {sent out : List Batch}
    {a : Accumulator} {first : UInt64} {monoNs : Int64} (stop : UInt64)
    (h : Follows maskFor energyOf base line sent a) (ht : Timed first monoNs out a) :
    Follows maskFor energyOf base
        (line ++ List.replicate (stop.toNat - a.next.toNat) .missing)
        (sent ++ (a.missingLoop maskFor energyOf first stop monoNs).2)
        (a.missingLoop maskFor energyOf first stop monoNs).1 ∧
      Timed first monoNs (out ++ (a.missingLoop maskFor energyOf first stop monoNs).2)
        (a.missingLoop maskFor energyOf first stop monoNs).1 := by
  induction hn : stop.toNat - a.next.toNat using Nat.strongRecOn generalizing a line sent out with
  | ind n ih =>
      rw [Accumulator.missingLoop]
      by_cases hlt : a.next < stop
      · rw [if_pos hlt]
        dsimp only
        have hltNat : a.next.toNat < stop.toNat := UInt64.lt_iff_toNat_lt.mp hlt
        have hroom := a.room_pos
        have hstep := Accumulator.toNat_step hlt
        have hskip := Accumulator.toNat_skip_next hlt
        set step := min a.room (stop - a.next) with hs
        have hfilled := h.skip step (by omega) (by omega)
        have hnext := ih (stop.toNat - (a.skip step).next.toNat) (by omega)
          (h.emitIfComplete hfilled first monoNs) (ht.emitIfComplete hfilled)
          (by rw [Accumulator.emitIfComplete_next])
        rw [List.append_assoc, ← List.replicate_add, List.append_assoc, List.append_assoc] at hnext
        have hsum : step.toNat + (stop.toNat - (a.skip step).next.toNat) = n := by omega
        rw [hsum] at hnext
        exact hnext
      · have hzero : n = 0 := by
          rw [UInt64.lt_iff_toNat_lt] at hlt
          omega
        rw [if_neg hlt, hzero, List.replicate_zero, List.append_nil, List.append_nil,
          List.append_nil]
        exact ⟨h, ht⟩

/-- Where a call starts. -/
def Call.first : Call → UInt64
  | .push first _ _ _ => first
  | .missing first _ _ => first

/-- The time of its first sample. -/
def Call.monoNs : Call → Int64
  | .push _ _ monoNs _ => monoNs
  | .missing _ _ monoNs => monoNs

/-- The samples it brings or reports missing. -/
def Call.samples : Call → List Sample
  | .push _ pcm _ muted => taken pcm muted
  | .missing first stop _ => List.replicate (stop.toNat - first.toNat) .missing

/-- **A call that starts at the next sample** carries the accumulator along its samples. -/
theorem Between.call {base : ℕ} {line : List Sample} {sent : List Batch} {a : Accumulator}
    (h : Between maskFor energyOf base line sent a) {c : Call}
    (hc : c.first = a.next) :
    Between maskFor energyOf base (line ++ c.samples)
        (sent ++ (a.call maskFor energyOf c).2.1) (a.call maskFor energyOf c).1 ∧
      ∀ b ∈ (a.call maskFor energyOf c).2.1, b.monoNs = timeOf c.first c.monoNs b.firstCell := by
  have ht : Timed c.first c.monoNs [] a := ⟨nofun, fun hne => absurd h.none_waiting hne⟩
  cases c with
  | push first pcm monoNs muted =>
      replace hc : first = a.next := hc
      obtain ⟨hloop, htimes⟩ := follows_pushLoop muted pcm h.toFollows ht
      obtain ⟨hflush, hbatch⟩ := hloop.toTracks.flush
      rw [Accumulator.call, Accumulator.push, if_neg (fun hne => hne hc)]
      refine ⟨⟨?_, hbatch⟩, htimes.flush.sent⟩
      rw [List.append_assoc] at hflush
      exact hflush
  | missing first stop monoNs =>
      obtain ⟨hloop, htimes⟩ := follows_missingLoop stop h.toFollows ht
      obtain ⟨hflush, hbatch⟩ := hloop.toTracks.flush
      replace hc : first = a.next := hc
      rw [← hc] at hflush
      rw [Accumulator.call, Accumulator.missing, if_neg (fun hne => hne hc)]
      refine ⟨⟨?_, hbatch⟩, htimes.flush.sent⟩
      rw [List.append_assoc] at hflush
      exact hflush

/-- A call that does not is refused. -/
theorem call_refused {a : Accumulator} {c : Call} (hc : c.first ≠ a.next) :
    a.call maskFor energyOf c = (a, [], some .notContiguous) := by
  cases c with
  | push first pcm monoNs muted => exact if_pos hc
  | missing first stop monoNs => exact if_pos hc

/-! ### Runs -/

/-- The samples of the calls that are not refused. -/
def accepted (next : UInt64) : List Call → List Sample
  | [] => []
  | c :: cs =>
    if c.first = next then c.samples ++ accepted (next + .ofNat c.samples.length) cs
    else accepted next cs

theorem Between.next_call {base : ℕ} {line : List Sample} {sent : List Batch} {a : Accumulator}
    (h : Between maskFor energyOf base line sent a) {c : Call} (hc : c.first = a.next) :
    (a.call maskFor energyOf c).1.next = a.next + .ofNat c.samples.length := by
  rw [(h.call hc).1.next, h.next, List.length_append, ← Nat.add_assoc,
    UInt64.ofNat_add (512 * base + line.length)]

/-- **A run carries the accumulator along the samples of its calls.** -/
theorem Between.run {base : ℕ} {line : List Sample} {sent : List Batch} {a : Accumulator}
    (h : Between maskFor energyOf base line sent a) (calls : List Call) :
    Between maskFor energyOf base (line ++ accepted a.next calls)
      (sent ++ (a.run maskFor energyOf calls).2) (a.run maskFor energyOf calls).1 := by
  induction calls generalizing a line sent with
  | nil =>
      rw [Accumulator.run, accepted, List.append_nil, List.append_nil]
      exact h
  | cons c cs ih =>
      rw [Accumulator.run, accepted]
      dsimp only
      by_cases hc : c.first = a.next
      · have hrest := ih (h.call hc).1
        rw [h.next_call hc, List.append_assoc, List.append_assoc] at hrest
        rw [if_pos hc]
        exact hrest
      · rw [if_neg hc, call_refused hc]
        exact ih h

theorem between_reset (a : Accumulator) (first : UInt64) :
    Between maskFor energyOf (first.toNat / 512) (List.replicate (first.toNat % 512) .missing) []
      (a.reset first) := by
  have hlen : (List.replicate (first.toNat % 512) Sample.missing).length < 512 := by
    rw [List.length_replicate]
    exact Nat.mod_lt _ (by decide)
  have hnone : values (List.replicate (first.toNat % 512) .missing) = [] :=
    List.filterMap_replicate_of_none rfl
  refine ⟨⟨⟨?_, ?_, ?_, ?_, ?_, fun hne => absurd rfl hne, nofun, Nat.zero_le 64⟩,
    Nat.zero_lt_succ 63⟩, rfl⟩
  · rw [List.length_replicate, Nat.div_add_mod, UInt64.ofNat_toNat]
    rfl
  · rw [opened_of_lt hlen, hnone]
    rfl
  · have hsize : cellSamples.toNat = 512 := rfl
    have hzero : (0 : UInt64).toNat = 0 := rfl
    rw [opened_of_lt hlen, Accumulator.reset]
    dsimp only
    rw [Bool.eq_iff_iff, decide_eq_true_iff, ne_eq, ← UInt64.toNat_inj, UInt64.toNat_mod, hsize,
      hzero]
    simp [Sample.isMissing]
  · rw [opened_of_lt hlen]
    simp [Accumulator.reset, Sample.isMuted]
  · rw [records, blocks_of_lt hlen]
    rfl

theorem run_append (a : Accumulator) (cs ds : List Call) :
    (a.run maskFor energyOf (cs ++ ds)).2 =
      (a.run maskFor energyOf cs).2 ++
        ((a.run maskFor energyOf cs).1.run maskFor energyOf ds).2 := by
  induction cs generalizing a with
  | nil => rfl
  | cons c cs ih =>
      rw [List.cons_append, Accumulator.run, Accumulator.run]
      dsimp only
      rw [ih, List.append_assoc]

/-- Calls with the same samples have the same records. -/
theorem Between.records_congr {base : ℕ} {line : List Sample} {sent : List Batch} {a : Accumulator}
    (h : Between maskFor energyOf base line sent a) {cs ds : List Call}
    (heq : accepted a.next cs = accepted a.next ds) :
    (sent ++ (a.run maskFor energyOf cs).2).flatMap Batch.records =
      (sent ++ (a.run maskFor energyOf ds).2).flatMap Batch.records := by
  have hall : ∀ calls, (sent ++ (a.run maskFor energyOf calls).2).flatMap Batch.records =
      records maskFor energyOf base (line ++ accepted a.next calls) := by
    intro calls
    have hrun := h.run calls
    rw [← hrun.records, hrun.none_waiting]
    exact (List.append_nil _).symm
  rw [hall, hall, heq]

theorem accepted_cons_push (next : UInt64) (pcm : List Int16) (monoNs : Int64) (muted : Bool)
    (cs : List Call) :
    accepted next (.push next pcm monoNs muted :: cs) =
      taken pcm muted ++ accepted (next + .ofNat pcm.length) cs := by
  have hlen : (taken pcm muted).length = pcm.length := List.length_map _
  rw [accepted, ← hlen]
  exact if_pos rfl

theorem accepted_cons_missing {next stop : UInt64} (monoNs : Int64) (cs : List Call)
    (h : next ≤ stop) :
    accepted next (.missing next stop monoNs :: cs) =
      List.replicate (stop.toNat - next.toNat) .missing ++ accepted stop cs := by
  have hlen : (List.replicate (stop.toNat - next.toNat) Sample.missing).length =
      stop.toNat - next.toNat := List.length_replicate
  have hnext : next + .ofNat (stop.toNat - next.toNat) = stop := by
    rw [UInt64.le_iff_toNat_le] at h
    have hlt : stop.toNat < 2 ^ 64 := stop.toNat_lt
    rw [← UInt64.toNat_inj, UInt64.toNat_add, UInt64.toNat_ofNat']
    omega
  have hcons : accepted next (.missing next stop monoNs :: cs) =
      List.replicate (stop.toNat - next.toNat) .missing ++
        accepted (next + .ofNat (List.replicate (stop.toNat - next.toNat) Sample.missing).length) cs := by
    rw [accepted]
    exact if_pos rfl
  rw [hcons, hlen, hnext]

/-- A block may be cut. -/
theorem accepted_push (next : UInt64) (x y : List Int16) (monoNs monoNs' : Int64) (muted : Bool)
    (cs : List Call) :
    accepted next (.push next (x ++ y) monoNs muted :: cs) =
      accepted next (.push next x monoNs muted ::
        .push (next + .ofNat x.length) y monoNs' muted :: cs) := by
  rw [accepted_cons_push, accepted_cons_push, accepted_cons_push, taken_append, List.append_assoc,
    List.length_append, UInt64.ofNat_add, UInt64.add_assoc]

/-- A missing range may be cut. -/
theorem accepted_missing {next mid stop : UInt64} (monoNs monoNs' : Int64) (cs : List Call)
    (hmid : next ≤ mid) (hstop : mid ≤ stop) :
    accepted next (.missing next stop monoNs :: cs) =
      accepted next (.missing next mid monoNs :: .missing mid stop monoNs' :: cs) := by
  have hsum : stop.toNat - next.toNat = (mid.toNat - next.toNat) + (stop.toNat - mid.toNat) := by
    rw [UInt64.le_iff_toNat_le] at hmid hstop
    omega
  rw [accepted_cons_missing monoNs cs (UInt64.le_trans hmid hstop),
    accepted_cons_missing monoNs _ hmid, accepted_cons_missing monoNs' cs hstop, hsum,
    List.replicate_add, List.append_assoc]

/-! ### Bounds -/

/-- The square of a sample. -/
theorem toNat_square (v : Int16) :
    (square v).toNat = v.toInt.natAbs ^ 2 ∧ v.toInt.natAbs ^ 2 ≤ 2 ^ 30 := by
  have hle : -2 ^ 15 ≤ v.toInt := v.le_toInt
  have hlt : v.toInt < 2 ^ 15 := v.toInt_lt
  have habs : v.toInt.natAbs ≤ 2 ^ 15 := by omega
  have hsquare : v.toInt.natAbs ^ 2 ≤ 2 ^ 30 := by
    calc v.toInt.natAbs ^ 2 ≤ (2 ^ 15) ^ 2 := Nat.pow_le_pow_left habs 2
      _ = 2 ^ 30 := by decide
  have hcast : v.toInt * v.toInt = ((v.toInt.natAbs ^ 2 : ℕ) : ℤ) := by
    rw [pow_two, Int.natAbs_mul_self]
  have hmul : (v.toInt64 * v.toInt64).toInt = ((v.toInt.natAbs ^ 2 : ℕ) : ℤ) := by
    rw [Int64.toInt_mul, Int16.toInt_toInt64, hcast]
    exact Int.bmod_eq_of_le (by omega) (by omega)
  refine ⟨?_, hsquare⟩
  have hnonneg : (0 : Int64) ≤ v.toInt64 * v.toInt64 := by
    rw [Int64.le_iff_toInt_le, hmul]
    exact Int.natCast_nonneg _
  rw [square, Int64.toNat_toUInt64_of_le hnonneg, Int64.toNatClampNeg, hmul, Int.toNat_natCast]

/-- **The sum of the squares of a cell's samples does not overflow.** -/
theorem toNat_addSquares {l : List Int16} (hl : l.length ≤ 512) :
    (addSquares 0 l).toNat = (l.map fun v => v.toInt.natAbs ^ 2).sum := by
  suffices h : (addSquares 0 l).toNat = (l.map fun v => v.toInt.natAbs ^ 2).sum ∧
      (l.map fun v => v.toInt.natAbs ^ 2).sum ≤ 2 ^ 30 * l.length from h.1
  induction l using List.reverseRecOn with
  | nil => exact ⟨rfl, le_rfl⟩
  | append_singleton l v ih =>
      rw [List.length_append, List.length_singleton] at hl
      obtain ⟨hsum, hbound⟩ := ih (by omega)
      obtain ⟨hv, hvle⟩ := toNat_square v
      have hone : addSquares (addSquares 0 l) [v] = addSquares 0 l + square v := rfl
      rw [addSquares_append, hone, UInt64.toNat_add, hsum, hv, List.map_append, List.sum_append,
        List.map_singleton, List.sum_singleton, List.length_append, List.length_singleton]
      constructor
      · rw [Nat.mod_eq_of_lt]
        omega
      · omega

/-- **Nor does the time arithmetic**, below sample `2 ^ 47`. -/
theorem toInt_offset {start first : UInt64} (hstart : start.toNat < 2 ^ 47)
    (hfirst : first.toNat < 2 ^ 47) :
    (start.toInt64 - first.toInt64).toInt = (start.toNat : ℤ) - first.toNat ∧
      ((start.toInt64 - first.toInt64) * sampleNs).toInt =
        ((start.toNat : ℤ) - first.toNat) * 62500 := by
  have hcast : ∀ x : UInt64, x.toNat < 2 ^ 47 → x.toInt64.toInt = (x.toNat : ℤ) := by
    intro x hx
    have hbits : x.toInt64.toInt = x.toBitVec.toInt := rfl
    rw [hbits, BitVec.toInt_eq_toNat_of_lt]
    · rfl
    · have htoNat : x.toBitVec.toNat = x.toNat := rfl
      omega
  have hdiff : (start.toInt64 - first.toInt64).toInt = (start.toNat : ℤ) - first.toNat := by
    rw [Int64.toInt_sub, hcast start hstart, hcast first hfirst]
    exact Int.bmod_eq_of_le (by omega) (by omega)
  have hns : sampleNs.toInt = 62500 := rfl
  refine ⟨hdiff, ?_⟩
  rw [Int64.toInt_mul, hdiff, hns]
  exact Int.bmod_eq_of_le (by omega) (by omega)

theorem toInt_timeOf {cell first : UInt64} (hcell : (cell * cellSamples).toNat < 2 ^ 47)
    (hfirst : first.toNat < 2 ^ 47) (monoNs : Int64) {t : ℤ}
    (ht : t = monoNs.toInt + (((cell * cellSamples).toNat : ℤ) - first.toNat) * 62500)
    (hrange : -2 ^ 63 ≤ t ∧ t < 2 ^ 63) : (timeOf first monoNs cell).toInt = t := by
  rw [timeOf, Int64.toInt_add, (toInt_offset hcell hfirst).2, ← ht]
  exact Int.bmod_eq_of_le (by omega) (by omega)

/-! ### Epochs -/

/-- The line of samples of an epoch; those of the first sample's cell before it are missing. -/
def epochLine (first : UInt64) (calls : List Call) : List Sample :=
  List.replicate (first.toNat % 512) .missing ++ accepted first calls

/-- The records the sink was handed in an epoch. -/
def epochRecords (maskFor : UInt64 → UInt64 → UInt8) (energyOf : UInt64 → ℕ → Int16)
    (a : Accumulator) (first : UInt64) (calls : List Call) : List (ℕ × Cell) :=
  ((a.reset first).run maskFor energyOf calls).2.flatMap Batch.records

theorem between_epoch (a : Accumulator) (first : UInt64) (calls : List Call) :
    Between maskFor energyOf (first.toNat / 512) (epochLine first calls)
      ((a.reset first).run maskFor energyOf calls).2
      ((a.reset first).run maskFor energyOf calls).1 :=
  (between_reset a first).run calls

theorem epochRecords_append (a : Accumulator) (first : UInt64) (before : List Call)
    {cs ds : List Call}
    (h : accepted ((a.reset first).run maskFor energyOf before).1.next cs =
      accepted ((a.reset first).run maskFor energyOf before).1.next ds) :
    epochRecords maskFor energyOf a first (before ++ cs) =
      epochRecords maskFor energyOf a first (before ++ ds) := by
  rw [epochRecords, epochRecords, run_append, run_append]
  exact (between_epoch a first before).records_congr h

end

end EchoMuse.Cells
