import Mathlib.Algebra.Order.Ring.Int
import Mathlib.Data.List.Basic
import Mathlib.Tactic.Ring

/-!
# Evidence of an Utterance

The speech worker and the transport deliver evidence for one utterance in whatever order their
jobs finish: the device's loudness cells, a speech probability and an echo label per cell, missing
ranges, and streaming ASR results. The assembler puts it back into sample order and releases each
cell once, when every input the plan requires for it is there, and each ASR result as a block
boundary between the cells it covers and those it does not.

## Main results

* `slotAt_updateSlot`, `pushValues_spec`: what values leave in the pending slots;
* `Push.apply_took`: what a call leaves in the assembler.
-/

namespace EchoMuse.Turn

/-- Samples in one analysis cell. -/
def cellSamples : ℕ := 512

/-- How far past the release point evidence may arrive before it is refused. -/
def maxCellsAhead : ℕ := 2000

/-- The cell holding a sample. -/
def cellOf (sample : ℕ) : ℕ := sample / cellSamples

/-- A cell's first sample. -/
def cellStart (c : ℕ) : ℕ := c * cellSamples

/-- The first sample after a cell. -/
def cellEnd (c : ℕ) : ℕ := (c + 1) * cellSamples

/-- A half-open range of samples. -/
structure SampleSpan where
  start : ℕ
  stop : ℕ
deriving DecidableEq

def SampleSpan.isEmpty (s : SampleSpan) : Bool := s.stop ≤ s.start

/-- The range overlaps a cell. -/
def SampleSpan.overlaps (s : SampleSpan) (c : ℕ) : Bool :=
  !s.isEmpty && decide (cellOf s.start ≤ c) && decide (c ≤ cellOf (s.stop - 1))

/-! ### Inputs -/

/-- One device loudness cell. -/
structure DeviceCell where
  /-- The loudness in hundredths of a dB. -/
  eCenti : ℤ
  gap : Bool
  muted : Bool
  /-- The final mix's active sources. -/
  sourceMask : ℕ
deriving DecidableEq

/-- The device's loudness input for one cell; `unknown` when it never sends one. -/
inductive DeviceInput
  | cell (d : DeviceCell)
  | unknown
deriving DecidableEq

/-- A speech probability: the bits of a single between 0 and 1. -/
structure Probability where
  bits : ℕ
  valid : bits ≤ 0x3F800000
deriving DecidableEq

/-- The VAD input for one cell. -/
inductive VadInput
  | probability (p : Probability)
  | unknown
deriving DecidableEq

/-- The per-cell echo comparison's result. -/
inductive EchoLabel
  | noReference | echoOnly | nearEndPresent | unknown
deriving DecidableEq

/-- How much of the final mix the uploaded reference covered. -/
inductive ReferenceCoverage
  | silent | full | partially | missing
deriving DecidableEq

structure EchoCell where
  label : EchoLabel
  coverage : ReferenceCoverage
deriving DecidableEq

/-- A cell with no reference evidence at all. -/
def EchoCell.missing : EchoCell := ⟨.unknown, .missing⟩

/-- One recognizer token and when it was emitted. -/
structure Token where
  text : String
  emitted : ℕ
deriving DecidableEq

/-- Which decode produced an ASR result. -/
inductive AsrKind
  | live | finalized
deriving DecidableEq

/-- One ASR result, covering the audio before the sample `through`. -/
structure AsrObservation where
  through : ℕ
  tokens : List Token
  trailingBlanks : ℕ
  kind : AsrKind
deriving DecidableEq

/-- Which inputs the plan requires, and from which cell on. -/
structure EvidencePlan where
  epoch : ℕ
  cellsFrom : ℕ
  vadFrom : ℕ
  analysisFrom : ℕ
deriving DecidableEq

/-- Why evidence is refused. -/
inductive EvidenceError
  | foreignEpoch (expected got : ℕ)
  | outsidePlan (cell : ℕ)
  | tooFarAhead (cell : ℕ)
  | conflict (cell : ℕ)
  | asrOutOfOrder (through : ℕ)
  | invalidPlan
deriving DecidableEq

/-! ### Releases -/

/-- What one released cell holds. -/
inductive CellAudio
  | gap (muted : Bool)
  | present (energyCenti : Option ℤ) (sourceMask : Option ℕ) (vad : VadInput) (echo : EchoCell)
deriving DecidableEq

/-- The inputs of a cell that is not released yet. -/
structure Slot where
  device : Option DeviceInput := none
  vad : Option VadInput := none
  echo : Option EchoCell := none
  gap : Bool := false
deriving DecidableEq

/-- The device reported a gap, or was muted. -/
def Slot.deviceGap (s : Slot) : Bool :=
  match s.device with
  | some (.cell d) => d.gap || d.muted
  | _ => false

/-- What a cell holds: a gap or muted record is a gap, a marked missing range is a gap, and
otherwise every absent input is unknown. -/
def CellAudio.fromInputs (s : Slot) : CellAudio :=
  let absent (device : Option DeviceCell) : CellAudio :=
    if s.gap then .gap false
    else .present (device.map (·.eCenti)) (device.map (·.sourceMask)) (s.vad.getD .unknown)
      (s.echo.getD .missing)
  match s.device with
  | some (.cell d) => if d.gap || d.muted then .gap d.muted else absent (some d)
  | _ => absent none

/-- One item of evidence, released in sample order. -/
inductive Released
  | cell (c : ℕ) (audio : CellAudio)
  | block (b : AsrObservation)
deriving DecidableEq

/-! ### The assembler -/

/-- Puts one utterance's evidence back into sample order. -/
structure EvidenceAssembler where
  plan : EvidencePlan
  /-- The next cell to release. -/
  next : ℕ
  /-- Pending inputs; entry `i` belongs to cell `next + i`. -/
  slots : List Slot
  /-- ASR results not yet released. -/
  blocks : List AsrObservation
  /-- What the newest accepted ASR result covers. -/
  lastThrough : Option ℕ
  /-- A gap cell of the utterance has been released, so its ASR stream has ended. -/
  asrClosed : Bool
deriving DecidableEq

/-- One input of a slot. -/
structure Field (α : Type) where
  get : Slot → Option α
  set : α → Slot → Slot

def deviceField : Field DeviceInput := ⟨Slot.device, fun v s => { s with device := some v }⟩

def vadField : Field VadInput := ⟨Slot.vad, fun v s => { s with vad := some v }⟩

def echoField : Field EchoCell := ⟨Slot.echo, fun v s => { s with echo := some v }⟩

namespace EvidenceAssembler

/-- An assembler for one utterance's plan. -/
def new (plan : EvidencePlan) : Except EvidenceError EvidenceAssembler :=
  if plan.vadFrom < plan.cellsFrom ∨ plan.analysisFrom < plan.vadFrom then .error .invalidPlan
  else .ok ⟨plan, plan.cellsFrom, [], [], none, false⟩

def checkEpoch (a : EvidenceAssembler) (epoch : ℕ) : Except EvidenceError Unit :=
  if epoch = a.plan.epoch then .ok () else .error (.foreignEpoch a.plan.epoch epoch)

/-- Checks that `n` cells from `first` may take an input that is required from `start` on, and
are not too far ahead. -/
def checkRange (a : EvidenceAssembler) (start first n : ℕ) : Except EvidenceError Unit :=
  if first < start then .error (.outsidePlan first)
  else if 0 < n ∧ a.next + maxCellsAhead ≤ first + (n - 1) then
    .error (.tooFarAhead (first + (n - 1)))
  else .ok ()

/-- Changes the slot of a cell not yet released, growing the queue as needed. -/
def updateSlot (a : EvidenceAssembler) (cell : ℕ) (f : Slot → Slot) : EvidenceAssembler :=
  let i := cell - a.next
  { a with slots := (a.slots ++ List.replicate (i + 1 - a.slots.length) ({} : Slot)).modify i f }

section

variable {α : Type} [DecidableEq α]

/-- A pending cell already holds another value. -/
def conflicts (a : EvidenceAssembler) (field : Field α) (p : ℕ × α) : Bool :=
  match (a.slots[p.1 - a.next]?).bind field.get with
  | some held => held ≠ p.2
  | none => false

/-- The source's `apply`: values for consecutive cells from `first` on. Inputs for released cells
are dropped, and a conflict applies nothing. -/
def applyValues (a : EvidenceAssembler) (field : Field α) (first : ℕ) (values : List α) :
    Except EvidenceError EvidenceAssembler :=
  let pending := (values.mapIdx fun i v => (first + i, v)).drop (a.next - first)
  match pending.find? (a.conflicts field) with
  | some p => .error (.conflict p.1)
  | none => .ok (pending.foldl (fun a p => a.updateSlot p.1 (field.set p.2)) a)

/-- Consecutive values of an input that is required from `start` on. -/
def pushValues (a : EvidenceAssembler) (field : Field α) (start epoch first : ℕ)
    (values : List α) : Except EvidenceError EvidenceAssembler := do
  a.checkEpoch epoch
  a.checkRange start first values.length
  a.applyValues field first values

end

/-- Adds the device's loudness cells. -/
def pushDeviceCells (a : EvidenceAssembler) (epoch first : ℕ) (cells : List DeviceInput) :
    Except EvidenceError EvidenceAssembler :=
  a.pushValues deviceField a.plan.cellsFrom epoch first cells

/-- Adds VAD results. -/
def pushVad (a : EvidenceAssembler) (epoch first : ℕ) (vad : List VadInput) :
    Except EvidenceError EvidenceAssembler :=
  a.pushValues vadField a.plan.vadFrom epoch first vad

/-- Adds echo results. -/
def pushEcho (a : EvidenceAssembler) (epoch first : ℕ) (echo : List EchoCell) :
    Except EvidenceError EvidenceAssembler :=
  a.pushValues echoField a.plan.analysisFrom epoch first echo

/-- Marks a missing range: every cell it overlaps becomes a gap, unless it is released. -/
def markGap (a : EvidenceAssembler) (epoch : ℕ) (span : SampleSpan) :
    Except EvidenceError EvidenceAssembler := do
  a.checkEpoch epoch
  if span.isEmpty then pure a
  else
    let first := max (max (cellOf span.start) a.next) a.plan.cellsFrom
    let last := cellOf (span.stop - 1)
    if last < first then pure a
    else
      a.checkRange first first (last - first + 1)
      pure ((List.range' first (last - first + 1)).foldl
        (fun a c => a.updateSlot c fun s => { s with gap := true }) a)

/-- Adds an ASR result; each covers more than the one before it, and some of the utterance. -/
def pushAsr (a : EvidenceAssembler) (epoch : ℕ) (obs : AsrObservation) :
    Except EvidenceError EvidenceAssembler := do
  a.checkEpoch epoch
  if obs.through ≤ cellStart a.plan.analysisFrom ∨
      ¬ a.lastThrough.all (fun t => t < obs.through) then
    .error (.asrOutOfOrder obs.through)
  else pure { a with lastThrough := some obs.through, blocks := a.blocks ++ [obs] }

/-- The utterance's ASR results cover the cell at the release point, or need not. -/
def asrCovers (a : EvidenceAssembler) : Bool :=
  a.next < a.plan.analysisFrom || a.asrClosed || a.lastThrough.any (cellEnd a.next ≤ ·)

/-- The slot `s` at the release point has every input the plan requires. -/
def slotReady (a : EvidenceAssembler) (s : Slot) : Bool :=
  s.gap || s.deviceGap ||
    (s.device.isSome && (a.next < a.plan.vadFrom || s.vad.isSome) &&
      (a.next < a.plan.analysisFrom || s.echo.isSome) && a.asrCovers)

/-- The cell at the release point can be released. -/
def frontReady (a : EvidenceAssembler) : Bool :=
  match a.slots with
  | [] => false
  | s :: _ => a.slotReady s

/-- Releases the cell at the release point, whose slot is `s`. -/
def releaseCell (a : EvidenceAssembler) (s : Slot) (rest : List Slot) : EvidenceAssembler :=
  { a with
    next := a.next + 1
    slots := rest
    asrClosed := a.asrClosed || (decide (a.plan.analysisFrom ≤ a.next) &&
      match CellAudio.fromInputs s with
      | .gap _ => true
      | .present .. => false) }

/-- The loop of `release`; each round takes a block or a slot off a queue. -/
def releaseLoop : ℕ → EvidenceAssembler → EvidenceAssembler × List Released
  | 0, a => (a, [])
  | fuel + 1, a =>
    let cell :=
      match a.slots with
      | [] => (a, [])
      | s :: rest =>
        if a.slotReady s then
          let (a', out) := releaseLoop fuel (a.releaseCell s rest)
          (a', .cell a.next (CellAudio.fromInputs s) :: out)
        else (a, [])
    match a.blocks with
    | [] => cell
    | b :: blocks =>
      if b.through < cellEnd a.next then
        let (a', out) := releaseLoop fuel { a with blocks := blocks }
        (a', .block b :: out)
      else cell

/-- Releases everything that is ready, in sample order. -/
def release (a : EvidenceAssembler) : EvidenceAssembler × List Released :=
  releaseLoop (a.slots.length + a.blocks.length) a

end EvidenceAssembler

/-! ### Runs -/

/-- A call on the assembler. -/
inductive Push
  | device (epoch first : ℕ) (values : List DeviceInput)
  | vad (epoch first : ℕ) (values : List VadInput)
  | echo (epoch first : ℕ) (values : List EchoCell)
  | gap (epoch : ℕ) (span : SampleSpan)
  | asr (epoch : ℕ) (obs : AsrObservation)
  | release

/-- What a call leaves, and what it releases. -/
def Push.apply (a : EvidenceAssembler) : Push →
    Except EvidenceError (EvidenceAssembler × List Released)
  | .device epoch first values => (a.pushDeviceCells epoch first values).map (·, [])
  | .vad epoch first values => (a.pushVad epoch first values).map (·, [])
  | .echo epoch first values => (a.pushEcho epoch first values).map (·, [])
  | .gap epoch span => (a.markGap epoch span).map (·, [])
  | .asr epoch obs => (a.pushAsr epoch obs).map (·, [])
  | .release => .ok a.release

/-- Calls one after the other, none of them refused. -/
def runFrom (a : EvidenceAssembler) : List Push →
    Except EvidenceError (EvidenceAssembler × List Released)
  | [] => .ok (a, [])
  | p :: ps => do
    let (a', out) ← p.apply a
    let (a'', out') ← runFrom a' ps
    pure (a'', out ++ out')

/-- Everything an utterance releases: the calls, and a release behind them. -/
def total (plan : EvidencePlan) (ps : List Push) : Except EvidenceError (List Released) := do
  let a ← EvidenceAssembler.new plan
  let (a', out) ← runFrom a ps
  pure (out ++ a'.release.2)

/-! ### Pending slots -/

/-- The value that consecutive values from `first` on have for a cell. -/
def valueAt {α : Type} (first : ℕ) (values : List α) (c : ℕ) : Option α :=
  if first ≤ c then values[c - first]? else none

namespace EvidenceAssembler

variable {a : EvidenceAssembler} {c cell : ℕ}

/-- The inputs of a cell that is not released yet. -/
def slotAt (a : EvidenceAssembler) (c : ℕ) : Slot := (a.slots[c - a.next]?).getD {}

@[simp] theorem updateSlot_next (f : Slot → Slot) : (a.updateSlot cell f).next = a.next := rfl

/-- What growing the queue leaves at a position. -/
theorem getD_grow (slots : List Slot) (n i : ℕ) :
    ((slots ++ List.replicate n ({} : Slot))[i]?).getD {} = (slots[i]?).getD {} := by
  rw [List.getElem?_append]
  by_cases h : i < slots.length
  · rw [if_pos h]
  · rw [if_neg h, List.getElem?_replicate, List.getElem?_eq_none (not_lt.mp h)]
    split <;> rfl

/-- What a change of one slot leaves at a cell. -/
theorem slotAt_updateSlot (f : Slot → Slot) (hcell : a.next ≤ cell) (hc : a.next ≤ c) :
    (a.updateSlot cell f).slotAt c = if c = cell then f (a.slotAt cell) else a.slotAt c := by
  unfold slotAt updateSlot
  dsimp only
  rw [List.getElem?_modify]
  by_cases h : c = cell
  · have hlen : c - a.next <
        (a.slots ++ List.replicate (c - a.next + 1 - a.slots.length) ({} : Slot)).length := by
      rw [List.length_append, List.length_replicate]
      omega
    rw [if_pos h, ← h, ← getD_grow a.slots (c - a.next + 1 - a.slots.length),
      List.getElem?_eq_getElem hlen]
    simp
  · have hne : ¬ cell - a.next = c - a.next := by omega
    rw [if_neg h, ← getD_grow a.slots (cell - a.next + 1 - a.slots.length)]
    simp [hne]

/-! ### What a push leaves -/

theorem valueAt_cons {α : Type} (base : ℕ) (v : α) (values : List α) (c : ℕ) :
    valueAt base (v :: values) c = if c = base then some v else valueAt (base + 1) values c := by
  unfold valueAt
  rcases lt_trichotomy c base with h | h | h
  · rw [if_neg (by omega), if_neg (by omega), if_neg (by omega)]
  · rw [if_pos h.ge, if_pos h, h, Nat.sub_self]
    rfl
  · rw [if_pos h.le, if_neg h.ne', if_pos (by omega),
      show c - base = c - (base + 1) + 1 from by omega]
    rfl

/-- The values of the cells that are not released yet. -/
theorem drop_mapIdx {α : Type} (first skip : ℕ) (values : List α) :
    (values.mapIdx fun i v => (first + i, v)).drop skip =
      (values.drop skip).mapIdx fun i v => (first + skip + i, v) := by
  refine List.ext_getElem? fun i => ?_
  simp [List.getElem?_drop, Nat.add_assoc]

theorem valueAt_drop {α : Type} {first next c : ℕ} (values : List α) (hc : next ≤ c) :
    valueAt (first + (next - first)) (values.drop (next - first)) c = valueAt first values c := by
  unfold valueAt
  by_cases h : first ≤ c
  · rw [if_pos (by omega), if_pos h, List.getElem?_drop]
    congr 1
    omega
  · rw [if_neg (by omega), if_neg h]

/-- What consecutive values from `base` on leave at a cell. -/
theorem slotAt_foldl {α : Type} (field : Field α) (values : List α) {base : ℕ}
    (hbase : a.next ≤ base) (hc : a.next ≤ c) :
    ((values.mapIdx fun i v => (base + i, v)).foldl
      (fun a p => a.updateSlot p.1 (field.set p.2)) a).slotAt c =
        ((valueAt base values c).map field.set).elim id id (a.slotAt c) := by
  induction values generalizing a base with
  | nil => simp [valueAt]
  | cons v values ih =>
      have hshift : (fun i v => ((base + (i + 1), v) : ℕ × α)) =
          fun i v => (base + 1 + i, v) := by
        funext i v
        rw [Nat.add_assoc, Nat.add_comm 1 i]
      rw [List.mapIdx_cons, List.foldl_cons, hshift,
        ih (a := a.updateSlot (base + 0) (field.set v)) (by simp; omega) hc,
        slotAt_updateSlot _ (by omega) hc, valueAt_cons]
      simp only [Nat.add_zero]
      by_cases h : c = base
      · have hnone : valueAt (base + 1) values c = none := if_neg (by omega)
        rw [if_pos h, if_pos h, hnone, h]
        rfl
      · rw [if_neg h, if_neg h]

/-- Changing slots changes nothing else. -/
theorem foldl_updateSlot_rest {β : Type} (cell : β → ℕ) (f : β → Slot → Slot) (cells : List β) :
    ∃ slots, cells.foldl (fun a p => a.updateSlot (cell p) (f p)) a = { a with slots := slots } := by
  induction cells generalizing a with
  | nil => exact ⟨a.slots, rfl⟩
  | cons p cells ih =>
      obtain ⟨slots, hslots⟩ := ih (a := a.updateSlot (cell p) (f p))
      exact ⟨slots, hslots⟩

/-- A batch that is not refused puts its values into the slots. -/
theorem pushValues_spec {α : Type} [DecidableEq α] {field : Field α} {start epoch first : ℕ}
    {values : List α} {a' : EvidenceAssembler}
    (h : a.pushValues field start epoch first values = .ok a') :
    (∃ slots, a' = { a with slots := slots }) ∧ ∀ c, a.next ≤ c →
      a'.slotAt c = ((valueAt first values c).map field.set).elim id id (a.slotAt c) := by
  unfold pushValues checkEpoch checkRange at h
  by_cases hepoch : epoch = a.plan.epoch
  swap
  · rw [if_neg hepoch] at h
    cases h
  by_cases hstart : first < start
  · rw [if_pos hepoch, if_pos hstart] at h
    cases h
  by_cases hfar : 0 < values.length ∧ a.next + maxCellsAhead ≤ first + (values.length - 1)
  · rw [if_pos hepoch, if_neg hstart, if_pos hfar] at h
    cases h
  rw [if_pos hepoch, if_neg hstart, if_neg hfar] at h
  change a.applyValues field first values = .ok a' at h
  unfold applyValues at h
  dsimp only at h
  split at h
  · cases h
  · cases h
    refine ⟨foldl_updateSlot_rest Prod.fst (fun p => field.set p.2) _, fun c hc => ?_⟩
    rw [drop_mapIdx, slotAt_foldl field _ (by omega) hc, valueAt_drop values hc]

/-- A batch of the plan's epoch and cells, not too far ahead, is accepted unless a cell holds
another value. -/
theorem pushValues_ok {α : Type} [DecidableEq α] {field : Field α} {start epoch first : ℕ}
    {values : List α} (hepoch : epoch = a.plan.epoch) (hstart : start ≤ first)
    (hfar : 0 < values.length → first + values.length ≤ a.next + maxCellsAhead)
    (hheld : ∀ c v held, a.next ≤ c → valueAt first values c = some v →
      field.get (a.slotAt c) = some held → held = v) :
    ∃ a', a.pushValues field start epoch first values = .ok a' := by
  unfold pushValues checkEpoch checkRange
  rw [if_pos hepoch, if_neg (by omega), if_neg (by omega)]
  change ∃ a', a.applyValues field first values = .ok a'
  unfold applyValues
  dsimp only
  split
  · rename_i p hfind
    exfalso
    have hmem := List.mem_of_find?_eq_some hfind
    have hconflict := List.find?_some hfind
    obtain ⟨i, hi, heq⟩ := List.getElem_of_mem hmem
    rw [List.getElem_drop, List.getElem_mapIdx] at heq
    rw [List.length_drop, List.length_mapIdx] at hi
    obtain ⟨cell, v⟩ := p
    obtain ⟨rfl, hv⟩ := Prod.mk.inj heq
    unfold conflicts at hconflict
    dsimp only at hconflict
    cases hslot : a.slots[first + (a.next - first + i) - a.next]? with
    | none =>
        rw [hslot] at hconflict
        cases hconflict
    | some s =>
        rw [hslot, Option.bind_some] at hconflict
        have hat : a.slotAt (first + (a.next - first + i)) = s := by
          unfold slotAt
          rw [hslot]
          rfl
        have hval : valueAt first values (first + (a.next - first + i)) = some v := by
          unfold valueAt
          rw [if_pos (by omega), show first + (a.next - first + i) - first =
            a.next - first + i from by omega, List.getElem?_eq_getElem (by omega), hv]
        cases hget : field.get s with
        | none =>
            rw [hget] at hconflict
            cases hconflict
        | some held =>
            rw [hget] at hconflict
            have hne := of_decide_eq_true hconflict
            exact hne (hheld _ v held (by omega) hval (by rw [hat, hget]))
  · exact ⟨_, rfl⟩

/-- What marking a range of cells leaves at a cell. -/
theorem slotAt_marks {first n : ℕ} (hfirst : a.next ≤ first) (hc : a.next ≤ c) :
    ((List.range' first n).foldl
      (fun a c => a.updateSlot c fun s => { s with gap := true }) a).slotAt c =
        if first ≤ c ∧ c < first + n then { a.slotAt c with gap := true } else a.slotAt c := by
  induction n generalizing a first with
  | zero => rw [if_neg (by omega)]; rfl
  | succ n ih =>
      rw [List.range'_succ, List.foldl_cons,
        ih (a := a.updateSlot first _) (by simp; omega) hc, slotAt_updateSlot _ hfirst hc]
      by_cases h : c = first
      · rw [if_neg (by omega), if_pos h, if_pos (by omega), h]
      · rw [if_neg h]
        by_cases h' : first + 1 ≤ c ∧ c < first + 1 + n
        · rw [if_pos h', if_pos (by omega)]
        · rw [if_neg h', if_neg (by omega)]

/-- A missing range that is not refused marks the cells it overlaps. -/
theorem markGap_spec {epoch : ℕ} {span : SampleSpan} {a' : EvidenceAssembler}
    (h : a.markGap epoch span = .ok a') (hplan : a.plan.cellsFrom ≤ a.next) :
    (∃ slots, a' = { a with slots := slots }) ∧ ∀ c, a.next ≤ c →
      a'.slotAt c = { a.slotAt c with gap := (a.slotAt c).gap || span.overlaps c } := by
  have hkeep (s : Slot) : s = { s with gap := s.gap || false } := by rw [Bool.or_false]
  unfold markGap checkEpoch at h
  by_cases hepoch : epoch = a.plan.epoch
  swap
  · rw [if_neg hepoch] at h
    cases h
  rw [if_pos hepoch] at h
  change (if span.isEmpty = true then _ else _) = _ at h
  cases hempty : span.isEmpty with
  | true =>
      rw [if_pos hempty] at h
      cases h
      refine ⟨⟨a.slots, rfl⟩, fun c _ => ?_⟩
      rw [show span.overlaps c = false from by simp [SampleSpan.overlaps, hempty]]
      exact hkeep _
  | false =>
      rw [if_neg (by simp [hempty])] at h
      set first := max (max (cellOf span.start) a.next) a.plan.cellsFrom with hfirst
      by_cases hlast : cellOf (span.stop - 1) < first
      · rw [if_pos hlast] at h
        cases h
        refine ⟨⟨a.slots, rfl⟩, fun c hc => ?_⟩
        rw [show span.overlaps c = false from by simp [SampleSpan.overlaps, hempty]; omega]
        exact hkeep _
      · rw [if_neg hlast] at h
        unfold checkRange at h
        rw [if_neg (lt_irrefl _)] at h
        by_cases hfar : 0 < cellOf (span.stop - 1) - first + 1 ∧
            a.next + maxCellsAhead ≤ first + (cellOf (span.stop - 1) - first + 1 - 1)
        · rw [if_pos hfar] at h
          cases h
        · rw [if_neg hfar] at h
          cases h
          refine ⟨foldl_updateSlot_rest id (fun _ s => { s with gap := true }) _, fun c hc => ?_⟩
          rw [slotAt_marks (by omega) hc]
          by_cases hin : first ≤ c ∧ c < first + (cellOf (span.stop - 1) - first + 1)
          · rw [if_pos hin, show span.overlaps c = true from by
              simp [SampleSpan.overlaps, hempty]; omega, Bool.or_true]
          · rw [if_neg hin, show span.overlaps c = false from by
              simp [SampleSpan.overlaps, hempty]; omega]
            exact hkeep _

/-- A missing range of the plan's epoch that is not too far ahead is accepted. -/
theorem markGap_ok {epoch : ℕ} {span : SampleSpan} (hepoch : epoch = a.plan.epoch)
    (hfar : span.isEmpty = false → cellOf (span.stop - 1) < a.next + maxCellsAhead) :
    ∃ a', a.markGap epoch span = .ok a' := by
  unfold markGap checkEpoch
  rw [if_pos hepoch]
  change ∃ a', (if span.isEmpty = true then _ else _) = _
  cases hempty : span.isEmpty with
  | true => exact ⟨a, rfl⟩
  | false =>
      have hlt := hfar hempty
      rw [if_neg Bool.false_ne_true]
      set first := max (max (cellOf span.start) a.next) a.plan.cellsFrom
      by_cases hlast : cellOf (span.stop - 1) < first
      · rw [if_pos hlast]
        exact ⟨a, rfl⟩
      · rw [if_neg hlast]
        unfold checkRange
        rw [if_neg (lt_irrefl _), if_neg (by omega)]
        exact ⟨_, rfl⟩

/-- An ASR result that is not refused covers more of the utterance, and is queued. -/
theorem pushAsr_spec {epoch : ℕ} {obs : AsrObservation} {a' : EvidenceAssembler}
    (h : a.pushAsr epoch obs = .ok a') :
    a' = { a with lastThrough := some obs.through, blocks := a.blocks ++ [obs] } ∧
      cellStart a.plan.analysisFrom < obs.through ∧
        ∀ t, a.lastThrough = some t → t < obs.through := by
  unfold pushAsr checkEpoch at h
  by_cases hepoch : epoch = a.plan.epoch
  swap
  · rw [if_neg hepoch] at h
    cases h
  rw [if_pos hepoch] at h
  by_cases horder : obs.through ≤ cellStart a.plan.analysisFrom ∨
      ¬ a.lastThrough.all (fun t => t < obs.through)
  · change (if _ then _ else _) = _ at h
    rw [if_pos horder] at h
    cases h
  · change (if _ then _ else _) = _ at h
    rw [if_neg horder] at h
    cases h
    rw [not_or, not_le, not_not] at horder
    refine ⟨rfl, horder.1, fun t ht => ?_⟩
    simpa [ht] using horder.2

/-- An ASR result that covers more of the utterance is accepted. -/
theorem pushAsr_ok {epoch : ℕ} {obs : AsrObservation} (hepoch : epoch = a.plan.epoch)
    (hstart : cellStart a.plan.analysisFrom < obs.through)
    (hlast : ∀ t, a.lastThrough = some t → t < obs.through) :
    ∃ a', a.pushAsr epoch obs = .ok a' := by
  unfold pushAsr checkEpoch
  rw [if_pos hepoch]
  change ∃ a', (if obs.through ≤ cellStart a.plan.analysisFrom ∨
    ¬ a.lastThrough.all (fun t => t < obs.through) = true then _ else _) = Except.ok a'
  rw [if_neg]
  · exact ⟨_, rfl⟩
  · rintro (h | h)
    · omega
    · refine h ?_
      cases ht : a.lastThrough with
      | none => rfl
      | some t => simpa using hlast t ht

end EvidenceAssembler

/-! ### Facts -/

namespace Push

/-- The device input that a call has for a cell. -/
def deviceAt : Push → ℕ → Option DeviceInput
  | .device _ first values, c => valueAt first values c
  | _, _ => none

/-- The VAD input that a call has for a cell. -/
def vadAt : Push → ℕ → Option VadInput
  | .vad _ first values, c => valueAt first values c
  | _, _ => none

/-- The echo input that a call has for a cell. -/
def echoAt : Push → ℕ → Option EchoCell
  | .echo _ first values, c => valueAt first values c
  | _, _ => none

/-- A call marks a cell as a gap. -/
def gapAt : Push → ℕ → Bool
  | .gap _ span, c => span.overlaps c
  | _, _ => false

/-- The ASR result of a call. -/
def asr? : Push → Option AsrObservation
  | .asr _ obs => some obs
  | _ => none

end Push

/-- A slot with the facts of one more call. -/
def Slot.add (s : Slot) (p : Push) (c : ℕ) : Slot where
  device := (p.deviceAt c).or s.device
  vad := (p.vadAt c).or s.vad
  echo := (p.echoAt c).or s.echo
  gap := s.gap || p.gapAt c

/-- What a call that is not refused leaves, a release apart. -/
structure EvidenceAssembler.Took (a : EvidenceAssembler) (p : Push) (a' : EvidenceAssembler) :
    Prop where
  plan : a'.plan = a.plan
  next : a'.next = a.next
  closed : a'.asrClosed = a.asrClosed
  blocks : a'.blocks = a.blocks ++ p.asr?.toList
  through : a'.lastThrough = (p.asr?.map (·.through)).or a.lastThrough
  inside : ∀ o, p.asr? = some o → cellStart a.plan.analysisFrom < o.through
  more : ∀ o, p.asr? = some o → ∀ t, a.lastThrough = some t → t < o.through
  slots : ∀ c, a.next ≤ c → a'.slotAt c = (a.slotAt c).add p c

/-- Only a release releases. -/
theorem Push.apply_out {a a' : EvidenceAssembler} {p : Push} {out : List Released}
    (h : p.apply a = .ok (a', out)) (hp : p ≠ .release) : out = [] := by
  have hmap {r : Except EvidenceError EvidenceAssembler}
      (hr : r.map (fun a => (a, ([] : List Released))) = .ok (a', out)) : out = [] := by
    cases r with
    | error e => cases hr
    | ok a₁ =>
        cases hr
        rfl
  cases p with
  | release => exact absurd rfl hp
  | _ => exact hmap h

/-- A call that is not refused adds its facts to the pending slots and queues its ASR result. -/
theorem Push.apply_took {a a' : EvidenceAssembler} {p : Push} {out : List Released}
    (h : p.apply a = .ok (a', out)) (hp : p ≠ .release) (hplan : a.plan.cellsFrom ≤ a.next) :
    a.Took p a' := by
  have hmap {r : Except EvidenceError EvidenceAssembler}
      (hr : r.map (fun a => (a, ([] : List Released))) = .ok (a', out)) : r = .ok a' := by
    cases r with
    | error e => cases hr
    | ok a₁ =>
        cases hr
        rfl
  cases p with
  | device epoch first values =>
      have hr := hmap h
      obtain ⟨⟨slots, rfl⟩, hslots⟩ := EvidenceAssembler.pushValues_spec hr
      refine ⟨rfl, rfl, rfl, (List.append_nil _).symm, rfl, nofun, nofun, fun c hc => ?_⟩
      rw [hslots c hc, Slot.add]
      cases hv : valueAt first values c <;>
        simp [deviceAt, vadAt, echoAt, gapAt, hv, deviceField]
  | vad epoch first values =>
      have hr := hmap h
      obtain ⟨⟨slots, rfl⟩, hslots⟩ := EvidenceAssembler.pushValues_spec hr
      refine ⟨rfl, rfl, rfl, (List.append_nil _).symm, rfl, nofun, nofun, fun c hc => ?_⟩
      rw [hslots c hc, Slot.add]
      cases hv : valueAt first values c <;>
        simp [deviceAt, vadAt, echoAt, gapAt, hv, vadField]
  | echo epoch first values =>
      have hr := hmap h
      obtain ⟨⟨slots, rfl⟩, hslots⟩ := EvidenceAssembler.pushValues_spec hr
      refine ⟨rfl, rfl, rfl, (List.append_nil _).symm, rfl, nofun, nofun, fun c hc => ?_⟩
      rw [hslots c hc, Slot.add]
      cases hv : valueAt first values c <;>
        simp [deviceAt, vadAt, echoAt, gapAt, hv, echoField]
  | gap epoch span =>
      have hr := hmap h
      obtain ⟨⟨slots, rfl⟩, hslots⟩ := EvidenceAssembler.markGap_spec hr hplan
      refine ⟨rfl, rfl, rfl, (List.append_nil _).symm, rfl, nofun, nofun, fun c hc => ?_⟩
      rw [hslots c hc, Slot.add]
      simp [deviceAt, vadAt, echoAt, gapAt]
  | asr epoch obs =>
      have hr := hmap h
      obtain ⟨rfl, hinside, hmore⟩ := EvidenceAssembler.pushAsr_spec hr
      refine ⟨rfl, rfl, rfl, rfl, rfl, ?_, ?_, fun c hc => ?_⟩
      · rintro o ⟨⟩
        exact hinside
      · rintro o ⟨⟩
        exact hmore
      change a.slotAt c = _
      simp [Slot.add, deviceAt, vadAt, echoAt, gapAt]
  | release => exact absurd rfl hp

end EchoMuse.Turn
