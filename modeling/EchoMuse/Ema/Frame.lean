import EchoMuse.Bytes

/-!
# EMA1 Frames, the Controller's Codec

A frame is a 64-byte little-endian header followed by PCM16 samples, cell records or AFE
records. This module is the controller's `protocol/src/ema.rs`: the vocabulary (`Kind`,
`Flags`, `SourceMask`), the two record grammars (`Cell`, `AfeRecord`), the header rules
(`RawHeader.check`), the decoder `Packet.parse` and the encoders `encode` and
`encodeRender`.

Bytes are `UInt8`, and every field has the width it has on the wire. A `Packet` can only be
what `Packet.parse` returns: its last four fields say that its header passes every rule for
its payload, that its samples do not run past `2 ^ 64 - 1`, and that its records are valid.
-/

namespace EchoMuse.Ema

/-- The fixed header length in bytes. -/
def HEADER_BYTES : ℕ := 64

/-- The ASCII tag `EMA1` at offset 0. -/
def MAGIC : List UInt8 := [0x45, 0x4D, 0x41, 0x31]

/-- The timing uncertainty value that means "unknown". -/
def UNCERTAINTY_UNKNOWN : UInt32 := 0xFFFFFFFF

/-- The sample rate of mic, reference, cells and AFE packets. -/
def CAPTURE_RATE : UInt32 := 16000

/-- The sample rate of render packets. -/
def RENDER_RATE : UInt32 := 48000

/-- Capture samples one cell record covers. -/
def CELL_SAMPLES : ℕ := 512

/-- Capture samples one AFE record covers. -/
def AFE_PERIOD_SAMPLES : ℕ := 1280

/-- Bytes per cell record. -/
def CELL_RECORD_BYTES : ℕ := 4

/-- Bytes per AFE record. -/
def AFE_RECORD_BYTES : ℕ := 14

/-! ### Kinds, flags and masks -/

/-- The payload encoding (offset 7). -/
inductive Format
  | pcm16
  | cellV1
  | afeV1
  deriving DecidableEq, Repr

/-- The number of a format on the wire. -/
def Format.toU8 : Format → UInt8
  | .pcm16 => 1
  | .cellV1 => 2
  | .afeV1 => 3

/-- What a frame carries (offset 4). -/
inductive Kind
  | mic
  | reference
  | render
  | cells
  | afe
  deriving DecidableEq, Repr

namespace Kind

/-- The number of a kind on the wire. -/
def toU8 : Kind → UInt8
  | .mic => 1
  | .reference => 2
  | .render => 3
  | .cells => 4
  | .afe => 5

/-- The kind numbered `value`, if any. -/
def fromU8 (value : UInt8) : Option Kind :=
  if value = 1 then some .mic
  else if value = 2 then some .reference
  else if value = 3 then some .render
  else if value = 4 then some .cells
  else if value = 5 then some .afe
  else none

/-- The only payload format this kind may carry. -/
def format : Kind → Format
  | .cells => .cellV1
  | .afe => .afeV1
  | .mic | .reference | .render => .pcm16

/-- The only sample rate this kind may carry. -/
def sampleRate : Kind → UInt32
  | .render => RENDER_RATE
  | _ => CAPTURE_RATE

/-- The most frames one packet of this kind may carry. -/
def maxFrames : Kind → UInt32
  | .mic | .reference => 1280
  | .render => 3840
  | .cells => 320
  | .afe => 125

/-- The stream samples one frame of this kind stands for. -/
def samplesPerFrame : Kind → ℕ
  | .cells => CELL_SAMPLES
  | .afe => AFE_PERIOD_SAMPLES
  | .mic | .reference | .render => 1

end Kind

/-- Header flag bits (offset 5). -/
structure Flags where
  bits : UInt8
  deriving DecidableEq, Repr

namespace Flags

def NONE : Flags := ⟨0⟩
/-- Audio before this packet is missing. -/
def DISCONTINUITY : Flags := ⟨1⟩
def MUTED : Flags := ⟨2⟩
def UNDERRUN : Flags := ⟨4⟩
def ESTIMATED : Flags := ⟨8⟩
/-- Every sample is zero and the payload is omitted (kind 2 only). -/
def DIGITAL_SILENCE : Flags := ⟨16⟩
def KNOWN : UInt8 := 0x1F

/-- The flags of `bits`, or `none` when an undefined bit is set. -/
def fromBits (bits : UInt8) : Option Flags :=
  if bits &&& ~~~KNOWN = 0 then some ⟨bits⟩ else none

/-- Whether every flag of `other` is set. -/
def contains (self other : Flags) : Bool :=
  self.bits &&& other.bits = other.bits

end Flags

/-- The final mix's active sources (header offset 56 on kind 2, cell byte 3). -/
structure SourceMask where
  bits : UInt8
  deriving DecidableEq, Repr

namespace SourceMask

def NONE : SourceMask := ⟨0⟩
def KNOWN : UInt32 := 0xF

/-- The mask of `bits`, or `none` when an undefined bit is set. -/
def fromBits (bits : UInt32) : Option SourceMask :=
  if bits &&& ~~~KNOWN = 0 then some ⟨bits.toUInt8⟩ else none

end SourceMask

/-- The exact payload length of `frames` frames with `flags`. -/
def Kind.payloadBytes (kind : Kind) (flags : Flags) (frames : UInt32) : ℕ :=
  match kind with
  | .cells => frames.toNat * CELL_RECORD_BYTES
  | .afe => frames.toNat * AFE_RECORD_BYTES
  | _ => if flags.contains Flags.DIGITAL_SILENCE then 0 else frames.toNat * 2

/-! ### Cell and AFE records -/

/-- Cell record flags (cell byte 2). -/
structure CellFlags where
  bits : UInt8
  deriving DecidableEq, Repr

namespace CellFlags

def NONE : CellFlags := ⟨0⟩
/-- The cell overlaps a missing range; its loudness is then −120 dB. -/
def GAP : CellFlags := ⟨1⟩
def MUTED : CellFlags := ⟨2⟩
def KNOWN : UInt8 := 0x3

/-- The flags of `bits`, or `none` when an undefined bit is set. -/
def fromBits (bits : UInt8) : Option CellFlags :=
  if bits &&& ~~~KNOWN = 0 then some ⟨bits⟩ else none

/-- Whether every flag of `other` is set. -/
def contains (self other : CellFlags) : Bool :=
  self.bits &&& other.bits = other.bits

end CellFlags

/-- Why a cell record is invalid. -/
inductive CellError
  | loudness (e : Int16)
  | undefinedFlags (bits : UInt8)
  | undefinedSources (bits : UInt8)
  | gapLoudness (e : Int16)
  deriving DecidableEq, Repr

/-- One 512-sample loudness record. -/
structure Cell where
  eCenti : Int16
  flags : CellFlags
  mask : SourceMask
  deriving DecidableEq, Repr

namespace Cell

/-- The lowest loudness, and the loudness of every gap cell. -/
def E_MIN : Int16 := -12000
/-- The highest loudness. -/
def E_MAX : Int16 := 0

/-- The little-endian 16-bit integer two bytes spell. -/
def i16FromLe (lo hi : UInt8) : Int16 :=
  (UInt16.ofNat (leNat [lo, hi])).toInt16

/-- Reads the four bytes of a record as they are. -/
def fromBytes (raw : List UInt8) : Cell where
  eCenti := i16FromLe (raw.getD 0 0) (raw.getD 1 0)
  flags := ⟨raw.getD 2 0⟩
  mask := ⟨raw.getD 3 0⟩

/-- Decodes and validates one record. -/
def parse (raw : List UInt8) : Except CellError Cell :=
  let cell := fromBytes raw
  if ¬(E_MIN ≤ cell.eCenti ∧ cell.eCenti ≤ E_MAX) then .error (.loudness cell.eCenti)
  else if (CellFlags.fromBits (raw.getD 2 0)).isNone then
    .error (.undefinedFlags (raw.getD 2 0))
  else if (SourceMask.fromBits (raw.getD 3 0).toUInt32).isNone then
    .error (.undefinedSources (raw.getD 3 0))
  else if cell.flags.contains CellFlags.GAP ∧ cell.eCenti ≠ E_MIN then
    .error (.gapLoudness cell.eCenti)
  else .ok cell

/-- The record's four wire bytes. -/
def toBytes (c : Cell) : List UInt8 :=
  leBytes 2 c.eCenti.toUInt16.toNat ++ [c.flags.bits, c.mask.bits]

end Cell

/-- AFE record flags (record byte 1). -/
structure AfeFlags where
  bits : UInt8
  deriving DecidableEq, Repr

namespace AfeFlags

def NONE : AfeFlags := ⟨0⟩
def KNOWN : UInt8 := 0x3F

/-- The flags of `bits`, or `none` when a reserved bit is set. -/
def fromBits (bits : UInt8) : Option AfeFlags :=
  if bits &&& ~~~KNOWN = 0 then some ⟨bits⟩ else none

end AfeFlags

/-- Why an AFE record is invalid. -/
inductive AfeError
  | reservedFlags (bits : UInt8)
  | outOfRange (field : String) (value max : UInt8)
  deriving DecidableEq, Repr

/-- One capture period's summary of the native AFE metadata. -/
structure AfeRecord where
  frames : UInt8
  flags : AfeFlags
  playback : UInt8
  erleMax : UInt8
  erleMean : UInt8
  erleFrames : UInt8
  dtdMax : UInt8
  dtdFrames : UInt8
  rmsMax : UInt8
  rmsMean : UInt8
  vadMax : UInt8
  vadFrames : UInt8
  volume : UInt8
  lost : UInt8
  deriving DecidableEq, Repr

namespace AfeRecord

/-- The most AFE frames one period holds. -/
def MAX_FRAMES : UInt8 := 10
/-- The highest double-talk value. -/
def DTD_MAX : UInt8 := 31
/-- The highest DNN VAD value. -/
def VAD_MAX : UInt8 := 3
/-- The highest volume. -/
def VOLUME_MAX : UInt8 := 127

/-- The all-zero record, a period with no data. -/
def default : AfeRecord :=
  ⟨0, AfeFlags.NONE, 0, 0, 0, 0, 0, 0, 0, 0, 0, 0, 0, 0⟩

/-- Reads the fourteen bytes of a record as they are. -/
def fromBytes (b : List UInt8) : AfeRecord where
  frames := b.getD 0 0
  flags := ⟨b.getD 1 0⟩
  playback := b.getD 2 0
  erleMax := b.getD 3 0
  erleMean := b.getD 4 0
  erleFrames := b.getD 5 0
  dtdMax := b.getD 6 0
  dtdFrames := b.getD 7 0
  rmsMax := b.getD 8 0
  rmsMean := b.getD 9 0
  vadMax := b.getD 10 0
  vadFrames := b.getD 11 0
  volume := b.getD 12 0
  lost := b.getD 13 0

/-- The bounds `parse` checks, in its order: wire name, value, highest value. -/
def bounds (r : AfeRecord) : List (String × UInt8 × UInt8) :=
  [("frames", r.frames, MAX_FRAMES),
   ("playback", r.playback, r.frames),
   ("erle_frames", r.erleFrames, r.frames),
   ("dtd_frames", r.dtdFrames, r.frames),
   ("vad_frames", r.vadFrames, r.frames),
   ("dtd_max", r.dtdMax, DTD_MAX),
   ("vad_max", r.vadMax, VAD_MAX),
   ("volume", r.volume, VOLUME_MAX)]

/-- Decodes and validates one record. -/
def parse (raw : List UInt8) : Except AfeError AfeRecord :=
  if (AfeFlags.fromBits (raw.getD 1 0)).isNone then .error (.reservedFlags (raw.getD 1 0))
  else
    let r := fromBytes raw
    match r.bounds.find? fun b => b.2.1 > b.2.2 with
    | some (field, value, max) => .error (.outOfRange field value max)
    | none => .ok r

/-- The record's fourteen wire bytes. -/
def toBytes (r : AfeRecord) : List UInt8 :=
  [r.frames, r.flags.bits, r.playback, r.erleMax, r.erleMean, r.erleFrames, r.dtdMax,
   r.dtdFrames, r.rmsMax, r.rmsMean, r.vadMax, r.vadFrames, r.volume, r.lost]

end AfeRecord

/-! ### The header -/

/-- Why a frame is malformed. -/
inductive FrameError
  | short (len : ℕ)
  | magic (tag : List UInt8)
  | kind (value : UInt8)
  | undefinedFlags (bits : UInt8)
  | digitalSilenceOutsideReference (kind : Kind)
  | channels (value : UInt8)
  | format (kind : Kind) (format : UInt8)
  | zeroEpoch
  | sampleRate (kind : Kind) (rate : UInt32)
  | frameCount (kind : Kind) (count : UInt32)
  | generation (kind : Kind) (generation : UInt32)
  | sourceMask (kind : Kind) (mask : UInt32)
  | cellAlignment (first : UInt64)
  | afeAlignment (first : UInt64)
  | payloadBytes (expected : ℕ) (header : UInt32)
  | frameLength (header : UInt32) (actual : ℕ)
  | sampleOverflow
  | cell (index : ℕ) (error : CellError)
  | afe (index : ℕ) (error : AfeError)
  | uncertaintySentinel
  | payloadTooLong (len : ℕ)
  deriving DecidableEq, Repr

/-- One EMA1 header. Channels, format and sample rate follow from `kind`. -/
structure Header where
  kind : Kind
  flags : Flags
  epoch : UInt64
  sequence : UInt64
  firstSample : UInt64
  monoNs : UInt64
  uncertaintyUs : Option UInt32
  frameCount : UInt32
  generation : UInt32
  sourceMask : SourceMask
  deriving DecidableEq, Repr

/-- The header fields as they sit on the wire, before validation. -/
structure RawHeader where
  kind : Kind
  flags : UInt8
  channels : UInt8
  format : UInt8
  epoch : UInt64
  firstSample : UInt64
  sampleRate : UInt32
  frameCount : UInt32
  generation : UInt32
  sourceMask : UInt32
  payloadBytes : UInt32
  deriving DecidableEq, Repr

/-- Every rule one header can break, in the firmware's order. -/
def RawHeader.check (raw : RawHeader) : Except FrameError Unit :=
  match Flags.fromBits raw.flags with
  | none => .error (.undefinedFlags raw.flags)
  | some flags =>
    if flags.contains Flags.DIGITAL_SILENCE ∧ raw.kind ≠ .reference then
      .error (.digitalSilenceOutsideReference raw.kind)
    else if raw.channels ≠ 1 then .error (.channels raw.channels)
    else if raw.format ≠ raw.kind.format.toU8 then .error (.format raw.kind raw.format)
    else if raw.epoch = 0 then .error .zeroEpoch
    else if raw.sampleRate ≠ raw.kind.sampleRate then
      .error (.sampleRate raw.kind raw.sampleRate)
    else if raw.frameCount = 0 ∨ raw.frameCount > raw.kind.maxFrames then
      .error (.frameCount raw.kind raw.frameCount)
    else if raw.kind ≠ .render ∧ raw.generation ≠ 0 then
      .error (.generation raw.kind raw.generation)
    else if (raw.kind ≠ .reference ∧ raw.sourceMask ≠ 0) ∨
        (SourceMask.fromBits raw.sourceMask).isNone then
      .error (.sourceMask raw.kind raw.sourceMask)
    else if raw.kind = .cells ∧ ¬ CELL_SAMPLES ∣ raw.firstSample.toNat then
      .error (.cellAlignment raw.firstSample)
    else if raw.kind = .afe ∧ ¬ AFE_PERIOD_SAMPLES ∣ raw.firstSample.toNat then
      .error (.afeAlignment raw.firstSample)
    else if raw.payloadBytes.toNat ≠ raw.kind.payloadBytes flags raw.frameCount then
      .error (.payloadBytes (raw.kind.payloadBytes flags raw.frameCount) raw.payloadBytes)
    else .ok ()

namespace Header

/-- The exact payload length this header calls for. -/
def payloadBytes (h : Header) : ℕ :=
  h.kind.payloadBytes h.flags h.frameCount

/-- The first stream sample after this packet, or `none` if it would pass `2 ^ 64 - 1`. -/
def endSample (h : Header) : Option UInt64 :=
  let e := h.firstSample.toNat + h.frameCount.toNat * h.kind.samplesPerFrame
  if e < 2 ^ 64 then some (UInt64.ofNat e) else none

/-- The header's fields as `write` puts them on the wire. -/
def raw (h : Header) (payloadBytes : UInt32) : RawHeader where
  kind := h.kind
  flags := h.flags.bits
  channels := 1
  format := h.kind.format.toU8
  epoch := h.epoch
  firstSample := h.firstSample
  sampleRate := h.kind.sampleRate
  frameCount := h.frameCount
  generation := h.generation
  sourceMask := h.sourceMask.bits.toUInt32
  payloadBytes := payloadBytes

/-- Every rule one header can break, given the payload length it announces. -/
def check (h : Header) (payloadBytes : UInt32) : Except FrameError Unit :=
  if h.uncertaintyUs = some UNCERTAINTY_UNKNOWN then .error .uncertaintySentinel
  else (h.raw payloadBytes).check

/-- The header's 64 wire bytes. -/
def write (h : Header) (payloadBytes : UInt32) : List UInt8 :=
  MAGIC ++ [h.kind.toU8, h.flags.bits, 1, h.kind.format.toU8] ++
    leBytes 8 h.epoch.toNat ++ leBytes 8 h.sequence.toNat ++
    leBytes 8 h.firstSample.toNat ++ leBytes 8 h.monoNs.toNat ++
    leBytes 4 (h.uncertaintyUs.getD UNCERTAINTY_UNKNOWN).toNat ++
    leBytes 4 h.kind.sampleRate.toNat ++ leBytes 4 h.frameCount.toNat ++
    leBytes 4 h.generation.toNat ++ leBytes 4 h.sourceMask.bits.toNat ++
    leBytes 4 payloadBytes.toNat

end Header

/-- The 64-bit field at `at`. -/
def u64At (head : List UInt8) (i : ℕ) : UInt64 :=
  UInt64.ofNat (leNat (field head i 8))

/-- The 32-bit field at `at`. -/
def u32At (head : List UInt8) (i : ℕ) : UInt32 :=
  UInt32.ofNat (leNat (field head i 4))

/-- The byte at `at`. -/
def u8At (head : List UInt8) (i : ℕ) : UInt8 :=
  head.getD i 0

/-- The raw header fields of a 64-byte head whose kind byte is already known. -/
def rawAt (head : List UInt8) (kind : Kind) : RawHeader where
  kind := kind
  flags := u8At head 5
  channels := u8At head 6
  format := u8At head 7
  epoch := u64At head 8
  firstSample := u64At head 24
  sampleRate := u32At head 44
  frameCount := u32At head 48
  generation := u32At head 52
  sourceMask := u32At head 56
  payloadBytes := u32At head 60

/-- The header of a 64-byte head whose raw fields passed their check. -/
def headerAt (head : List UInt8) (kind : Kind) : Header :=
  let raw := rawAt head kind
  let uncertainty := u32At head 40
  { kind := kind
    flags := ⟨raw.flags⟩
    epoch := raw.epoch
    sequence := u64At head 16
    firstSample := raw.firstSample
    monoNs := u64At head 32
    uncertaintyUs := if uncertainty ≠ UNCERTAINTY_UNKNOWN then some uncertainty else none
    frameCount := raw.frameCount
    generation := raw.generation
    sourceMask := ⟨raw.sourceMask.toUInt8⟩ }

/-- Decodes and validates the 64 bytes of a header; also returns `payload_bytes`. -/
def decodeRaw (head : List UInt8) : Except FrameError (Header × UInt32) :=
  if field head 0 4 ≠ MAGIC then .error (.magic (field head 0 4))
  else match Kind.fromU8 (u8At head 4) with
    | none => .error (.kind (u8At head 4))
    | some kind =>
      match (rawAt head kind).check with
      | .error e => .error e
      | .ok () => .ok (headerAt head kind, (rawAt head kind).payloadBytes)

/-! ### The header rules as one predicate -/

/-- What `RawHeader.check` accepts, rule by rule. -/
structure RawHeader.Valid (raw : RawHeader) : Prop where
  flags_known : raw.flags &&& ~~~Flags.KNOWN = 0
  silence : (Flags.mk raw.flags).contains Flags.DIGITAL_SILENCE → raw.kind = .reference
  channels : raw.channels = 1
  format : raw.format = raw.kind.format.toU8
  epoch : raw.epoch ≠ 0
  sampleRate : raw.sampleRate = raw.kind.sampleRate
  frameCount : raw.frameCount ≠ 0 ∧ raw.frameCount ≤ raw.kind.maxFrames
  generation : raw.kind ≠ .render → raw.generation = 0
  sourceMask : raw.kind ≠ .reference → raw.sourceMask = 0
  mask_known : raw.sourceMask &&& ~~~SourceMask.KNOWN = 0
  cellAlignment : raw.kind = .cells → CELL_SAMPLES ∣ raw.firstSample.toNat
  afeAlignment : raw.kind = .afe → AFE_PERIOD_SAMPLES ∣ raw.firstSample.toNat
  payloadBytes : raw.payloadBytes.toNat = raw.kind.payloadBytes ⟨raw.flags⟩ raw.frameCount

/-- One rule of a check: it passes when the rule does and what follows passes. -/
theorem ite_error_eq_ok_iff {ε α : Type} {c : Prop} [Decidable c] {e : ε} {x : Except ε α}
    {a : α} : (if c then .error e else x) = .ok a ↔ ¬ c ∧ x = .ok a := by
  by_cases hc : c <;> simp [hc]

theorem Flags.isNone_fromBits {bits : UInt8} :
    (Flags.fromBits bits).isNone = true ↔ bits &&& ~~~Flags.KNOWN ≠ 0 := by
  by_cases h : bits &&& ~~~Flags.KNOWN = 0 <;> simp [Flags.fromBits, h]

theorem SourceMask.isNone_fromBits {bits : UInt32} :
    (SourceMask.fromBits bits).isNone = true ↔ bits &&& ~~~SourceMask.KNOWN ≠ 0 := by
  by_cases h : bits &&& ~~~SourceMask.KNOWN = 0 <;> simp [SourceMask.fromBits, h]

/-- The header rules as the chain of tests `RawHeader.check` makes. -/
theorem RawHeader.check_of_known {raw : RawHeader}
    (h : raw.flags &&& ~~~Flags.KNOWN = 0) :
    raw.check = .ok () ↔
      ¬ ((Flags.mk raw.flags).contains Flags.DIGITAL_SILENCE ∧ raw.kind ≠ .reference) ∧
      ¬ raw.channels ≠ 1 ∧ ¬ raw.format ≠ raw.kind.format.toU8 ∧ ¬ raw.epoch = 0 ∧
      ¬ raw.sampleRate ≠ raw.kind.sampleRate ∧
      ¬ (raw.frameCount = 0 ∨ raw.frameCount > raw.kind.maxFrames) ∧
      ¬ (raw.kind ≠ .render ∧ raw.generation ≠ 0) ∧
      ¬ ((raw.kind ≠ .reference ∧ raw.sourceMask ≠ 0) ∨
        raw.sourceMask &&& ~~~SourceMask.KNOWN ≠ 0) ∧
      ¬ (raw.kind = .cells ∧ ¬ CELL_SAMPLES ∣ raw.firstSample.toNat) ∧
      ¬ (raw.kind = .afe ∧ ¬ AFE_PERIOD_SAMPLES ∣ raw.firstSample.toNat) ∧
      ¬ raw.payloadBytes.toNat ≠ raw.kind.payloadBytes ⟨raw.flags⟩ raw.frameCount := by
  have hf : Flags.fromBits raw.flags = some ⟨raw.flags⟩ := by simp [Flags.fromBits, h]
  simp only [RawHeader.check, hf, ite_error_eq_ok_iff, SourceMask.isNone_fromBits,
    and_true]

/-- `RawHeader.check` succeeds exactly on the valid headers. -/
theorem RawHeader.check_eq_ok_iff {raw : RawHeader} :
    raw.check = .ok () ↔ raw.Valid := by
  by_cases hf : raw.flags &&& ~~~Flags.KNOWN = 0
  · rw [RawHeader.check_of_known hf]
    constructor
    · rintro ⟨h1, h2, h3, h4, h5, h6, h7, h8, h9, h10, h11⟩
      rw [not_or] at h6 h8
      exact ⟨hf, fun hs => by_contra fun hk => h1 ⟨hs, hk⟩, not_not.mp h2, not_not.mp h3, h4,
        not_not.mp h5, ⟨h6.1, UInt32.not_lt.mp h6.2⟩,
        fun hk => by_contra fun hg => h7 ⟨hk, hg⟩,
        fun hk => by_contra fun hm => h8.1 ⟨hk, hm⟩, not_not.mp h8.2,
        fun hk => by_contra fun hd => h9 ⟨hk, hd⟩,
        fun hk => by_contra fun hd => h10 ⟨hk, hd⟩, not_not.mp h11⟩
    · intro v
      exact ⟨fun h => h.2 (v.silence h.1), not_not.mpr v.channels, not_not.mpr v.format,
        v.epoch, not_not.mpr v.sampleRate,
        not_or.mpr ⟨v.frameCount.1, UInt32.not_lt.mpr v.frameCount.2⟩,
        fun h => h.2 (v.generation h.1),
        not_or.mpr ⟨fun h => h.2 (v.sourceMask h.1), not_not.mpr v.mask_known⟩,
        fun h => h.2 (v.cellAlignment h.1), fun h => h.2 (v.afeAlignment h.1),
        not_not.mpr v.payloadBytes⟩
  · have hn : Flags.fromBits raw.flags = none := by simp [Flags.fromBits, hf]
    refine ⟨fun h => ?_, fun v => absurd v.flags_known hf⟩
    simp [RawHeader.check, hn] at h

/-- A 32-bit number whose bits all lie under a mask is at most the mask. -/
theorem le_of_and_not_eq_zero {x m : UInt32} (h : x &&& ~~~m = 0) : x ≤ m := by
  have hx : x.toBitVec = x.toBitVec &&& m.toBitVec := by
    have hb : x.toBitVec &&& ~~~m.toBitVec = 0#32 := by
      simpa using congrArg UInt32.toBitVec h
    ext i hi
    have hbit := congrArg (fun v => v.getLsbD i) hb
    simp only [BitVec.getLsbD_and, BitVec.getLsbD_not, BitVec.getLsbD_zero] at hbit
    simp only [← BitVec.getLsbD_eq_getElem, BitVec.getLsbD_and]
    cases hx : x.toBitVec.getLsbD i <;> cases hm : m.toBitVec.getLsbD i <;> simp_all
  have hle : (x.toBitVec &&& m.toBitVec).toNat ≤ m.toBitVec.toNat := by
    rw [BitVec.toNat_and]
    exact Nat.and_le_right
  rw [← hx] at hle
  exact hle

/-- A source mask of known bits survives the cut to one byte. -/
theorem toUInt32_toUInt8_of_known {x : UInt32} (h : x &&& ~~~SourceMask.KNOWN = 0) :
    x.toUInt8.toUInt32 = x := by
  have hle : x.toNat ≤ SourceMask.KNOWN.toNat := le_of_and_not_eq_zero h
  have hk : SourceMask.KNOWN.toNat = 15 := rfl
  apply UInt32.toNat_inj.mp
  rw [UInt8.toNat_toUInt32, UInt32.toNat_toUInt8]
  omega

/-- A decoded header, put back on the wire, has the raw fields it was read from. -/
theorem raw_headerAt {head : List UInt8} {kind : Kind} (v : (rawAt head kind).Valid) :
    (headerAt head kind).raw (rawAt head kind).payloadBytes = rawAt head kind := by
  have hm := toUInt32_toUInt8_of_known v.mask_known
  have hc : 1 = (rawAt head kind).channels := v.channels.symm
  have hf : kind.format.toU8 = (rawAt head kind).format := v.format.symm
  have hs : kind.sampleRate = (rawAt head kind).sampleRate := v.sampleRate.symm
  simp only [Header.raw, headerAt, hc, hf, hs, hm]
  rfl

/-- A decoded header never stores the wire value for unknown uncertainty. -/
theorem uncertaintyUs_headerAt_ne (head : List UInt8) (kind : Kind) :
    (headerAt head kind).uncertaintyUs ≠ some UNCERTAINTY_UNKNOWN := by
  simp only [headerAt]
  split <;> simp_all

/-- A decoded header keeps the rules an encoder checks. -/
theorem check_headerAt {head : List UInt8} {kind : Kind} (v : (rawAt head kind).Valid) :
    (headerAt head kind).check (rawAt head kind).payloadBytes = .ok () := by
  rw [Header.check, if_neg (uncertaintyUs_headerAt_ne head kind), raw_headerAt v]
  exact RawHeader.check_eq_ok_iff.mpr v

/-- What `decodeRaw` accepts and returns. -/
theorem decodeRaw_eq_ok_iff {head : List UInt8} {h : Header} {pb : UInt32} :
    decodeRaw head = .ok (h, pb) ↔
      field head 0 4 = MAGIC ∧ Kind.fromU8 (u8At head 4) = some h.kind ∧
        (rawAt head h.kind).Valid ∧ h = headerAt head h.kind ∧
        pb = (rawAt head h.kind).payloadBytes := by
  constructor
  · intro hd
    simp only [decodeRaw, ite_error_eq_ok_iff, not_not] at hd
    obtain ⟨hmagic, hd⟩ := hd
    cases hk : Kind.fromU8 (u8At head 4) with
    | none => simp [hk] at hd
    | some kind =>
        cases hc : (rawAt head kind).check with
        | error e => simp [hk, hc] at hd
        | ok u =>
            simp only [hk, hc, Except.ok.injEq, Prod.mk.injEq] at hd
            obtain ⟨rfl, rfl⟩ := hd
            exact ⟨hmagic, rfl, RawHeader.check_eq_ok_iff.mp hc, rfl, rfl⟩
  · rintro ⟨hmagic, hk, hv, hh, rfl⟩
    have hc := RawHeader.check_eq_ok_iff.mpr hv
    simp only [decodeRaw, hmagic, hk, hc, ne_eq, not_true_eq_false, if_false]
    rw [← hh]

/-- A header `decodeRaw` returns keeps the rules an encoder checks. -/
theorem check_of_decodeRaw {head : List UInt8} {h : Header} {pb : UInt32}
    (hd : decodeRaw head = .ok (h, pb)) : h.check pb = .ok () := by
  obtain ⟨-, -, hv, hh, rfl⟩ := decodeRaw_eq_ok_iff.mp hd
  rw [hh] at hv ⊢
  exact check_headerAt hv

/-! ### Frames -/

/-- Checks the records of a list one after the other, from position `index` on. -/
def checkEach {α ε : Type} (parse : List UInt8 → Except ε α) (error : ℕ → ε → FrameError) :
    ℕ → List (List UInt8) → Except FrameError Unit
  | _, [] => .ok ()
  | index, raw :: rest =>
    match parse raw with
    | .error e => .error (error index e)
    | .ok _ => checkEach parse error (index + 1) rest

/-- Checks every record of a payload. -/
def checkRecords (kind : Kind) (payload : List UInt8) : Except FrameError Unit :=
  match kind with
  | .cells => checkEach Cell.parse .cell 0 (asChunks CELL_RECORD_BYTES payload)
  | .afe => checkEach AfeRecord.parse .afe 0 (asChunks AFE_RECORD_BYTES payload)
  | .mic | .reference | .render => .ok ()

/-- The payload of a packet, decoded by kind. -/
inductive Content
  | pcm (samples : List Int16)
  | digitalSilence (frames : UInt32)
  | cells (records : List Cell)
  | afe (records : List AfeRecord)
  deriving DecidableEq, Repr

/-- The little-endian 16-bit sample of two bytes. -/
def i16OfLe (raw : List UInt8) : Int16 :=
  Cell.i16FromLe (raw.getD 0 0) (raw.getD 1 0)

/-- One validated EMA1 frame. -/
structure Packet where
  header : Header
  endSample : UInt64
  payload : List UInt8
  /-- The payload length fits the header's field for it. -/
  length_lt : payload.length < 2 ^ 32
  /-- The header keeps every rule for this payload length. -/
  header_ok : header.check (UInt32.ofNat payload.length) = .ok ()
  /-- The samples do not run past `2 ^ 64 - 1`. -/
  end_ok : header.endSample = some endSample
  /-- Every cell or AFE record is valid. -/
  records_ok : checkRecords header.kind payload = .ok ()
  deriving DecidableEq

/-- Decodes and validates one whole frame: the header rules, the frame length, sample
indices that fit in 64 bits, and every cell or AFE record. -/
def Packet.parse (frame : List UInt8) : Except FrameError Packet :=
  if frame.length < HEADER_BYTES then .error (.short frame.length)
  else match hd : decodeRaw (frame.take HEADER_BYTES) with
    | .error e => .error e
    | .ok (header, payloadBytes) =>
      let payload := frame.drop HEADER_BYTES
      if hl : payload.length ≠ payloadBytes.toNat then
        .error (.frameLength payloadBytes payload.length)
      else match he : header.endSample with
        | none => .error .sampleOverflow
        | some endSample =>
          match hr : checkRecords header.kind payload with
          | .error e => .error e
          | .ok () =>
            .ok { header := header
                  endSample := endSample
                  payload := payload
                  length_lt := not_not.mp hl ▸ payloadBytes.toNat_lt
                  header_ok := by
                    rw [not_not.mp hl, UInt32.ofNat_toNat]
                    exact check_of_decodeRaw hd
                  end_ok := he
                  records_ok := hr }

/-- The payload, decoded by kind. -/
def Packet.content (p : Packet) : Content :=
  match p.header.kind with
  | .cells => .cells ((asChunks CELL_RECORD_BYTES p.payload).map Cell.fromBytes)
  | .afe => .afe ((asChunks AFE_RECORD_BYTES p.payload).map AfeRecord.fromBytes)
  | _ =>
    if p.header.flags.contains Flags.DIGITAL_SILENCE then
      .digitalSilence p.header.frameCount
    else .pcm ((asChunks 2 p.payload).map i16OfLe)

/-- Encodes one frame of any kind after checking every rule `Packet.parse` applies. -/
def encode (header : Header) (payload : List UInt8) : Except FrameError (List UInt8) :=
  if 2 ^ 32 ≤ payload.length then .error (.payloadTooLong payload.length)
  else
    let payloadBytes := UInt32.ofNat payload.length
    match header.check payloadBytes with
    | .error e => .error e
    | .ok () =>
      match header.endSample with
      | none => .error .sampleOverflow
      | some _ =>
        match checkRecords header.kind payload with
        | .error e => .error e
        | .ok () => .ok (header.write payloadBytes ++ payload)

/-- The little-endian bytes of one sample. -/
def i16ToLe (s : Int16) : List UInt8 :=
  leBytes 2 s.toUInt16.toNat

/-- The header of a kind-3 render frame of `pcm`. -/
def renderHeader (epoch sequence firstSample : UInt64) (generation : UInt32) (flags : Flags)
    (pcm : List Int16) : Header where
  kind := .render
  flags := flags
  epoch := epoch
  sequence := sequence
  firstSample := firstSample
  monoNs := 0
  uncertaintyUs := none
  frameCount := if pcm.length < 2 ^ 32 then UInt32.ofNat pcm.length else 0xFFFFFFFF
  generation := generation
  sourceMask := SourceMask.NONE

/-- Encodes one kind-3 render frame of `pcm` for the playback of `generation`. -/
def encodeRender (epoch sequence firstSample : UInt64) (generation : UInt32) (flags : Flags)
    (pcm : List Int16) : Except FrameError (List UInt8) :=
  let header := renderHeader epoch sequence firstSample generation flags pcm
  let payloadBytes := header.payloadBytes
  match header.check
      (if payloadBytes < 2 ^ 32 then UInt32.ofNat payloadBytes else 0xFFFFFFFF) with
  | .error e => .error e
  | .ok () =>
    match header.endSample with
    | none => .error .sampleOverflow
    | some _ => .ok (header.write (UInt32.ofNat payloadBytes) ++ (pcm.map i16ToLe).flatten)


end EchoMuse.Ema
