import EchoMuse.Ema.Codec

/-!
# EMA1 Frames, the Firmware's Codec

The device has its own EMA1 implementation (`device/internal/audio/ema`): a header that
stores every wire field, checked by `Validate`, and records written and read one by one.
This module is that implementation. Products of 32-bit fields wrap as Go's do, and the
encoders return the bytes they write at the front of the caller's buffer.
-/

namespace EchoMuse.Firmware

/-! ### Constants -/

def HeaderSize : ℕ := 64
def Magic : List UInt8 := [0x45, 0x4D, 0x41, 0x31]

def KindMic : UInt8 := 1
def KindReference : UInt8 := 2
def KindRender : UInt8 := 3
def KindCells : UInt8 := 4
def KindAFE : UInt8 := 5

def FormatPCM16 : UInt8 := 1
def FormatCellV1 : UInt8 := 2
def FormatAFEV1 : UInt8 := 3

def FlagDiscontinuity : UInt8 := 1
def FlagDigitalSilence : UInt8 := 16
def flagsKnown : UInt8 := 0x1F
def sourcesKnown : UInt8 := 0xF

def UncertaintyUnknown : UInt32 := 0xFFFFFFFF

def RateCapture : UInt32 := 16000
def RateRender : UInt32 := 48000

def MaxUplinkPCMFrames : UInt32 := 1280
def MaxRenderFrames : UInt32 := 3840
def MaxCells : UInt32 := 320
def MaxAFERecords : UInt32 := 125

def CellSamples : ℕ := 512
def CellRecordSize : ℕ := 4
def AFESamples : ℕ := 1280
def AFERecordSize : ℕ := 14
def pcmSampleSize : ℕ := 2

/-- The validation errors; `Decode` and `Validate` return exactly one of these. -/
inductive Err
  | short | magic | kind | flags | channels | format | epoch | rate | frameCount
  | generation | sourceMask | cellAlignment | afeAlignment | payloadLength
  | cellShort | cellE | cellFlags | cellMask | cellGapE
  | afeShort | afeRecord | afeFlags
  deriving DecidableEq, Repr

/-! ### Headers -/

/-- One decoded EMA1 header. -/
structure Header where
  kind : UInt8
  flags : UInt8
  channels : UInt8
  format : UInt8
  epoch : UInt64
  sequence : UInt64
  firstSample : UInt64
  monoNs : UInt64
  uncertaintyUs : UInt32
  sampleRate : UInt32
  frameCount : UInt32
  generation : UInt32
  sourceMask : UInt32
  payloadBytes : UInt32
  deriving DecidableEq, Repr

/-- The only valid format for a kind. -/
def formatFor (k : UInt8) : UInt8 :=
  if k = KindCells then FormatCellV1 else if k = KindAFE then FormatAFEV1 else FormatPCM16

/-- The only valid sample rate for a kind. -/
def rateFor (k : UInt8) : UInt32 :=
  if k = KindRender then RateRender else RateCapture

/-- The frame-count upper bound for a kind. -/
def maxFrames (k : UInt8) : UInt32 :=
  if k = KindRender then MaxRenderFrames
  else if k = KindCells then MaxCells
  else if k = KindAFE then MaxAFERecords
  else MaxUplinkPCMFrames

/-- The exact payload length of a frame, a 32-bit product. -/
def payloadLen (k flags : UInt8) (frames : UInt32) : UInt32 :=
  if k = KindCells then frames * UInt32.ofNat CellRecordSize
  else if k = KindAFE then frames * UInt32.ofNat AFERecordSize
  else if flags &&& FlagDigitalSilence ≠ 0 then 0
  else frames * UInt32.ofNat pcmSampleSize

/-- A header for a kind with its implied fields filled in. -/
def newHeader (k flags : UInt8) (epoch seq first : UInt64) (frames : UInt32) : Header where
  kind := k
  flags := flags
  channels := 1
  format := formatFor k
  epoch := epoch
  sequence := seq
  firstSample := first
  monoNs := 0
  uncertaintyUs := 0
  sampleRate := rateFor k
  frameCount := frames
  generation := 0
  sourceMask := 0
  payloadBytes := payloadLen k flags frames

namespace Header

/-- Every rule a single header can violate. -/
def validate (h : Header) : Except Err Unit :=
  if h.kind < KindMic ∨ h.kind > KindAFE then .error .kind
  else if h.flags &&& ~~~flagsKnown ≠ 0 ∨
      (h.flags &&& FlagDigitalSilence ≠ 0 ∧ h.kind ≠ KindReference) then .error .flags
  else if h.channels ≠ 1 then .error .channels
  else if h.format ≠ formatFor h.kind then .error .format
  else if h.epoch = 0 then .error .epoch
  else if h.sampleRate ≠ rateFor h.kind then .error .rate
  else if h.frameCount < 1 ∨ h.frameCount > maxFrames h.kind then .error .frameCount
  else if h.kind ≠ KindRender ∧ h.generation ≠ 0 then .error .generation
  else if (h.kind ≠ KindReference ∧ h.sourceMask ≠ 0) ∨
      h.sourceMask &&& ~~~sourcesKnown.toUInt32 ≠ 0 then .error .sourceMask
  else if h.kind = KindCells ∧ h.firstSample.toNat % CellSamples ≠ 0 then
    .error .cellAlignment
  else if h.kind = KindAFE ∧ h.firstSample.toNat % AFESamples ≠ 0 then .error .afeAlignment
  else if h.payloadBytes ≠ payloadLen h.kind h.flags h.frameCount then
    .error .payloadLength
  else .ok ()

/-- The 64 bytes `Encode` writes. -/
def bytes (h : Header) : List UInt8 :=
  Magic ++ [h.kind, h.flags, h.channels, h.format] ++
    leBytes 8 h.epoch.toNat ++ leBytes 8 h.sequence.toNat ++
    leBytes 8 h.firstSample.toNat ++ leBytes 8 h.monoNs.toNat ++
    leBytes 4 h.uncertaintyUs.toNat ++ leBytes 4 h.sampleRate.toNat ++
    leBytes 4 h.frameCount.toNat ++ leBytes 4 h.generation.toNat ++
    leBytes 4 h.sourceMask.toNat ++ leBytes 4 h.payloadBytes.toNat

/-- Validates the header and writes it at the front of a buffer of `dstLen` bytes. -/
def encode (h : Header) (dstLen : ℕ) : Except Err (List UInt8) :=
  if dstLen < HeaderSize then .error .short
  else match h.validate with
    | .error e => .error e
    | .ok () => .ok h.bytes

/-- The fields of the header at the start of `src`, unchecked. -/
def read (src : List UInt8) : Header where
  kind := Ema.u8At src 4
  flags := Ema.u8At src 5
  channels := Ema.u8At src 6
  format := Ema.u8At src 7
  epoch := Ema.u64At src 8
  sequence := Ema.u64At src 16
  firstSample := Ema.u64At src 24
  monoNs := Ema.u64At src 32
  uncertaintyUs := Ema.u32At src 40
  sampleRate := Ema.u32At src 44
  frameCount := Ema.u32At src 48
  generation := Ema.u32At src 52
  sourceMask := Ema.u32At src 56
  payloadBytes := Ema.u32At src 60

end Header

/-- Parses and validates the header at the start of `src`. -/
def decode (src : List UInt8) : Except Err Header :=
  if src.length < HeaderSize then .error .short
  else if field src 0 4 ≠ Magic then .error .magic
  else
    let h := Header.read src
    match h.validate with
    | .error e => .error e
    | .ok () => .ok h

/-- Decodes a whole message and returns its payload. -/
def decodeFrame (msg : List UInt8) : Except Err (Header × List UInt8) :=
  match decode msg with
  | .error e => .error e
  | .ok h =>
    if msg.length - HeaderSize ≠ h.payloadBytes.toNat then .error .payloadLength
    else .ok (h, msg.drop HeaderSize)

/-! ### Records -/

/-- The PCM16LE bytes of samples. -/
def putPCM (pcm : List Int16) : List UInt8 :=
  (pcm.map fun s => leBytes 2 s.toUInt16.toNat).flatten

def CellEMin : Int16 := -12000
def CellEMax : Int16 := 0
def CellGap : UInt8 := 1
def cellFlags : UInt8 := 0x3

/-- One 512-sample loudness record. -/
structure Cell where
  e : Int16
  flags : UInt8
  mask : UInt8
  deriving DecidableEq, Repr

/-- The cell-record rules. -/
def Cell.validate (c : Cell) : Except Err Unit :=
  if c.e < CellEMin ∨ c.e > CellEMax then .error .cellE
  else if c.flags &&& ~~~cellFlags ≠ 0 then .error .cellFlags
  else if c.mask &&& ~~~sourcesKnown ≠ 0 then .error .cellMask
  else if c.flags &&& CellGap ≠ 0 ∧ c.e ≠ CellEMin then .error .cellGapE
  else .ok ()

/-- The four bytes of a cell, its loudness clamped to the wire range. -/
def putCell (c : Cell) : List UInt8 :=
  let e := if c.e < CellEMin then CellEMin else if c.e > CellEMax then CellEMax else c.e
  leBytes 2 e.toUInt16.toNat ++ [c.flags, c.mask]

/-- Decodes and validates the record at the start of `src`. -/
def parseCell (src : List UInt8) : Except Err Cell :=
  if src.length < CellRecordSize then .error .cellShort
  else
    let c : Cell := ⟨(UInt16.ofNat (leNat (field src 0 2))).toInt16, Ema.u8At src 2,
      Ema.u8At src 3⟩
    match c.validate with
    | .error e => .error e
    | .ok () => .ok c

/-- A cell that is there is parsed into what it reads as, if that is valid. -/
theorem parseCell_eq_map {src : List UInt8} (hlen : CellRecordSize ≤ src.length) {c : Cell}
    (hc : ⟨(UInt16.ofNat (leNat (field src 0 2))).toInt16, Ema.u8At src 2, Ema.u8At src 3⟩ = c) :
    parseCell src = c.validate.map fun _ => c := by
  simp only [parseCell, if_neg (not_lt.mpr hlen), hc]
  cases c.validate <;> rfl

def AFEMaxFrames : UInt8 := 10
def AFEDTDMax : UInt8 := 31
def AFEVADMax : UInt8 := 3
def AFEVolumeMax : UInt8 := 127
def afeFlags : UInt8 := 0x3F

/-- One period's summary of the native AFE metadata. -/
structure AFERecord where
  frames : UInt8
  flags : UInt8
  playback : UInt8
  erleMax : UInt8
  erleMean : UInt8
  erleFrames : UInt8
  dtdMax : UInt8
  dtdFrames : UInt8
  rmsMax : UInt8
  rmsMean : UInt8
  vadMax : UInt8
  vadFrames : UInt8
  volume : UInt8
  lost : UInt8
  deriving DecidableEq, Repr

/-- The record v1 bounds. -/
def AFERecord.validate (r : AFERecord) : Except Err Unit :=
  if r.flags &&& ~~~afeFlags ≠ 0 then .error .afeFlags
  else if r.frames > AFEMaxFrames ∨ r.playback > r.frames ∨ r.erleFrames > r.frames ∨
      r.dtdFrames > r.frames ∨ r.vadFrames > r.frames ∨
      r.dtdMax > AFEDTDMax ∨ r.vadMax > AFEVADMax ∨ r.volume > AFEVolumeMax then
    .error .afeRecord
  else .ok ()

/-- The fourteen bytes of a record. -/
def putAFE (r : AFERecord) : List UInt8 :=
  [r.frames, r.flags, r.playback, r.erleMax, r.erleMean, r.erleFrames, r.dtdMax, r.dtdFrames,
   r.rmsMax, r.rmsMean, r.vadMax, r.vadFrames, r.volume, r.lost]

/-- Decodes and validates the record at the start of `src`. -/
def parseAFE (src : List UInt8) : Except Err AFERecord :=
  if src.length < AFERecordSize then .error .afeShort
  else
    let b := Ema.u8At src
    let r : AFERecord := ⟨b 0, b 1, b 2, b 3, b 4, b 5, b 6, b 7, b 8, b 9, b 10, b 11, b 12,
      b 13⟩
    match r.validate with
    | .error e => .error e
    | .ok () => .ok r

theorem parseAFE_eq_map {src : List UInt8} (hlen : AFERecordSize ≤ src.length) {r : AFERecord}
    (hr : ⟨Ema.u8At src 0, Ema.u8At src 1, Ema.u8At src 2, Ema.u8At src 3, Ema.u8At src 4,
      Ema.u8At src 5, Ema.u8At src 6, Ema.u8At src 7, Ema.u8At src 8, Ema.u8At src 9,
      Ema.u8At src 10, Ema.u8At src 11, Ema.u8At src 12, Ema.u8At src 13⟩ = r) :
    parseAFE src = r.validate.map fun _ => r := by
  simp only [parseAFE, if_neg (not_lt.mpr hlen), hr]
  cases r.validate <;> rfl

/-- The records of a payload, decoded by kind. -/
inductive Records
  | pcm
  | cells (records : List Cell)
  | afe (records : List AFERecord)
  deriving DecidableEq, Repr

/-- Reads `n` records of `size` bytes one after the other with `parse`. -/
def parseEach {α : Type} (parse : List UInt8 → Except Err α) (size : ℕ) :
    ℕ → List UInt8 → Except Err (List α)
  | 0, _ => .ok []
  | n + 1, payload =>
    match parse payload with
    | .error e => .error e
    | .ok r =>
      match parseEach parse size n (payload.drop size) with
      | .error e => .error e
      | .ok rs => .ok (r :: rs)

/-- A consumer's whole decoding of a message: the frame, then every record of a cell or AFE
payload. -/
def decodeRecords (msg : List UInt8) : Except Err (Header × List UInt8 × Records) :=
  match decodeFrame msg with
  | .error e => .error e
  | .ok (h, payload) =>
    if h.kind = KindCells then
      (parseEach parseCell CellRecordSize h.frameCount.toNat payload).map fun cs =>
        (h, payload, .cells cs)
    else if h.kind = KindAFE then
      (parseEach parseAFE AFERecordSize h.frameCount.toNat payload).map fun rs =>
        (h, payload, .afe rs)
    else .ok (h, payload, .pcm)

end EchoMuse.Firmware
