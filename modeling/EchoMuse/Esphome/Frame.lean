import EchoMuse.Chunks
import EchoMuse.Varints

/-!
# Framing of the ESPHome API

The plaintext framing of the ESPHome native API (`frame.rs`): the indicator byte, the payload
length and the message type as varints, then the payload. A slice or a sum that Rust would panic
on is `none`.

The varint encoder is the protobuf library's, and is a parameter here.
-/

namespace EchoMuse.Esphome

open Varints

/-! ### Frames -/

/-- The first byte of every plaintext frame. -/
def plaintextIndicator : UInt8 := 0x00

/-- The largest payload a frame may carry. -/
def maxFrameLen : ℕ := 65535

/-- The longest varint the header may use. -/
def maxVarintLen : ℕ := 5

/-- One received frame. -/
structure Frame where
  messageType : UInt16
  payload : List UInt8
deriving DecidableEq

/-- Why the received bytes are not a valid frame. -/
inductive FrameError
  | badIndicator (b : UInt8)
  | tooLarge (len : UInt64)
  | varintTooLong
  | typeOutOfRange (messageType : UInt64)
deriving DecidableEq

/-- A message too large to send in one frame. -/
structure FrameTooLarge where
  len : ℕ
deriving DecidableEq

/-! ### The encoder -/

section

variable (encodeVarint : UInt64 → List UInt8)

/-- A frame's header for a payload of `len` bytes. -/
def header (messageType : UInt16) (len : ℕ) : Except FrameTooLarge (List UInt8) :=
  if maxFrameLen < len then .error ⟨len⟩
  else
    .ok (plaintextIndicator :: encodeVarint (UInt64.ofNat len) ++
      encodeVarint messageType.toUInt64)

/-- Encodes a frame from a message type and a payload. -/
def encodeRaw (messageType : UInt16) (payload : List UInt8) : Except FrameTooLarge (List UInt8) :=
  match header encodeVarint messageType payload.length with
  | .error e => .error e
  | .ok out => .ok (out ++ payload)

/-- The frames one after the other. -/
def encodeAll : List Frame → Except FrameTooLarge (List UInt8)
  | [] => .ok []
  | f :: fs =>
    match encodeRaw encodeVarint f.messageType f.payload with
    | .error e => .error e
    | .ok out =>
      match encodeAll fs with
      | .error e => .error e
      | .ok rest => .ok (out ++ rest)

end

/-! ### The decoder -/

/-- The outcome of reading one varint from the front of a buffer. -/
inductive Varint
  | complete (value : UInt64) (len : ℕ)
  | incomplete
deriving DecidableEq

/-- A shift of a `u64`, by less than its width. -/
def shl (x : UInt64) (k : ℕ) : Option UInt64 :=
  if k < 64 then some (x <<< UInt64.ofNat k) else none

/-- A sum of two `usize`. -/
def add (a b : ℕ) : Option ℕ := if a + b < 2 ^ 64 then some (a + b) else none

/-- `&buffer[n..]`, and what is left after `advance(n)`. -/
def sliceFrom (buffer : List UInt8) (n : ℕ) : Option (List UInt8) :=
  if n ≤ buffer.length then some (buffer.drop n) else none

/-- `split_to(n)`. -/
def splitTo (buffer : List UInt8) (n : ℕ) : Option (List UInt8 × List UInt8) :=
  if n ≤ buffer.length then some (buffer.take n, buffer.drop n) else none

/-- The loop of `read_varint` over the bytes it takes: the value and the length, or nothing. -/
def readBytes : ℕ → UInt64 → List UInt8 → Option (Option (UInt64 × ℕ))
  | _, _, [] => some none
  | index, value, byte :: bytes => do
    let low ← shl (byte &&& 0x7f).toUInt64 (7 * index)
    let value := value ||| low
    if byte &&& 0x80 = 0 then return some (value, index + 1)
    else readBytes (index + 1) value bytes

def readVarint (bytes : List UInt8) : Option (Except FrameError Varint) := do
  match ← readBytes 0 0 (bytes.take maxVarintLen) with
  | some (value, len) => return .ok (.complete value len)
  | none =>
    if maxVarintLen ≤ bytes.length then return .error .varintTooLong
    else return .ok .incomplete

/-- Takes the next complete frame off the buffer, nothing if more bytes are needed. -/
def nextFrame (buffer : List UInt8) :
    Option (Except FrameError (Option Frame) × List UInt8) :=
  match buffer with
  | [] => some (.ok none, buffer)
  | indicator :: _ =>
    if indicator ≠ plaintextIndicator then some (.error (.badIndicator indicator), buffer)
    else do
      match ← readVarint (← sliceFrom buffer 1) with
      | .error e => return (.error e, buffer)
      | .ok .incomplete => return (.ok none, buffer)
      | .ok (.complete len lenSize) =>
        if UInt64.ofNat maxFrameLen < len then return (.error (.tooLarge len), buffer)
        else
          let typeStart ← add 1 lenSize
          match ← readVarint (← sliceFrom buffer typeStart) with
          | .error e => return (.error e, buffer)
          | .ok .incomplete => return (.ok none, buffer)
          | .ok (.complete messageType typeSize) =>
            if 65535 < messageType then return (.error (.typeOutOfRange messageType), buffer)
            else
              let header ← add typeStart typeSize
              let total ← add header len.toNat
              if buffer.length < total then return (.ok none, buffer)
              else
                let (payload, rest) ← splitTo (← sliceFrom buffer header) len.toNat
                return (.ok (some ⟨messageType.toUInt16, payload⟩), rest)

/-- What the caller has taken from a decoder. -/
abbrev Received := Chunks.Progress UInt8 Frame FrameError

/-- Takes frames until more bytes are needed or the decoder fails. -/
def takeFrames : ℕ → List UInt8 → Option Received
  | 0, _ => none
  | n + 1, buffer => do
    match ← nextFrame buffer with
    | (.error e, buffer) => return ⟨[], some e, buffer⟩
    | (.ok none, buffer) => return ⟨[], none, buffer⟩
    | (.ok (some f), buffer) =>
      let next ← takeFrames n buffer
      return ⟨f :: next.items, next.error, next.rest⟩

/-- Appends a chunk to the buffer and takes the frames; only the first error is kept. -/
def receive (r : Received) (chunk : List UInt8) : Option Received := do
  let buffer := r.rest ++ chunk
  return r.followedBy (← takeFrames (buffer.length + 1) buffer)

/-- What has come of the chunks appended to a new decoder's buffer. -/
def receiveAll (chunks : List (List UInt8)) : Option Received :=
  chunks.foldlM receive ⟨[], none, []⟩

end EchoMuse.Esphome
