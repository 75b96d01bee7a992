import EchoMuse.Esphome.Frame
import Mathlib.Data.List.TakeWhile

/-!
# The Frame Decoder

What the decoder makes of the front of its buffer is settled by the bytes of the frame or of the
bad header alone, so it does not depend on how the stream is cut into chunks, and what the encoder
writes comes back.

## Main results

* `nextFrame_cases`: a buffer starts with a frame, shows a bad header, or needs more bytes;
* `framing`: chunking, the round trip and the errors.
-/

namespace EchoMuse.Esphome

open Varints

/-! ### Varints -/

theorem and_high_eq_zero_iff (b : UInt8) : b &&& 0x80 = 0 ↔ continues b = false := by
  have hall : ∀ n, n < 256 → (n &&& 128 = 0 ↔ ¬ 128 ≤ n) := by decide +kernel
  rw [continues, decide_eq_false_iff_not, ← hall b.toNat b.toNat_lt, ← UInt8.toNat_inj,
    UInt8.toNat_and]
  rfl

/-- The low bits of a byte are put above those read before. -/
theorem toNat_or_shl {v : UInt64} (b : UInt8) {i : ℕ} (hi : i ≤ 4) (hv : v.toNat < 128 ^ i) :
    ∃ low, shl (b &&& 0x7f).toUInt64 (7 * i) = some low ∧
      (v ||| low).toNat = v.toNat + 128 ^ i * (b.toNat % 128) ∧
      (v ||| low).toNat < 128 ^ (i + 1) := by
  have hpow : (128 : ℕ) ^ i = 2 ^ (7 * i) := (pow_mul 2 7 i).symm
  have hb : (b &&& 0x7f).toUInt64.toNat = b.toNat % 128 := by
    rw [UInt8.toNat_toUInt64, UInt8.toNat_and]
    exact Nat.and_two_pow_sub_one_eq_mod b.toNat 7
  have hle : (2 : ℕ) ^ (7 * i) ≤ 2 ^ 28 := Nat.pow_le_pow_right (by decide) (by omega)
  have hlt : b.toNat % 128 < 128 := Nat.mod_lt _ (by decide)
  have hsmall : b.toNat % 128 * 2 ^ (7 * i) < 2 ^ 64 := by
    calc b.toNat % 128 * 2 ^ (7 * i) ≤ 128 * 2 ^ 28 := Nat.mul_le_mul hlt.le hle
      _ < 2 ^ 64 := by decide
  have hshift : ((b &&& 0x7f).toUInt64 <<< UInt64.ofNat (7 * i)).toNat =
      b.toNat % 128 * 2 ^ (7 * i) := by
    rw [UInt64.toNat_shiftLeft, hb, UInt64.toNat_ofNat',
      Nat.mod_eq_of_lt (show 7 * i < 2 ^ 64 by omega), Nat.mod_eq_of_lt (show 7 * i < 64 by omega),
      Nat.shiftLeft_eq, Nat.mod_eq_of_lt hsmall]
  have hvalue : (v ||| (b &&& 0x7f).toUInt64 <<< UInt64.ofNat (7 * i)).toNat =
      v.toNat + 128 ^ i * (b.toNat % 128) := by
    rw [UInt64.toNat_or, hshift, hpow, Nat.mul_comm (b.toNat % 128), Nat.or_comm,
      ← Nat.two_pow_add_eq_or_of_lt (hpow ▸ hv), Nat.add_comm]
  refine ⟨_, if_pos (by omega), hvalue, ?_⟩
  have hstep : 128 ^ i * (b.toNat % 128 + 1) ≤ 128 ^ i * 128 := Nat.mul_le_mul_left _ (by omega)
  rw [Nat.mul_succ] at hstep
  rw [hvalue, pow_succ]
  omega

/-- A varint among the bytes the loop takes is read to its end. -/
theorem readBytes_varint {init : List UInt8} {b : UInt8} (rest : List UInt8)
    (hinit : ∀ c ∈ init, continues c = true) (hb : continues b = false) {i : ℕ} {v : UInt64}
    (hi : i + init.length ≤ 4) (hv : v.toNat < 128 ^ i) :
    ∃ n, readBytes i v (init ++ b :: rest) = some (some (n, i + init.length + 1)) ∧
      n.toNat = v.toNat + 128 ^ i * value (init ++ [b]) := by
  induction init generalizing i v with
  | nil =>
      obtain ⟨low, hlow, hvalue, -⟩ := toNat_or_shl b (by simpa using hi) hv
      refine ⟨v ||| low, ?_, ?_⟩
      · rw [List.nil_append, readBytes, hlow]
        simp only [Option.bind_eq_bind, Option.bind_some, (and_high_eq_zero_iff b).mpr hb]
        rfl
      · rw [hvalue, List.nil_append, value, value]
        simp
  | cons c init ih =>
      rw [List.length_cons] at hi
      obtain ⟨hc, hinit⟩ := List.forall_mem_cons.mp hinit
      obtain ⟨low, hlow, hvalue, hlt⟩ := toNat_or_shl c (by omega) hv
      have hmore : ¬ c &&& 0x80 = 0 := by
        rw [and_high_eq_zero_iff, hc]
        exact Bool.noConfusion
      obtain ⟨n, hn, hnvalue⟩ := ih hinit (i := i + 1) (by omega) hlt
      refine ⟨n, ?_, ?_⟩
      · rw [List.cons_append, readBytes, hlow]
        simp only [Option.bind_eq_bind, Option.bind_some, if_neg hmore]
        rw [hn, List.length_cons]
        congr 3
        omega
      · rw [hnvalue, hvalue, List.cons_append, value, pow_succ]
        ring

/-- Bytes that all continue are no varint yet. -/
theorem readBytes_continues {bs : List UInt8} (hbs : ∀ c ∈ bs, continues c = true) {i : ℕ}
    {v : UInt64} (hi : i + bs.length ≤ 5) (hv : v.toNat < 128 ^ i) :
    readBytes i v bs = some none := by
  induction bs generalizing i v with
  | nil => rfl
  | cons c bs ih =>
      rw [List.length_cons] at hi
      obtain ⟨hc, hbs⟩ := List.forall_mem_cons.mp hbs
      obtain ⟨low, hlow, hvalue, hlt⟩ := toNat_or_shl c (by omega) hv
      have hmore : ¬ c &&& 0x80 = 0 := by
        rw [and_high_eq_zero_iff, hc]
        exact Bool.noConfusion
      rw [readBytes, hlow]
      simp only [Option.bind_eq_bind, Option.bind_some, if_neg hmore]
      exact ih hbs (by omega) hlt

/-- A varint at the front is read, if the header may be so long. -/
theorem readVarint_complete {v : List UInt8} {n : ℕ} (hv : IsVarint v n)
    (hlen : v.length ≤ maxVarintLen) (rest : List UInt8) :
    ∃ m, readVarint (v ++ rest) = some (.ok (.complete m v.length)) ∧ m.toNat = n := by
  obtain ⟨init, b, rfl, hinit, hb, hvalue⟩ := isVarint_iff.mp hv
  rw [List.length_append, List.length_singleton] at hlen
  have hfive : maxVarintLen = 5 := rfl
  obtain ⟨m, hm, hmvalue⟩ := readBytes_varint (i := 0) (v := 0)
    (rest.take (maxVarintLen - (init.length + 1))) hinit hb (by omega) (by decide)
  have htake : (init ++ [b] ++ rest).take maxVarintLen =
      init ++ b :: rest.take (maxVarintLen - (init.length + 1)) := by
    rw [List.take_append, List.length_append, List.length_singleton, List.take_of_length_le]
    · rw [List.append_assoc]
      rfl
    · rw [List.length_append, List.length_singleton]
      exact hlen
  refine ⟨m, ?_, ?_⟩
  · rw [readVarint, htake, hm]
    simp only [Option.bind_eq_bind, Option.bind_some, Nat.zero_add, List.length_append,
      List.length_singleton]
    rfl
  · rw [hmvalue, hvalue]
    simp

/-- Five bytes that all continue are too many. -/
theorem readVarint_tooLong {v : List UInt8} (hlen : v.length = maxVarintLen)
    (hv : ∀ c ∈ v, continues c = true) (rest : List UInt8) :
    readVarint (v ++ rest) = some (.error .varintTooLong) := by
  rw [readVarint, ← hlen, List.take_left, readBytes_continues hv (by rw [hlen]; decide) (by decide)]
  simp only [Option.bind_eq_bind, Option.bind_some]
  rw [if_pos (by rw [List.length_append]; omega)]
  rfl

/-- Fewer that all continue need more. -/
theorem readVarint_incomplete {bs : List UInt8} (hlen : bs.length < maxVarintLen)
    (hbs : ∀ c ∈ bs, continues c = true) : readVarint bs = some (.ok .incomplete) := by
  have hfive : maxVarintLen = 5 := rfl
  rw [readVarint, List.take_of_length_le hlen.le, readBytes_continues hbs (by omega) (by decide)]
  simp only [Option.bind_eq_bind, Option.bind_some]
  rw [if_neg (by omega)]
  rfl

/-- Bytes start with a varint, with five bytes that continue, or are few that continue. -/
theorem varint_cases (bs : List UInt8) :
    (∃ v rest n, bs = v ++ rest ∧ IsVarint v n ∧ v.length ≤ maxVarintLen) ∨
      (∃ v rest, bs = v ++ rest ∧ v.length = maxVarintLen ∧ ∀ c ∈ v, continues c = true) ∨
      (bs.length < maxVarintLen ∧ ∀ c ∈ bs, continues c = true) := by
  have hinit : ∀ c ∈ bs.takeWhile continues, continues c = true := fun c hc =>
    List.mem_takeWhile_imp hc
  have hsplit := List.takeWhile_append_dropWhile (p := continues) (l := bs)
  by_cases hlong : maxVarintLen ≤ (bs.takeWhile continues).length
  · refine .inr (.inl ⟨(bs.takeWhile continues).take maxVarintLen,
      (bs.takeWhile continues).drop maxVarintLen ++ bs.dropWhile continues, ?_, ?_, ?_⟩)
    · rw [← List.append_assoc, List.take_append_drop, hsplit]
    · rw [List.length_take]
      omega
    · exact fun c hc => hinit c (List.mem_of_mem_take hc)
  · rcases hrest : bs.dropWhile continues with _ | ⟨b, rest⟩
    · rw [hrest, List.append_nil] at hsplit
      rw [hsplit] at hlong hinit
      exact .inr (.inr ⟨by omega, hinit⟩)
    · have hb : continues b = false := by
        have hhead := List.head_dropWhile_not continues
          (show bs.dropWhile continues ≠ [] by rw [hrest]; exact List.cons_ne_nil _ _)
        simpa [hrest] using hhead
      refine .inl ⟨bs.takeWhile continues ++ [b], rest, _, ?_,
        isVarint_iff.mpr ⟨_, b, rfl, hinit, hb, rfl⟩, ?_⟩
      · rw [List.append_assoc, List.singleton_append, ← hrest, hsplit]
      · rw [List.length_append, List.length_singleton]
        omega

/-! ### What a buffer starts with -/

/-- The bytes are the frame on the wire; its varints may be padded. -/
def IsFrame (w : List UInt8) (f : Frame) : Prop :=
  ∃ v u, w = plaintextIndicator :: (v ++ (u ++ f.payload)) ∧
    IsVarint v f.payload.length ∧ v.length ≤ maxVarintLen ∧ f.payload.length ≤ maxFrameLen ∧
    IsVarint u f.messageType.toNat ∧ u.length ≤ maxVarintLen

/-- The bytes start with a header that no frame has. -/
inductive Shows : List UInt8 → FrameError → Prop
  | indicator {b : UInt8} (rest : List UInt8) (hb : b ≠ plaintextIndicator) :
      Shows (b :: rest) (.badIndicator b)
  | lengthTooLong {v : List UInt8} (rest : List UInt8) (hlen : v.length = maxVarintLen)
      (hv : ∀ c ∈ v, continues c = true) : Shows (plaintextIndicator :: (v ++ rest)) .varintTooLong
  | tooLarge {v : List UInt8} {len : UInt64} (rest : List UInt8) (hv : IsVarint v len.toNat)
      (hlen : v.length ≤ maxVarintLen) (hlarge : maxFrameLen < len.toNat) :
      Shows (plaintextIndicator :: (v ++ rest)) (.tooLarge len)
  | typeTooLong {v u : List UInt8} {len : ℕ} (rest : List UInt8) (hv : IsVarint v len)
      (hlen : v.length ≤ maxVarintLen) (hsmall : len ≤ maxFrameLen) (hulen : u.length = maxVarintLen)
      (hu : ∀ c ∈ u, continues c = true) :
      Shows (plaintextIndicator :: (v ++ (u ++ rest))) .varintTooLong
  | typeOutOfRange {v u : List UInt8} {len : ℕ} {messageType : UInt64} (rest : List UInt8)
      (hv : IsVarint v len) (hlen : v.length ≤ maxVarintLen) (hsmall : len ≤ maxFrameLen)
      (hu : IsVarint u messageType.toNat) (hulen : u.length ≤ maxVarintLen)
      (hlarge : 65535 < messageType.toNat) :
      Shows (plaintextIndicator :: (v ++ (u ++ rest))) (.typeOutOfRange messageType)

theorem Shows.append {b : List UInt8} {e : FrameError} (h : Shows b e) (c : List UInt8) :
    Shows (b ++ c) e := by
  cases h with
  | indicator rest hb => exact .indicator _ hb
  | lengthTooLong rest hlen hv =>
      rw [List.cons_append, List.append_assoc]
      exact .lengthTooLong _ hlen hv
  | tooLarge rest hv hlen hlarge =>
      rw [List.cons_append, List.append_assoc]
      exact .tooLarge _ hv hlen hlarge
  | typeTooLong rest hv hlen hsmall hulen hu =>
      rw [List.cons_append, List.append_assoc, List.append_assoc]
      exact .typeTooLong _ hv hlen hsmall hulen hu
  | typeOutOfRange rest hv hlen hsmall hu hulen hlarge =>
      rw [List.cons_append, List.append_assoc, List.append_assoc]
      exact .typeOutOfRange _ hv hlen hsmall hu hulen hlarge

theorem sliceFrom_append (a b : List UInt8) : sliceFrom (a ++ b) a.length = some b := by
  rw [sliceFrom, if_pos (by rw [List.length_append]; omega), List.drop_left]

/-- How `next_frame` reads a length that is small enough. -/
theorem length_read {v : List UInt8} {n : ℕ} (hv : IsVarint v n) (hlen : v.length ≤ maxVarintLen)
    (hn : n ≤ maxFrameLen) (rest : List UInt8) :
    ∃ len : UInt64, len.toNat = n ∧
      sliceFrom (plaintextIndicator :: (v ++ rest)) 1 = some (v ++ rest) ∧
      readVarint (v ++ rest) = some (.ok (.complete len v.length)) ∧
      ¬ UInt64.ofNat maxFrameLen < len ∧ add 1 v.length = some (1 + v.length) ∧
      sliceFrom (plaintextIndicator :: (v ++ rest)) (1 + v.length) = some rest := by
  obtain ⟨len, hread, hvalue⟩ := readVarint_complete hv hlen rest
  have hfive : maxVarintLen = 5 := rfl
  refine ⟨len, hvalue, sliceFrom_append [plaintextIndicator] (v ++ rest), hread, ?_, ?_, ?_⟩
  · rw [UInt64.lt_iff_toNat_lt, hvalue]
    exact not_lt.mpr hn
  · exact if_pos (by omega)
  · have h := sliceFrom_append (plaintextIndicator :: v) rest
    rwa [List.length_cons, Nat.add_comm] at h

/-- **A bad header is reported**, and the buffer stays. -/
theorem nextFrame_shows {b : List UInt8} {e : FrameError} (h : Shows b e) :
    nextFrame b = some (.error e, b) := by
  cases h with
  | indicator rest hb => rw [nextFrame, if_pos hb]
  | @lengthTooLong v rest hlen hv =>
      have hslice : sliceFrom (plaintextIndicator :: (v ++ rest)) 1 = some (v ++ rest) :=
        sliceFrom_append [plaintextIndicator] (v ++ rest)
      rw [nextFrame, if_neg (not_not.mpr rfl), hslice]
      simp only [Option.bind_eq_bind, Option.bind_some, readVarint_tooLong hlen hv rest]
      rfl
  | @tooLarge v len rest hv hlen hlarge =>
      have hslice : sliceFrom (plaintextIndicator :: (v ++ rest)) 1 = some (v ++ rest) :=
        sliceFrom_append [plaintextIndicator] (v ++ rest)
      obtain ⟨m, hread, hvalue⟩ := readVarint_complete hv hlen rest
      obtain rfl : m = len := UInt64.toNat_inj.mp hvalue
      have hlt : UInt64.ofNat maxFrameLen < m := UInt64.lt_iff_toNat_lt.mpr hlarge
      rw [nextFrame, if_neg (not_not.mpr rfl), hslice]
      simp only [Option.bind_eq_bind, Option.bind_some, hread, if_pos hlt]
      rfl
  | @typeTooLong v u len rest hv hlen hsmall hulen hu =>
      obtain ⟨m, hm, hslice, hread, hle, hadd, htype⟩ := length_read hv hlen hsmall (u ++ rest)
      rw [nextFrame, if_neg (not_not.mpr rfl), hslice]
      simp only [Option.bind_eq_bind, Option.bind_some, hread, if_neg hle, hadd, htype,
        readVarint_tooLong hulen hu rest]
      rfl
  | @typeOutOfRange v u len messageType rest hv hlen hsmall hu hulen hlarge =>
      obtain ⟨m, hm, hslice, hread, hle, hadd, htype⟩ := length_read hv hlen hsmall (u ++ rest)
      obtain ⟨t, htread, htvalue⟩ := readVarint_complete hu hulen rest
      obtain rfl : t = messageType := UInt64.toNat_inj.mp htvalue
      have hlt : (65535 : UInt64) < t := UInt64.lt_iff_toNat_lt.mpr hlarge
      rw [nextFrame, if_neg (not_not.mpr rfl), hslice]
      simp only [Option.bind_eq_bind, Option.bind_some, hread, if_neg hle, hadd, htype, htread,
        if_pos hlt]
      rfl

/-- How `next_frame` goes on after a good header. -/
theorem nextFrame_header {v u : List UInt8} {len : ℕ} {messageType : UInt16} (rest : List UInt8)
    (hv : IsVarint v len) (hlen : v.length ≤ maxVarintLen) (hsmall : len ≤ maxFrameLen)
    (hu : IsVarint u messageType.toNat) (hulen : u.length ≤ maxVarintLen) :
    nextFrame (plaintextIndicator :: (v ++ (u ++ rest))) =
      if rest.length < len then some (.ok none, plaintextIndicator :: (v ++ (u ++ rest)))
      else some (.ok (some ⟨messageType, rest.take len⟩), rest.drop len) := by
  obtain ⟨m, rfl, hslice, hread, hle, hadd, htype⟩ := length_read hv hlen hsmall (u ++ rest)
  obtain ⟨t, htread, htvalue⟩ := readVarint_complete hu hulen rest
  have hlt : ¬ (65535 : UInt64) < t := by
    rw [UInt64.lt_iff_toNat_lt, htvalue, not_lt]
    exact Nat.le_of_lt_succ messageType.toNat_lt
  have hfive : maxVarintLen = 5 := rfl
  have hmax : maxFrameLen = 65535 := rfl
  have hheader : add (1 + v.length) u.length = some (1 + v.length + u.length) :=
    if_pos (by omega)
  have htotal : add (1 + v.length + u.length) m.toNat =
      some (1 + v.length + u.length + m.toNat) := if_pos (by omega)
  have hpayload : sliceFrom (plaintextIndicator :: (v ++ (u ++ rest))) (1 + v.length + u.length) =
      some rest := by
    have h := sliceFrom_append (plaintextIndicator :: (v ++ u)) rest
    rwa [List.cons_append, List.append_assoc, List.length_cons, List.length_append, Nat.add_comm,
      ← Nat.add_assoc] at h
  have hsize : (plaintextIndicator :: (v ++ (u ++ rest))).length <
      1 + v.length + u.length + m.toNat ↔ rest.length < m.toNat := by
    rw [List.length_cons, List.length_append, List.length_append]
    omega
  have htoType : t.toUInt16 = messageType := by
    rw [← UInt16.toNat_inj, UInt64.toNat_toUInt16, htvalue]
    exact Nat.mod_eq_of_lt messageType.toNat_lt
  rw [nextFrame, if_neg (not_not.mpr rfl), hslice]
  simp only [Option.bind_eq_bind, Option.bind_some, hread, if_neg hle, hadd, htype, htread,
    if_neg hlt, hheader, htotal, hsize, hpayload, htoType]
  split_ifs with hshort
  · rfl
  · rw [splitTo, if_pos (not_lt.mp hshort)]
    rfl

/-- **A frame at the front is taken off.** -/
theorem nextFrame_frame {w : List UInt8} {f : Frame} (h : IsFrame w f) (rest : List UInt8) :
    nextFrame (w ++ rest) = some (.ok (some f), rest) := by
  obtain ⟨v, u, rfl, hv, hlen, hsmall, hu, hulen⟩ := h
  rw [List.cons_append, List.append_assoc, List.append_assoc,
    nextFrame_header (f.payload ++ rest) hv hlen hsmall hu hulen,
    if_neg (by rw [List.length_append]; omega), List.take_left, List.drop_left]

/-- **A buffer starts with a frame, shows a bad header, or needs more bytes**; then it stays. -/
theorem nextFrame_cases (b : List UInt8) :
    (∃ w f rest, b = w ++ rest ∧ IsFrame w f) ∨ (∃ e, Shows b e) ∨
      nextFrame b = some (.ok none, b) := by
  rcases b with _ | ⟨indicator, b⟩
  · exact .inr (.inr rfl)
  · by_cases hb : indicator = plaintextIndicator
    · subst hb
      rcases varint_cases b with ⟨v, rest, n, rfl, hv, hlen⟩ | ⟨v, rest, rfl, hlen, hv⟩ | ⟨hlen, hv⟩
      · by_cases hsmall : n ≤ maxFrameLen
        · rcases varint_cases rest with ⟨u, rest, k, rfl, hu, hulen⟩ | ⟨u, rest, rfl, hulen, hu⟩ |
            ⟨hulen, hu⟩
          · by_cases hk : k ≤ 65535
            · have htype : (UInt16.ofNat k).toNat = k := Nat.mod_eq_of_lt (Nat.lt_succ_of_le hk)
              by_cases hshort : rest.length < n
              · refine .inr (.inr ?_)
                rw [nextFrame_header rest hv hlen hsmall (htype.symm ▸ hu) hulen, if_pos hshort]
              · have hpayload : (rest.take n).length = n := by
                  rw [List.length_take]
                  omega
                refine .inl ⟨plaintextIndicator :: (v ++ (u ++ rest.take n)),
                  ⟨UInt16.ofNat k, rest.take n⟩, rest.drop n, ?_, v, u, rfl, hpayload.symm ▸ hv, hlen,
                  hpayload.symm ▸ hsmall, htype.symm ▸ hu, hulen⟩
                rw [List.cons_append, List.append_assoc, List.append_assoc, List.take_append_drop]
            · obtain ⟨m, -, rfl⟩ := readVarint_complete hu hulen rest
              exact .inr (.inl ⟨_, .typeOutOfRange rest hv hlen hsmall hu hulen (not_le.mp hk)⟩)
          · exact .inr (.inl ⟨_, .typeTooLong rest hv hlen hsmall hulen hu⟩)
          · refine .inr (.inr ?_)
            obtain ⟨m, rfl, hslice, hread, hle, hadd, htype⟩ := length_read hv hlen hsmall rest
            rw [nextFrame, if_neg (not_not.mpr rfl), hslice]
            simp only [Option.bind_eq_bind, Option.bind_some, hread, if_neg hle, hadd, htype,
              readVarint_incomplete hulen hu]
            rfl
        · obtain ⟨m, -, rfl⟩ := readVarint_complete hv hlen rest
          exact .inr (.inl ⟨_, .tooLarge rest hv hlen (not_le.mp hsmall)⟩)
      · exact .inr (.inl ⟨_, .lengthTooLong rest hlen hv⟩)
      · refine .inr (.inr ?_)
        have hslice : sliceFrom (plaintextIndicator :: b) 1 = some b :=
          sliceFrom_append [plaintextIndicator] b
        rw [nextFrame, if_neg (not_not.mpr rfl), hslice]
        simp only [Option.bind_eq_bind, Option.bind_some, readVarint_incomplete hlen hv]
        rfl
    · exact .inr (.inl ⟨_, .indicator b hb⟩)

/-! ### Chunks -/

/-- What the decoder makes of the front of its buffer. -/
def front (b : List UInt8) : Chunks.Front Frame FrameError :=
  match nextFrame b with
  | some (.ok (some f), rest) => .item f (b.length - rest.length)
  | some (.error e, _) => .failed e
  | _ => .more

theorem front_frame {w : List UInt8} {f : Frame} (h : IsFrame w f) (rest : List UInt8) :
    front (w ++ rest) = .item f w.length := by
  rw [front, nextFrame_frame h]
  simp

theorem front_shows {b : List UInt8} {e : FrameError} (h : Shows b e) : front b = .failed e := by
  rw [front, nextFrame_shows h]

theorem front_more {b : List UInt8} (h : nextFrame b = some (.ok none, b)) : front b = .more := by
  rw [front, h]

/-- An item is a frame at the front. -/
theorem frame_of_front {b : List UInt8} {f : Frame} {n : ℕ} (h : front b = .item f n) :
    ∃ w rest, b = w ++ rest ∧ w.length = n ∧ IsFrame w f := by
  rcases nextFrame_cases b with ⟨w, g, rest, rfl, hg⟩ | ⟨e, he⟩ | hmore
  · rw [front_frame hg, Chunks.Front.item.injEq] at h
    obtain ⟨rfl, rfl⟩ := h
    exact ⟨w, rest, rfl, rfl, hg⟩
  · rw [front_shows he] at h
    cases h
  · rw [front_more hmore] at h
    cases h

/-- A failure is a bad header at the front. -/
theorem front_eq_failed_iff {b : List UInt8} {e : FrameError} :
    front b = .failed e ↔ Shows b e := by
  refine ⟨fun h => ?_, front_shows⟩
  rcases nextFrame_cases b with ⟨w, g, rest, rfl, hg⟩ | ⟨e', he⟩ | hmore
  · rw [front_frame hg] at h
    cases h
  · rw [front_shows he] at h
    cases h
    exact he
  · rw [front_more hmore] at h
    cases h

theorem IsFrame.length_pos {w : List UInt8} {f : Frame} (h : IsFrame w f) : 0 < w.length := by
  obtain ⟨v, u, rfl, -⟩ := h
  exact Nat.succ_pos _

theorem stable_front : Chunks.Stable front where
  size h := by
    obtain ⟨w, rest, rfl, rfl, hw⟩ := frame_of_front h
    refine ⟨hw.length_pos, ?_⟩
    rw [List.length_append]
    omega
  item c h := by
    obtain ⟨w, rest, rfl, rfl, hw⟩ := frame_of_front h
    rw [List.append_assoc, front_frame hw]
  failed c h := front_shows ((front_eq_failed_iff.mp h).append c)

/-- The model's loop is the library's. -/
theorem takeFrames_eq {n : ℕ} {b : List UInt8} (hn : b.length < n) :
    takeFrames n b = some (Chunks.drain front n b) := by
  induction n generalizing b with
  | zero => omega
  | succ n ih =>
      rw [takeFrames, Chunks.drain]
      rcases nextFrame_cases b with ⟨w, f, rest, rfl, hf⟩ | ⟨e, he⟩ | hmore
      · have hpos := hf.length_pos
        rw [List.length_append] at hn
        have hrest := ih (b := rest) (by omega)
        rw [nextFrame_frame hf, front_frame hf]
        simp only [Option.bind_eq_bind, Option.bind_some, hrest, List.drop_left]
        rfl
      · rw [nextFrame_shows he, front_shows he]
        rfl
      · rw [hmore, front_more hmore]
        rfl

theorem receive_eq (r : Received) (chunk : List UInt8) :
    receive r chunk = some (Chunks.feed front r chunk) := by
  rw [receive, takeFrames_eq (Nat.lt_succ_self _)]
  rfl

/-- **The chunks are decoded as the whole.** -/
theorem receiveAll_eq (chunks : List (List UInt8)) :
    receiveAll chunks = some (Chunks.decode front chunks.flatten) := by
  have hfold : ∀ r : Received, chunks.foldlM receive r = some (chunks.foldl (Chunks.feed front) r) := by
    induction chunks with
    | nil => exact fun _ => rfl
    | cons c chunks ih =>
        intro r
        rw [List.foldlM_cons, receive_eq, List.foldl_cons, ← ih]
        rfl
  have hempty : Chunks.decode front [] = ⟨[], none, []⟩ := Chunks.decode_more rfl
  rw [receiveAll, hfold, ← hempty, Chunks.foldl_feed stable_front, List.nil_append]

/-- The bytes are the frames one after the other, then the rest, where no frame starts. -/
inductive Splits : List UInt8 → List Frame → List UInt8 → Prop
  | nil {b : List UInt8} (hb : ∀ w f rest, b = w ++ rest → ¬ IsFrame w f) : Splits b [] b
  | cons {w bytes rest : List UInt8} {f : Frame} {fs : List Frame} (hw : IsFrame w f)
      (hs : Splits bytes fs rest) : Splits (w ++ bytes) (f :: fs) rest

theorem not_isFrame_of_front {b : List UInt8} (h : ∀ f n, front b ≠ .item f n) (w : List UInt8)
    (f : Frame) (rest : List UInt8) (hb : b = w ++ rest) : ¬ IsFrame w f := by
  intro hw
  rw [hb, front_frame hw] at h
  exact h f w.length rfl

theorem splits_decode (b : List UInt8) :
    Splits b (Chunks.decode front b).items (Chunks.decode front b).rest := by
  induction b using Chunks.decode_induction stable_front with
  | more b hb =>
      rw [Chunks.decode_more hb]
      exact .nil (not_isFrame_of_front (by rw [hb]; exact fun _ _ => nofun))
  | failed b e hb =>
      rw [Chunks.decode_failed hb]
      exact .nil (not_isFrame_of_front (by rw [hb]; exact fun _ _ => nofun))
  | item b f n hb ih =>
      rw [Chunks.decode_item stable_front hb]
      obtain ⟨w, rest, rfl, rfl, hw⟩ := frame_of_front hb
      rw [List.drop_left] at ih ⊢
      exact .cons hw ih

/-- **An error is reported just when the rest shows a bad header.** -/
theorem decode_error_iff (b : List UInt8) (e : FrameError) :
    (Chunks.decode front b).error = some e ↔ Shows (Chunks.decode front b).rest e := by
  induction b using Chunks.decode_induction stable_front with
  | more b hb =>
      rw [Chunks.decode_more hb]
      refine ⟨nofun, fun h => ?_⟩
      rw [front_shows h] at hb
      cases hb
  | failed b e' hb =>
      rw [Chunks.decode_failed hb, ← front_eq_failed_iff, hb]
      simp
  | item b f n hb ih =>
      rw [Chunks.decode_item stable_front hb]
      exact ih

/-! ### The encoder -/

section

variable {encodeVarint : UInt64 → List UInt8} (hvarint : ∀ v, encodeVarint v = leb128 v.toNat)

include hvarint

/-- What the encoder writes is a frame. -/
theorem encodeRaw_frame {f : Frame} (hf : f.payload.length ≤ maxFrameLen) :
    ∃ w, encodeRaw encodeVarint f.messageType f.payload = .ok w ∧ IsFrame w f := by
  have hmax : maxFrameLen = 65535 := rfl
  have hlen : (UInt64.ofNat f.payload.length).toNat = f.payload.length :=
    Nat.mod_eq_of_lt (show f.payload.length < 2 ^ 64 by omega)
  have htype : f.messageType.toUInt64.toNat = f.messageType.toNat := UInt16.toNat_toUInt64 _
  have htypelt : f.messageType.toNat < 65536 := f.messageType.toNat_lt
  refine ⟨plaintextIndicator :: encodeVarint (UInt64.ofNat f.payload.length) ++
    encodeVarint f.messageType.toUInt64 ++ f.payload, ?_, _, _, ?_,
    isVarint_leb128 f.payload.length, ?_, hf, isVarint_leb128 f.messageType.toNat, ?_⟩
  · rw [encodeRaw, header, if_neg (not_lt.mpr hf)]
  · rw [hvarint, hvarint, hlen, htype, List.cons_append, List.cons_append, List.append_assoc]
  · exact (length_leb128_le 2 (by omega)).trans (by decide)
  · exact (length_leb128_le 2 (by omega)).trans (by decide)

/-- **What the encoder writes comes back.** -/
theorem encodeAll_decode {fs : List Frame} (hfs : ∀ f ∈ fs, f.payload.length ≤ maxFrameLen) :
    ∃ bytes, encodeAll encodeVarint fs = .ok bytes ∧
      Chunks.decode front bytes = ⟨fs, none, []⟩ := by
  induction fs with
  | nil => exact ⟨[], rfl, Chunks.decode_more rfl⟩
  | cons f fs ih =>
      obtain ⟨hf, hfs⟩ := List.forall_mem_cons.mp hfs
      obtain ⟨w, hw, hframe⟩ := encodeRaw_frame hvarint hf
      obtain ⟨bytes, hbytes, hdecode⟩ := ih hfs
      refine ⟨w ++ bytes, ?_, ?_⟩
      · rw [encodeAll, hw]
        dsimp only
        rw [hbytes]
      · rw [Chunks.decode_item stable_front (front_frame hframe bytes), List.drop_left, hdecode]

end

/-- Reading never fails, and what is no frame yet stays in the buffer. -/
theorem nextFrame_keeps (buffer : List UInt8) :
    ∃ out rest, nextFrame buffer = some (out, rest) ∧
      ((∀ f, out ≠ .ok (some f)) → rest = buffer) := by
  rcases nextFrame_cases buffer with ⟨w, f, rest, rfl, hf⟩ | ⟨e, he⟩ | hmore
  · exact ⟨_, _, nextFrame_frame hf rest, fun hnone => absurd rfl (hnone f)⟩
  · exact ⟨_, _, nextFrame_shows he, fun _ => rfl⟩
  · exact ⟨_, _, hmore, fun _ => rfl⟩

/-- **Framing does not depend on the chunks and undoes its encoder.** -/
theorem framing {encodeVarint : UInt64 → List UInt8}
    (hvarint : ∀ v, encodeVarint v = leb128 v.toNat) :
    (∀ chunks : List (List UInt8), ∃ r, receiveAll chunks = some r ∧
      receiveAll [chunks.flatten] = some r ∧ Splits chunks.flatten r.items r.rest ∧
      ∀ e, r.error = some e ↔ Shows r.rest e) ∧
    (∀ fs : List Frame, (∀ f ∈ fs, f.payload.length ≤ maxFrameLen) →
      ∃ bytes, encodeAll encodeVarint fs = .ok bytes ∧
        receiveAll [bytes] = some ⟨fs, none, []⟩) ∧
    ∀ buffer, ∃ out rest, nextFrame buffer = some (out, rest) ∧
      ((∀ f, out ≠ .ok (some f)) → rest = buffer) := by
  refine ⟨fun chunks => ⟨Chunks.decode front chunks.flatten, receiveAll_eq chunks, ?_,
    splits_decode chunks.flatten, decode_error_iff chunks.flatten⟩, fun fs hfs => ?_,
    nextFrame_keeps⟩
  · rw [receiveAll_eq, List.flatten_singleton]
  · obtain ⟨bytes, hbytes, hdecode⟩ := encodeAll_decode hvarint hfs
    refine ⟨bytes, hbytes, ?_⟩
    rw [receiveAll_eq, List.flatten_singleton, hdecode]

/-- With the encoder that writes the shortest varints. -/
theorem framing_shortest :
    (∀ v, (fun v : UInt64 => leb128 v.toNat) v = leb128 v.toNat) ∧
      ∃ bytes, encodeAll (fun v => leb128 v.toNat) [⟨7, []⟩, ⟨1, [10, 0]⟩] = .ok bytes ∧
        receiveAll [bytes] = some ⟨[⟨7, []⟩, ⟨1, [10, 0]⟩], none, []⟩ :=
  ⟨fun _ => rfl, (framing (fun _ => rfl)).2.1 _ (by decide)⟩

end EchoMuse.Esphome
