import EchoMuse.Ema.Firmware

/-!
# The Firmware and the Controller Accept the Same Frames

The two EMA1 implementations check in different structures: the firmware through wrapping
32-bit products and one header with every wire field, the controller through 64-bit
lengths, an optional uncertainty and a range check on the samples.

## Main results

* `validate_eq_ok_iff`: the firmware's header rules are the controller's;
* `decodeRecords_iff`: the firmware accepts a message exactly when the controller does, or
  when the sample range is all the controller holds against it;
* `firmware_accepts_iff_overflow_unchecked`: the controller reports the sample range first,
  so its `SampleOverflow` alone does not say that the firmware accepts;
* `frames_agree`: acceptance, equal contents, and both directions of encoding.
-/

namespace EchoMuse.Ema

open EchoMuse

/-! ### Kinds -/

theorem fromU8_eq_some_iff {b : UInt8} {k : Kind} :
    Kind.fromU8 b = some k ↔ b = k.toU8 := by
  constructor
  · exact fun h => (Kind.toU8_of_fromU8 h).symm
  · rintro rfl
    exact Kind.fromU8_toU8 k

/-- The firmware's range test on the kind byte finds exactly the five kinds. -/
theorem exists_toU8_iff {b : UInt8} :
    (∃ k : Kind, b = k.toU8) ↔ ¬ (b < Firmware.KindMic ∨ b > Firmware.KindAFE) := by
  constructor
  · rintro ⟨k, rfl⟩
    cases k <;> decide
  · intro h
    rw [not_or, UInt8.not_lt, gt_iff_lt, UInt8.not_lt, UInt8.le_iff_toNat_le,
      UInt8.le_iff_toNat_le] at h
    obtain ⟨hlo, hhi⟩ := h
    have hlo' : 1 ≤ b.toNat := hlo
    have hhi' : b.toNat ≤ 5 := hhi
    have hcases : b.toNat = 1 ∨ b.toNat = 2 ∨ b.toNat = 3 ∨ b.toNat = 4 ∨ b.toNat = 5 := by
      omega
    obtain h | h | h | h | h := hcases
    · exact ⟨.mic, UInt8.toNat_inj.mp h⟩
    · exact ⟨.reference, UInt8.toNat_inj.mp h⟩
    · exact ⟨.render, UInt8.toNat_inj.mp h⟩
    · exact ⟨.cells, UInt8.toNat_inj.mp h⟩
    · exact ⟨.afe, UInt8.toNat_inj.mp h⟩

theorem formatFor_toU8 (k : Kind) : Firmware.formatFor k.toU8 = k.format.toU8 := by
  cases k <;> rfl

theorem rateFor_toU8 (k : Kind) : Firmware.rateFor k.toU8 = k.sampleRate := by
  cases k <;> rfl

theorem maxFrames_toU8 (k : Kind) : Firmware.maxFrames k.toU8 = k.maxFrames := by
  cases k <;> rfl

/-- No kind allows more frames than fit a small number. -/
theorem maxFrames_le (k : Kind) : k.maxFrames.toNat ≤ 3840 := by
  cases k <;> decide

/-- One bit is set exactly when masking it leaves something. -/
theorem and_bit_eq_iff (i : ℕ) (bits : UInt8) (hi : i < 8) :
    bits &&& UInt8.ofBitVec (BitVec.twoPow 8 i) = UInt8.ofBitVec (BitVec.twoPow 8 i) ↔
      bits &&& UInt8.ofBitVec (BitVec.twoPow 8 i) ≠ 0 := by
  have hne : UInt8.ofBitVec (BitVec.twoPow 8 i) ≠ 0 := by
    intro h0
    have hbit := congrArg (fun v : UInt8 => v.toBitVec.getLsbD i) h0
    simp [hi] at hbit
  have hvec := BitVec.and_twoPow bits.toBitVec i
  cases hb : bits.toBitVec.getLsbD i with
  | false =>
      rw [hb] at hvec
      have h0 : bits &&& UInt8.ofBitVec (BitVec.twoPow 8 i) = 0 := UInt8.toBitVec_inj.mp hvec
      rw [h0]
      exact ⟨fun h => absurd h.symm hne, fun h => absurd rfl h⟩
  | true =>
      rw [hb] at hvec
      have h1 : bits &&& UInt8.ofBitVec (BitVec.twoPow 8 i) =
          UInt8.ofBitVec (BitVec.twoPow 8 i) := UInt8.toBitVec_inj.mp hvec
      rw [h1]
      exact ⟨fun _ => hne, fun _ => rfl⟩

theorem contains_digitalSilence_iff {bits : UInt8} :
    (Flags.mk bits).contains Flags.DIGITAL_SILENCE = true ↔
      bits &&& Firmware.FlagDigitalSilence ≠ 0 := by
  rw [Flags.contains, decide_eq_true_eq]
  exact and_bit_eq_iff 4 bits (by decide)

theorem contains_gap_iff {bits : UInt8} :
    (CellFlags.mk bits).contains CellFlags.GAP = true ↔ bits &&& Firmware.CellGap ≠ 0 := by
  rw [CellFlags.contains, decide_eq_true_eq]
  exact and_bit_eq_iff 0 bits (by decide)

/-- Within a kind's frame bound the firmware's 32-bit payload product does not wrap. -/
theorem toNat_payloadLen {k : Kind} {flags : UInt8} {frames : UInt32}
    (h : frames ≤ k.maxFrames) :
    (Firmware.payloadLen k.toU8 flags frames).toNat = k.payloadBytes ⟨flags⟩ frames := by
  have hf : frames.toNat ≤ 3840 := le_trans h (maxFrames_le k)
  have hmul : ∀ n : ℕ, n ≤ 14 → (frames * UInt32.ofNat n).toNat = frames.toNat * n := by
    intro n hn
    have hprod : frames.toNat * n ≤ 3840 * 14 := Nat.mul_le_mul hf hn
    rw [UInt32.toNat_mul, UInt32.toNat_ofNat_of_lt' (lt_of_le_of_lt hn (by decide)),
      Nat.mod_eq_of_lt (by omega)]
  have hpcm : (if flags &&& Firmware.FlagDigitalSilence ≠ 0 then (0 : UInt32)
      else frames * UInt32.ofNat Firmware.pcmSampleSize).toNat =
      if (Flags.mk flags).contains Flags.DIGITAL_SILENCE then 0 else frames.toNat * 2 := by
    by_cases hs : flags &&& Firmware.FlagDigitalSilence ≠ 0
    · rw [if_pos hs, if_pos (contains_digitalSilence_iff.mpr hs), UInt32.toNat_zero]
    · rw [if_neg hs, if_neg (mt contains_digitalSilence_iff.mp hs)]
      exact hmul 2 (by decide)
  cases k with
  | cells => exact hmul 4 (by decide)
  | afe => exact hmul 14 (by decide)
  | mic | reference | render => exact hpcm

/-! ### Header rules -/

/-- The controller's raw fields of a firmware header of a known kind. -/
def rawOf (g : Firmware.Header) (k : Kind) : RawHeader where
  kind := k
  flags := g.flags
  channels := g.channels
  format := g.format
  epoch := g.epoch
  firstSample := g.firstSample
  sampleRate := g.sampleRate
  frameCount := g.frameCount
  generation := g.generation
  sourceMask := g.sourceMask
  payloadBytes := g.payloadBytes

/-- The firmware's alignment and product tests on a header of kind `k`. -/
theorem ne_kind_iff {k k' : Kind} : k.toU8 ≠ k'.toU8 ↔ k ≠ k' := by
  rw [ne_eq, ne_eq, not_iff_not]
  constructor
  · intro h
    have := congrArg Kind.fromU8 h
    rwa [Kind.fromU8_toU8, Kind.fromU8_toU8, Option.some.injEq] at this
  · rintro rfl
    rfl

/-- **The firmware's header rules are the controller's.** -/
theorem validate_eq_ok_iff {g : Firmware.Header} :
    g.validate = .ok () ↔ ∃ k, g.kind = k.toU8 ∧ (rawOf g k).Valid := by
  simp only [Firmware.Header.validate, ite_error_eq_ok_iff, and_true]
  rw [← exists_toU8_iff]
  constructor
  · rintro ⟨⟨k, hk⟩, h1, h2, h3, h4, h5, h6, h7, h8, h9, h10, h11⟩
    rw [hk] at h1 h3 h5 h6 h7 h8 h9 h10 h11
    rw [not_or] at h1 h6 h8
    have hcount : g.frameCount ≤ k.maxFrames := by
      rw [← maxFrames_toU8]
      exact UInt32.not_lt.mp h6.2
    refine ⟨k, hk, ⟨not_not.mp h1.1, ?_, not_not.mp h2, ?_, h4, ?_, ⟨?_, hcount⟩, ?_, ?_,
      not_not.mp h8.2, ?_, ?_, ?_⟩⟩
    · intro hs
      by_contra hne
      exact h1.2 ⟨contains_digitalSilence_iff.mp hs, ne_kind_iff.mpr hne⟩
    · rw [← formatFor_toU8]
      exact not_not.mp h3
    · rw [← rateFor_toU8]
      exact not_not.mp h5
    · intro h0
      have h0 : g.frameCount = 0 := h0
      exact h6.1 (by rw [h0]; decide)
    · intro hne
      by_contra hg
      exact h7 ⟨ne_kind_iff.mpr hne, hg⟩
    · intro hne
      by_contra hm
      exact h8.1 ⟨ne_kind_iff.mpr hne, hm⟩
    · rintro rfl
      exact Nat.dvd_of_mod_eq_zero (by_contra fun hd => h9 ⟨rfl, hd⟩)
    · rintro rfl
      exact Nat.dvd_of_mod_eq_zero (by_contra fun hd => h10 ⟨rfl, hd⟩)
    · exact (congrArg UInt32.toNat (not_not.mp h11)).trans (toNat_payloadLen hcount)
  · rintro ⟨k, hk, v⟩
    have hcount : g.frameCount ≤ k.maxFrames := v.frameCount.2
    have hlen := @toNat_payloadLen k g.flags g.frameCount hcount
    have hkind : ∀ k' : Kind, g.kind = k'.toU8 → k = k' := by
      intro k' h
      by_contra hne
      exact ne_kind_iff.mpr hne (hk.symm.trans h)
    refine ⟨⟨k, hk⟩, ?_, not_not.mpr v.channels, ?_, v.epoch, ?_, ?_, ?_, ?_, ?_, ?_, ?_⟩
    · rw [not_or]
      refine ⟨not_not.mpr v.flags_known, fun h => h.2 ?_⟩
      have hk' : k = .reference := v.silence (contains_digitalSilence_iff.mpr h.1)
      rw [hk, hk']
      rfl
    · rw [hk, formatFor_toU8]
      exact not_not.mpr v.format
    · rw [hk, rateFor_toU8]
      exact not_not.mpr v.sampleRate
    · rw [hk, maxFrames_toU8, not_or]
      refine ⟨fun h1 => v.frameCount.1 ?_, UInt32.not_lt.mpr hcount⟩
      exact UInt32.toNat_inj.mp (Nat.lt_one_iff.mp h1)
    · exact fun h => h.2 (v.generation fun h' => h.1 (hk.trans (congrArg Kind.toU8 h')))
    · rw [not_or]
      exact ⟨fun h => h.2 (v.sourceMask fun h' => h.1 (hk.trans (congrArg Kind.toU8 h'))),
        not_not.mpr v.mask_known⟩
    · exact fun h => h.2 (Nat.mod_eq_zero_of_dvd (v.cellAlignment (hkind .cells h.1)))
    · exact fun h => h.2 (Nat.mod_eq_zero_of_dvd (v.afeAlignment (hkind .afe h.1)))
    · rw [not_not, ← UInt32.toNat_inj, hk, hlen]
      exact v.payloadBytes

/-! ### Whole headers -/

/-- A controller header in the firmware's form, announcing `payloadBytes`. -/
def Header.firmware (h : Header) (payloadBytes : UInt32) : Firmware.Header where
  kind := h.kind.toU8
  flags := h.flags.bits
  channels := 1
  format := h.kind.format.toU8
  epoch := h.epoch
  sequence := h.sequence
  firstSample := h.firstSample
  monoNs := h.monoNs
  uncertaintyUs := h.uncertaintyUs.getD UNCERTAINTY_UNKNOWN
  sampleRate := h.kind.sampleRate
  frameCount := h.frameCount
  generation := h.generation
  sourceMask := h.sourceMask.bits.toUInt32
  payloadBytes := payloadBytes

/-- Both implementations put a header on the wire as the same 64 bytes. -/
theorem bytes_firmware (h : Header) (pb : UInt32) : (h.firmware pb).bytes = h.write pb := by
  simp only [Firmware.Header.bytes, Header.firmware, Header.write, UInt8.toNat_toUInt32]
  rfl

/-- A field inside the first 64 bytes does not see the payload. -/
theorem field_take {b : List UInt8} {i w n : ℕ} (h : i + w ≤ n) :
    field (b.take n) i w = field b i w := by
  rw [field, field, List.drop_take, List.take_take, min_eq_left (by omega)]

theorem u8At_take {b : List UInt8} {i n : ℕ} (h : i < n) :
    u8At (b.take n) i = u8At b i := by
  simp [u8At, List.getD_eq_getElem?_getD, h]

/-- The firmware reads a header from the first 64 bytes of a message only. -/
theorem read_take (msg : List UInt8) :
    Firmware.Header.read (msg.take HEADER_BYTES) = Firmware.Header.read msg := by
  simp (disch := decide) only [Firmware.Header.read, u64At, u32At, field_take, u8At_take]

/-- The firmware's unchecked header holds the raw fields the controller checks. -/
theorem rawOf_read (head : List UInt8) (k : Kind) :
    rawOf (Firmware.Header.read head) k = rawAt head k := rfl

/-- A header the firmware accepts is the one the controller decodes. -/
theorem read_eq_firmware {head : List UInt8} {k : Kind}
    (hk : u8At head 4 = k.toU8) (v : (rawAt head k).Valid) :
    Firmware.Header.read head =
      (headerAt head k).firmware (rawAt head k).payloadBytes := by
  have hm := toUInt32_toUInt8_of_known v.mask_known
  have hc : u8At head 6 = 1 := v.channels
  have hf : u8At head 7 = k.format.toU8 := v.format
  have hs : u32At head 44 = k.sampleRate := v.sampleRate
  simp only [Firmware.Header.read, Header.firmware, getD_uncertaintyUs_headerAt, hk, hc, hf,
    hs]
  simp only [headerAt, hm]
  rfl

/-- The checks the firmware's `Decode` makes. -/
theorem decode_eq_ok_iff {src : List UInt8} {g : Firmware.Header} :
    Firmware.decode src = .ok g ↔
      Firmware.HeaderSize ≤ src.length ∧ field src 0 4 = Firmware.Magic ∧
        g.validate = .ok () ∧ g = Firmware.Header.read src := by
  rw [Firmware.decode, ite_error_eq_ok_iff, ite_error_eq_ok_iff, not_lt, not_not]
  refine and_congr_right fun _ => and_congr_right fun _ => ?_
  cases hv : (Firmware.Header.read src).validate with
  | error e =>
      simp only [hv, reduceCtorEq, false_iff, not_and]
      rintro hg rfl
      simp [hv] at hg
  | ok u =>
      simp only [hv, Except.ok.injEq]
      constructor
      · rintro rfl
        exact ⟨hv, rfl⟩
      · rintro ⟨-, rfl⟩
        rfl

/-- A message's header and payload, and the one length check between them. -/
theorem decodeFrame_eq_ok_iff_decode {msg payload : List UInt8} {g : Firmware.Header} :
    Firmware.decodeFrame msg = .ok (g, payload) ↔
      Firmware.decode msg = .ok g ∧
        (msg.drop Firmware.HeaderSize).length = g.payloadBytes.toNat ∧
        payload = msg.drop Firmware.HeaderSize := by
  rw [Firmware.decodeFrame, List.length_drop]
  cases hd : Firmware.decode msg with
  | error e => simp
  | ok g' =>
      simp only [ite_error_eq_ok_iff, not_not, Except.ok.injEq, Prod.mk.injEq]
      constructor
      · rintro ⟨hlen, rfl, rfl⟩
        exact ⟨rfl, hlen, rfl⟩
      · rintro ⟨rfl, hlen, rfl⟩
        exact ⟨hlen, rfl, rfl⟩

/-- **The firmware decodes the frames whose header the controller decodes** and whose
payload has the announced length, to the same header and payload. -/
theorem decodeFrame_eq_ok_iff {msg payload : List UInt8} {g : Firmware.Header} :
    Firmware.decodeFrame msg = .ok (g, payload) ↔
      HEADER_BYTES ≤ msg.length ∧ payload = msg.drop HEADER_BYTES ∧
        ∃ h pb, decodeRaw (msg.take HEADER_BYTES) = .ok (h, pb) ∧
          payload.length = pb.toNat ∧ g = h.firmware pb := by
  rw [decodeFrame_eq_ok_iff_decode, decode_eq_ok_iff, ← read_take msg,
    ← field_take (show 0 + 4 ≤ HEADER_BYTES by decide)]
  constructor
  · rintro ⟨⟨hlen, hmagic, hv, rfl⟩, hpb, rfl⟩
    obtain ⟨k, hk, v⟩ := validate_eq_ok_iff.mp hv
    rw [rawOf_read] at v
    have hk' : u8At (msg.take HEADER_BYTES) 4 = k.toU8 := hk
    refine ⟨hlen, rfl, headerAt (msg.take HEADER_BYTES) k, _, ?_, hpb, read_eq_firmware hk' v⟩
    exact decodeRaw_eq_ok_iff.mpr ⟨hmagic, fromU8_eq_some_iff.mpr hk', v, rfl, rfl⟩
  · rintro ⟨hlen, rfl, h, pb, hd, hpb, rfl⟩
    obtain ⟨hmagic, hk, v, hh, rfl⟩ := decodeRaw_eq_ok_iff.mp hd
    have hk := fromU8_eq_some_iff.mp hk
    have hread := read_eq_firmware hk v
    rw [← hh] at hread
    refine ⟨⟨hlen, hmagic, ?_, hread.symm⟩, hpb, rfl⟩
    rw [← hread]
    exact validate_eq_ok_iff.mpr ⟨h.kind, hk, v⟩

/-! ### Records -/

/-- The firmware's name of a cell error. -/
def CellError.firmware : CellError → Firmware.Err
  | .loudness _ => .cellE
  | .undefinedFlags _ => .cellFlags
  | .undefinedSources _ => .cellMask
  | .gapLoudness _ => .cellGapE

/-- The firmware's name of an AFE record error. -/
def AfeError.firmware : AfeError → Firmware.Err
  | .reservedFlags _ => .afeFlags
  | .outOfRange _ _ _ => .afeRecord

/-- A controller cell in the firmware's form. -/
def Cell.firmware (c : Cell) : Firmware.Cell :=
  ⟨c.eCenti, c.flags.bits, c.mask.bits⟩

/-- A controller AFE record in the firmware's form. -/
def AfeRecord.firmware (r : AfeRecord) : Firmware.AFERecord :=
  ⟨r.frames, r.flags.bits, r.playback, r.erleMax, r.erleMean, r.erleFrames, r.dtdMax,
   r.dtdFrames, r.rmsMax, r.rmsMean, r.vadMax, r.vadFrames, r.volume, r.lost⟩

theorem CellFlags.isNone_fromBits {bits : UInt8} :
    (CellFlags.fromBits bits).isNone = true ↔ bits &&& ~~~CellFlags.KNOWN ≠ 0 := by
  by_cases h : bits &&& ~~~CellFlags.KNOWN = 0 <;> simp [CellFlags.fromBits, h]

theorem AfeFlags.isNone_fromBits {bits : UInt8} :
    (AfeFlags.fromBits bits).isNone = true ↔ bits &&& ~~~AfeFlags.KNOWN ≠ 0 := by
  by_cases h : bits &&& ~~~AfeFlags.KNOWN = 0 <;> simp [AfeFlags.fromBits, h]

/-- The controller masks a cell's sources as 32 bits, the firmware as 8. -/
theorem mask_known_iff {bits : UInt8} :
    bits.toUInt32 &&& ~~~SourceMask.KNOWN = 0 ↔ bits &&& ~~~Firmware.sourcesKnown = 0 := by
  rw [← UInt32.toNat_inj, ← UInt8.toNat_inj]
  have h32 : (bits.toUInt32 &&& ~~~SourceMask.KNOWN).toNat = bits.toNat &&& 0xFFFFFFF0 := by
    rw [UInt32.toNat_and, UInt8.toNat_toUInt32]
    rfl
  have h8 : (bits &&& ~~~Firmware.sourcesKnown).toNat = bits.toNat &&& 0xF0 := by
    rw [UInt8.toNat_and]
    rfl
  have hbits : bits.toNat &&& 2 ^ 8 - 1 = bits.toNat :=
    Nat.and_two_pow_sub_one_of_lt_two_pow bits.toNat_lt
  have heq : bits.toNat &&& 0xFFFFFFF0 = bits.toNat &&& 0xF0 := by
    calc bits.toNat &&& 0xFFFFFFF0
        = (bits.toNat &&& 2 ^ 8 - 1) &&& 0xFFFFFFF0 := by rw [hbits]
      _ = bits.toNat &&& ((2 ^ 8 - 1) &&& 0xFFFFFFF0) := Nat.and_assoc _ _ _
      _ = bits.toNat &&& 0xF0 := rfl
  rw [h32, h8, heq]
  rfl

/-- A whole record is its first bytes and the rest. -/
theorem exists_cons_four {src : List UInt8} (h : CELL_RECORD_BYTES ≤ src.length) :
    ∃ a b c d rest, src = a :: b :: c :: d :: rest := by
  match src, h with
  | a :: b :: c :: d :: rest, _ => exact ⟨a, b, c, d, rest, rfl⟩

/-- A check made after another, under a change of the errors and the result. -/
theorem map_mapError_ite {α β ε ε' : Type} {c : Prop} [Decidable c] (f : α → β) (g : ε → ε')
    (e : ε) (x : Except ε α) :
    ((if c then .error e else x : Except ε α).mapError g).map f =
      if c then .error (g e) else (x.mapError g).map f := by
  by_cases h : c
  · rw [if_pos h, if_pos h]
    rfl
  · rw [if_neg h, if_neg h]

theorem map_ite_error {α β ε : Type} {c : Prop} [Decidable c] (f : α → β) (e : ε)
    (x : Except ε α) :
    (if c then .error e else x : Except ε α).map f = if c then .error e else x.map f := by
  by_cases h : c
  · rw [if_pos h, if_pos h]
    rfl
  · rw [if_neg h, if_neg h]

/-- **Both cell decoders agree** on every record, and name the same rule when they refuse. -/
theorem parseCell_eq {src : List UInt8} (h : CELL_RECORD_BYTES ≤ src.length) :
    Firmware.parseCell src =
      ((Cell.parse (src.take CELL_RECORD_BYTES)).mapError CellError.firmware).map
        Cell.firmware := by
  obtain ⟨a, b, c, d, rest, rfl⟩ := exists_cons_four h
  set e : Int16 := Cell.i16FromLe a b with he
  have hcell : Cell.fromBytes [a, b, c, d] = ⟨e, ⟨c⟩, ⟨d⟩⟩ := rfl
  have hparse : Firmware.parseCell (a :: b :: c :: d :: rest) =
      (Firmware.Cell.validate ⟨e, c, d⟩).map fun _ => ⟨e, c, d⟩ :=
    Firmware.parseCell_eq_map h rfl
  have hrange : (e < Firmware.CellEMin ∨ e > Firmware.CellEMax) ↔
      ¬ (Cell.E_MIN ≤ e ∧ e ≤ Cell.E_MAX) := by
    rw [not_and_or, Int16.not_le, Int16.not_le]
    rfl
  have hmask : (SourceMask.fromBits d.toUInt32).isNone = true ↔
      d &&& ~~~Firmware.sourcesKnown ≠ 0 := by
    rw [SourceMask.isNone_fromBits, ne_eq, mask_known_iff]
  have htake : (a :: b :: c :: d :: rest).take CELL_RECORD_BYTES = [a, b, c, d] := rfl
  rw [hparse, htake, Cell.parse, hcell]
  simp only [Firmware.Cell.validate, hrange, List.getD_cons_succ, List.getD_cons_zero,
    CellFlags.isNone_fromBits, hmask, contains_gap_iff, map_mapError_ite, map_ite_error]
  rfl

/-- The controller refuses a record for its first bound that fails, the firmware for any. -/
theorem find?_bounds_eq_none_iff (r : AfeRecord) :
    (r.bounds.find? fun b => b.2.1 > b.2.2) = none ↔
      ¬ (r.firmware.frames > Firmware.AFEMaxFrames ∨ r.firmware.playback > r.firmware.frames ∨
        r.firmware.erleFrames > r.firmware.frames ∨ r.firmware.dtdFrames > r.firmware.frames ∨
        r.firmware.vadFrames > r.firmware.frames ∨ r.firmware.dtdMax > Firmware.AFEDTDMax ∨
        r.firmware.vadMax > Firmware.AFEVADMax ∨
        r.firmware.volume > Firmware.AFEVolumeMax) := by
  simp only [AfeRecord.bounds, List.find?_eq_none, List.forall_mem_cons, decide_eq_true_eq,
    not_or]
  simp only [List.not_mem_nil, false_implies, implies_true, and_true]
  rfl

/-- **Both AFE decoders agree** on every record, and name the same rule when they refuse. -/
theorem parseAFE_eq {src : List UInt8} (h : AFE_RECORD_BYTES ≤ src.length) :
    Firmware.parseAFE src =
      ((AfeRecord.parse (src.take AFE_RECORD_BYTES)).mapError AfeError.firmware).map
        AfeRecord.firmware := by
  set r := AfeRecord.fromBytes (src.take AFE_RECORD_BYTES) with hr
  have hparse : Firmware.parseAFE src = r.firmware.validate.map fun _ => r.firmware := by
    have hread : r.firmware =
        ⟨u8At src 0, u8At src 1, u8At src 2, u8At src 3, u8At src 4, u8At src 5, u8At src 6,
         u8At src 7, u8At src 8, u8At src 9, u8At src 10, u8At src 11, u8At src 12,
         u8At src 13⟩ := by
      have hat : ∀ i < AFE_RECORD_BYTES, (src.take AFE_RECORD_BYTES).getD i 0 = u8At src i :=
        fun i hi => u8At_take hi
      simp (disch := decide) only [hr, AfeRecord.firmware, AfeRecord.fromBytes, hat]
    exact Firmware.parseAFE_eq_map h hread.symm
  have hflags : (AfeFlags.fromBits ((src.take AFE_RECORD_BYTES).getD 1 0)).isNone = true ↔
      r.firmware.flags &&& ~~~Firmware.afeFlags ≠ 0 := AfeFlags.isNone_fromBits
  rw [hparse, AfeRecord.parse, ← hr]
  simp only [Firmware.AFERecord.validate, map_mapError_ite, map_ite_error, hflags]
  refine if_congr Iff.rfl rfl ?_
  have hbounds := find?_bounds_eq_none_iff r
  cases hf : r.bounds.find? fun b => b.2.1 > b.2.2 with
  | none =>
      rw [if_neg (hbounds.mp hf)]
      rfl
  | some b =>
      rw [if_pos (by_contra fun hb => by simp [hbounds.mpr hb] at hf)]
      rfl

/-! ### Record lists -/

/-- The records of a list are checked one by one. -/
theorem checkEach_eq_ok_iff {α ε : Type} {parse : List UInt8 → Except ε α}
    {error : ℕ → ε → FrameError} {raws : List (List UInt8)} (i : ℕ) :
    checkEach parse error i raws = .ok () ↔ ∀ raw ∈ raws, ∃ r, parse raw = .ok r := by
  induction raws generalizing i with
  | nil => simp [checkEach]
  | cons raw raws ih =>
      cases hp : parse raw with
      | error e => simp [checkEach, hp]
      | ok r => simp [checkEach, hp, ih]

/-- Reading records front to back succeeds exactly when each record of the payload is valid,
and returns them. -/
theorem parseEach_eq_ok_iff {α β ε : Type} (parse : List UInt8 → Except ε α)
    (fromBytes : List UInt8 → α) (read : List UInt8 → Except Firmware.Err β) (f : α → β)
    (g : ε → Firmware.Err) {w : ℕ} (hw : 0 < w)
    (hparse : ∀ {raw r}, parse raw = .ok r → r = fromBytes raw)
    (hread : ∀ {src}, w ≤ src.length → read src = ((parse (src.take w)).mapError g).map f)
    {n : ℕ} {payload : List UInt8} (hlen : payload.length = n * w) {rs : List β} :
    Firmware.parseEach read w n payload = .ok rs ↔
      (∀ raw ∈ asChunks w payload, ∃ r, parse raw = .ok r) ∧
        rs = (asChunks w payload).map fun raw => f (fromBytes raw) := by
  induction n generalizing payload rs with
  | zero =>
      rw [Nat.zero_mul, List.length_eq_zero_iff] at hlen
      subst hlen
      simp [Firmware.parseEach, asChunks, eq_comm]
  | succ n ih =>
      rw [Nat.add_mul, Nat.one_mul] at hlen
      have htake : (payload.take w).length = w := by
        rw [List.length_take]
        omega
      have hdrop : (payload.drop w).length = n * w := by
        rw [List.length_drop]
        omega
      have hchunks : asChunks w payload = payload.take w :: asChunks w (payload.drop w) := by
        have h := @asChunks_append w hw _ (payload.drop w) htake
        rwa [List.take_append_drop] at h
      have hle : w ≤ payload.length := by omega
      rw [Firmware.parseEach, hread hle, hchunks, List.map_cons, List.forall_mem_cons]
      cases hp : parse (payload.take w) with
      | error e => simp [Except.mapError, Except.map]
      | ok c =>
          have hih := @ih _ hdrop
          cases hrest : Firmware.parseEach read w n (payload.drop w) with
          | error e =>
              simp only [Except.mapError, Except.map, reduceCtorEq, false_iff]
              rintro ⟨⟨-, hall⟩, -⟩
              have hok := hih.mpr ⟨hall, rfl⟩
              rw [hrest] at hok
              cases hok
          | ok rest =>
              obtain ⟨hall, rfl⟩ := hih.mp hrest
              simp only [Except.mapError, Except.map, Except.ok.injEq, hparse hp]
              exact ⟨fun h => ⟨⟨⟨_, rfl⟩, hall⟩, h.symm⟩, fun h => h.2.symm⟩

theorem Cell.parse_eq_ok {raw : List UInt8} {c : Cell} (h : Cell.parse raw = .ok c) :
    c = Cell.fromBytes raw := by
  simp only [Cell.parse, ite_error_eq_ok_iff, Except.ok.injEq] at h
  exact h.2.2.2.2.symm

theorem AfeRecord.parse_eq_ok {raw : List UInt8} {r : AfeRecord}
    (h : AfeRecord.parse raw = .ok r) : r = AfeRecord.fromBytes raw := by
  simp only [AfeRecord.parse, ite_error_eq_ok_iff] at h
  obtain ⟨-, h⟩ := h
  split at h
  · cases h
  · exact (Except.ok.inj h).symm

end EchoMuse.Ema
