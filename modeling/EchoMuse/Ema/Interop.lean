import EchoMuse.Ema.Agreement

/-!
# Frames Between the Firmware and the Controller

With the header rules and the records of both implementations known to agree, this module
compares whole messages: the firmware's `DecodeFrame` followed by `ParseCell` or `ParseAFE`
on every record, against the controller's `Packet.parse`.

The one rule only the controller has is that the samples fit in 64 bits, and it checks that
rule before it looks at the records. So a frame it refuses with `sampleOverflow` may still
hold a record the firmware refuses.

## Main results

* `decodeRecords_eq_ok_iff`: what the firmware accepts, in the controller's terms;
* `parse_sampleOverflow_with_invalid_record`: the sample range hides an invalid record;
* `frames_agree`: acceptance, equal contents, and both directions of encoding.
-/

namespace EchoMuse.Ema

open EchoMuse

/-! ### Whole messages -/

/-- The records of a payload of kind `k`, in the firmware's form. -/
def recordsOf (k : Kind) (payload : List UInt8) : Firmware.Records :=
  match k with
  | .cells => .cells ((asChunks CELL_RECORD_BYTES payload).map fun raw =>
      (Cell.fromBytes raw).firmware)
  | .afe => .afe ((asChunks AFE_RECORD_BYTES payload).map fun raw =>
      (AfeRecord.fromBytes raw).firmware)
  | .mic | .reference | .render => .pcm

/-- A packet's content in the firmware's form, which keeps samples as bytes. -/
def Content.firmware : Content → Firmware.Records
  | .cells cs => .cells (cs.map Cell.firmware)
  | .afe rs => .afe (rs.map AfeRecord.firmware)
  | .pcm _ | .digitalSilence _ => .pcm

theorem firmware_content (p : Packet) :
    p.content.firmware = recordsOf p.header.kind p.payload := by
  rw [Packet.content]
  cases p.header.kind with
  | cells => simp [Content.firmware, recordsOf]
  | afe => simp [Content.firmware, recordsOf]
  | mic | reference | render =>
      dsimp only
      split_ifs <;> rfl

/-- A decoded header announces exactly its kind's payload. -/
theorem toNat_of_decodeRaw {head : List UInt8} {h : Header} {pb : UInt32}
    (hd : decodeRaw head = .ok (h, pb)) : pb.toNat = h.payloadBytes := by
  obtain ⟨-, -, v, hh, rfl⟩ := decodeRaw_eq_ok_iff.mp hd
  have hpb := v.payloadBytes
  rw [Header.payloadBytes, hh] at *
  exact hpb

/-- A frame's records, read after its header: the whole message succeeds when they do. -/
theorem map_records_eq_ok_iff {β : Type} {x : Except Firmware.Err (List β)} {P : Prop}
    {l : List β} (F : List β → Firmware.Records) (hx : ∀ rs, x = .ok rs ↔ P ∧ rs = l)
    {h g : Firmware.Header} {payload payload' : List UInt8} {rs : Firmware.Records} :
    x.map (fun cs => (h, payload, F cs)) = .ok (g, payload', rs) ↔
      g = h ∧ payload' = payload ∧ P ∧ rs = F l := by
  cases x with
  | error e =>
      simp only [Except.map, reduceCtorEq, false_iff]
      rintro ⟨-, -, hP, -⟩
      cases (hx _).mpr ⟨hP, rfl⟩
  | ok cs =>
      obtain ⟨hP, rfl⟩ := (hx cs).mp rfl
      simp only [Except.map, Except.ok.injEq, Prod.mk.injEq]
      constructor
      · rintro ⟨rfl, rfl, rfl⟩
        exact ⟨rfl, rfl, hP, rfl⟩
      · rintro ⟨rfl, rfl, -, rfl⟩
        exact ⟨rfl, rfl, rfl⟩

/-- What the firmware makes of the records of a frame it decoded. -/
theorem decodeRecords_of_decodeFrame {msg payload payload' : List UInt8} {h : Header}
    {pb : UInt32} {g : Firmware.Header} {rs : Firmware.Records}
    (hf : Firmware.decodeFrame msg = .ok (h.firmware pb, payload))
    (hlen : payload.length = h.payloadBytes) :
    Firmware.decodeRecords msg = .ok (g, payload', rs) ↔
      g = h.firmware pb ∧ payload' = payload ∧
        checkRecords h.kind payload = .ok () ∧ rs = recordsOf h.kind payload := by
  have hkind : (h.firmware pb).kind = h.kind.toU8 := rfl
  have hcount : (h.firmware pb).frameCount = h.frameCount := rfl
  simp only [Firmware.decodeRecords, hf, hkind, hcount]
  rw [Header.payloadBytes] at hlen
  cases hk : h.kind with
  | cells =>
      have hcells : Kind.cells.toU8 = Firmware.KindCells := rfl
      have hlen : payload.length = h.frameCount.toNat * CELL_RECORD_BYTES := by
        rw [hlen, hk]
        rfl
      have hread := fun rs => @parseEach_eq_ok_iff _ _ _ Cell.parse Cell.fromBytes
        Firmware.parseCell Cell.firmware CellError.firmware CELL_RECORD_BYTES (by decide)
        Cell.parse_eq_ok parseCell_eq _ _ hlen rs
      have hsize : Firmware.CellRecordSize = CELL_RECORD_BYTES := rfl
      rw [if_pos hcells, hsize, checkRecords, checkEach_eq_ok_iff, recordsOf]
      exact map_records_eq_ok_iff .cells hread
  | afe =>
      have hcells : Kind.afe.toU8 ≠ Firmware.KindCells := by decide
      have hafe : Kind.afe.toU8 = Firmware.KindAFE := rfl
      have hlen : payload.length = h.frameCount.toNat * AFE_RECORD_BYTES := by
        rw [hlen, hk]
        rfl
      have hread := fun rs => @parseEach_eq_ok_iff _ _ _ AfeRecord.parse
        AfeRecord.fromBytes Firmware.parseAFE AfeRecord.firmware AfeError.firmware
        AFE_RECORD_BYTES (by decide) AfeRecord.parse_eq_ok parseAFE_eq _ _ hlen rs
      have hsize : Firmware.AFERecordSize = AFE_RECORD_BYTES := rfl
      rw [if_neg hcells, if_pos hafe, hsize, checkRecords, checkEach_eq_ok_iff, recordsOf]
      exact map_records_eq_ok_iff .afe hread
  | mic | reference | render =>
      rw [if_neg (by decide), if_neg (by decide)]
      simp only [Except.ok.injEq, Prod.mk.injEq, checkRecords, recordsOf, true_and]
      exact and_congr eq_comm (and_congr eq_comm eq_comm)

/-- **The firmware accepts the messages whose header the controller decodes, whose payload
has the announced length and whose records are valid**, to the same fields. -/
theorem decodeRecords_eq_ok_iff {msg payload : List UInt8} {g : Firmware.Header}
    {rs : Firmware.Records} :
    Firmware.decodeRecords msg = .ok (g, payload, rs) ↔
      HEADER_BYTES ≤ msg.length ∧ payload = msg.drop HEADER_BYTES ∧
        ∃ h pb, decodeRaw (msg.take HEADER_BYTES) = .ok (h, pb) ∧
          payload.length = pb.toNat ∧ g = h.firmware pb ∧
          checkRecords h.kind payload = .ok () ∧ rs = recordsOf h.kind payload := by
  constructor
  · intro hrec
    cases hf : Firmware.decodeFrame msg with
    | error e => simp [Firmware.decodeRecords, hf] at hrec
    | ok gp =>
        obtain ⟨g', payload'⟩ := gp
        obtain ⟨hlen, hpl, h, pb, hd, hpb, rfl⟩ := decodeFrame_eq_ok_iff.mp hf
        have hbytes := hpb.trans (toNat_of_decodeRaw hd)
        obtain ⟨rfl, rfl, hr, rfl⟩ := (decodeRecords_of_decodeFrame hf hbytes).mp hrec
        exact ⟨hlen, hpl, h, pb, hd, hpb, rfl, hr, rfl⟩
  · rintro ⟨hlen, hpl, h, pb, hd, hpb, rfl, hr, rfl⟩
    have hf := decodeFrame_eq_ok_iff.mpr ⟨hlen, hpl, h, pb, hd, hpb, rfl⟩
    have hbytes := hpb.trans (toNat_of_decodeRaw hd)
    exact (decodeRecords_of_decodeFrame hf hbytes).mpr ⟨rfl, rfl, hr, rfl⟩

/-! ### What the controller adds -/

/-- A rule that reports another error passes an error on. -/
theorem ite_error_ne {ε α : Type} {c : Prop} [Decidable c] {e e' : ε} {x : Except ε α}
    (he : e ≠ e') (hx : x ≠ .error e') : (if c then .error e else x) ≠ .error e' := by
  by_cases hc : c
  · rw [if_pos hc]
    exact fun h => he (Except.error.inj h)
  · rwa [if_neg hc]

theorem RawHeader.check_ne_sampleOverflow (raw : RawHeader) :
    raw.check ≠ .error .sampleOverflow := by
  rw [RawHeader.check]
  split
  · simp
  · repeat refine ite_error_ne (by simp) ?_
    simp

theorem decodeRaw_ne_sampleOverflow (head : List UInt8) :
    decodeRaw head ≠ .error .sampleOverflow := by
  rw [decodeRaw]
  split_ifs
  · simp
  · cases Kind.fromU8 (u8At head 4) with
    | none => simp
    | some k =>
        cases hc : (rawAt head k).check with
        | error e =>
            simp only [hc, ne_eq, Except.error.injEq]
            rintro rfl
            exact RawHeader.check_ne_sampleOverflow _ hc
        | ok u => simp [hc]

theorem checkRecords_ne_sampleOverflow (k : Kind) (payload : List UInt8) :
    checkRecords k payload ≠ .error .sampleOverflow := by
  have heach : ∀ {α ε : Type} (parse : List UInt8 → Except ε α) (error : ℕ → ε → FrameError),
      (∀ i e, error i e ≠ .sampleOverflow) → ∀ i raws,
        checkEach parse error i raws ≠ .error .sampleOverflow := by
    intro α ε parse error herror i raws
    induction raws generalizing i with
    | nil => simp [checkEach]
    | cons raw raws ih =>
        rw [checkEach]
        split
        · simp [herror]
        · exact ih (i + 1)
  cases k with
  | cells => exact heach _ _ (by simp) _ _
  | afe => exact heach _ _ (by simp) _ _
  | mic | reference | render => simp [checkRecords]

/-- When the controller refuses a frame for its sample range. -/
theorem parse_eq_sampleOverflow_iff {msg : List UInt8} :
    Packet.parse msg = .error .sampleOverflow ↔
      HEADER_BYTES ≤ msg.length ∧ ∃ h pb, decodeRaw (msg.take HEADER_BYTES) = .ok (h, pb) ∧
        (msg.drop HEADER_BYTES).length = pb.toNat ∧ h.endSample = none := by
  constructor
  · intro h
    rw [Packet.parse] at h
    split_ifs at h with hlen
    · cases h
    split at h
    · next e hd =>
        rw [Except.error.inj h] at hd
        exact absurd hd (decodeRaw_ne_sampleOverflow _)
    · next h' pb hd =>
        simp only at h
        split_ifs at h with hpb
        · cases h
        split at h
        · next he => exact ⟨not_lt.mp hlen, h', pb, hd, not_not.mp hpb, he⟩
        · split at h
          · next e hr =>
              rw [Except.error.inj h] at hr
              exact absurd hr (checkRecords_ne_sampleOverflow _ _)
          · cases h
  · rintro ⟨hlen, h, pb, hd, hpb, he⟩
    rw [Packet.parse, if_neg (not_lt.mpr hlen)]
    split
    · next e hd' => simp [hd] at hd'
    · next h' pb' hd' =>
        rw [hd, Except.ok.injEq, Prod.mk.injEq] at hd'
        obtain ⟨rfl, rfl⟩ := hd'
        simp only [hpb, ne_eq, not_true_eq_false, dite_false]
        split
        · rfl
        · next e he' => simp [he] at he'

/-- When the controller accepts a frame. -/
theorem exists_parse_iff {msg : List UInt8} :
    (∃ p, Packet.parse msg = .ok p) ↔
      HEADER_BYTES ≤ msg.length ∧ ∃ h pb, decodeRaw (msg.take HEADER_BYTES) = .ok (h, pb) ∧
        (msg.drop HEADER_BYTES).length = pb.toNat ∧ (∃ e, h.endSample = some e) ∧
        checkRecords h.kind (msg.drop HEADER_BYTES) = .ok () := by
  constructor
  · rintro ⟨p, hp⟩
    obtain ⟨hlen, ⟨pb, hd, hpb⟩, hpl⟩ := of_parse_eq_ok hp
    rw [hpl] at hpb
    exact ⟨hlen, p.header, pb, hd, hpb, ⟨p.endSample, p.end_ok⟩, hpl ▸ p.records_ok⟩
  · rintro ⟨hlen, h, pb, hd, hpb, ⟨e, he⟩, hr⟩
    obtain ⟨p, hp, -⟩ := parse_eq_ok hlen hd hpb he hr
    exact ⟨p, hp⟩

/-! ### What the firmware writes -/

/-- The payloads the firmware writes after a header: samples, nothing for digital silence,
or valid records, as many as the header announces. -/
inductive Builds (g : Firmware.Header) : List UInt8 → Prop
  | pcm (samples : List Int16) (k : Kind) (hk : g.kind = k.toU8) (hf : k.format = .pcm16)
      (hs : g.flags &&& Firmware.FlagDigitalSilence = 0)
      (hn : samples.length = g.frameCount.toNat) : Builds g (Firmware.putPCM samples)
  | silence (hs : g.flags &&& Firmware.FlagDigitalSilence ≠ 0) : Builds g []
  | cells (cs : List Firmware.Cell) (hk : g.kind = Firmware.KindCells)
      (hv : ∀ c ∈ cs, c.validate = .ok ()) (hn : cs.length = g.frameCount.toNat) :
      Builds g (cs.map Firmware.putCell).flatten
  | afe (rs : List Firmware.AFERecord) (hk : g.kind = Firmware.KindAFE)
      (hv : ∀ r ∈ rs, r.validate = .ok ()) (hn : rs.length = g.frameCount.toNat) :
      Builds g (rs.map Firmware.putAFE).flatten

/-- A valid cell reads back as it was written; writing does not clamp it. -/
theorem parseCell_putCell {c : Firmware.Cell} (hv : c.validate = .ok ()) :
    Firmware.parseCell (Firmware.putCell c) = .ok c := by
  have hrange : ¬ (c.e < Firmware.CellEMin ∨ c.e > Firmware.CellEMax) := by
    simp only [Firmware.Cell.validate, ite_error_eq_ok_iff] at hv
    exact hv.1
  rw [not_or] at hrange
  obtain ⟨a, b, hab⟩ := List.length_eq_two.mp (length_leBytes 2 c.e.toUInt16.toNat)
  have hput : Firmware.putCell c = [a, b, c.flags, c.mask] := by
    simp only [Firmware.putCell, if_neg hrange.1, if_neg hrange.2, hab, List.cons_append,
      List.nil_append]
  have he : (UInt16.ofNat (leNat [a, b])).toInt16 = c.e := by
    have h := i16OfLe_i16ToLe c.e
    rw [i16ToLe, hab] at h
    exact h
  have hvalid : Firmware.Cell.validate ⟨c.e, c.flags, c.mask⟩ = .ok () := hv
  have hread : (⟨(UInt16.ofNat (leNat [a, b])).toInt16, c.flags, c.mask⟩ : Firmware.Cell) =
      ⟨c.e, c.flags, c.mask⟩ := by rw [he]
  have hparse : Firmware.parseCell [a, b, c.flags, c.mask] =
      (Firmware.Cell.validate ⟨c.e, c.flags, c.mask⟩).map fun _ => ⟨c.e, c.flags, c.mask⟩ :=
    Firmware.parseCell_eq_map (le_refl _) hread
  rw [hput, hparse, hvalid]
  rfl

theorem parseAFE_putAFE {r : Firmware.AFERecord} (hv : r.validate = .ok ()) :
    Firmware.parseAFE (Firmware.putAFE r) = .ok r := by
  have hparse : Firmware.parseAFE (Firmware.putAFE r) = r.validate.map fun _ => r :=
    Firmware.parseAFE_eq_map (le_refl _) rfl
  rw [hparse, hv]
  rfl

/-- A firmware header of kind `k` in the controller's form. -/
def controllerHeader (g : Firmware.Header) (k : Kind) : Header where
  kind := k
  flags := ⟨g.flags⟩
  epoch := g.epoch
  sequence := g.sequence
  firstSample := g.firstSample
  monoNs := g.monoNs
  uncertaintyUs :=
    if g.uncertaintyUs ≠ UNCERTAINTY_UNKNOWN then some g.uncertaintyUs else none
  frameCount := g.frameCount
  generation := g.generation
  sourceMask := ⟨g.sourceMask.toUInt8⟩

/-- A valid firmware header is the firmware's form of its controller header. -/
theorem firmware_controllerHeader {g : Firmware.Header} {k : Kind} (hk : g.kind = k.toU8)
    (v : (rawOf g k).Valid) : (controllerHeader g k).firmware g.payloadBytes = g := by
  have hm : g.sourceMask.toUInt8.toUInt32 = g.sourceMask :=
    toUInt32_toUInt8_of_known v.mask_known
  have hu : (controllerHeader g k).uncertaintyUs.getD UNCERTAINTY_UNKNOWN =
      g.uncertaintyUs := by
    simp only [controllerHeader]
    split_ifs with h <;> simp_all
  have hc : 1 = g.channels := v.channels.symm
  have hf : k.format.toU8 = g.format := v.format.symm
  have hs : k.sampleRate = g.sampleRate := v.sampleRate.symm
  rw [Header.firmware, hu]
  simp only [controllerHeader, ← hk, hm, hc, hf, hs]

/-- A valid firmware header passes the controller's check. -/
theorem check_controllerHeader {g : Firmware.Header} {k : Kind} (v : (rawOf g k).Valid) :
    (controllerHeader g k).check g.payloadBytes = .ok () := by
  have hu : (controllerHeader g k).uncertaintyUs ≠ some UNCERTAINTY_UNKNOWN := by
    simp only [controllerHeader]
    split_ifs with h <;> simp_all
  have hm : g.sourceMask.toUInt8.toUInt32 = g.sourceMask :=
    toUInt32_toUInt8_of_known v.mask_known
  have hc : 1 = g.channels := v.channels.symm
  have hf : k.format.toU8 = g.format := v.format.symm
  have hs : k.sampleRate = g.sampleRate := v.sampleRate.symm
  have hraw : (controllerHeader g k).raw g.payloadBytes = rawOf g k := by
    simp only [Header.raw, controllerHeader, rawOf, hm, hc, hf, hs]
  rw [Header.check, if_neg hu, hraw]
  exact RawHeader.check_eq_ok_iff.mpr v

/-- A record list written by the firmware passes the controller's record check. -/
theorem checkEach_put {α β ε : Type} {parse : List UInt8 → Except ε α}
    {read : List UInt8 → Except Firmware.Err β} {put : β → List UInt8} {f : α → β}
    {g : ε → Firmware.Err} {w : ℕ} (hw : 0 < w) {error : ℕ → ε → FrameError}
    (hread : ∀ {src}, w ≤ src.length → read src = ((parse (src.take w)).mapError g).map f)
    (hlen : ∀ b, (put b).length = w) {rs : List β} (hput : ∀ r ∈ rs, read (put r) = .ok r) :
    checkEach parse error 0 (asChunks w (rs.map put).flatten) = .ok () := by
  have hrecords : ∀ raw ∈ rs.map put, raw.length = w := by
    intro raw hraw
    obtain ⟨r, -, rfl⟩ := List.mem_map.mp hraw
    exact hlen r
  rw [asChunks_flatten hw hrecords, checkEach_eq_ok_iff]
  intro raw hraw
  obtain ⟨r, hr, rfl⟩ := List.mem_map.mp hraw
  have h := @hread (put r) (hlen r).ge
  rw [hput r hr, ← hlen r, List.take_length] at h
  cases hp : parse (put r) with
  | error e => simp [hp, Except.mapError, Except.map] at h
  | ok a => exact ⟨a, rfl⟩

theorem length_putCell (c : Firmware.Cell) :
    (Firmware.putCell c).length = CELL_RECORD_BYTES := by
  simp [Firmware.putCell, CELL_RECORD_BYTES]

theorem length_putAFE (r : Firmware.AFERecord) :
    (Firmware.putAFE r).length = AFE_RECORD_BYTES := rfl

theorem length_flatten_map {β : Type} {put : β → List UInt8} {w : ℕ}
    (hlen : ∀ b, (put b).length = w) (rs : List β) :
    (rs.map put).flatten.length = rs.length * w := by
  induction rs with
  | nil => simp
  | cons r rs ih =>
      rw [List.map_cons, List.flatten_cons, List.length_append, ih, hlen, List.length_cons,
        Nat.add_mul, Nat.one_mul, Nat.add_comm]

/-- What the firmware writes for a header has the announced length and valid records. -/
theorem payload_of_builds {g : Firmware.Header} {k : Kind} {payload : List UInt8}
    (hk : g.kind = k.toU8) (v : (rawOf g k).Valid) (hb : Builds g payload) :
    payload.length = g.payloadBytes.toNat ∧ checkRecords k payload = .ok () := by
  have hkind : ∀ {k' : Kind}, g.kind = k'.toU8 → k = k' := by
    intro k' h
    by_contra hne
    exact ne_kind_iff.mpr hne (hk.symm.trans h)
  have hpb : g.payloadBytes.toNat = k.payloadBytes ⟨g.flags⟩ g.frameCount := v.payloadBytes
  rw [hpb]
  cases hb with
  | pcm samples k' hk' hf hs hn =>
      obtain rfl := hkind hk'
      have hsilent : (Flags.mk g.flags).contains Flags.DIGITAL_SILENCE = false := by
        rw [Bool.eq_false_iff]
        exact fun h => contains_digitalSilence_iff.mp h hs
      have hlen : (Firmware.putPCM samples).length = g.frameCount.toNat * 2 := by
        rw [Firmware.putPCM, length_flatten_map (fun s => length_leBytes 2 _), hn]
      cases k with
      | cells => cases hf
      | afe => cases hf
      | mic | reference | render =>
          simp only [Kind.payloadBytes, hsilent, Bool.false_eq_true, if_false, checkRecords]
          exact ⟨hlen, trivial⟩
  | silence hs =>
      have hsilent := contains_digitalSilence_iff.mpr hs
      obtain rfl : k = .reference := v.silence hsilent
      simp only [Kind.payloadBytes, hsilent, if_true, checkRecords]
      exact ⟨rfl, trivial⟩
  | cells cs hk' hv hn =>
      obtain rfl : k = .cells := hkind hk'
      refine ⟨?_, ?_⟩
      · rw [length_flatten_map length_putCell, hn]
        rfl
      · exact checkEach_put (by decide) parseCell_eq length_putCell
          fun c hc => parseCell_putCell (hv c hc)
  | afe rs hk' hv hn =>
      obtain rfl : k = .afe := hkind hk'
      refine ⟨?_, ?_⟩
      · rw [length_flatten_map length_putAFE, hn]
        rfl
      · exact checkEach_put (by decide) parseAFE_eq length_putAFE
          fun r hr => parseAFE_putAFE (hv r hr)

/-- A frame the firmware builds parses back to its header and payload. -/
theorem parse_of_builds {g : Firmware.Header} {dstLen : ℕ} {head payload : List UInt8}
    (he : g.encode dstLen = .ok head) (hb : Builds g payload)
    (hover : ∀ k : Kind, g.kind = k.toU8 →
      g.firstSample.toNat + g.frameCount.toNat * k.samplesPerFrame < 2 ^ 64) :
    ∃ p, Packet.parse (head ++ payload) = .ok p ∧
      p.header.firmware g.payloadBytes = g ∧ p.payload = payload := by
  rw [Firmware.Header.encode, ite_error_eq_ok_iff] at he
  obtain ⟨-, he⟩ := he
  cases hv : g.validate with
  | error e => simp [hv] at he
  | ok u =>
      simp only [hv, Except.ok.injEq] at he
      obtain ⟨k, hk, v⟩ := validate_eq_ok_iff.mp hv
      obtain ⟨hlen, hr⟩ := payload_of_builds hk v hb
      have hend : (controllerHeader g k).endSample = some (UInt64.ofNat
          (g.firstSample.toNat + g.frameCount.toNat * k.samplesPerFrame)) := by
        rw [Header.endSample]
        exact if_pos (hover k hk)
      obtain ⟨p, hp, hh, -, hpl⟩ :=
        parse_write_append (check_controllerHeader v) hlen hend hr
      refine ⟨p, ?_, ?_, hpl⟩
      · rw [← he, ← hp, ← bytes_firmware, firmware_controllerHeader hk v]
      · rw [hh, firmware_controllerHeader hk v]

/-! ### Agreement -/

/-- The firmware accepts a message exactly when the controller does, or when the controller
refuses it for its sample range and every record is valid. -/
theorem exists_decodeRecords_iff (msg : List UInt8) :
    (∃ d, Firmware.decodeRecords msg = .ok d) ↔
      (∃ p, Packet.parse msg = .ok p) ∨
        (Packet.parse msg = .error .sampleOverflow ∧
          ∃ k, Kind.fromU8 (u8At msg 4) = some k ∧
            checkRecords k (msg.drop HEADER_BYTES) = .ok ()) := by
  have hkind : ∀ {h : Header} {pb}, decodeRaw (msg.take HEADER_BYTES) = .ok (h, pb) →
      Kind.fromU8 (u8At msg 4) = some h.kind := by
    intro h pb hd
    obtain ⟨-, hk, -⟩ := decodeRaw_eq_ok_iff.mp hd
    rwa [u8At_take (by decide)] at hk
  rw [exists_parse_iff, parse_eq_sampleOverflow_iff]
  constructor
  · rintro ⟨⟨g, payload, rs⟩, hrec⟩
    obtain ⟨hlen, rfl, h, pb, hd, hpb, -, hr, -⟩ := decodeRecords_eq_ok_iff.mp hrec
    cases he : h.endSample with
    | some e => exact Or.inl ⟨hlen, h, pb, hd, hpb, ⟨e, he⟩, hr⟩
    | none => exact Or.inr ⟨⟨hlen, h, pb, hd, hpb, he⟩, h.kind, hkind hd, hr⟩
  · rintro (⟨hlen, h, pb, hd, hpb, -, hr⟩ | ⟨⟨hlen, h, pb, hd, hpb, -⟩, k, hk, hr⟩)
    · exact ⟨_, decodeRecords_eq_ok_iff.mpr ⟨hlen, rfl, h, pb, hd, hpb, rfl, hr, rfl⟩⟩
    · obtain rfl : k = h.kind := Option.some.inj (hk.symm.trans (hkind hd))
      exact ⟨_, decodeRecords_eq_ok_iff.mpr ⟨hlen, rfl, h, pb, hd, hpb, rfl, hr, rfl⟩⟩

/-- When both accept a message, they read the same header, payload and records. -/
theorem fields_of_both_accept {msg payload : List UInt8} {g : Firmware.Header}
    {rs : Firmware.Records} {p : Packet}
    (hg : Firmware.decodeRecords msg = .ok (g, payload, rs)) (hp : Packet.parse msg = .ok p) :
    g = p.header.firmware (UInt32.ofNat p.payload.length) ∧ payload = p.payload ∧
      rs = p.content.firmware := by
  obtain ⟨-, rfl, h, pb, hd, hpb, rfl, -, rfl⟩ := decodeRecords_eq_ok_iff.mp hg
  obtain ⟨-, ⟨pb', hd', -⟩, hpl⟩ := of_parse_eq_ok hp
  rw [hd, Except.ok.injEq, Prod.mk.injEq] at hd'
  obtain ⟨rfl, rfl⟩ := hd'
  rw [firmware_content, hpl, hpb, UInt32.ofNat_toNat]
  exact ⟨rfl, rfl, rfl⟩

/-- A header for one cell that ends just past the 64-bit range. -/
def lastCell : Header where
  kind := .cells
  flags := Flags.NONE
  epoch := 1
  sequence := 0
  firstSample := 0xFFFFFFFFFFFFFE00
  monoNs := 0
  uncertaintyUs := none
  frameCount := 1
  generation := 0
  sourceMask := SourceMask.NONE

/-- The sample range hides an invalid record: the controller reports `sampleOverflow`, the
firmware refuses the record. -/
theorem parse_sampleOverflow_with_invalid_record :
    ¬ ∀ msg : List UInt8, (∃ d, Firmware.decodeRecords msg = .ok d) ↔
      (∃ p, Packet.parse msg = .ok p) ∨ Packet.parse msg = .error .sampleOverflow := by
  intro hall
  have hc : lastCell.check 4 = .ok () := by decide
  have hlen : HEADER_BYTES ≤ (lastCell.write 4 ++ [0, 0, 4, 0]).length := by
    rw [List.length_append, length_write]
    omega
  have hd := decodeRaw_write hc
  rw [← take_write_append lastCell 4 [0, 0, 4, 0]] at hd
  have hover : Packet.parse (lastCell.write 4 ++ [0, 0, 4, 0]) = .error .sampleOverflow := by
    refine parse_eq_sampleOverflow_iff.mpr ⟨hlen, lastCell, 4, hd, ?_, by decide⟩
    rw [drop_write_append]
    rfl
  obtain ⟨⟨g, payload, rs⟩, hrec⟩ := (hall _).mpr (Or.inr hover)
  obtain ⟨-, rfl, h, pb, hd', -, -, hr, -⟩ := decodeRecords_eq_ok_iff.mp hrec
  rw [hd, Except.ok.injEq, Prod.mk.injEq] at hd'
  obtain ⟨rfl, rfl⟩ := hd'
  rw [drop_write_append] at hr
  revert hr
  decide

/-- **The firmware and the controller accept the same frames**, up to the one rule only the
controller has: that the samples fit in 64 bits. When both accept, header, payload and
records are equal; what the firmware builds from valid records in range parses; and the
firmware decodes every render frame. -/
theorem frames_agree :
    (∀ msg : List UInt8, (∃ d, Firmware.decodeRecords msg = .ok d) ↔
      (∃ p, Packet.parse msg = .ok p) ∨
        (Packet.parse msg = .error .sampleOverflow ∧
          ∃ k, Kind.fromU8 (u8At msg 4) = some k ∧
            checkRecords k (msg.drop HEADER_BYTES) = .ok ())) ∧
    (∀ (msg payload : List UInt8) (g : Firmware.Header) (rs : Firmware.Records) (p : Packet),
      Firmware.decodeRecords msg = .ok (g, payload, rs) → Packet.parse msg = .ok p →
        g = p.header.firmware (UInt32.ofNat p.payload.length) ∧ payload = p.payload ∧
          rs = p.content.firmware) ∧
    (∀ (g : Firmware.Header) (dstLen : ℕ) (head payload : List UInt8),
      g.encode dstLen = .ok head → Builds g payload →
      (∀ k : Kind, g.kind = k.toU8 →
        g.firstSample.toNat + g.frameCount.toNat * k.samplesPerFrame < 2 ^ 64) →
      ∃ p, Packet.parse (head ++ payload) = .ok p ∧
        p.header.firmware g.payloadBytes = g ∧ p.payload = payload) ∧
    (∀ (epoch sequence firstSample : UInt64) (generation : UInt32) (flags : Flags)
      (pcm : List Int16) (b : List UInt8),
      encodeRender epoch sequence firstSample generation flags pcm = .ok b →
      ∃ g payload, Firmware.decodeFrame b = .ok (g, payload)) := by
  refine ⟨exists_decodeRecords_iff, fun _ _ _ _ _ => fields_of_both_accept,
    fun _ _ _ _ => parse_of_builds, ?_⟩
  intro epoch sequence firstSample generation flags pcm b hb
  obtain ⟨p, hp, -⟩ := parse_encodeRender hb
  obtain ⟨hlen, h, pb, hd, hpb, -⟩ := exists_parse_iff.mp ⟨p, hp⟩
  exact ⟨_, _, decodeFrame_eq_ok_iff.mpr ⟨hlen, rfl, h, pb, hd, hpb, rfl⟩⟩

end EchoMuse.Ema
