import EchoMuse.Ema.Frame

/-!
# The EMA1 Codec Is a Bijection onto the Valid Frames

`encode` and `Packet.parse` check through different structures: the encoder through an
optional uncertainty and a payload it measures, the decoder through the raw wire fields, a
sentinel and two length comparisons. This module shows that they agree exactly.

## Main results

* `parse_encode`: an encoded frame parses back to the header and payload it was made from;
* `encode_parse`: a parsed frame is what the encoder writes for its header and payload;
* `encode_parse_bijection`: both, with the image of `encode` and the render frames.
-/

namespace EchoMuse.Ema

/-! ### Reading back what `write` puts on the wire -/

theorem length_write (h : Header) (pb : UInt32) : (h.write pb).length = HEADER_BYTES := by
  simp [Header.write, MAGIC, HEADER_BYTES]

theorem Kind.fromU8_toU8 (k : Kind) : Kind.fromU8 k.toU8 = some k := by
  cases k <;> rfl

theorem Kind.toU8_of_fromU8 {b : UInt8} {k : Kind} (h : Kind.fromU8 b = some k) :
    k.toU8 = b := by
  simp only [Kind.fromU8] at h
  split_ifs at h <;> simp_all only [Option.some.injEq] <;> subst h <;> rfl

/-- A 64-bit field that was written reads back. -/
theorem ofNat_leNat_leBytes_eight (x : UInt64) :
    UInt64.ofNat (leNat (leBytes 8 x.toNat)) = x := by
  rw [leNat_leBytes (lt_of_lt_of_le x.toNat_lt (by norm_num)), UInt64.ofNat_toNat]

/-- A 32-bit field that was written reads back. -/
theorem ofNat_leNat_leBytes_four (x : UInt32) :
    UInt32.ofNat (leNat (leBytes 4 x.toNat)) = x := by
  rw [leNat_leBytes (lt_of_lt_of_le x.toNat_lt (by norm_num)), UInt32.ofNat_toNat]

/-- The offset at which the encoder puts each field. -/
theorem fields_write (h : Header) (pb : UInt32) :
    field (h.write pb) 0 4 = MAGIC ∧ u8At (h.write pb) 4 = h.kind.toU8 ∧
      u8At (h.write pb) 5 = h.flags.bits ∧ u8At (h.write pb) 6 = 1 ∧
      u8At (h.write pb) 7 = h.kind.format.toU8 ∧
      field (h.write pb) 8 8 = leBytes 8 h.epoch.toNat ∧
      field (h.write pb) 16 8 = leBytes 8 h.sequence.toNat ∧
      field (h.write pb) 24 8 = leBytes 8 h.firstSample.toNat ∧
      field (h.write pb) 32 8 = leBytes 8 h.monoNs.toNat ∧
      field (h.write pb) 40 4 =
        leBytes 4 (h.uncertaintyUs.getD UNCERTAINTY_UNKNOWN).toNat ∧
      field (h.write pb) 44 4 = leBytes 4 h.kind.sampleRate.toNat ∧
      field (h.write pb) 48 4 = leBytes 4 h.frameCount.toNat ∧
      field (h.write pb) 52 4 = leBytes 4 h.generation.toNat ∧
      field (h.write pb) 56 4 = leBytes 4 h.sourceMask.bits.toUInt32.toNat ∧
      field (h.write pb) 60 4 = leBytes 4 pb.toNat := by
  simp [Header.write, field, u8At, MAGIC, List.drop_append, drop_leBytes, take_leBytes]

/-- The raw fields of a written header are the ones it was written from. -/
theorem rawAt_write (h : Header) (pb : UInt32) :
    rawAt (h.write pb) h.kind = h.raw pb := by
  obtain ⟨-, -, hflags, hchannels, hformat, hepoch, -, hfirst, -, -, hrate, hcount, hgen,
    hmask, hbytes⟩ := fields_write h pb
  simp only [rawAt, u64At, u32At, hepoch, hfirst, hrate, hcount, hgen, hmask, hbytes, hflags,
    hchannels, hformat, ofNat_leNat_leBytes_eight, ofNat_leNat_leBytes_four, Header.raw]

/-- A written header decodes to itself, unless it stores the sentinel. -/
theorem headerAt_write {h : Header} {pb : UInt32}
    (hu : h.uncertaintyUs ≠ some UNCERTAINTY_UNKNOWN) :
    headerAt (h.write pb) h.kind = h := by
  obtain ⟨-, -, -, -, -, -, hseq, -, hmono, hunc, -⟩ := fields_write h pb
  have hread : (if h.uncertaintyUs.getD UNCERTAINTY_UNKNOWN ≠ UNCERTAINTY_UNKNOWN then
      some (h.uncertaintyUs.getD UNCERTAINTY_UNKNOWN) else none) = h.uncertaintyUs := by
    cases hc : h.uncertaintyUs with
    | none => simp
    | some u =>
        rw [hc, ne_eq, Option.some.injEq] at hu
        simp [hu]
  have hmask : h.sourceMask.bits.toUInt32.toUInt8 = h.sourceMask.bits := by simp
  simp only [headerAt, u64At, u32At, hseq, hmono, hunc, ofNat_leNat_leBytes_eight,
    ofNat_leNat_leBytes_four, rawAt_write, hread]
  simp only [Header.raw, hmask]

/-- The decoder accepts a written header that keeps the encoder's rules. -/
theorem decodeRaw_write {h : Header} {pb : UInt32} (hc : h.check pb = .ok ()) :
    decodeRaw (h.write pb) = .ok (h, pb) := by
  simp only [Header.check, ite_error_eq_ok_iff] at hc
  obtain ⟨hu, hv⟩ := hc
  have hv := RawHeader.check_eq_ok_iff.mp hv
  rw [← rawAt_write] at hv
  obtain ⟨hmagic, hkind, -⟩ := fields_write h pb
  refine decodeRaw_eq_ok_iff.mpr ⟨hmagic, ?_, hv, (headerAt_write hu).symm, ?_⟩
  · rw [hkind, Kind.fromU8_toU8]
  · rw [rawAt_write, Header.raw]

/-! ### Writing back what the decoder reads -/

/-- The uncertainty word read from the wire is the one the encoder writes again. -/
theorem getD_uncertaintyUs_headerAt (head : List UInt8) (kind : Kind) :
    (headerAt head kind).uncertaintyUs.getD UNCERTAINTY_UNKNOWN = u32At head 40 := by
  simp only [headerAt]
  split <;> simp_all

theorem toNat_u64At {head : List UInt8} {i : ℕ} (h : i + 8 ≤ head.length) :
    (u64At head i).toNat = leNat (field head i 8) := by
  have hlt := leNat_lt (field head i 8)
  rw [length_field h] at hlt
  rw [u64At, UInt64.toNat_ofNat_of_lt' (lt_of_lt_of_le hlt (by norm_num [UInt64.size]))]

theorem toNat_u32At {head : List UInt8} {i : ℕ} (h : i + 4 ≤ head.length) :
    (u32At head i).toNat = leNat (field head i 4) := by
  have hlt := leNat_lt (field head i 4)
  rw [length_field h] at hlt
  rw [u32At, UInt32.toNat_ofNat_of_lt' (lt_of_lt_of_le hlt (by norm_num [UInt32.size]))]

theorem leBytes_u64At {head : List UInt8} {i : ℕ} (h : i + 8 ≤ head.length) :
    leBytes 8 (u64At head i).toNat = field head i 8 := by
  rw [toNat_u64At h, leBytes_leNat_field h]

theorem leBytes_u32At {head : List UInt8} {i : ℕ} (h : i + 4 ≤ head.length) :
    leBytes 4 (u32At head i).toNat = field head i 4 := by
  rw [toNat_u32At h, leBytes_leNat_field h]

/-- A byte at an offset, followed by the rest. -/
theorem cons_u8At_drop {head : List UInt8} {i : ℕ} (h : i < head.length) :
    u8At head i :: head.drop (i + 1) = head.drop i := by
  rw [u8At, List.getD_eq_getElem?_getD, List.getElem?_eq_getElem h, Option.getD_some,
    List.getElem_cons_drop]

/-- A decoded header is written back as the bytes it was read from. -/
theorem write_headerAt {head : List UInt8} {kind : Kind} (hlen : head.length = HEADER_BYTES)
    (hmagic : field head 0 4 = MAGIC) (hkind : Kind.fromU8 (u8At head 4) = some kind)
    (v : (rawAt head kind).Valid) :
    (headerAt head kind).write (rawAt head kind).payloadBytes = head := by
  have hb : head.length = 64 := hlen
  have hmask : (headerAt head kind).sourceMask.bits.toNat = (u32At head 56).toNat := by
    have hm := congrArg UInt32.toNat (toUInt32_toUInt8_of_known v.mask_known)
    rwa [UInt8.toNat_toUInt32] at hm
  have hcopy : head =
      field head 0 4 ++ (u8At head 4 :: u8At head 5 :: u8At head 6 :: u8At head 7 ::
        (field head 8 8 ++ (field head 16 8 ++ (field head 24 8 ++ (field head 32 8 ++
          (field head 40 4 ++ (field head 44 4 ++ (field head 48 4 ++ (field head 52 4 ++
            (field head 56 4 ++ (field head 60 4 ++ head.drop 64))))))))))) := by
    rw [field_append_drop head 60 4, field_append_drop head 56 4, field_append_drop head 52 4,
      field_append_drop head 48 4, field_append_drop head 44 4, field_append_drop head 40 4,
      field_append_drop head 32 8, field_append_drop head 24 8, field_append_drop head 16 8,
      field_append_drop head 8 8, cons_u8At_drop (show 7 < head.length by omega),
      cons_u8At_drop (show 6 < head.length by omega),
      cons_u8At_drop (show 5 < head.length by omega),
      cons_u8At_drop (show 4 < head.length by omega), field_append_drop head 0 4,
      List.drop_zero]
  have hend : head.drop 64 = [] := List.drop_eq_nil_of_le (by omega)
  have hch : (1 : UInt8) = u8At head 6 := v.channels.symm
  have hfmt : kind.format.toU8 = u8At head 7 := v.format.symm
  have hrate : kind.sampleRate = u32At head 44 := v.sampleRate.symm
  have hku : kind.toU8 = u8At head 4 := Kind.toU8_of_fromU8 hkind
  conv_rhs => rw [hcopy]
  simp only [Header.write, getD_uncertaintyUs_headerAt, hmask]
  simp only [headerAt, rawAt, hku, ← hmagic, hch, hfmt, hrate, hend,
    leBytes_u64At (show 8 + 8 ≤ head.length by omega),
    leBytes_u64At (show 16 + 8 ≤ head.length by omega),
    leBytes_u64At (show 24 + 8 ≤ head.length by omega),
    leBytes_u64At (show 32 + 8 ≤ head.length by omega),
    leBytes_u32At (show 40 + 4 ≤ head.length by omega),
    leBytes_u32At (show 44 + 4 ≤ head.length by omega),
    leBytes_u32At (show 48 + 4 ≤ head.length by omega),
    leBytes_u32At (show 52 + 4 ≤ head.length by omega),
    leBytes_u32At (show 56 + 4 ≤ head.length by omega),
    leBytes_u32At (show 60 + 4 ≤ head.length by omega),
    List.append_assoc, List.cons_append, List.nil_append, List.append_nil]

/-! ### Whole frames -/

/-- What `Packet.parse` returns when every step of it succeeds. -/
theorem parse_eq_ok {frame : List UInt8} {h : Header} {pb : UInt32} {e : UInt64}
    (hlen : HEADER_BYTES ≤ frame.length)
    (hd : decodeRaw (frame.take HEADER_BYTES) = .ok (h, pb))
    (hpb : (frame.drop HEADER_BYTES).length = pb.toNat) (he : h.endSample = some e)
    (hr : checkRecords h.kind (frame.drop HEADER_BYTES) = .ok ()) :
    ∃ p, Packet.parse frame = .ok p ∧ p.header = h ∧ p.endSample = e ∧
      p.payload = frame.drop HEADER_BYTES := by
  rw [Packet.parse, if_neg (by omega)]
  split
  · next e' hd' => simp [hd] at hd'
  · next h' pb' hd' =>
      rw [hd, Except.ok.injEq, Prod.mk.injEq] at hd'
      obtain ⟨rfl, rfl⟩ := hd'
      simp only [hpb, ne_eq, not_true_eq_false, dite_false]
      split
      · next he' => simp [he] at he'
      · next e' he' =>
          split
          · next hr' => simp [hr] at hr'
          · rw [he, Option.some.injEq] at he'
            exact ⟨_, rfl, rfl, he'.symm, rfl⟩

/-- Every step of `Packet.parse` succeeded when it did. -/
theorem of_parse_eq_ok {frame : List UInt8} {p : Packet} (h : Packet.parse frame = .ok p) :
    HEADER_BYTES ≤ frame.length ∧
      (∃ pb, decodeRaw (frame.take HEADER_BYTES) = .ok (p.header, pb) ∧
        p.payload.length = pb.toNat) ∧
      p.payload = frame.drop HEADER_BYTES := by
  rw [Packet.parse] at h
  split_ifs at h with hlen
  split at h
  · simp at h
  · next h' pb hd =>
      simp only at h
      split_ifs at h with hpb
      split at h
      · simp at h
      · split at h
        · simp at h
        · rw [Except.ok.injEq] at h
          subst h
          exact ⟨not_lt.mp hlen, ⟨pb, hd, not_not.mp hpb⟩, rfl⟩

/-- The checks `encode` makes and what it returns. -/
theorem encode_eq_ok_iff {h : Header} {payload b : List UInt8} :
    encode h payload = .ok b ↔
      payload.length < 2 ^ 32 ∧ h.check (UInt32.ofNat payload.length) = .ok () ∧
        (∃ e, h.endSample = some e) ∧ checkRecords h.kind payload = .ok () ∧
        b = h.write (UInt32.ofNat payload.length) ++ payload := by
  rw [encode, ite_error_eq_ok_iff, not_le]
  refine and_congr_right fun _ => ?_
  cases hc : h.check (UInt32.ofNat payload.length) with
  | error e => simp [hc]
  | ok u =>
      cases he : h.endSample with
      | none => simp [hc]
      | some e =>
          cases hr : checkRecords h.kind payload with
          | error e => simp [hc]
          | ok u => simp [hc, eq_comm]

theorem take_write_append (h : Header) (pb : UInt32) (payload : List UInt8) :
    (h.write pb ++ payload).take HEADER_BYTES = h.write pb := by
  rw [← length_write h pb, List.take_left]

theorem drop_write_append (h : Header) (pb : UInt32) (payload : List UInt8) :
    (h.write pb ++ payload).drop HEADER_BYTES = payload := by
  rw [← length_write h pb, List.drop_left]

/-- A frame made of a written header that passes its check and a payload of the length it
announces parses back to them. -/
theorem parse_write_append {h : Header} {pb : UInt32} {e : UInt64} {payload : List UInt8}
    (hc : h.check pb = .ok ()) (hpb : payload.length = pb.toNat)
    (he : h.endSample = some e) (hr : checkRecords h.kind payload = .ok ()) :
    ∃ p, Packet.parse (h.write pb ++ payload) = .ok p ∧ p.header = h ∧ p.endSample = e ∧
      p.payload = payload := by
  have hlen : HEADER_BYTES ≤ (h.write pb ++ payload).length := by
    rw [List.length_append, length_write]
    omega
  obtain ⟨p, hp, hh, hend, hpl⟩ := parse_eq_ok hlen
    (by rw [take_write_append, decodeRaw_write hc])
    (by rw [drop_write_append, hpb]) he (by rw [drop_write_append, hr])
  exact ⟨p, hp, hh, hend, by rw [hpl, drop_write_append]⟩

/-- The end of a packet's samples, when it fits. -/
theorem toNat_of_endSample_eq_some {h : Header} {e : UInt64} (he : h.endSample = some e) :
    e.toNat = h.firstSample.toNat + h.frameCount.toNat * h.kind.samplesPerFrame := by
  simp only [Header.endSample] at he
  split_ifs at he with hlt
  rw [← Option.some.inj he, UInt64.toNat_ofNat_of_lt' hlt]

/-- **An encoded frame parses back** to the header and payload it was made from. -/
theorem parse_encode {h : Header} {payload b : List UInt8}
    (hb : encode h payload = .ok b) :
    ∃ p, Packet.parse b = .ok p ∧ p.header = h ∧ p.payload = payload ∧
      p.endSample.toNat =
        h.firstSample.toNat + h.frameCount.toNat * h.kind.samplesPerFrame := by
  obtain ⟨hlen, hc, ⟨e, he⟩, hr, rfl⟩ := encode_eq_ok_iff.mp hb
  have hpb : payload.length = (UInt32.ofNat payload.length).toNat :=
    (UInt32.toNat_ofNat_of_lt' hlen).symm
  obtain ⟨p, hp, hh, hend, hpl⟩ := parse_write_append hc hpb he hr
  exact ⟨p, hp, hh, hpl, hend ▸ toNat_of_endSample_eq_some he⟩

/-- **A parsed frame is what the encoder writes** for its header and payload. -/
theorem encode_parse {b : List UInt8} {p : Packet} (hp : Packet.parse b = .ok p) :
    encode p.header p.payload = .ok b := by
  obtain ⟨hlen, ⟨pb, hd, hpb⟩, hpl⟩ := of_parse_eq_ok hp
  obtain ⟨hmagic, hkind, hv, hh, hraw⟩ := decodeRaw_eq_ok_iff.mp hd
  have hlen' : (b.take HEADER_BYTES).length = HEADER_BYTES := by
    rw [List.length_take, min_eq_left hlen]
  have hwrite := write_headerAt hlen' hmagic hkind hv
  rw [← hh, ← hraw] at hwrite
  have hpb' : UInt32.ofNat p.payload.length = pb := by rw [hpb, UInt32.ofNat_toNat]
  refine encode_eq_ok_iff.mpr
    ⟨p.length_lt, p.header_ok, ⟨p.endSample, p.end_ok⟩, p.records_ok, ?_⟩
  rw [hpb', hwrite, hpl, List.take_append_drop]

/-! ### Render frames -/

theorem length_flatten_i16ToLe (pcm : List Int16) :
    ((pcm.map i16ToLe).flatten).length = pcm.length * 2 := by
  induction pcm with
  | nil => rfl
  | cons s pcm ih =>
      rw [List.map_cons, List.flatten_cons, List.length_append, ih, i16ToLe, length_leBytes,
        List.length_cons]
      omega

/-- A sample survives its two bytes. -/
theorem i16OfLe_i16ToLe (s : Int16) : i16OfLe (i16ToLe s) = s := by
  have hlt : s.toUInt16.toNat < 256 ^ 2 := s.toUInt16.toNat_lt
  have hback := leNat_leBytes hlt
  have hpair : leBytes 2 s.toUInt16.toNat =
      [UInt8.ofNat s.toUInt16.toNat, UInt8.ofNat (s.toUInt16.toNat / 256)] := rfl
  rw [i16OfLe, i16ToLe, Cell.i16FromLe, hpair]
  rw [hpair] at hback
  simp only [List.getD_cons_zero, List.getD_cons_succ, hback, UInt16.ofNat_toNat]
  rfl

/-- The samples of a render payload are the samples it was written from. -/
theorem map_i16OfLe_asChunks (pcm : List Int16) :
    (asChunks 2 (pcm.map i16ToLe).flatten).map i16OfLe = pcm := by
  have hlen : ∀ r ∈ pcm.map i16ToLe, r.length = 2 := by
    intro r hr
    obtain ⟨s, -, rfl⟩ := List.mem_map.mp hr
    rw [i16ToLe, length_leBytes]
  rw [asChunks_flatten (by norm_num) hlen, List.map_map]
  conv_rhs => rw [← List.map_id pcm]
  exact List.map_congr_left fun s _ => i16OfLe_i16ToLe s

/-- A render header that passes its check counts its samples exactly and has two payload
bytes for each of them. -/
theorem renderHeader_of_check {epoch sequence firstSample : UInt64} {generation : UInt32}
    {flags : Flags} {pcm : List Int16} {pb : UInt32}
    (hc : (renderHeader epoch sequence firstSample generation flags pcm).check pb = .ok ()) :
    pb.toNat = pcm.length * 2 ∧
      (renderHeader epoch sequence firstSample generation flags pcm).payloadBytes =
        pcm.length * 2 ∧ flags.contains Flags.DIGITAL_SILENCE = false := by
  have v := RawHeader.check_eq_ok_iff.mp (ite_error_eq_ok_iff.mp hc).2
  have hsilent : flags.contains Flags.DIGITAL_SILENCE = false := by
    by_contra hs
    have := v.silence (Bool.eq_true_of_not_eq_false hs)
    simp [Header.raw, renderHeader] at this
  have hcount : (renderHeader epoch sequence firstSample generation flags pcm).frameCount.toNat
      = pcm.length := by
    have hmax := v.frameCount.2
    simp only [Header.raw, renderHeader] at hmax ⊢
    split_ifs at hmax ⊢ with hlt
    · exact UInt32.toNat_ofNat_of_lt' hlt
    · exact absurd hmax (by decide)
  have hbytes : (renderHeader epoch sequence firstSample generation flags pcm).payloadBytes =
      pcm.length * 2 := by
    have hkind : (renderHeader epoch sequence firstSample generation flags pcm).kind =
        .render := rfl
    have hflags : (renderHeader epoch sequence firstSample generation flags pcm).flags =
        flags := rfl
    simp only [Header.payloadBytes, hkind, hflags, Kind.payloadBytes, hsilent, hcount,
      Bool.false_eq_true, if_false]
  exact ⟨v.payloadBytes.trans hbytes, hbytes, hsilent⟩

/-- **An accepted render frame parses back** to its PCM, generation and flags. -/
theorem parse_encodeRender {epoch sequence firstSample : UInt64} {generation : UInt32}
    {flags : Flags} {pcm : List Int16} {b : List UInt8}
    (hb : encodeRender epoch sequence firstSample generation flags pcm = .ok b) :
    ∃ p, Packet.parse b = .ok p ∧ p.content = .pcm pcm ∧
      p.header = renderHeader epoch sequence firstSample generation flags pcm := by
  set h := renderHeader epoch sequence firstSample generation flags pcm with hh
  simp only [encodeRender, ← hh] at hb
  generalize hpb : (if h.payloadBytes < 2 ^ 32 then UInt32.ofNat h.payloadBytes
    else 0xFFFFFFFF) = pb at hb
  cases hc : h.check pb with
  | error e => simp [hc] at hb
  | ok u =>
      cases he : h.endSample with
      | none => simp [hc, he] at hb
      | some e =>
          simp only [hc, he, Except.ok.injEq] at hb
          obtain ⟨hpbn, hbytes, hsilent⟩ := renderHeader_of_check hc
          have hpb' : UInt32.ofNat h.payloadBytes = pb := by
            rw [hbytes, ← hpbn, UInt32.ofNat_toNat]
          have hlen := length_flatten_i16ToLe pcm
          have hpl2 : ((pcm.map i16ToLe).flatten).length = pb.toNat := by rw [hlen, hpbn]
          obtain ⟨p, hp, hph, -, hpl⟩ := parse_write_append hc hpl2 he rfl
          refine ⟨p, ?_, ?_, hph⟩
          · rw [← hb, hpb', hp]
          · rw [Packet.content, hph, hpl, hh]
            simp only [renderHeader, hsilent, Bool.false_eq_true, if_false,
              map_i16OfLe_asChunks]

/-! ### The bijection -/

/-- **The EMA1 codec is a bijection onto the valid frames.** An encoded frame parses back
to its header and payload, with its end sample in range; a parsed frame is the encoding of
its header and payload; so the decoder accepts exactly the image of the encoder; and every
render frame the encoder accepts parses with the same PCM, generation and flags. -/
theorem encode_parse_bijection :
    (∀ (h : Header) (payload b : List UInt8), encode h payload = .ok b →
      ∃ p, Packet.parse b = .ok p ∧ p.header = h ∧ p.payload = payload ∧
        p.endSample.toNat =
          h.firstSample.toNat + h.frameCount.toNat * h.kind.samplesPerFrame) ∧
    (∀ (b : List UInt8) (p : Packet), Packet.parse b = .ok p →
      encode p.header p.payload = .ok b) ∧
    (∀ b : List UInt8, (∃ p, Packet.parse b = .ok p) ↔
      ∃ h payload, encode h payload = .ok b) ∧
    (∀ (epoch sequence firstSample : UInt64) (generation : UInt32) (flags : Flags)
      (pcm : List Int16) (b : List UInt8),
      encodeRender epoch sequence firstSample generation flags pcm = .ok b →
      ∃ p, Packet.parse b = .ok p ∧ p.content = .pcm pcm ∧
        p.header.generation = generation ∧ p.header.flags = flags) := by
  refine ⟨fun h payload b hb => parse_encode hb, fun b p hp => encode_parse hp,
    fun b => ⟨?_, ?_⟩, ?_⟩
  · rintro ⟨p, hp⟩
    exact ⟨p.header, p.payload, encode_parse hp⟩
  · rintro ⟨h, payload, hb⟩
    obtain ⟨p, hp, -⟩ := parse_encode hb
    exact ⟨p, hp⟩
  · intro epoch sequence firstSample generation flags pcm b hb
    obtain ⟨p, hp, hcontent, hheader⟩ := parse_encodeRender hb
    exact ⟨p, hp, hcontent, by rw [hheader, renderHeader], by rw [hheader, renderHeader]⟩

end EchoMuse.Ema
