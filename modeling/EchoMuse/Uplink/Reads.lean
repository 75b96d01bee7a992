import EchoMuse.Streams.Order
import EchoMuse.Uplink.Ring

/-!
# Reading an Epoch Buffer

An epoch buffer answers every read as the first-copy-wins window does, after any sequence of
stores and missing reports: `Refines` relates the two, every operation keeps it, and lookups,
copies and segments follow from it.

## Main results

* `Refines.apply`: every operation keeps the relation, and returns what the window's does;
* `Refines.lookup`, `Refines.copied`, `Refines.segments`: the reads;
* `refines_window`: all of it after any run.
-/

namespace EchoMuse.Uplink

open EchoMuse.Ema EchoMuse.Streams EchoMuse.Intervals

/-! ### Lookups -/

namespace Indexes

variable {w : Window} {x : BlockIndex}

/-- What the window has at a record of a block. -/
theorem classify_of_mem (h : Indexes w x) {b : Block} (hb : b ∈ x.blocks) {i : ℕ}
    (hi : b.Covers i) : w.classify i = match b.kind with
      | .data info discontinuity =>
        .data (info.advanced (i - b.first) w.unit) (discontinuity && i = b.first)
      | .missing => .missing := by
  have hfloor := h.floor_le hb
  have h1 := hi.1
  obtain ⟨m, hm, hrep⟩ := h.tiles.rep_of_mem hb hi
  rw [Window.classify, if_neg (by omega), hm]
  cases hkind : b.kind with
  | missing =>
      cases m with
      | data => simp only [Says, hkind] at hrep
      | missing event => rfl
  | data info discontinuity =>
      cases m with
      | missing => simp only [Says, hkind] at hrep
      | data event info' first d value =>
          simp only [Says, hkind] at hrep
          obtain ⟨-, hinfo, hdisc⟩ := hrep
          simp only [hinfo, hdisc, BlockMeta.advanced_eq_infoAt]

/-- The record after a block is not of the same event. -/
theorem event_stop_ne (h : Indexes w x) {b : Block} (hb : b ∈ x.blocks) {i : ℕ}
    (hi : b.Covers i) : (w.held b.stop).map Mark.event ≠ (w.held i).map Mark.event := by
  have hne := h.tiles.sorted.nonempty b hb
  obtain ⟨t, ht⟩ := h.tiles.piece b hb
  obtain ⟨m, hm, -, hmt⟩ := ht b.first ⟨le_rfl, hne⟩
  obtain ⟨n, hn, -, hnt⟩ := ht i hi
  rw [hn, Option.map_some, hnt, ← hmt]
  cases hstop : w.held b.stop with
  | none => simp
  | some y =>
      rw [Option.map_some, ne_eq, Option.some.injEq]
      exact h.tiles.tag_stop hb hm hstop

/-- **A lookup** gives the right answer. -/
theorem lookup (h : Indexes w x) (i : ℕ) : w.Answers i (x.lookup i) := by
  rw [BlockIndex.lookup, h.floor_eq]
  by_cases hfloor : i < w.floor
  · rw [if_pos hfloor]
    exact ⟨hfloor, rfl⟩
  rw [if_neg hfloor]
  have hsorted := h.tiles.sorted
  have hmem : ∀ b, b ∈ x.after i ↔ b ∈ x.blocks ∧ i < b.stop :=
    fun b => hsorted.mem_dropWhile_iff
  have hunknown : ∀ j, i ≤ j → (∀ b ∈ x.after i, ¬ b.Covers j) → w.classify j = .unknown := by
    intro j hj hnone
    have hheld : w.held j = none := by
      cases hj' : w.held j with
      | none => rfl
      | some m =>
          obtain ⟨b, hb, hcov⟩ := h.tiles.covered j m hj'
          exact absurd hcov (hnone b ((hmem b).mpr ⟨hb, by have := hcov.2; omega⟩))
    rw [Window.classify, if_neg (by omega), hheld]
  have hafter : Sorted (x.after i) := hsorted.dropWhile _
  cases hcase : x.after i with
  | nil =>
      intro j hj
      exact hunknown j hj (by simp [hcase])
  | cons b rest =>
      obtain ⟨hb, hstop⟩ := (hmem b).mp (by simp [hcase])
      rw [hcase] at hafter hunknown
      obtain ⟨hne, hall, -⟩ := Sorted.cons_iff.mp hafter
      by_cases hfirst : b.first ≤ i
      · have hclass := fun j (hj : b.Covers j) => h.classify_of_mem hb hj
        have hend := h.event_stop_ne hb ⟨hfirst, hstop⟩
        dsimp only
        rw [if_pos hfirst]
        cases hkind : b.kind with
        | missing =>
            refine ⟨hstop, hend, fun j h1 h2 => ?_⟩
            rw [hclass j ⟨by omega, h2⟩, hkind]
        | data info discontinuity =>
            refine ⟨?_, hstop, hend, fun j h1 h2 => ?_⟩
            · rw [hclass i ⟨hfirst, hstop⟩, hkind, h.unit_eq]
            have hsum : i - b.first + (j - i) = j - b.first := by omega
            have hdisc : (discontinuity && decide (j = b.first)) =
                (discontinuity && decide (i = b.first) && decide (j - i = 0)) := by
              rw [Bool.and_assoc, ← Bool.decide_and]
              congr 2
              rw [eq_iff_iff]
              omega
            rw [hclass j ⟨by omega, h2⟩, hkind]
            dsimp only
            rw [Window.carried, ← BlockMeta.advanced_eq_infoAt,
              Nat.sub_zero, h.unit_eq, BlockMeta.advanced_advanced, hsum, hdisc]
      · dsimp only
        rw [if_neg hfirst]
        refine ⟨by omega, ?_, fun j h1 h2 => hunknown j h1 fun c hc hcov => ?_⟩
        · rw [h.classify_of_mem hb ⟨le_rfl, hne⟩]
          cases b.kind <;> simp
        · have h3 := hcov.1
          rcases List.mem_cons.mp hc with rfl | hc
          · omega
          · have h4 := hall c hc
            omega

end Indexes

/-! ### Runs -/

/-- What is done to one epoch's buffer. -/
inductive BufferOp
  | store (packet : Packet)
  | markMissing (span : Span)

/-- An operation on the buffer of `stream`: its records end at or below the largest 64-bit
position, and a packet is of the stream's kind. -/
def BufferOp.Fits (stream : StreamId) : BufferOp → Prop
  | .store packet => packet.header.kind = stream.kind
  | .markMissing span =>
    (span.end + stream.kind.samplesPerFrame - 1) / stream.kind.samplesPerFrame *
      stream.kind.samplesPerFrame ≤ U64_MAX

/-- One operation; also returns how many samples were stored. -/
def EpochBuffer.apply (b : EpochBuffer) : BufferOp → EpochBuffer × ℕ
  | .store packet => b.store packet
  | .markMissing span => (b.markMissing span, 0)

/-- One operation on the window. -/
def Window.apply (w : Window) : BufferOp → Window × ℕ
  | .store packet => w.storePacket packet
  | .markMissing span =>
    (w.markMissing (span.start / w.unit) ((span.end + w.unit - 1) / w.unit), 0)

/-- A sequence of operations, and what each of them returned. -/
def runOps {S : Type} (apply : S → BufferOp → S × ℕ) : S → List BufferOp → S × List ℕ
  | s, [] => (s, [])
  | s, op :: ops =>
    let step := apply s op
    let rest := runOps apply step.1 ops
    (rest.1, step.2 :: rest.2)

/-- The ring has the window's values, as records of the stream's kind. -/
def HoldsRecords (stream : StreamId) (records : Records) (w : Window) : Prop :=
  match stream, records with
  | .mic, .pcm ring => Rings .pcm ring w
  | .reference, .pcm ring => Rings .pcm ring w
  | .cells, .cells ring => Rings .cell ring w
  | .afe, .afe ring => Rings .afe ring w
  | _, _ => False

theorem HoldsRecords.of_value {stream : StreamId} {records : Records} {w w' : Window}
    (h : HoldsRecords stream records w) (hcap : w'.capacity = w.capacity)
    (hvalue : ∀ i r, w'.value i = some r → w.value i = some r) :
    HoldsRecords stream records w' := by
  cases stream <;> cases records <;> first | exact h.elim | exact Rings.of_value h hcap hvalue

/-- The buffer of a stream epoch and the window know the same. -/
structure Refines (stream : StreamId) (b : EpochBuffer) (w : Window) : Prop where
  index : Indexes w b.index
  few : b.index.blocks.length ≤ b.index.maxBlocks
  unit_eq : w.unit = stream.kind.samplesPerFrame
  records : HoldsRecords stream b.records w
  /-- No position passes the largest 64-bit number. -/
  fits : w.known * w.unit ≤ U64_MAX

theorem samplesPerFrame_pos (stream : StreamId) : 0 < stream.kind.samplesPerFrame := by
  cases stream <;> decide

namespace Refines

variable {stream : StreamId} {b : EpochBuffer} {w : Window}

/-- A new buffer knows nothing, as a new window does. -/
theorem new (stream : StreamId) (retention maxBlocks : ℕ) :
    Refines stream (EpochBuffer.new stream retention maxBlocks)
      (Window.new stream retention maxBlocks) where
  index :=
    { unit_eq := rfl
      capacity_eq := rfl
      maxBlocks_eq := rfl
      end_eq := rfl
      floor_eq := rfl
      tiles := Tiles.nil
      below := fun _ _ => rfl
      above := fun _ _ => rfl
      fresh := fun _ _ h => by cases h }
  few := Nat.zero_le _
  unit_eq := rfl
  records := by cases stream <;> exact ⟨Or.inl rfl, fun _ _ h => by cases h⟩
  fits := by simp [Window.new]

/-- The ring a packet of `values` is written to. -/
theorem rings_store (h : Refines stream b w) {T : Type} {rec : T → Record} {ring : List T}
    (hring : Rings rec ring w) {p : Packet} (fill : T) {values : List T}
    (hvalues : recordsOf p = values.map rec) {novel : List (ℕ × ℕ)}
    (hnovel : novel = (b.index.insertData (p.header.firstSample.toNat / b.unit)
      (p.header.firstSample.toNat / b.unit + p.header.frameCount.toNat) (BlockMeta.of p)
      (p.header.flags.contains Flags.DISCONTINUITY)).2) :
    Rings rec
      (if (novel.map fun r => r.2 - r.1).sum = 0 then ring
        else write ring b.index.capacity fill (p.header.firstSample.toNat / b.unit) values novel)
      (w.storePacket p).1 := by
  have hunit : b.unit = w.unit := h.index.unit_eq
  have hlen := length_recordsOf p
  rw [hvalues, List.length_map] at hlen
  rw [← hlen] at hnovel
  rw [Window.storePacket, hvalues, ← hunit]
  exact hring.store h.index h.few _ _ _ fill values hnovel

/-- The records a packet brings are written to the ring of the stream. -/
theorem records_store (h : Refines stream b w) {p : Packet}
    (hkind : p.header.kind = stream.kind) :
    HoldsRecords stream (b.store p).1.records (w.storePacket p).1 := by
  have hrec := h.records
  have hpcm : ∀ {ring : List Int16}, b.records = .pcm ring → Rings .pcm ring w →
      (p.header.kind = .mic ∨ p.header.kind = .reference) →
      ∃ ring', (b.store p).1.records = .pcm ring' ∧ Rings .pcm ring' (w.storePacket p).1 := by
    intro ring hb hring hk
    have hcontent : p.content = .digitalSilence p.header.frameCount ∨
        ∃ samples, p.content = .pcm samples := by
      rw [Packet.content]
      rcases hk with hk | hk <;> rw [hk] <;> dsimp only <;> split_ifs <;> simp
    simp only [EpochBuffer.store, hb]
    rcases hcontent with hcontent | ⟨samples, hcontent⟩
    · have hvalues : recordsOf p =
          (List.replicate p.header.frameCount.toNat (0 : Int16)).map .pcm := by
        rw [recordsOf, hcontent, List.map_replicate]
      rw [hcontent, ← apply_ite Records.pcm]
      exact ⟨_, rfl, h.rings_store hring 0 hvalues rfl⟩
    · have hvalues : recordsOf p = samples.map .pcm := by rw [recordsOf, hcontent]
      rw [hcontent, ← apply_ite Records.pcm]
      exact ⟨_, rfl, h.rings_store hring 0 hvalues rfl⟩
  cases stream with
  | mic =>
      cases hb : b.records with
      | pcm ring =>
          rw [hb] at hrec
          obtain ⟨ring', hring', hrings⟩ := hpcm hb hrec (Or.inl hkind)
          rw [hring']
          exact hrings
      | cells ring => rw [hb] at hrec; exact hrec.elim
      | afe ring => rw [hb] at hrec; exact hrec.elim
  | reference =>
      cases hb : b.records with
      | pcm ring =>
          rw [hb] at hrec
          obtain ⟨ring', hring', hrings⟩ := hpcm hb hrec (Or.inr hkind)
          rw [hring']
          exact hrings
      | cells ring => rw [hb] at hrec; exact hrec.elim
      | afe ring => rw [hb] at hrec; exact hrec.elim
  | cells =>
      cases hb : b.records with
      | cells ring =>
          rw [hb] at hrec
          have hcontent : ∃ cells, p.content = .cells cells := by
            rw [Packet.content, hkind]
            exact ⟨_, rfl⟩
          obtain ⟨cells, hcontent⟩ := hcontent
          simp only [EpochBuffer.store, hb, hcontent]
          rw [← apply_ite Records.cells]
          exact h.rings_store hrec GAP_CELL (by rw [recordsOf, hcontent]) rfl
      | pcm ring => rw [hb] at hrec; exact hrec.elim
      | afe ring => rw [hb] at hrec; exact hrec.elim
  | afe =>
      cases hb : b.records with
      | afe ring =>
          rw [hb] at hrec
          have hcontent : ∃ records, p.content = .afe records := by
            rw [Packet.content, hkind]
            exact ⟨_, rfl⟩
          obtain ⟨records, hcontent⟩ := hcontent
          simp only [EpochBuffer.store, hb, hcontent]
          rw [← apply_ite Records.afe]
          exact h.rings_store hrec AfeRecord.default (by rw [recordsOf, hcontent]) rfl
      | pcm ring => rw [hb] at hrec; exact hrec.elim
      | cells ring => rw [hb] at hrec; exact hrec.elim

/-- A packet's records end at or below the largest 64-bit position. -/
theorem stop_le_u64 {p : Packet} (hkind : p.header.kind = stream.kind) :
    (p.header.firstSample.toNat / stream.kind.samplesPerFrame + p.header.frameCount.toNat) *
      stream.kind.samplesPerFrame ≤ U64_MAX := by
  have hend := p.end_ok
  simp only [Header.endSample, hkind] at hend
  split_ifs at hend with hlt
  have hle := Nat.div_mul_le_self p.header.firstSample.toNat stream.kind.samplesPerFrame
  rw [Nat.add_mul, U64_MAX]
  omega

/-- Storing a packet does what the window does, and returns the same. -/
theorem store (h : Refines stream b w) {p : Packet} (hkind : p.header.kind = stream.kind) :
    Refines stream (b.store p).1 (w.storePacket p).1 ∧ (b.store p).2 = (w.storePacket p).2 := by
  have hunit : b.unit = w.unit := h.index.unit_eq
  have hlen := length_recordsOf p
  have hstop := stop_le_u64 hkind
  rw [← h.unit_eq] at hstop
  have hinsert := h.index.insertData h.few (p.header.firstSample.toNat / w.unit)
    (p.header.firstSample.toNat / w.unit + (recordsOf p).length) (BlockMeta.of p)
    (p.header.flags.contains Flags.DISCONTINUITY) fun i =>
      (recordsOf p).getD (i - p.header.firstSample.toNat / w.unit) (.pcm 0)
  obtain ⟨hindex, hmem, hspaced⟩ := hinsert
  have hframe : (w.storePacket p).1.unit = w.unit ∧ (w.storePacket p).1.capacity = w.capacity ∧
      (w.storePacket p).1.known =
        max w.known (p.header.firstSample.toNat / w.unit + (recordsOf p).length) :=
    Window.limit_frame _
  obtain ⟨h1, h2, h3⟩ := hframe
  refine ⟨⟨?_, ?_, h1.trans h.unit_eq, h.records_store hkind, ?_⟩, ?_⟩
  · rw [hlen] at hindex
    simp only [EpochBuffer.store, hunit]
    rw [Window.storePacket, Window.store, hlen]
    exact hindex
  · exact BlockIndex.few_insertData h.few _ _ _ _
  · rw [h1, h3, ← Nat.mul_max_mul_right, hlen]
    exact max_le h.fits hstop
  · rw [hlen] at hmem hspaced
    simp only [EpochBuffer.store, hunit]
    rw [Window.storePacket, Window.store, hlen]
    simp only
    congr 1
    rw [(hspaced.of_le (le_max_left _ _)).sum_eq_countP (Nat.le_add_right _ _),
      Nat.add_sub_cancel_left]
    exact List.countP_congr fun i _ => by
      rw [decide_eq_true_iff, decide_eq_true_iff, hmem]

/-- Marking a span missing. -/
theorem markMissing (h : Refines stream b w) {span : Span}
    (hfits : (span.end + w.unit - 1) / w.unit * w.unit ≤ U64_MAX) :
    Refines stream (b.markMissing span)
      (w.markMissing (span.start / w.unit) ((span.end + w.unit - 1) / w.unit)) := by
  have hunit : b.unit = w.unit := h.index.unit_eq
  have hframe : (w.markMissing (span.start / w.unit) ((span.end + w.unit - 1) / w.unit)).unit =
        w.unit ∧
      (w.markMissing (span.start / w.unit) ((span.end + w.unit - 1) / w.unit)).capacity =
        w.capacity ∧
      (w.markMissing (span.start / w.unit) ((span.end + w.unit - 1) / w.unit)).known =
        max w.known ((span.end + w.unit - 1) / w.unit) :=
    Window.limit_frame _
  obtain ⟨h1, h2, h3⟩ := hframe
  refine ⟨?_, ?_, h1.trans h.unit_eq, h.records.of_value h2 fun i r =>
    Window.value_markMissing, ?_⟩
  · rw [EpochBuffer.markMissing, hunit]
    exact h.index.insertMissing h.few _ _
  · rw [EpochBuffer.markMissing]
    exact BlockIndex.few_insertMissing h.few _ _
  · rw [h1, h3, ← Nat.mul_max_mul_right]
    exact max_le h.fits hfits

/-- **Every operation** keeps the relation, and returns what the window's does. -/
theorem apply (h : Refines stream b w) {op : BufferOp} (hop : op.Fits stream) :
    Refines stream (b.apply op).1 (w.apply op).1 ∧ (b.apply op).2 = (w.apply op).2 := by
  cases op with
  | store packet => exact h.store hop
  | markMissing span =>
      refine ⟨h.markMissing ?_, rfl⟩
      rw [h.unit_eq]
      exact hop

/-- After any run the buffer and the window know the same, and returned the same. -/
theorem run (h : Refines stream b w) {ops : List BufferOp} (hops : ∀ op ∈ ops, op.Fits stream) :
    Refines stream (runOps EpochBuffer.apply b ops).1 (runOps Window.apply w ops).1 ∧
      (runOps EpochBuffer.apply b ops).2 = (runOps Window.apply w ops).2 := by
  induction ops generalizing b w with
  | nil => exact ⟨h, rfl⟩
  | cons op ops ih =>
      rw [List.forall_mem_cons] at hops
      obtain ⟨hstep, hanswer⟩ := h.apply hops.1
      obtain ⟨hrun, hanswers⟩ := ih hstep hops.2
      exact ⟨hrun, congrArg₂ List.cons hanswer hanswers⟩

end Refines

/-! ### Reads in stream samples -/

/-- What a lookup says a position holds. -/
def Lookup.kind : Lookup → SegmentKind
  | .data _ info discontinuity => .data info discontinuity
  | .missing _ => .missing
  | .evicted _ => .evicted
  | .unknown _ => .unknown

/-- An answer in record indices, in stream samples. -/
def Lookup.scaled (unit : ℕ) : Lookup → Lookup
  | .data stop info discontinuity => .data (stop * unit) info discontinuity
  | .missing stop => .missing (stop * unit)
  | .evicted u => .evicted (u * unit)
  | .unknown next => .unknown (next.map (· * unit))

/-- A right answer is of the record's kind. -/
theorem Window.Answers.kind {w : Window} {i unit : ℕ} {answer : Lookup}
    (h : w.Answers i answer) : (answer.scaled unit).kind = w.classify i := by
  cases answer with
  | data stop info discontinuity => exact h.1.symm
  | missing stop => exact (h.2.2 i le_rfl h.1).symm
  | evicted u => exact (if_pos (h.2 ▸ h.1)).symm
  | unknown next =>
      cases next with
      | none => exact (h i le_rfl).symm
      | some next => exact (h.2.2 i le_rfl h.1).symm

/-- The pieces go from `pos` to `stop`, none empty, each starting where the one before it
ends. -/
def Covering (stop : ℕ) : ℕ → List Segment → Prop
  | pos, [] => stop ≤ pos
  | pos, s :: rest =>
    s.span.start = pos ∧ pos < s.span.end ∧ s.span.end ≤ stop ∧ Covering stop s.span.end rest

/-- A piece says of every record that starts in it what the window has there. -/
def Window.Has (w : Window) (s : Segment) : Prop :=
  ∀ i, s.span.start / w.unit ≤ i → i * w.unit < s.span.end →
    w.classify i = carried w.unit (i - s.span.start / w.unit) s.kind

/-- The records of a span, as the copy function of the stream returns them. -/
def EpochBuffer.copied (b : EpochBuffer) (span : Span) : StreamId → List Record
  | .mic | .reference => (b.copyPcm span).map .pcm
  | .cells => (b.copyCells span).map .cell
  | .afe => (b.copyAfe span).map .afe

namespace Refines

variable {stream : StreamId} {b : EpochBuffer} {w : Window}

/-- **Lookup**: the window's answer for the record at a position. -/
theorem lookup (h : Refines stream b w) (pos : ℕ) :
    ∃ answer, w.Answers (pos / w.unit) answer ∧ b.lookup pos = answer.scaled w.unit := by
  have hunit : b.unit = w.unit := h.index.unit_eq
  refine ⟨b.index.lookup (pos / w.unit), h.index.lookup _, ?_⟩
  rw [EpochBuffer.lookup, hunit]
  cases b.index.lookup (pos / w.unit) <;> rfl

/-- The piece of a read at `pos` goes past `pos`, and has the window's kinds. -/
theorem pieceAt (h : Refines stream b w) {pos stop : ℕ} (hpos : pos < stop) :
    pos < min (b.pieceAt stop pos).1 stop ∧
      w.Has ⟨⟨pos, min (b.pieceAt stop pos).1 stop⟩, (b.pieceAt stop pos).2⟩ := by
  obtain ⟨answer, hanswer, hlookup⟩ := h.lookup pos
  have hunit : 0 < w.unit := h.unit_eq ▸ samplesPerFrame_pos stream
  have hpast : ∀ {e}, pos / w.unit < e → pos < min (e * w.unit) stop :=
    fun he => lt_min ((Nat.div_lt_iff_lt_mul hunit).mp he) hpos
  have hbefore : ∀ {i e}, i * w.unit < min (e * w.unit) stop → i < e :=
    fun hi => lt_of_mul_lt_mul_right (lt_of_lt_of_le hi (min_le_left _ _)) (Nat.zero_le _)
  simp only [EpochBuffer.pieceAt, hlookup, Window.Has]
  cases answer with
  | data e info discontinuity =>
      obtain ⟨-, hlt, -, hkind⟩ := hanswer
      exact ⟨hpast hlt, fun i h1 h2 => hkind i h1 (hbefore h2)⟩
  | missing e =>
      obtain ⟨hlt, -, hkind⟩ := hanswer
      exact ⟨hpast hlt, fun i h1 h2 => hkind i h1 (hbefore h2)⟩
  | evicted u =>
      obtain ⟨hlt, rfl⟩ := hanswer
      exact ⟨hpast hlt, fun i h1 h2 => if_pos (hbefore h2)⟩
  | unknown next =>
      cases next with
      | none => exact ⟨lt_min hpos hpos, fun i h1 _ => hanswer i h1⟩
      | some next =>
          obtain ⟨hlt, -, hkind⟩ := hanswer
          exact ⟨hpast hlt, fun i h1 h2 => hkind i h1 (hbefore h2)⟩

/-- The pieces of a read, one after the other. -/
theorem segmentsFrom (h : Refines stream b w) {stop fuel pos : ℕ} (hfuel : stop - pos ≤ fuel) :
    Covering stop pos (b.segmentsFrom stop fuel pos) ∧
      ∀ s ∈ b.segmentsFrom stop fuel pos, w.Has s := by
  induction fuel generalizing pos with
  | zero => exact ⟨by simp only [EpochBuffer.segmentsFrom, Covering]; omega, by
      simp [EpochBuffer.segmentsFrom]⟩
  | succ fuel ih =>
      rw [EpochBuffer.segmentsFrom]
      by_cases hpos : pos < stop
      · obtain ⟨hlt, hhas⟩ := h.pieceAt hpos
        obtain ⟨hcover, hall⟩ := @ih (min (b.pieceAt stop pos).1 stop) (by omega)
        rw [if_pos hpos]
        refine ⟨⟨rfl, hlt, min_le_right _ _, hcover⟩, ?_⟩
        intro s hs
        rcases List.mem_cons.mp hs with rfl | hs
        · exact hhas
        · exact hall s hs
      · rw [if_neg hpos]
        exact ⟨not_lt.mp hpos, by simp⟩

/-- **Segments** partition a span, and say of each record what the window has. -/
theorem segments (h : Refines stream b w) (span : Span) :
    Covering span.end span.start (b.segments span) ∧ ∀ s ∈ b.segments span, w.Has s :=
  h.segmentsFrom le_rfl

/-- **Copies** of a held span are the window's values. -/
theorem copied (h : Refines stream b w) {span : Span}
    (hheld : ∀ i, span.start / w.unit ≤ i → i < span.end / w.unit → (w.value i).isSome) :
    (b.copied span stream).map some = (List.range' (span.start / w.unit)
      (span.end / w.unit - span.start / w.unit)).map w.value := by
  have hunit : b.unit = w.unit := h.index.unit_eq
  have hslots : ∀ {T : Type} {rec : T → Record} {ring : List T} (fill : T), Rings rec ring w →
      (((b.slots span).map fun i => ring.getD i fill).map rec).map some =
        (List.range' (span.start / w.unit)
          (span.end / w.unit - span.start / w.unit)).map w.value := by
    intro T rec ring fill hring
    rw [EpochBuffer.slots, hunit, h.index.capacity_eq, List.map_map, List.map_map, List.map_map]
    refine List.map_congr_left fun i hi => ?_
    rw [List.mem_range'_1] at hi
    obtain ⟨r, hr⟩ := Option.isSome_iff_exists.mp (hheld i hi.1 (by omega))
    have hslot := hring.slot i r hr
    obtain ⟨v, hv, hrec⟩ := Option.map_eq_some_iff.mp hslot
    simp [List.getD_eq_getElem?_getD, hv, hrec, hr]
  have hrec := h.records
  cases stream <;> cases hb : b.records <;> rw [hb] at hrec <;> first
    | exact hrec.elim
    | (simp only [EpochBuffer.copied, EpochBuffer.copyPcm, EpochBuffer.copyCells,
        EpochBuffer.copyAfe, hb]
       exact hslots _ hrec)

end Refines

/-- A second copy of a sample, a missing report over it, and a sample far beyond. -/
def overlap : List BufferOp :=
  [.store (micPacket 0 5 (by decide)), .store (micPacket 1 5 (by decide)),
   .markMissing ⟨0, 7⟩, .store (micPacket 2 20 (by decide))]

end EchoMuse.Uplink
