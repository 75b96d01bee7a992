import EchoMuse.Uplink.Operations
import EchoMuse.Uplink.Reads

/-!
# What an Operation Does to a Cursor

Whatever the operations do to a cursor is a sequence of small changes. `Serves` says what a
change may be: the chunks queued for the cursor form a chain from its position to the position
it has afterwards. The lemmas here prove it for everything the source does to a cursor.

## Main results

* `Timeline.Sound`: every buffer of a timeline refines a window;
* `release_serves`: a release queues a chain of chunks, each as the buffer has it;
* `Serves.attribute`, `Serves.onPacket`, `Serves.report`, `Serves.giveUp`: the other changes.
-/

namespace EchoMuse.Uplink

open EchoMuse.Ema EchoMuse.Streams EchoMuse.Intervals EchoMuse.Traverse

/-! ### Sound timelines -/

/-- Every buffer of the timeline refines a window. -/
def Timeline.Sound (t : Timeline) : Prop :=
  ∀ stream, ∀ e ∈ t.stores stream, ∃ w, Refines stream e.buffer w

namespace Timeline

theorem get_mem {t : Timeline} {stream : StreamId} {epoch : UInt64} {held : EpochStream}
    (h : t.get stream epoch = some held) : held ∈ t.stores stream ∧ held.epoch = epoch :=
  ⟨List.mem_of_find?_eq_some h, by simpa using List.find?_some h⟩

namespace Sound

variable {t : Timeline}

theorem new (config : UplinkConfig) : (Timeline.new config).Sound :=
  fun _ _ h => by cases h

theorem get (h : t.Sound) {stream : StreamId} {epoch : UInt64} {held : EpochStream}
    (hget : t.get stream epoch = some held) : ∃ w, Refines stream held.buffer w :=
  h stream held (get_mem hget).1

theorem setStore (h : t.Sound) {stream : StreamId} {store : List EpochStream}
    (hstore : ∀ e ∈ store, ∃ w, Refines stream e.buffer w) : (t.setStore stream store).Sound := by
  intro s e he
  simp only [Timeline.setStore] at he
  split_ifs at he with hs
  · subst hs
    exact hstore e he
  · exact h s e he

theorem set (h : t.Sound) {stream : StreamId} {held : EpochStream}
    (hheld : ∃ w, Refines stream held.buffer w) : (t.set stream held).Sound := by
  refine h.setStore fun e he => ?_
  have hrel := updateFirst_rel (R := fun _ e' => ∃ w, Refines stream e'.buffer w)
    (p := (·.epoch = held.epoch)) (f := fun _ s => (held, s)) (h stream)
    (fun _ _ _ _ => hheld) ()
  obtain ⟨_, -, hw⟩ := exists_of_mem_forall₂ hrel he
  exact hw

theorem ensure (h : t.Sound) (stream : StreamId) (epoch : UInt64) :
    (t.ensure stream epoch).Sound := by
  simp only [Timeline.ensure]
  split_ifs
  · exact h
  · refine h.setStore fun e he => ?_
    rcases List.mem_append.mp he with he | he
    · exact h stream e (List.mem_of_mem_drop he)
    · rw [List.mem_singleton] at he
      subst he
      exact ⟨_, Refines.new stream _ _⟩

theorem dropClaims (h : t.Sound) (key : SubKey) : (t.dropClaims key).Sound := by
  intro s e he
  obtain ⟨e', he', rfl⟩ := List.mem_map.mp he
  exact h s e' he'

theorem foldl_dropClaims {α : Type} (key : α → SubKey) (as : List α) {t : Timeline}
    (h : t.Sound) : (as.foldl (fun t a => t.dropClaims (key a)) t).Sound := by
  induction as generalizing t with
  | nil => exact h
  | cons a as ih => exact ih (h.dropClaims (key a))

theorem erase (t : Timeline) : t.erase.Sound := by
  intro s e he
  simp only [Timeline.erase] at he
  split_ifs at he
  · obtain ⟨e', -, rfl⟩ := List.mem_map.mp he
    exact ⟨_, Refines.new s _ _⟩
  · cases he

theorem clear (t : Timeline) : t.clear.Sound :=
  fun _ _ h => by cases h

end Sound

end Timeline

/-- A packet starts on its stream's record grid. -/
theorem samplesPerFrame_dvd (p : Packet) :
    p.header.kind.samplesPerFrame ∣ p.header.firstSample.toNat := by
  have hok := p.header_ok
  rw [Header.check] at hok
  split_ifs at hok
  have hvalid := RawHeader.check_eq_ok_iff.mp hok
  cases hkind : p.header.kind with
  | cells => exact hvalid.cellAlignment hkind
  | afe => exact hvalid.afeAlignment hkind
  | mic => exact one_dvd _
  | reference => exact one_dvd _
  | render => exact one_dvd _

/-- The missing range a track finds ends where the packet starts. -/
theorem Track.end_of_missing {t : Track} {first stop : ℕ} {discontinuity : Bool} {span : Span}
    (h : (t.classify first stop discontinuity).2.missing = some span) : span.end = first := by
  rw [classify] at h
  split at h
  · split_ifs at h with hlt
    · rw [back] at h
      split at h
      · dsimp only at h
        split_ifs at h
        rw [← Option.some.inj h]
      · cases h
    · simp only [forward] at h
      split at h
      · split_ifs at h
        rw [← Option.some.inj h]
      · cases h
  · simp only [forward] at h
    split at h
    · split_ifs at h
      rw [← Option.some.inj h]
    · cases h

/-- Placing a packet keeps the buffer a refinement. -/
theorem refines_place {stream : StreamId} {held : EpochStream} {packet : Packet}
    (h : ∃ w, Refines stream held.buffer w) (hkind : packet.header.kind = stream.kind)
    (wanted : Bool) : ∃ w, Refines stream (place held packet wanted).1.buffer w := by
  obtain ⟨w, hw⟩ := h
  have hmissing : ∀ span, (held.track.classify packet.header.firstSample.toNat
      packet.endSample.toNat (packet.header.flags.contains Flags.DISCONTINUITY)).2.missing =
        some span → ∃ w', Refines stream (held.buffer.markMissing span) w' := by
    intro span hspan
    have hend := Track.end_of_missing hspan
    refine ⟨_, hw.markMissing ?_⟩
    -- the span ends at the packet's first sample, which is on the grid
    obtain ⟨k, hk⟩ := samplesPerFrame_dvd packet
    have hpos := samplesPerFrame_pos stream
    have hlt := packet.header.firstSample.toNat_lt
    rw [hkind, ← hw.unit_eq] at hk
    rw [← hw.unit_eq] at hpos
    have hdiv : (w.unit * k + w.unit - 1) / w.unit = k := by
      rw [Nat.add_sub_assoc hpos, Nat.mul_add_div hpos, Nat.div_eq_of_lt (by omega),
        Nat.add_zero]
    rw [hend, hk, hdiv, Nat.mul_comm, ← hk, U64_MAX]
    omega
  simp only [place]
  cases hspan : (held.track.classify packet.header.firstSample.toNat packet.endSample.toNat
      (packet.header.flags.contains Flags.DISCONTINUITY)).2.missing with
  | none =>
      split_ifs
      · exact ⟨_, (hw.store hkind).1⟩
      · exact ⟨w, hw⟩
  | some span =>
      obtain ⟨w', hw'⟩ := hmissing span hspan
      split_ifs
      · exact ⟨_, (hw'.store hkind).1⟩
      · exact ⟨w', hw'⟩

/-! ### One cursor -/

/-- The chunks follow each other from position `p` to position `q`, none of them empty. -/
inductive Chain : Option ℕ → List Chunk → Option ℕ → Prop
  | nil (p : Option ℕ) : Chain p [] p
  | cons {c : Chunk} {cs : List Chunk} {q : Option ℕ} (hlt : c.span.start < c.span.end)
      (hrest : Chain (some c.span.end) cs q) : Chain (some c.span.start) (c :: cs) q

namespace Chain

variable {p q r : Option ℕ} {cs ds : List Chunk}

theorem append (h : Chain p cs q) (h' : Chain q ds r) : Chain p (cs ++ ds) r := by
  induction h with
  | nil => exact h'
  | cons hlt _ ih => exact Chain.cons hlt (ih h')

/-- The chunks up to any point of a chain are a chain. -/
theorem of_append (h : Chain p (cs ++ ds) r) : ∃ q, Chain p cs q := by
  induction cs generalizing p with
  | nil => exact ⟨p, Chain.nil p⟩
  | cons c cs ih =>
      cases h with
      | cons hlt hrest =>
          obtain ⟨q, hq⟩ := ih hrest
          exact ⟨q, Chain.cons hlt hq⟩

/-- A chain that ends nowhere started nowhere. -/
theorem eq_of_none (h : Chain p cs none) : p = none ∧ cs = [] := by
  induction cs generalizing p with
  | nil =>
      cases h
      exact ⟨rfl, rfl⟩
  | cons c cs ih =>
      cases h with
      | cons hlt hrest => cases (ih hrest).1

end Chain

/-- What a cursor keeps to: before its packets come in order it has a position exactly when
its start sample is known. -/
structure Cursor.Ready (c : Cursor) : Prop where
  waits : c.mode ≠ .ordered → (∀ x, c.start ≠ .at x) → c.pos = none
  live : c.mode = .awaitLive → ∀ x, c.start ≠ .at x
  known : c.pos = none → ∀ x, c.start ≠ .at x

/-- What may become of a cursor while `new` is queued for it: the chunks go on from its
position, or from the first one it takes, to the position it has afterwards, and each has the
property `Q`. -/
structure Serves (Q : Chunk → Prop) (id : SubscriptionId) (stream : StreamId) (c : Cursor)
    (new : List Chunk) (c' : Cursor) : Prop where
  epoch : c'.epoch = c.epoch
  start : c'.start = c.start
  ready : c'.Ready
  chain : ∃ p, (∀ x, c.pos = some x → p = some x) ∧ Chain p new c'.pos
  chunks : ∀ ch ∈ new, ch.subscription = id ∧ ch.stream = stream ∧ ch.epoch = c.epoch ∧ Q ch

namespace Serves

variable {Q : Chunk → Prop} {id : SubscriptionId} {stream : StreamId} {c c' c'' : Cursor}
  {new new' : List Chunk}

/-- A change that queues nothing: the position stays, or is found. -/
theorem of_pos (hepoch : c'.epoch = c.epoch) (hstart : c'.start = c.start) (hready : c'.Ready)
    (hpos : ∀ x, c.pos = some x → c'.pos = some x) : Serves Q id stream c [] c' where
  epoch := hepoch
  start := hstart
  ready := hready
  chain := ⟨c'.pos, hpos, Chain.nil _⟩
  chunks := by simp

theorem refl (h : c.Ready) : Serves Q id stream c [] c :=
  of_pos rfl rfl h fun _ hx => hx

/-- One chunk that starts at the cursor's position. -/
theorem of_chunk (ch : Chunk) {pos : ℕ} (hpos : c.pos = some pos) (hstart : ch.span.start = pos)
    (hlt : ch.span.start < ch.span.end) (hready : c.Ready)
    (hch : ch.subscription = id ∧ ch.stream = stream ∧ ch.epoch = c.epoch ∧ Q ch)
    (stalled : Option ℕ) :
    Serves Q id stream c [ch] { c with pos := some ch.span.end, stalledSince := stalled } where
  epoch := rfl
  start := rfl
  ready :=
    { waits := fun hmode hat => by rw [hready.waits hmode hat] at hpos; cases hpos
      live := hready.live
      known := fun h => by cases h }
  chain := by
    refine ⟨some ch.span.start, fun x hx => ?_, Chain.cons hlt (Chain.nil _)⟩
    rw [hstart, ← hpos, hx]
  chunks := by
    intro ch' hch'
    rw [List.mem_singleton] at hch'
    rw [hch']
    exact hch

theorem trans (h : Serves Q id stream c new c') (h' : Serves Q id stream c' new' c'') :
    Serves Q id stream c (new ++ new') c'' where
  epoch := h'.epoch.trans h.epoch
  start := h'.start.trans h.start
  ready := h'.ready
  chain := by
    obtain ⟨p, hp, hchain⟩ := h.chain
    obtain ⟨p', hp', hchain'⟩ := h'.chain
    cases hpos : c'.pos with
    | some x =>
        rw [hpos, ← hp' x hpos] at hchain
        exact ⟨p, hp, hchain.append hchain'⟩
    | none =>
        -- nothing was queued before the position was found
        rw [hpos] at hchain
        obtain ⟨rfl, rfl⟩ := hchain.eq_of_none
        refine ⟨p', fun x hx => ?_, hchain'⟩
        cases hp x hx
  chunks := by
    intro ch hch
    rcases List.mem_append.mp hch with hch | hch
    · exact h.chunks ch hch
    · rw [← h.epoch]
      exact h'.chunks ch hch

theorem imp {Q' : Chunk → Prop} (hQ : ∀ ch, Q ch → Q' ch) (h : Serves Q id stream c new c') :
    Serves Q' id stream c new c' :=
  { h with
    chunks := fun ch hch =>
      ⟨(h.chunks ch hch).1, (h.chunks ch hch).2.1, (h.chunks ch hch).2.2.1,
        hQ ch (h.chunks ch hch).2.2.2⟩ }

end Serves

/-! ### Releasing -/

/-- The buffer a release reads from refines a window. -/
def Source.Sound (s : Source) : Prop :=
  ∃ w, Refines s.stream s.buffer w

/-- A data chunk is cut out of the buffer: its span is a stretch of held data, and its records
are the buffer's. -/
def Source.Cuts (s : Source) (ch : Chunk) : Prop :=
  ∀ info d data, ch.body = .data info d data →
    s.buffer.lookup ch.span.start = .data ch.span.end info d ∧
      data = s.buffer.chunkData ch.span info s.packet

/-- A lookup's answer lies past its position. -/
theorem Refines.lt_of_lookup {stream : StreamId} {b : EpochBuffer} {w : Window}
    (h : Refines stream b w) {pos stop : ℕ} :
    (∀ info d, b.lookup pos = .data stop info d → pos < stop) ∧
      (b.lookup pos = .missing stop → pos < stop) ∧
      (b.lookup pos = .evicted stop → pos < stop) ∧
      (b.lookup pos = .unknown (some stop) → pos < stop) := by
  obtain ⟨answer, hanswer, hlookup⟩ := h.lookup pos
  have hunit : 0 < w.unit := h.unit_eq ▸ samplesPerFrame_pos stream
  have hpast : ∀ {e}, pos / w.unit < e → pos < e * w.unit :=
    fun he => (Nat.div_lt_iff_lt_mul hunit).mp he
  rw [hlookup]
  refine ⟨fun info d h => ?_, fun h => ?_, fun h => ?_, fun h => ?_⟩
  · cases answer with
    | data e info' d' =>
        simp only [Lookup.scaled, Lookup.data.injEq] at h
        rw [← h.1]
        exact hpast hanswer.2.1
    | missing e => cases h
    | evicted u => cases h
    | unknown next => cases h
  · cases answer with
    | data e info' d' => cases h
    | missing e =>
        simp only [Lookup.scaled, Lookup.missing.injEq] at h
        rw [← h]
        exact hpast hanswer.1
    | evicted u => cases h
    | unknown next => cases h
  · cases answer with
    | data e info' d' => cases h
    | missing e => cases h
    | evicted u =>
        simp only [Lookup.scaled, Lookup.evicted.injEq] at h
        rw [← h]
        exact hpast hanswer.1
    | unknown next => cases h
  · cases answer with
    | data e info' d' => cases h
    | missing e => cases h
    | evicted u => cases h
    | unknown next =>
        cases next with
        | none => cases h
        | some next =>
            simp only [Lookup.scaled, Option.map_some, Lookup.unknown.injEq,
              Option.some.injEq] at h
            rw [← h]
            exact hpast hanswer.1

/-- A piece of a release lies past its position, and its data is the buffer's. -/
theorem Source.of_pace {s : Source} (hs : s.Sound) {c : Cursor} {pos holeWait now stop : ℕ}
    {body : ChunkBody} (h : s.pace c pos holeWait now = .release stop body) :
    pos < stop ∧ ∀ info d data, body = .data info d data →
      s.buffer.lookup pos = .data stop info d ∧
        data = s.buffer.chunkData ⟨pos, stop⟩ info s.packet := by
  obtain ⟨w, hw⟩ := hs
  have hlt := fun stop => @Refines.lt_of_lookup s.stream s.buffer w hw pos stop
  rw [pace] at h
  split at h
  · rename_i e info d hlookup
    injection h with hstop hbody
    subst hstop
    refine ⟨(hlt e).1 info d hlookup, ?_⟩
    rintro info' d' data rfl
    injection hbody with h1 h2 h3
    subst h1 h2 h3
    exact ⟨hlookup, rfl⟩
  · rename_i e hlookup
    injection h with hstop hbody
    subst hstop
    exact ⟨(hlt e).2.1 hlookup, fun _ _ _ h => by rw [← hbody] at h; cases h⟩
  · rename_i e hlookup
    injection h with hstop hbody
    subst hstop
    exact ⟨(hlt e).2.2.1 hlookup, fun _ _ _ h => by rw [← hbody] at h; cases h⟩
  · rename_i next hlookup
    have hknown : ∀ e, pos < e → pos < next.elim e (min e) := by
      intro e he
      cases next with
      | none => exact he
      | some n => exact lt_min he ((hlt n).2.2.2 hlookup)
    dsimp only at h
    split_ifs at h with hsettled
    · injection h with hstop hbody
      subst hstop
      exact ⟨hknown _ hsettled, fun _ _ _ h => by rw [← hbody] at h; cases h⟩
    · split at h
      · rename_i gone hgone
        injection h with hstop hbody
        subst hstop
        have hpast := Option.filter_eq_some_iff.mp hgone
        exact ⟨hknown _ (by simpa using hpast.2), fun _ _ _ h => by rw [← hbody] at h; cases h⟩
      · split at h
        · cases h
        · cases h
        · rename_i limit since hlimit _
          split_ifs at h
          injection h with hstop hbody
          subst hstop
          refine ⟨?_, fun _ _ _ h => by rw [← hbody] at h; cases h⟩
          cases next with
          | none =>
              rw [Option.none_or] at hlimit
              simpa using (Option.filter_eq_some_iff.mp hlimit).2
          | some n =>
              rw [Option.some_or, Option.some.injEq] at hlimit
              exact hlimit ▸ (hlt n).2.2.2 hlookup

theorem Outbox.push_queue (o : Outbox) (d : Delivery) : (o.push d).1.queue = o.queue ++ [d] := rfl

/-- **What a release queues**: a chain of chunks from the cursor's position to the one it has
afterwards, each cut out of the buffer. -/
theorem Source.releaseFrom_serves {s : Source} (hs : s.Sound) (id : SubscriptionId)
    (generation : Generation) (holeWait now fuel : ℕ) {c : Cursor} (hepoch : s.epoch = c.epoch)
    (hready : c.Ready) (o : Outbox) :
    ∃ new, (s.releaseFrom id generation holeWait now fuel c o).2.1.queue =
        o.queue ++ new.map .chunk ∧
      Serves s.Cuts id s.stream c new (s.releaseFrom id generation holeWait now fuel c o).1 := by
  induction fuel generalizing c o with
  | zero => exact ⟨[], by simp [releaseFrom], Serves.refl hready⟩
  | succ fuel ih =>
      rw [releaseFrom]
      split
      · exact ⟨[], by simp, Serves.refl hready⟩
      · rename_i pos hpos
        split
        · exact ⟨[], by simp, Serves.of_pos rfl rfl ⟨hready.waits, hready.live, hready.known⟩
            fun _ hx => hx⟩
        · rename_i stop body hpace
          obtain ⟨hlt, hcut⟩ := of_pace hs hpace
          set chunk : Chunk := ⟨id, generation, s.stream, s.epoch, ⟨pos, stop⟩, body⟩
          have hone : Serves s.Cuts id s.stream c [chunk]
              { c with pos := some chunk.span.end, stalledSince := none } :=
            Serves.of_chunk chunk hpos rfl hlt hready ⟨rfl, rfl, hepoch, hcut⟩ none
          dsimp only
          split_ifs
          · obtain ⟨new, hnew, hserves⟩ := ih (by exact hepoch) hone.ready (o.push (.chunk chunk)).1
            refine ⟨[chunk] ++ new, ?_, hone.trans hserves⟩
            rw [hnew, Outbox.push_queue, List.map_append, List.append_assoc]
            rfl
          · exact ⟨[chunk], rfl, hone⟩

theorem release_serves {s : Source} (hs : s.Sound) (id : SubscriptionId)
    (generation : Generation) (holeWait now : ℕ) {c : Cursor} (hepoch : s.epoch = c.epoch)
    (hready : c.Ready) (o : Outbox) :
    ∃ new, (release s id generation holeWait now c o).2.1.queue = o.queue ++ new.map .chunk ∧
      Serves s.Cuts id s.stream c new (release s id generation holeWait now c o).1 :=
  Source.releaseFrom_serves hs id generation holeWait now _ hepoch hready o

/-! ### The other changes of a cursor -/

theorem Cursor.settle_eq (c : Cursor) (below : ℕ) (cause : MissingCause) :
    (c.settle below cause).epoch = c.epoch ∧ (c.settle below cause).start = c.start ∧
      (c.settle below cause).mode = c.mode ∧ (c.settle below cause).pos = c.pos := by
  simp only [settle]
  split_ifs <;> exact ⟨rfl, rfl, rfl, rfl⟩

theorem Cursor.Ready.new (epoch : UInt64) (start : StartSpec) : (Cursor.new epoch start).Ready := by
  cases start with
  | «at» sample => exact ⟨fun _ h => absurd rfl (h sample), nofun, nofun⟩
  | live => exact ⟨fun _ _ => rfl, fun _ _ => nofun, fun _ _ => nofun⟩
  | mapped => exact ⟨fun _ _ => rfl, nofun, fun _ _ => nofun⟩

/-- A cursor that has its position, or found one, and whose packets now come in order. -/
theorem Cursor.Ready.ordered {c : Cursor} (hmode : c.mode = .ordered)
    (hknown : c.pos = none → ∀ x, c.start ≠ .at x) : c.Ready where
  waits := fun h => absurd hmode h
  live := fun h => by rw [hmode] at h; cases h
  known := hknown

namespace Serves

variable {Q : Chunk → Prop} {id : SubscriptionId} {stream : StreamId} {c : Cursor}

theorem settle (h : c.Ready) (below : ℕ) (cause : MissingCause) :
    Serves Q id stream c [] (c.settle below cause) := by
  obtain ⟨hepoch, hstart, hmode, hpos⟩ := c.settle_eq below cause
  refine of_pos hepoch hstart ⟨?_, ?_, ?_⟩ fun x hx => hpos.trans hx
  · rw [hmode, hstart, hpos]
    exact h.waits
  · rw [hmode, hstart]
    exact h.live
  · rw [hpos, hstart]
    exact h.known

/-- A run start tells the cursor where it begins, or that no run comes. -/
theorem «attribute» (h : c.Ready) (a : Attribution) (on : StreamId) :
    Serves Q id stream c [] (c.«attribute» a on) := by
  rw [Cursor.attribute.eq_def]
  split_ifs with hmode
  · exact refl h
  · have hwaits : (∀ x, c.start ≠ .at x) → c.pos = none := by
      refine h.waits ?_
      rw [not_not.mp hmode]
      exact fun h => by cases h
    split
    · -- a run for a cursor at a sample
      dsimp only
      rename_i start _ _
      split_ifs
      · have hs : Serves Q id stream c [] (c.settle start .clipped) := settle h start .clipped
        exact hs.trans (of_pos rfl rfl (Cursor.Ready.ordered rfl hs.ready.known) fun _ hx => hx)
      · exact of_pos rfl rfl (Cursor.Ready.ordered rfl h.known) fun _ hx => hx
    · rename_i hat
      refine of_pos rfl rfl (Cursor.Ready.ordered rfl fun h => by cases h) fun x hx => ?_
      rw [hwaits fun x hx => hat x hx] at hx
      cases hx
    · exact of_pos rfl rfl (Cursor.Ready.ordered rfl h.known) fun _ hx => hx
    · rename_i hat
      have hnone := hwaits fun x hx => hat x hx
      exact of_pos rfl rfl ⟨fun _ _ => hnone, fun _ x hx => hat x hx, h.known⟩ fun _ hx => hx

/-- A packet tells the cursor where the live position is, or settles what was not sent. -/
theorem onPacket (h : c.Ready) (path : Path) (first : ℕ) (own : SubKey) (on : StreamId) :
    Serves Q id stream c [] (c.onPacket path first own on) := by
  rw [Cursor.onPacket]
  split
  · rename_i hmode
    split_ifs
    · refine of_pos rfl rfl (Cursor.Ready.ordered rfl fun h => by cases h) fun x hx => ?_
      rw [h.waits (by rw [hmode]; exact fun h => by cases h) (h.live hmode)] at hx
      cases hx
    · exact refl h
  · split_ifs
    · split
      · split_ifs
        · exact settle h _ _
        · exact refl h
      · exact refl h
    · exact refl h
  · exact refl h

/-- What an `uplink.ended` tells the newest cursor of a stream. -/
theorem report (h : c.Ready) (report : UplinkEnded) (on : StreamId) :
    Serves Q id stream c [] (reportCursor report on c) := by
  have htarget : ∀ t, Serves Q id stream c [] { c with target := t } :=
    fun t => of_pos rfl rfl ⟨h.waits, h.live, h.known⟩ fun _ hx => hx
  simp only [reportCursor]
  set t := Option.map _ _
  split
  · rename_i clipped _
    split
    · have hs := (htarget t).trans (settle (htarget t).ready clipped .clipped)
      exact hs.trans (of_pos rfl rfl (Cursor.Ready.ordered rfl hs.ready.known) fun _ hx => hx)
    · rename_i hpos
      refine of_pos rfl rfl (Cursor.Ready.ordered rfl fun h => by cases h) fun x hx => ?_
      rw [show c.pos = none from hpos] at hx
      cases hx
  · exact htarget t

/-- What a drain that ran out declares missing. -/
theorem giveUp (h : c.Ready) (sub : Sub) (o : Outbox)
    (hQ : ∀ ch : Chunk, ch.body = .missing .timedOut → Q ch) :
    ∃ new, (giveUpCursor sub stream c o).2.queue = o.queue ++ new.map .chunk ∧
      Serves Q sub.id stream c new (giveUpCursor sub stream c o).1 := by
  rw [giveUpCursor]
  split
  · rename_i pos target hpos _
    split_ifs with hle
    · exact ⟨[], by simp, refl h⟩
    · set chunk : Chunk :=
        ⟨sub.id, sub.generation, stream, c.epoch, ⟨pos, target⟩, .missing .timedOut⟩
      exact ⟨[chunk], rfl,
        of_chunk chunk hpos rfl (not_le.mp hle) h ⟨rfl, rfl, rfl, hQ _ rfl⟩ c.stalledSince⟩
  · exact ⟨[], by simp, refl h⟩

end Serves

end EchoMuse.Uplink
