import EchoMuse.Uplink.Moves

/-!
# The Operations as Moves

What each operation of an `Uplink` that opens nothing does to the desk: the moves of `Moves`
put together as the source does.

## Main results

* `ingest_cases`: what a packet changes;
* `Moves.ingest`, `Moves.streamEnded`, `Moves.deviceEnded`, `Moves.poll`: the operations that
  release audio.
-/

namespace EchoMuse.Uplink

open EchoMuse.Ema EchoMuse.Streams EchoMuse.Intervals EchoMuse.Traverse
open Relation

variable {Q : Chunk → Prop} {E : List UInt64} {D : Prop}

theorem StreamId.kind_of_ofKind {kind : Kind} {stream : StreamId}
    (h : StreamId.ofKind kind = some stream) : kind = stream.kind := by
  cases kind <;> cases h <;> rfl

/-! ### Device reports -/

namespace Moves

theorem reportWant {sub : Sub} (hsub : sub.Ready) (report : UplinkEnded) (phase : Phase)
    (pre post : List Sub) (queue : List Delivery) :
    Moves Q E D ⟨pre ++ sub :: post, queue⟩
      ⟨pre ++ { sub with wants := sub.wants.map (reportWant report), phase := phase } :: post,
        queue⟩ := by
  have hwants : Moves Q E D ⟨pre ++ sub :: post, queue⟩
      ⟨pre ++ { sub with wants := sub.wants.map (Uplink.reportWant report) } :: post, queue⟩ := by
    refine map_steps (fun wants => (⟨pre ++ { sub with wants := wants } :: post, queue⟩ : Desk))
      (fun w hw before behind => ?_) []
    -- only the newest epoch's cursor is reported on
    rcases List.eq_nil_or_concat w.cursors with hnil | ⟨cs, c, hcs⟩
    · have hsame : Uplink.reportWant report w = w := by
        rw [Uplink.reportWant, hnil, List.modify_nil, ← hnil]
      rw [hsame]
    · have hc : c.Ready := hsub w hw c (by rw [hcs]; simp)
      have hreported : Serves Q sub.id w.stream c [] (reportCursor report w.stream c) :=
        Serves.report hc report w.stream
      have hquiet := quiet (E := E) (D := D) hreported pre post before behind cs [] queue
      have hlast : Uplink.reportWant report w =
          { w with cursors := cs ++ [reportCursor report w.stream c] } := by
        simp [Uplink.reportWant, hcs, List.modify_eq_take_drop]
      rw [hlast]
      have hw : w = { w with cursors := cs ++ [c] } := by
        rw [← List.concat_eq_append, ← hcs]
      rw [hw]
      exact hquiet
  exact hwants.tail (Move.note pre post queue rfl rfl)

theorem deviceEnded {u : Uplink} (ht : u.timeline.Sound) (hu : ∀ s ∈ u.subs, s.Ready)
    (hQ : ∀ ch, Q ch) (report : UplinkEnded) (now : ℕ) (hdrops : report.reason = .mute → D) :
    Moves Q E D (desk u) (desk (u.deviceEnded report now)) := by
  simp only [Uplink.deviceEnded]
  split_ifs with hzombie
  · exact ReflTransGen.refl
  split
  · exact ReflTransGen.refl
  · rename_i sub hsub
    by_cases hactive : sub.phase.isActive = true
    · rw [if_neg (not_not.mpr hactive)]
      let draining : Sub :=
        { sub with
          wants := sub.wants.map (Uplink.reportWant report)
          phase := .draining report (after now u.config.holeWait) }
      let v : Uplink :=
        { u with subs := u.subs.set (u.subs.findIdx (·.id.text = report.subscriptionId)) draining }
      have hdrain : Moves Q E D (desk u) (desk ((v.releaseAll now).settleSubs now)) := by
        obtain ⟨pre, post, hsubs, -, hset⟩ := exists_around_of_getElem? hsub
        have hreport := reportWant (Q := Q) (E := E) (D := D)
          (hu sub (List.mem_of_getElem? hsub)) report
          (.draining report (after now u.config.holeWait)) pre post u.outbox.queue
        rw [← hsubs, ← hset] at hreport
        have hrelease : Moves Q E D (desk u) (desk (v.releaseAll now)) :=
          hreport.trans (releaseAll (u := v) hQ ht (hreport.ready hu) now)
        exact hrelease.trans (settleSubs (fun ch _ => hQ ch) (hrelease.ready hu) now)
      cases hreason : report.reason with
      | mute =>
          obtain ⟨pre, post, hsubs, herase, -⟩ := exists_around_of_getElem? hsub
          dsimp only
          rw [desk_endSub, herase, desk, hsubs]
          exact ReflTransGen.single (Move.drop pre post sub _ u.outbox.queue (hdrops hreason) rfl)
      | epoch => exact endSub hsub (.device report) .gone now
      | session => exact endSub hsub (.device report) .gone now
      | closed => exact hdrain
      | ttl => exact hdrain
      | overrun => exact hdrain
    · rw [if_pos hactive]

/-! ### Packets -/

/-- What a packet's run starts tell the subscriptions. -/
theorem attributeTo {stream : StreamId} {epoch : UInt64} (attributed : List (SubKey × Attribution))
    {subs : List Sub} (hu : ∀ s ∈ subs, s.Ready) (queue : List Delivery) :
    Moves Q E D ⟨subs, queue⟩ ⟨attributed.foldl (attributeTo stream epoch) subs, queue⟩ := by
  induction attributed generalizing subs with
  | nil => exact ReflTransGen.refl
  | cons a attributed ih =>
      have hone : Moves Q E D ⟨subs, queue⟩
          ⟨Uplink.attributeTo stream epoch subs a, queue⟩ := by
        refine updateFirst_steps (fun subs (_ : Unit) => (⟨subs, queue⟩ : Desk))
          (fun sub hsub _ pre post _ => ?_) [] ()
        refine findCursor_steps (fun wants (_ : Unit) =>
          (⟨pre ++ { sub with wants := wants } :: post, queue⟩ : Desk))
          (fun w hw hstream c hc _ before behind cs ds _ => ?_) ()
        exact quiet (Serves.attribute (hu sub hsub w hw c hc) a.2 stream) pre post before behind
          cs ds queue
      exact hone.trans (ih (hone.ready hu))

/-- A packet for one subscription. -/
theorem packetTo {source : Source} (hs : source.Sound) (hQ : ∀ ch, source.Cuts ch → Q ch)
    {sub : Sub} (hsub : sub.Ready) (path : Path) (first holeWait now : ℕ) (pre post : List Sub)
    (o : Outbox) :
    Moves Q E D ⟨pre ++ sub :: post, o.queue⟩
      ⟨pre ++ (packetTo source path first holeWait now sub o).1 :: post,
        (packetTo source path first holeWait now sub o).2.queue⟩ := by
  refine findCursor_steps (Desk.around pre sub post)
    (fun w hw hstream c hc hepoch before behind cs ds s => ?_) (o, sub.overflowed)
  exact release hs hQ hstream.symm hepoch.symm sub
    (Serves.onPacket (hsub w hw c hc) path first sub.key source.stream) pre post before behind
    cs ds holeWait now s

end Moves

/-- What the releases read from when a packet of a held epoch arrives. -/
def arriving (u : Uplink) (stream : StreamId) (held : EpochStream) (packet : Packet) : Source :=
  let placed := place held packet (u.subs.any (·.wantsOn stream packet.header.epoch))
  ⟨placed.1.buffer, placed.1.track.liveEnd, some packet, stream, placed.1.epoch⟩

/-- The uplink a packet of a held epoch leaves, before what is finished ends. -/
def received (u : Uplink) (stream : StreamId) (held : EpochStream) (packet : Packet) (now : ℕ) :
    Uplink :=
  let placed := place held packet (u.subs.any (·.wantsOn stream packet.header.epoch))
  let r := mapState (packetTo (u.arriving stream held packet) placed.2.1.path
    packet.header.firstSample.toNat u.config.holeWait now)
    (placed.2.1.attributed.foldl (attributeTo stream packet.header.epoch) u.subs) u.outbox
  { u with timeline := u.timeline.set stream placed.1, subs := r.1, outbox := r.2 }

/-- A packet changes nothing, or it is a packet of a held epoch that was not erased. -/
theorem ingest_cases (u : Uplink) (packet : Packet) (now : ℕ) :
    (u.ingest packet now).1 = u ∨ ∃ stream held,
      StreamId.ofKind packet.header.kind = some stream ∧
      u.timeline.isErased stream packet.header.epoch = false ∧
      u.timeline.get stream packet.header.epoch = some held ∧
      (u.ingest packet now).1 = (u.received stream held packet now).settleSubs now := by
  rw [ingest]
  cases hstream : StreamId.ofKind packet.header.kind with
  | none => exact Or.inl rfl
  | some stream =>
      dsimp only
      cases herased : u.timeline.isErased stream packet.header.epoch with
      | true =>
          rw [if_pos rfl]
          exact Or.inl rfl
      | false =>
          rw [if_neg Bool.false_ne_true]
          cases hget : u.timeline.get stream packet.header.epoch with
          | none => exact Or.inl rfl
          | some held => exact Or.inr ⟨stream, held, rfl, herased, hget, rfl⟩

namespace Moves

theorem received {u : Uplink} (ht : u.timeline.Sound) (hu : ∀ s ∈ u.subs, s.Ready)
    {stream : StreamId} {held : EpochStream} {packet : Packet}
    (hstream : StreamId.ofKind packet.header.kind = some stream)
    (hget : u.timeline.get stream packet.header.epoch = some held) (now : ℕ)
    (hQ : ∀ ch, (u.arriving stream held packet).Cuts ch → Q ch) :
    Moves Q E D (desk u) (desk (u.received stream held packet now)) := by
  have hs : (u.arriving stream held packet).Sound :=
    refines_place (ht.get hget) (StreamId.kind_of_ofKind hstream) _
  let placed := place held packet (u.subs.any (·.wantsOn stream packet.header.epoch))
  have hattributed : Moves Q E D ⟨u.subs, u.outbox.queue⟩ ⟨placed.2.1.attributed.foldl
      (Uplink.attributeTo stream packet.header.epoch) u.subs, u.outbox.queue⟩ :=
    attributeTo placed.2.1.attributed hu u.outbox.queue
  exact hattributed.trans (mapState_steps (fun subs (o : Outbox) => (⟨subs, o.queue⟩ : Desk))
    (fun sub hsub pre post o => packetTo hs hQ (Moves.ready hattributed hu sub hsub) _ _ _ now
      pre post o) [] u.outbox)

theorem ingest {u : Uplink} (ht : u.timeline.Sound) (hu : ∀ s ∈ u.subs, s.Ready)
    (packet : Packet) (now : ℕ)
    (hQ : ∀ stream held, StreamId.ofKind packet.header.kind = some stream →
      u.timeline.get stream packet.header.epoch = some held →
      ∀ ch, (u.arriving stream held packet).Cuts ch → Q ch)
    (hmissing : ∀ ch : Chunk, ch.body = .missing .timedOut → Q ch) :
    Moves Q E D (desk u) (desk (u.ingest packet now).1) := by
  rcases u.ingest_cases packet now with heq | ⟨stream, held, hstream, -, hget, heq⟩
  · rw [heq]
  · have hreceived : Moves Q E D (desk u) (desk (u.received stream held packet now)) :=
      received ht hu hstream hget now (hQ stream held hstream hget)
    rw [heq]
    exact hreceived.trans (settleSubs hmissing (Moves.ready hreceived hu) now)

/-! ### Streams -/

/-- The end of a reference epoch: its cursors are released a last time and retired. -/
theorem endReference (hQ : ∀ ch, Q ch) {source : Source} (hs : source.Sound)
    (hstream : source.stream = .reference) (hover : source.epoch ∈ E) {sub : Sub}
    (hsub : sub.Ready) (finalSample holeWait now : ℕ) (pre post : List Sub) (o : Outbox) :
    Moves Q E D ⟨pre ++ sub :: post, o.queue⟩
      ⟨pre ++ (endReference source finalSample holeWait now sub o).1 :: post,
        (endReference source finalSample holeWait now sub o).2.queue⟩ := by
  refine updateFirst_steps (Desk.around pre sub post)
    (fun w hw hwstream before behind s => ?_) [] (o, sub.overflowed)
  have hw' : w.stream = .reference := by
    rw [← hstream]
    simpa using hwstream
  dsimp only
  split
  · exact ReflTransGen.refl
  · rename_i c hfind
    obtain ⟨cs, ds, hcs, herase, -⟩ := exists_around_of_find? (σ := Unit) hfind
    have hc : c.Ready := hsub w hw c (List.mem_of_find?_eq_some hfind)
    have hepoch : c.epoch = source.epoch := by simpa using List.find?_some hfind
    have htarget : Serves Q sub.id w.stream c [] { c with target := none } :=
      Serves.of_pos rfl rfl ⟨hc.waits, hc.live, hc.known⟩ fun _ hx => hx
    let closed : Cursor :=
      if c.pos.isSome then ({ c with target := none } : Cursor).settle finalSample .notSent
      else { c with target := none }
    have hclosed : Serves Q sub.id w.stream c [] closed := by
      simp only [closed]
      split_ifs
      · exact htarget.trans (Serves.settle htarget.ready finalSample .notSent)
      · exact htarget
    have hrelease := release (E := E) (D := D) hs (fun ch _ => hQ ch) (hstream.trans hw'.symm)
      hepoch.symm sub hclosed pre post before behind cs ds holeWait now s
    obtain ⟨_, -, hserves⟩ := release_serves hs sub.id sub.generation holeWait now
      (hepoch.symm.trans hclosed.epoch.symm) hclosed.ready s.1
    set r := sub.release source holeWait now closed s
    have hretire := Move.retire (Q := Q) (D := D) pre post { sub with overflowed := r.2.2 } before
      behind w cs ds r.1 r.2.1.queue hw'
      ((hserves.epoch.trans (hclosed.epoch.trans hepoch)).symm ▸ hover)
    rw [← hcs] at hrelease
    rw [herase]
    exact hrelease.tail hretire

/-- The end of a reference epoch for every subscription. -/
theorem endReferences (hQ : ∀ ch, Q ch) {u : Uplink} (ht : u.timeline.Sound)
    (hu : ∀ s ∈ u.subs, s.Ready) {e : StreamEnd} {held : EpochStream}
    (hstream : e.streamId = .reference) (hget : u.timeline.get e.streamId e.epoch = some held)
    (hover : e.epoch ∈ E) (now : ℕ) :
    Moves Q E D (desk u)
      (desk ({ u with
        subs := (mapState (Uplink.endReference
          ⟨held.buffer, held.track.liveEnd, none, e.streamId, held.epoch⟩ e.finalSample.toNat
          u.config.holeWait now) u.subs u.outbox).1
        outbox := (mapState (Uplink.endReference
          ⟨held.buffer, held.track.liveEnd, none, e.streamId, held.epoch⟩ e.finalSample.toNat
          u.config.holeWait now) u.subs u.outbox).2 }.settleSubs now)) := by
  have hs : Source.Sound ⟨held.buffer, held.track.liveEnd, none, e.streamId, held.epoch⟩ :=
    ht.get hget
  have hends := mapState_steps (fun subs (o : Outbox) => (⟨subs, o.queue⟩ : Desk))
    (fun sub hsub pre post o => endReference (D := D) hQ hs hstream
      ((Timeline.get_mem hget).2.symm ▸ hover) (hu sub hsub) e.finalSample.toNat u.config.holeWait
      now pre post o) [] u.outbox
  exact hends.trans (settleSubs (u := { u with subs := _, outbox := _ }) (fun ch _ => hQ ch)
    (Moves.ready hends hu) now)

theorem streamEnded (hQ : ∀ ch, Q ch) {u : Uplink} (ht : u.timeline.Sound)
    (hu : ∀ s ∈ u.subs, s.Ready) (e : StreamEnd) (now : ℕ)
    (hover : e.streamId = .reference → e.epoch ∈ E) :
    Moves Q E D (desk u) (desk (u.streamEnded e now)) := by
  simp only [Uplink.streamEnded]
  by_cases hstream : e.streamId = .reference
  · rw [if_neg (not_not.mpr hstream)]
    by_cases hreference : u.timeline.reference = some e.epoch
    · rw [if_pos hreference]
      split
      · exact ReflTransGen.refl
      · rename_i held hget
        exact endReferences (u := { u with timeline := { u.timeline with reference := none } }) hQ
          ht hu hstream hget (hover hstream) now
    · rw [if_neg hreference]
      split
      · exact ReflTransGen.refl
      · rename_i held hget
        exact endReferences hQ ht hu hstream hget (hover hstream) now
  · rw [if_pos hstream]
    split_ifs
    · exact endAll u .captureEpoch
    · exact ReflTransGen.refl

/-! ### Commands and time -/

theorem convertToTurn {u u' : Uplink} {id : SubscriptionId} {turn : Owner} {now : ℕ}
    (h : u.convertToTurn id turn now = .ok u') : Moves Q E D (desk u) (desk u') := by
  rw [Uplink.convertToTurn] at h
  split at h
  · cases h
  · rename_i sub hsub
    obtain ⟨pre, post, hsubs, -, hupdate⟩ := exists_around_of_find? (σ := Unit) hsub
    split_ifs at h
    dsimp only at h
    rw [hupdate] at h
    cases h
    rw [desk, hsubs]
    exact ReflTransGen.single (Move.note pre post _ rfl rfl)

theorem close {u u' : Uplink} {id : SubscriptionId} {reason : CloseReason} {now : ℕ}
    (h : u.close id reason now = .ok u') : Moves Q E D (desk u) (desk u') := by
  simp only [Uplink.close] at h
  split at h
  · cases h
  · rename_i sub hsub
    cases h
    exact closeAt hsub reason (.closed reason) now

theorem commandRejected (u : Uplink) (id : SubscriptionId) (generation : Generation)
    (code : Option String) (now : ℕ) :
    Moves Q E D (desk u) (desk (u.commandRejected id generation code now)) := by
  simp only [Uplink.commandRejected]
  split
  · exact ReflTransGen.refl
  · rename_i sub hsub
    split_ifs
    · exact ReflTransGen.refl
    · exact endSub hsub (.rejected code) .gone now

/-- Renewals change no cursor. -/
theorem renewAll (now : ℕ) (subs : List Sub) (commands : List Outgoing) (queue : List Delivery) :
    Moves Q E D ⟨subs, queue⟩ ⟨(mapState (renew now) subs commands).1, queue⟩ := by
  have hrenew : ∀ sub commands, (renew now sub commands).1.id = sub.id ∧
      (renew now sub commands).1.wants = sub.wants := by
    intro sub commands
    rw [renew]
    split
    · split_ifs <;> exact ⟨rfl, rfl⟩
    · exact ⟨rfl, rfl⟩
  exact mapState_steps (fun subs (_ : List Outgoing) => (⟨subs, queue⟩ : Desk))
    (fun sub _ pre post commands => ReflTransGen.single
      (Move.note pre post queue (hrenew sub commands).1 (hrenew sub commands).2)) [] commands

theorem poll (hQ : ∀ ch, Q ch) {u : Uplink} (ht : u.timeline.Sound) (hu : ∀ s ∈ u.subs, s.Ready)
    (now : ℕ) : Moves Q E D (desk u) (desk (u.poll now)) := by
  let v : Uplink :=
    { u with
      subs := (mapState (renew now) u.subs u.commands).1
      commands := (mapState (renew now) u.subs u.commands).2 }
  have hrenewed : Moves Q E D (desk u) (desk v) :=
    renewAll now u.subs u.commands u.outbox.queue
  have hreleased : Moves Q E D (desk u) (desk (v.releaseAll now)) :=
    hrenewed.trans (releaseAll (u := v) hQ ht (hrenewed.ready hu) now)
  let w : Uplink :=
    { v.releaseAll now with
      zombies := (v.releaseAll now).zombies.filter (now < ·.expires)
      timeline := ((v.releaseAll now).zombies.filter (·.expires ≤ now)).foldl
        (fun t z => t.dropClaims z.key) (v.releaseAll now).timeline }
  exact hreleased.trans (settleSubs (u := w) (fun ch _ => hQ ch) (hreleased.ready hu) now)

end Moves

end EchoMuse.Uplink
