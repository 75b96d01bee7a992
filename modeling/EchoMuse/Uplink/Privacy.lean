import EchoMuse.Uplink.Feeds

/-!
# Privacy Mute

The privacy mute over whole runs. While it is on there is no subscription and nothing but end
notices to drain. The capture epochs that were current or held when it went on are erased for
the rest of the session: their packets are refused, no `stream.open` brings them back, and no
read or delivery has any of their audio.

## Main results

* `Private`, `Private.apply`: what keeps erased audio out, over one operation;
* `apply_erased`, `read_erased`: what remains of an erased epoch;
* `mute_is_final`: the mute over a whole run.
-/

namespace EchoMuse.Uplink

open EchoMuse.Ema EchoMuse.Streams EchoMuse.Intervals EchoMuse.Traverse
open Relation

/-! ### The capture epoch of the cursors -/

/-- Every cursor on a capture stream is on the capture epoch `e`. -/
def OnCapture (e : Option UInt64) (s : Sub) : Prop :=
  ∀ p ∈ s.cursors, p.1 ≠ .reference → e = some p.2.epoch

/-- The audio of capture streams among the deliveries is of the capture epoch `e`, or was
there before. -/
def OnlyAdds (e : Option UInt64) (old new : List Delivery) : Prop :=
  ∀ c, Delivery.chunk c ∈ new → Delivery.chunk c ∈ old ∨ (c.stream ≠ .reference → e = some c.epoch)

theorem OnlyAdds.trans {e : Option UInt64} {ds es fs : List Delivery} (h : OnlyAdds e ds es)
    (h' : OnlyAdds e es fs) : OnlyAdds e ds fs := by
  intro c hc
  rcases h' c hc with hold | hnew
  · exact h c hold
  · exact Or.inr hnew

theorem OnCapture.of_around {e : Option UInt64} {s : Sub} {wpre wpost : List Want} {w : Want}
    {cs ds : List Cursor} {c : Cursor}
    (h : OnCapture e { s with wants := wpre ++ { w with cursors := cs ++ c :: ds } :: wpost }) :
    OnCapture e { s with wants := wpre ++ { w with cursors := cs ++ ds } :: wpost } ∧
      (w.stream ≠ .reference → e = some c.epoch) ∧
      ∀ c' : Cursor, c'.epoch = c.epoch →
        OnCapture e { s with wants := wpre ++ { w with cursors := cs ++ c' :: ds } :: wpost } := by
  obtain ⟨pre, post, haround, hgone⟩ := exists_cursors_around s wpre wpost w cs ds
  simp only [OnCapture, haround, hgone, List.forall_mem_append, List.forall_mem_cons] at h ⊢
  refine ⟨⟨h.1, h.2.2⟩, h.2.1, fun c' hc' => ⟨h.1, ?_, h.2.2⟩⟩
  rw [hc']
  exact h.2.1

/-- Moves keep the cursors on the capture epoch, and queue only its audio. -/
theorem Moves.onCapture {e : Option UInt64} {Q : Chunk → Prop} {E : List UInt64} {D : Prop}
    {d d' : Desk} (h : Moves Q E D d d') (hd : ∀ s ∈ d.subs, OnCapture e s) :
    (∀ s ∈ d'.subs, OnCapture e s) ∧ OnlyAdds e d.queue d'.queue := by
  induction h with
  | refl => exact ⟨hd, fun c hc => Or.inl hc⟩
  | tail _ hmove ih =>
      obtain ⟨hcaptured, hadds⟩ := ih
      cases hmove with
      | @cursor pre post sub wpre wpost w cs ds c c' new queue hserves =>
          rw [List.forall_mem_append, List.forall_mem_cons] at hcaptured
          obtain ⟨hpre, hsub, hpost⟩ := hcaptured
          obtain ⟨-, hepoch, hcursor⟩ := hsub.of_around
          refine ⟨List.forall_mem_append.mpr ⟨hpre, List.forall_mem_cons.mpr
            ⟨hcursor c' hserves.epoch, hpost⟩⟩, hadds.trans fun ch hch => ?_⟩
          rcases List.mem_append.mp hch with hch | hch
          · exact Or.inl hch
          · obtain ⟨ch', hch', heq⟩ := List.mem_map.mp hch
            obtain rfl : ch' = ch := by injection heq
            obtain ⟨-, hstream, hch, -⟩ := hserves.chunks ch' hch'
            rw [hstream, hch]
            exact Or.inr hepoch
      | retire pre post sub wpre wpost w cs ds c queue _ _ =>
          rw [List.forall_mem_append, List.forall_mem_cons] at hcaptured
          obtain ⟨hpre, hsub, hpost⟩ := hcaptured
          exact ⟨List.forall_mem_append.mpr ⟨hpre, List.forall_mem_cons.mpr
            ⟨hsub.of_around.1, hpost⟩⟩, hadds⟩
      | @note pre post sub sub' queue _ hwants =>
          rw [List.forall_mem_append, List.forall_mem_cons] at hcaptured
          obtain ⟨hpre, hsub, hpost⟩ := hcaptured
          rw [OnCapture, Sub.cursors, ← hwants] at hsub
          exact ⟨List.forall_mem_append.mpr ⟨hpre, List.forall_mem_cons.mpr ⟨hsub, hpost⟩⟩, hadds⟩
      | finish pre post sub e queue _ =>
          rw [List.forall_mem_append, List.forall_mem_cons] at hcaptured
          refine ⟨List.forall_mem_append.mpr ⟨hcaptured.1, hcaptured.2.2⟩,
            hadds.trans fun ch hch => ?_⟩
          exact Or.inl (by simpa using hch)
      | drop pre post sub e queue _ _ =>
          rw [List.forall_mem_append, List.forall_mem_cons] at hcaptured
          refine ⟨List.forall_mem_append.mpr ⟨hcaptured.1, hcaptured.2.2⟩,
            hadds.trans fun ch hch => ?_⟩
          rw [List.mem_append, List.mem_filter] at hch
          rcases hch with hch | hch
          · exact Or.inl hch.1
          · cases List.mem_singleton.mp hch
      | discard queue _ =>
          exact ⟨hcaptured, hadds.trans fun ch hch => Or.inl (List.mem_filter.mp hch).1⟩

/-- With no subscription, moves only discard. -/
theorem Moves.of_no_subs {Q : Chunk → Prop} {E : List UInt64} {D : Prop} {d d' : Desk}
    (h : Moves Q E D d d') (hd : d.subs = []) : d'.subs = [] ∧ d'.queue ⊆ d.queue := by
  induction h with
  | refl => exact ⟨hd, List.Subset.refl _⟩
  | tail _ hmove ih =>
      obtain ⟨hnone, hsub⟩ := ih
      cases hmove with
      | discard queue _ => exact ⟨rfl, fun d hd => hsub (List.mem_filter.mp hd).1⟩
      | cursor | retire | note | finish | drop => simp at hnone

/-! ### The current capture epoch -/

/-- An operation leaves the current capture epoch alone or leaves no subscription, and only the
mute erases. -/
theorem epochs_apply (u : Uplink) (op : Op) :
    ((u.apply op).1.timeline.capture = u.timeline.capture ∨ (u.apply op).1.subs = []) ∧
      (op ≠ .mute → (u.apply op).1.timeline.erased = u.timeline.erased) := by
  have hsame : ∀ {t}, Timeline.SameAudio u.timeline t → ∀ {P},
      (t.capture = u.timeline.capture ∨ P) ∧ (op ≠ .mute → t.erased = u.timeline.erased) :=
    fun h => ⟨Or.inl h.capture, fun _ => h.erased⟩
  have hopen : ∀ {id starts} {r : Except OpenError (Uplink × List Grant)},
      (∀ r', r = .ok r' → Opens u id starts r'.1) → ∀ {P},
      ((u.answerOpen r).1.timeline.capture = u.timeline.capture ∨ P) ∧
        (op ≠ .mute → (u.answerOpen r).1.timeline.erased = u.timeline.erased) := by
    intro id starts r h
    cases r with
    | ok r => exact ⟨Or.inl (h r rfl).epochs.1, fun _ => (h r rfl).epochs.2⟩
    | error e => exact ⟨Or.inl rfl, fun _ => rfl⟩
  have hends : ∀ cause, (u.endAll cause).subs = [] :=
    fun cause => congrArg Desk.subs (Moves.desk_endAll u cause)
  cases op with
  | streamOpened o =>
      have herased := (sameAudio_endAll u .captureEpoch).erased
      simp only [apply, streamOpened]
      split_ifs
      · exact ⟨Or.inl rfl, fun _ => rfl⟩
      · exact ⟨Or.inl (Timeline.capture_ensure _ _ _), fun _ => Timeline.erased_ensure _ _ _⟩
      · exact ⟨Or.inl (Timeline.capture_ensure _ _ _), fun _ => Timeline.erased_ensure _ _ _⟩
      · exact ⟨Or.inr (hends .captureEpoch),
          fun _ => (Timeline.erased_ensure _ _ _).trans herased⟩
  | streamEnded e now =>
      have herased := (sameAudio_endAll u .captureEpoch).erased
      simp only [apply, streamEnded]
      by_cases hstream : e.streamId = .reference
      · rw [if_neg (not_not.mpr hstream)]
        by_cases hreference : u.timeline.reference = some e.epoch
        · rw [if_pos hreference]
          split
          · exact ⟨Or.inl rfl, fun _ => rfl⟩
          · exact ⟨Or.inl (sameAudio_settleSubs _ rfl now).capture,
              fun _ => (sameAudio_settleSubs _ rfl now).erased⟩
        · rw [if_neg hreference]
          split
          · exact ⟨Or.inl rfl, fun _ => rfl⟩
          · exact ⟨Or.inl (sameAudio_settleSubs _ rfl now).capture,
              fun _ => (sameAudio_settleSubs _ rfl now).erased⟩
      · rw [if_pos hstream]
        split_ifs
        · exact ⟨Or.inr (hends .captureEpoch), fun _ => herased⟩
        · exact ⟨Or.inl rfl, fun _ => rfl⟩
  | ingest packet now =>
      rcases u.ingest_cases packet now with heq | ⟨stream, held, -, -, -, heq⟩
      · rw [apply, heq]
        exact ⟨Or.inl rfl, fun _ => rfl⟩
      · rw [apply, heq]
        have hsettled := sameAudio_settleSubs (u.received stream held packet now) rfl now
        exact ⟨Or.inl hsettled.capture, fun _ => hsettled.erased⟩
  | deviceEnded report now => exact hsame (sameAudio_deviceEnded u report now)
  | mute =>
      exact ⟨Or.inr (congrArg Desk.subs (Moves.desk_discardAll { u with muted := true } .muted)),
        fun h => absurd rfl h⟩
  | unmute => exact ⟨Or.inl rfl, fun _ => rfl⟩
  | sessionLost =>
      refine ⟨Or.inr (congrArg Desk.subs (Moves.desk_discardAll u .sessionLost)), fun _ => ?_⟩
      exact congrArg (·.clear.erased) (timeline_discardAll u .sessionLost)
  | acceptCandidate id captureEpoch supportStart now =>
      exact hopen fun r hr => (opens_acceptCandidate hr).1
  | «open» id reason owner streams now => exact hopen fun r hr => opens_open hr
  | openButtonTurn id turn press now => exact hopen fun r hr => opens_open hr
  | openReply id expectation cellsFrom now => exact hopen fun r hr => opens_open hr
  | openDiagnostic id mode now => exact hopen fun r hr => opens_open hr
  | openResponse id turn afeFrom micFrom now => exact hopen fun r hr => opens_open hr
  | openNearMiss id owner captureEpoch supportStart supportEnd now =>
      exact hopen fun r hr => opens_openNearMiss hr
  | convertToTurn id turn now =>
      simp only [apply, answerCommand]
      split
      · rename_i u' hr
        exact hsame (sameAudio_convertToTurn hr)
      · exact ⟨Or.inl rfl, fun _ => rfl⟩
  | close id reason now =>
      simp only [apply, answerCommand]
      split
      · rename_i u' hr
        exact hsame (sameAudio_close hr)
      · exact ⟨Or.inl rfl, fun _ => rfl⟩
  | commandRejected id generation code now =>
      exact hsame (sameAudio_commandRejected u id generation code now)
  | poll now => exact hsame (sameAudio_poll u now)
  | drain => exact ⟨Or.inl rfl, fun _ => rfl⟩
  | takeCommands => exact ⟨Or.inl rfl, fun _ => rfl⟩

/-! ### The invariant -/

/-- What keeps erased audio from the consumers: cursors on capture streams are on the current
capture epoch, no queued chunk is of an erased one, and a muted uplink has no subscription and
only end notices queued. -/
structure Private (u : Uplink) : Prop where
  onCapture : ∀ s ∈ u.subs, OnCapture u.timeline.capture s
  queued : ∀ c, .chunk c ∈ u.outbox.queue → c.stream ≠ .reference →
    c.epoch ∉ u.timeline.erased
  muted : u.muted = true → u.subs = [] ∧ ∀ d ∈ u.outbox.queue, d.isEnded = true

namespace Private

theorem new (config : UplinkConfig) (terms : SessionTerms) (muted : Bool) :
    (Uplink.new config terms muted).Private :=
  ⟨fun _ h => (nomatch h), fun _ h => (nomatch h), fun _ => ⟨rfl, fun _ h => (nomatch h)⟩⟩

theorem mute (u : Uplink) : (u.mute).Private := by
  have hdesk : desk u.mute = _ := Moves.desk_discardAll { u with muted := true } .muted
  have hsubs : u.mute.subs = [] := congrArg Desk.subs hdesk
  have hqueue : ∀ d ∈ u.mute.outbox.queue, d.isEnded = true := by
    intro d hd
    rw [show u.mute.outbox.queue = _ from congrArg Desk.queue hdesk, List.mem_append] at hd
    rcases hd with hd | hd
    · exact (List.mem_filter.mp hd).2
    · obtain ⟨s, -, rfl⟩ := List.mem_map.mp hd
      rfl
  refine ⟨fun s hs => ?_, fun c hc => ?_, fun _ => ⟨hsubs, hqueue⟩⟩
  · rw [hsubs] at hs
    cases hs
  · cases hqueue _ hc

theorem onCapture_begins {capture : UInt64} {starts : Starts} {sub : Sub}
    (h : Begins capture starts sub) : OnCapture (some capture) sub := by
  intro p hp hstream
  obtain ⟨w, hw, hpw⟩ := List.mem_flatMap.mp hp
  obtain ⟨c, hc, rfl⟩ := List.mem_map.mp hpw
  obtain ⟨start, -, hnil | ⟨epoch, hone, hcapture⟩⟩ := h.wants w hw
  · rw [hnil] at hc
    cases hc
  · rw [hone, List.mem_singleton] at hc
    rw [hc, ← hcapture hstream]
    rfl

theorem apply {u : Uplink} (hu : u.Sound) (h : u.Private) (op : Op) : (u.apply op).1.Private := by
  by_cases hmute : op = .mute
  · subst hmute
    exact mute u
  obtain ⟨hcapture, herased⟩ := epochs_apply u op
  have hmuted : (u.apply op).1.muted = true → u.muted = true := by
    by_cases hunmute : op = .unmute
    · subst hunmute
      intro h
      cases h
    · rw [(sameTerms_apply u op hmute hunmute).muted]
      exact id
  -- the audio of the current capture epoch is not erased
  have hcurrent : ∀ epoch, u.timeline.capture = some epoch →
      epoch ∉ (u.apply op).1.timeline.erased := by
    intro epoch hepoch hmem
    rw [herased hmute] at hmem
    exact hu.timeline.current epoch hmem hepoch
  have hqueued : ∀ c, .chunk c ∈ u.outbox.queue → c.stream ≠ .reference →
      c.epoch ∉ (u.apply op).1.timeline.erased := by
    rw [herased hmute]
    exact h.queued
  rcases apply_step hu op with ⟨hmoves, -, -⟩ | ⟨id, starts, -, hopens, -, -⟩ |
    ⟨o, -, -, hdesk, -⟩ | ⟨-, hdesk, -⟩
  · have hall := hmoves op.over.toList fun e he => by rw [he]; exact List.mem_singleton_self e
    obtain ⟨honCapture, hadds⟩ := Moves.onCapture hall h.onCapture
    refine ⟨?_, fun c hc hstream => ?_, fun hm => ?_⟩
    · rcases hcapture with hsame | hnone
      · rw [hsame]
        exact honCapture
      · rw [hnone]
        exact fun _ h => (nomatch h)
    · rcases hadds c hc with hold | hnew
      · exact hqueued c hold hstream
      · exact hcurrent c.epoch (hnew hstream)
    · obtain ⟨hnone, hended⟩ := h.muted (hmuted hm)
      obtain ⟨hnone', hsub⟩ := Moves.of_no_subs hall hnone
      exact ⟨hnone', fun d hd => hended d (hsub hd)⟩
  · obtain ⟨capture, sub, hsome, -, hbegins, hdesk⟩ := hopens.opened
    have hsubs : (u.apply op).1.subs = u.subs ++ [sub] := congrArg Desk.subs hdesk
    have hqueue : (u.apply op).1.outbox.queue = u.outbox.queue := congrArg Desk.queue hdesk
    refine ⟨?_, hqueue ▸ hqueued, fun hm => ?_⟩
    · rw [hsubs, hopens.epochs.1]
      refine List.forall_mem_append.mpr ⟨h.onCapture, fun s hs => ?_⟩
      rw [List.mem_singleton] at hs
      rw [hs, hsome]
      exact onCapture_begins hbegins
    · rw [hopens.muted] at hmuted
      cases hmuted hm
  · have hsubs : (u.apply op).1.subs = u.subs.map (openReference o.epoch) :=
      congrArg Desk.subs hdesk
    have hqueue : (u.apply op).1.outbox.queue = u.outbox.queue := congrArg Desk.queue hdesk
    refine ⟨?_, hqueue ▸ hqueued, fun hm => ?_⟩
    · rcases hcapture with hsame | hnone
      · rw [hsubs, hsame]
        refine List.forall_mem_map.mpr fun s hs p hp hstream => ?_
        rcases mem_cursors_openReference hp with hp | hp
        · exact h.onCapture s hs p hp hstream
        · exact absurd hp hstream
      · rw [hnone]
        exact fun _ h => (nomatch h)
    · rw [hsubs, hqueue, (h.muted (hmuted hm)).1]
      exact ⟨rfl, (h.muted (hmuted hm)).2⟩
  · have hsubs : (u.apply op).1.subs = u.subs := congrArg Desk.subs hdesk
    have hqueue : (u.apply op).1.outbox.queue = [] := congrArg Desk.queue hdesk
    refine ⟨?_, ?_, fun hm => ?_⟩
    · rcases hcapture with hsame | hnone
      · rw [hsubs, hsame]
        exact h.onCapture
      · rw [hnone]
        exact fun _ h => (nomatch h)
    · rw [hqueue]
      exact fun _ h => (nomatch h)
    · rw [hsubs, hqueue]
      exact ⟨(h.muted (hmuted hm)).1, fun _ h => (nomatch h)⟩

theorem run {u : Uplink} (hu : u.Sound) (h : u.Private) (ops : List Op) :
    (u.run ops).1.Private := by
  induction ops generalizing u with
  | nil => exact h
  | cons op ops ih => exact ih (hu.apply op) (h.apply hu op)

end Private

/-! ### Erased epochs -/

theorem erased_subset_run {u : Uplink} (hu : u.Sound) (ops : List Op) :
    u.timeline.erased ⊆ (u.run ops).1.timeline.erased := by
  induction ops generalizing u with
  | nil => exact List.Subset.refl _
  | cons op ops ih =>
      exact List.Subset.trans (changes_apply hu op).erased_subset (ih (hu.apply op))

/-- The mute erases the current capture epoch and every one held. -/
theorem mem_erased_mute {u : Uplink} {e : UInt64}
    (h : u.timeline.capture = some e ∨ ∃ stream, stream ≠ .reference ∧ e ∈ u.timeline.epochs stream) :
    e ∈ u.mute.timeline.erased := by
  have hmute : u.mute.timeline = u.timeline.erase :=
    congrArg Timeline.erase (timeline_discardAll { u with muted := true } .muted)
  rw [hmute]
  simp only [Timeline.erase, List.mem_append]
  rcases h with hcapture | ⟨stream, hstream, hmem⟩
  · rw [hcapture]
    exact Or.inr (List.mem_singleton_self e)
  · cases stream with
    | mic => exact Or.inl (Or.inr (Or.inl (Or.inl hmem)))
    | reference => exact absurd rfl hstream
    | cells => exact Or.inl (Or.inr (Or.inl (Or.inr hmem)))
    | afe => exact Or.inl (Or.inr (Or.inr hmem))

/-- What an erased capture epoch is to an uplink: its packets are refused, no `stream.open`
brings it back, and nothing of it can be read. -/
structure Gone (u : Uplink) (e : UInt64) : Prop where
  refused : ∀ (packet : Packet) (now : ℕ) (stream : StreamId),
    StreamId.ofKind packet.header.kind = some stream → stream ≠ .reference →
      packet.header.epoch = e → u.ingest packet now = (u, .erasedEpoch)
  closed : ∀ o : StreamOpen, o.streamId ≠ .reference → o.epoch = e → u.streamOpened o = u
  unread : ∀ span, (∀ stream, stream ≠ .reference →
      u.timeline.segments stream e span = .error .unknownEpoch ∧
        u.timeline.end stream e = none) ∧
    u.timeline.readPcm .mic e span = .error .unknownEpoch ∧
    u.timeline.readCells e span = .error .unknownEpoch ∧
    u.timeline.readAfe e span = .error .unknownEpoch

theorem gone_of_erased {u : Uplink} (hu : u.Sound) {e : UInt64} (he : e ∈ u.timeline.erased) :
    u.Gone e := by
  have herased : ∀ stream, stream ≠ .reference → u.timeline.isErased stream e = true :=
    fun stream hstream => Timeline.isErased_eq_true_iff.mpr ⟨hstream, he⟩
  have hnone : ∀ stream, stream ≠ .reference → u.timeline.get stream e = none := by
    intro stream hstream
    refine List.find?_eq_none.mpr fun held hheld => ?_
    have hstored := hu.timeline.stored stream hstream held.epoch (List.mem_map_of_mem hheld)
    intro heq
    exact hstored ((of_decide_eq_true heq).symm ▸ he)
  have hheld : ∀ stream, stream ≠ .reference → ∀ span,
      u.timeline.held stream e span = .error .unknownEpoch := by
    intro stream hstream span
    rw [Timeline.held, hnone stream hstream]
  refine ⟨fun packet now stream hstream hne hepoch => ?_, fun o hne hepoch => ?_,
    fun span => ⟨fun stream hstream => ⟨?_, ?_⟩, ?_, ?_, ?_⟩⟩
  · simp only [ingest, hstream, hepoch, herased stream hne, if_true]
  · rw [streamOpened, hepoch, herased o.streamId hne, if_pos rfl]
  · rw [Timeline.segments, hnone stream hstream]
  · rw [Timeline.end, hnone stream hstream]
    rfl
  · rw [Timeline.readPcm, if_pos (Or.inl rfl), hheld .mic (by simp)]
    rfl
  · rw [Timeline.readCells, hheld .cells (by simp)]
    rfl
  · rw [Timeline.readAfe, hheld .afe (by simp)]
    rfl

/-- What an operation hands over was queued. -/
theorem deliveries_subset {u : Uplink} (hu : u.Sound) (op : Op) :
    (u.apply op).2.deliveries ⊆ u.outbox.queue := by
  rcases apply_step hu op with ⟨-, -, hanswer⟩ | ⟨id, starts, -, -, -, grants, hanswer⟩ |
    ⟨o, -, -, -, hanswer⟩ | ⟨-, -, hanswer⟩
  · rw [hanswer]
    exact List.nil_subset _
  · rw [hanswer]
    exact List.nil_subset _
  · rw [hanswer]
    exact List.nil_subset _
  · rw [hanswer]
    exact List.Subset.refl _

/-- No audio of an epoch that is erased is delivered or queued later. -/
theorem Private.undelivered {u : Uplink} (hu : u.Sound) (h : u.Private) (ops : List Op) {c : Chunk}
    (hc : .chunk c ∈ delivered (u.run ops).2 ++ (u.run ops).1.outbox.queue)
    (hstream : c.stream ≠ .reference) : c.epoch ∉ u.timeline.erased := by
  induction ops generalizing u with
  | nil => exact h.queued c hc hstream
  | cons op ops ih =>
      simp only [Uplink.run, delivered, List.flatMap_cons, List.append_assoc,
        List.mem_append] at hc ih
      rcases hc with hc | hc
      · exact h.queued c (deliveries_subset hu op hc) hstream
      · exact fun hmem => ih (hu.apply op) (h.apply hu op) hc
          ((changes_apply hu op).erased_subset hmem)

/-! ### While the mute is on -/

/-- A mute stays on until the unmute, and only end notices are delivered. -/
theorem Private.silent {u : Uplink} (hu : u.Sound) (h : u.Private) (hmuted : u.muted = true)
    {ops : List Op} (hops : .unmute ∉ ops) :
    (u.run ops).1.muted = true ∧ ∀ d ∈ delivered (u.run ops).2, d.isEnded = true := by
  induction ops generalizing u with
  | nil => exact ⟨hmuted, fun d hd => (nomatch hd)⟩
  | cons op ops ih =>
      rw [List.mem_cons, not_or] at hops
      have hstill : (u.apply op).1.muted = true := by
        by_cases hmute : op = .mute
        · subst hmute
          exact (SameTerms.discardAll { u with muted := true } .muted).muted
        · rw [(sameTerms_apply u op hmute (Ne.symm hops.1)).muted]
          exact hmuted
      obtain ⟨hlast, hended⟩ := ih (hu.apply op) (h.apply hu op) hstill hops.2
      refine ⟨hlast, ?_⟩
      simp only [Uplink.run, delivered, List.flatMap_cons, List.forall_mem_append]
      exact ⟨fun d hd => (h.muted hmuted).2 d (deliveries_subset hu op hd), hended⟩

/-- The operations that open a near miss. -/
def Op.opensNearMiss : Op → Bool
  | .open _ reason _ _ _ => reason = .nearMiss
  | .openNearMiss _ _ _ _ _ _ => true
  | _ => false

/-- What a muted uplink answers an open attempt: a near miss is first checked against the
session. -/
def Op.refusal (op : Op) (terms : SessionTerms) : OpenError :=
  if op.opensNearMiss && !terms.nearMiss then .nearMissUnsupported else .muted

theorem checkOpen_of_muted {u : Uplink} (h : u.muted = true) (requested : Option UInt64) :
    u.checkOpen requested = .error .muted := by
  unfold checkOpen
  rw [if_pos h]

/-- While muted every open attempt is refused. -/
theorem apply_of_muted {u : Uplink} (h : u.muted = true) {op : Op}
    (hop : (op.opening u.terms).isSome = true) :
    u.apply op = (u, .opened (.error (op.refusal u.terms))) := by
  have hopenWith : ∀ id reason owner starts nearMiss now,
      u.openWith id reason owner starts nearMiss now = .error .muted := by
    intro id reason owner starts nearMiss now
    rw [openWith, checkOpen_of_muted h]
  have hopen : ∀ id reason owner starts now, u.open id reason owner starts now =
      .error (Op.refusal (.open id reason owner starts now) u.terms) := by
    intro id reason owner starts now
    rw [«open», hopenWith]
    cases hnear : u.terms.nearMiss <;> cases reason <;> simp [Op.refusal, Op.opensNearMiss, hnear]
  cases op with
  | acceptCandidate id captureEpoch supportStart now =>
      simp only [apply, acceptCandidate, checkOpen_of_muted h]
      rfl
  | «open» id reason owner starts now =>
      simp only [apply, hopen]
      rfl
  | openButtonTurn id turn press now =>
      simp only [apply, openButtonTurn, hopen]
      rfl
  | openReply id expectation cellsFrom now =>
      simp only [apply, openReply, hopen]
      rfl
  | openDiagnostic id mode now =>
      simp only [apply, openDiagnostic, hopen]
      rfl
  | openResponse id turn afeFrom micFrom now =>
      simp only [apply, openResponse, hopen]
      rfl
  | openNearMiss id owner captureEpoch supportStart supportEnd now =>
      cases hnear : u.terms.nearMiss with
      | true => simp [apply, openNearMiss, hnear, checkOpen_of_muted h, answerOpen, Op.refusal]
      | false => simp [apply, openNearMiss, hnear, answerOpen, Op.refusal, Op.opensNearMiss]
  | _ => cases hop

/-! ### The mute over a run -/

theorem terms_run (u : Uplink) (ops : List Op) : (u.run ops).1.terms = u.terms := by
  induction ops generalizing u with
  | nil => rfl
  | cons op ops ih => exact (ih (u.apply op).1).trans (terms_apply u op)

/-- **Privacy mute is final for the muted audio.** After any run, a mute and any further run:
as long as no unmute came there is no subscription, no delivery of a chunk and no open attempt
that succeeds; and every capture epoch that was current or held at the mute is gone, with
nothing of it delivered since. -/
theorem mute_is_final (config : UplinkConfig) (terms : SessionTerms) (muted : Bool)
    (earlier later : List Op) :
    let u := ((Uplink.new config terms muted).run earlier).1
    let r := u.mute.run later
    (.unmute ∉ later → r.1.subs = [] ∧ (∀ d ∈ delivered r.2, d.isEnded = true) ∧
      ∀ op : Op, (op.opening terms).isSome = true →
        r.1.apply op = (r.1, .opened (.error (op.refusal terms)))) ∧
    ∀ e, (u.timeline.capture = some e ∨
        ∃ stream, stream ≠ .reference ∧ e ∈ u.timeline.epochs stream) →
      r.1.Gone e ∧ ∀ c, .chunk c ∈ delivered r.2 ++ r.1.outbox.queue → c.stream ≠ .reference →
        c.epoch ≠ e := by
  intro u r
  have hu : u.Sound := (Sound.new config terms muted).run earlier
  have hmute : u.mute.Sound := hu.apply .mute
  have hprivate : u.mute.Private := Private.mute u
  have hon : u.mute.muted = true := (SameTerms.discardAll { u with muted := true } .muted).muted
  have hterms : r.1.terms = terms :=
    (terms_run u.mute later).trans ((terms_apply u .mute).trans (terms_run _ earlier))
  refine ⟨fun hlater => ?_, fun e he => ?_⟩
  · obtain ⟨hstill, hended⟩ := hprivate.silent hmute hon hlater
    refine ⟨((hprivate.run hmute later).muted hstill).1, hended, fun op hop => ?_⟩
    rw [← hterms] at hop ⊢
    exact apply_of_muted hstill hop
  · have herased := mem_erased_mute he
    refine ⟨gone_of_erased (hmute.run later) (erased_subset_run hmute later herased), ?_⟩
    rintro c hc hstream rfl
    exact hprivate.undelivered hmute later hc hstream herased

/-- A near miss in a session without near misses is refused for that first. -/
theorem not_every_open_muted : ¬ ∀ op : Op, (op.opening ⟨false, false⟩).isSome = true →
    ((Uplink.new .default ⟨false, false⟩ false).mute.apply op).2 = .opened (.error .muted) := by
  intro h
  have hnear : Answer.opened (.error .nearMissUnsupported) = .opened (.error .muted) :=
    h (.openNearMiss ⟨"a"⟩ ⟨"a"⟩ 1 0 0 0) rfl
  cases hnear

end EchoMuse.Uplink
