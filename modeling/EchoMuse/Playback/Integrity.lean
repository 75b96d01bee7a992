import EchoMuse.Playback.Operations

/-!
# The Integrity of Render Streams

Every playback's log obeys the law of `Sending` in every run of the client, whatever the link
answers and the device reports.

## Main results

* `Integrity.of_obeys`: what the law says about a playback as a whole;
* `poll_idle`: after a poll nothing is due;
* `render_integrity`: the stream of every playback is intact.
-/

namespace EchoMuse.Render

open Monitors

/-! ### What the law says -/

/-- The stream of one playback, as its log tells it. -/
structure Integrity (es : List Effect) : Prop where
  accepted_once : es.countP Effect.isAccepted ≤ 1
  cancelled_once : es.countP Effect.isCancelled ≤ 1
  ended_once : es.countP Effect.isEnded ≤ 1
  /-- Nothing follows the end. -/
  ended_last : ∀ before e after, es = before ++ e :: after → e.isEnded = true → after = []
  /-- Frames are queued only after the acceptance and before a cancellation or the end. -/
  running : ∀ before f after, es = before ++ .offered f .accepted :: after →
    before.any Effect.isAccepted = true ∧ before.any Effect.isCancelled = false ∧
      before.any Effect.isEnded = false
  /-- Sequences count from 0, and each frame starts where those before it stop. -/
  order : ∀ before f after, queued es = before ++ f :: after →
    f.sequence = before.length ∧ f.firstFrame = (before.map RenderFrame.frames).sum ∧
      f.frames = f.pcm.length
  /-- Every frame is full but the source's last. -/
  full : ∀ before f after, queued es = before ++ f :: after → f.frames = PACKET_FRAMES ∨
    after = [] ∧ es.any Effect.isSourceDone = true ∧ played es = buffered es
  /-- What is queued is a prefix of what was pushed. -/
  content : played es <+: buffered es
  end_once : es.countP Effect.isRenderEnd ≤ 1
  /-- `render.end` is sent when everything is queued, and names the total. -/
  end_total : ∀ body generation, .request (.renderEnd body) generation true ∈ es →
    played es = buffered es ∧ body.endFrame = (buffered es).length
  /-- No frame reaches past the window. -/
  window : ∀ before f after, es = before ++ .offered f .accepted :: after →
    f.firstFrame + f.frames ≤ reportedFrames before + MAX_FRAMES_AHEAD.toNat

theorem queued_split {es : List Effect} {before after : List RenderFrame} {f : RenderFrame}
    (h : queued es = before ++ f :: after) :
    ∃ b a, es = b ++ .offered f .accepted :: a ∧ queued b = before ∧ queued a = after := by
  obtain ⟨b, rest, rfl, hb, hrest⟩ := List.filterMap_eq_append_iff.mp h
  obtain ⟨b', e, a, rfl, hnone, he, ha⟩ := List.filterMap_eq_cons_iff.mp hrest
  have he : e = .offered f .accepted := by
    split at he
    · simp_all
    · cases he
  subst he
  refine ⟨b ++ b', a, by simp, ?_, ha⟩
  rw [queued_append, show queued b = before from hb,
    show queued b' = [] from List.filterMap_eq_nil_iff.mpr hnone, List.append_nil]

theorem queued_fits {es : List Effect} (h : Obeys May es) {before after : List RenderFrame}
    {f : RenderFrame} (hq : queued es = before ++ f :: after) :
    ∃ b a, es = b ++ .offered f .accepted :: a ∧ queued b = before ∧ queued a = after ∧
      FrameFits b f := by
  obtain ⟨b, a, hes, hb, ha⟩ := queued_split hq
  exact ⟨b, a, hes, hb, ha, (h b _ a hes).2.2.2⟩

theorem frames_of_queued {es : List Effect} (h : Obeys May es) {f : RenderFrame}
    (hf : f ∈ queued es) : f.frames = f.pcm.length := by
  obtain ⟨before, after, hq⟩ := List.append_of_mem hf
  obtain ⟨b, a, -, -, -, hfits⟩ := queued_fits h hq
  exact hfits.frames

theorem length_played {es : List Effect} (h : Obeys May es) :
    (played es).length = ((queued es).map RenderFrame.frames).sum := by
  rw [played, List.length_flatMap]
  exact congrArg List.sum (List.map_congr_left fun f hf => (frames_of_queued h hf).symm)

/-- Nothing is pushed once the source is done. -/
theorem buffered_of_done {before after : List Effect} (h : Obeys May (before ++ after))
    (hdone : before.any Effect.isSourceDone = true) : buffered (before ++ after) = buffered before := by
  induction after using List.reverseRecOn with
  | nil => rw [List.append_nil]
  | append_singleton after e ih =>
      rw [← List.append_assoc] at h ⊢
      obtain ⟨hlaw, he⟩ := obeys_concat.mp h
      rw [buffered_append, ih hlaw]
      cases e with
      | buffered p pcm =>
          have hnot : (before ++ after).any Effect.isSourceDone = false := he.2
          simp [hdone] at hnot
      | _ => exact List.append_nil _

theorem content_of_obeys {es : List Effect} (h : Obeys May es) : played es <+: buffered es := by
  induction es using List.reverseRecOn with
  | nil => exact List.prefix_rfl
  | append_singleton es e ih =>
      obtain ⟨hlaw, he⟩ := obeys_concat.mp h
      have hprefix := ih hlaw
      rw [played_append, buffered_append]
      cases e with
      | offered f a =>
          cases a with
          | accepted =>
              have hfits : FrameFits es f := he.2.2.2
              simpa [played, queued, buffered] using hfits.content
          | _ => simpa [played, queued, buffered] using hprefix
      | buffered p pcm =>
          simpa [played, queued] using hprefix.trans (List.prefix_append _ _)
      | _ => simpa [played, queued, buffered] using hprefix

/-- What the log says is complete stays so: the source is done, and all of it was queued. -/
theorem played_of_done {before after : List Effect} (h : Obeys May (before ++ after))
    (hdone : before.any Effect.isSourceDone = true) (hall : played before = buffered before) :
    played (before ++ after) = buffered (before ++ after) := by
  have hbuffered := buffered_of_done h hdone
  have hcontent := content_of_obeys h
  rw [hbuffered, ← hall, played_append] at hcontent
  have hlength := hcontent.length_le
  rw [List.length_append] at hlength
  have hnil : played after = [] := List.length_eq_zero_iff.mp (by omega)
  rw [hbuffered, played_append, hnil, List.append_nil, hall]

/-- **What the law says about a playback as a whole.** -/
theorem Integrity.of_obeys {es : List Effect} (h : Obeys May es) : Integrity es where
  accepted_once := h.countP_le_one fun before e he hp => by
    cases e with
    | event ev =>
        cases ev with
        | accepted p => exact he.2
        | _ => cases hp
    | _ => cases hp
  cancelled_once := h.countP_le_one fun before e he hp => by
    cases e with
    | event ev =>
        cases ev with
        | cancelled p r => exact he.2
        | _ => cases hp
    | _ => cases hp
  ended_once := h.countP_le_one fun before e he _ => he.1
  ended_last := by
    rintro before e after rfl hended
    rcases after with _ | ⟨x, after⟩
    · rfl
    · have hmay := h (before ++ [e]) x after (by simp)
      have hnone := hmay.1
      simp [hended] at hnone
  running := fun before f after hes => ⟨(h before _ after hes).2.1, (h before _ after hes).2.2.1,
    (h before _ after hes).1⟩
  order := by
    intro before f after hq
    obtain ⟨b, a, rfl, rfl, -, hfits⟩ := queued_fits h hq
    exact ⟨hfits.sequence, by rw [hfits.firstFrame, length_played h.left], hfits.frames⟩
  full := by
    intro before f after hq
    obtain ⟨b, a, hes, rfl, rfl, hfits⟩ := queued_fits h hq
    rcases hfits.full with hfull | ⟨hdone, hall⟩
    · exact .inl hfull
    · rcases hafter : queued a with _ | ⟨g, rest⟩
      · refine .inr ⟨rfl, by simp [hes, hdone], ?_⟩
        have hsplit : es = (b ++ [.offered f .accepted]) ++ a := by simp [hes]
        rw [hsplit]
        refine played_of_done (hsplit ▸ h) (by simp [hdone]) ?_
        simpa [played, queued, buffered] using hall
      · -- a frame follows, so this one is full
        have hq' : queued es = (queued b ++ [f]) ++ g :: rest := by simpa [hafter] using hq
        obtain ⟨b', a', -, hb', -, hnext⟩ := queued_fits h hq'
        exact .inl (hnext.full_before f (by simp [hb']))
  content := content_of_obeys h
  end_once := h.countP_le_one fun before e he hp => by
    cases e with
    | request c g sent =>
        cases c with
        | renderEnd body => exact he.2.2.2.1
        | _ => cases hp
    | _ => cases hp
  end_total := by
    intro body generation hmem
    obtain ⟨before, after, rfl⟩ := List.append_of_mem hmem
    obtain ⟨-, -, -, -, hdone, hall, hend⟩ := h before _ after rfl
    exact ⟨played_of_done h hdone hall, by rw [hend, buffered_of_done h hdone]⟩
  window := fun before f after hes => ((h before _ after hes).2.2.2).window

/-! ### Events on their way out -/

/-- The events a log says were queued. -/
def emitted (log : List Effect) : List RenderEvent :=
  log.filterMap fun
    | .event e => some e
    | _ => none

section

variable {L : Type*}

/-- The events queued are those handed out, then those waiting. -/
def World.Fed (w : World L) (out : List RenderEvent) : Prop :=
  emitted w.log = out ++ w.client.events

variable {w w' : World L} {out : List RenderEvent}

/-- What changes neither the waiting events nor the events of the log. -/
theorem World.Fed.of_eq (h : w.Fed out) (hevents : w'.client.events = w.client.events)
    {new : List Effect} (hlog : w'.log = w.log ++ new) (hnew : emitted new = []) : w'.Fed out := by
  have happend : emitted (w.log ++ new) = emitted w.log ++ emitted new := List.filterMap_append
  rw [World.Fed, hlog, happend, hnew, List.append_nil, hevents]
  exact h

theorem World.Fed.emit (h : w.Fed out) (e : RenderEvent) : (w.emit e).Fed out := by
  have happend : emitted (w.log ++ [.event e]) = emitted w.log ++ [e] := List.filterMap_append
  rw [World.Fed, log_emit, happend, h, List.append_assoc]
  rfl

/-- What ending and cancelling begin with. -/
theorem World.Fed.close (h : w.Fed out) (network : Option Network) (e : RenderEvent) :
    ((w.cancelToken network).emit e).Fed out := by
  refine World.Fed.emit (h.of_eq ?_ (log_cancelToken w network) ?_) e
  · rw [client_cancelToken]
  · cases network <;> rfl

theorem World.Fed.endAt (h : w.Fed out) (i : ℕ) (how : PlaybackEnd) :
    (Render.endAt w i how).Fed out := by
  rw [Render.endAt]
  split
  · exact h
  · next e _ =>
    have herased : ({ w with client := { w.client with
      entries := w.client.entries.eraseIdx i } } : World L).Fed out := h
    exact herased.close e.network _

variable {lk : RenderLink L}

theorem World.Fed.request (h : w.Fed out) {command : Command} {generation : UInt32}
    {id : Option MessageId} (heq : w.request lk command generation = (w', id)) : w'.Fed out := by
  obtain ⟨hclient, hlog⟩ := World.request_eq heq
  exact h.of_eq (by rw [hclient]) hlog rfl

theorem World.Fed.queueFrame (h : w.Fed out) {f : RenderFrame} {a : FrameAnswer}
    (heq : w.queueFrame lk f = (w', a)) : w'.Fed out := by
  obtain ⟨hclient, hlog⟩ := World.queueFrame_eq lk heq
  exact h.of_eq (by rw [hclient]) hlog rfl

variable (lk)

theorem World.Fed.cancelAt (h : w.Fed out) (i : ℕ) (reason : CancelReason) :
    (Render.cancelAt lk w i reason).Fed out := by
  rw [Render.cancelAt]
  split
  · exact h
  next e _ =>
  have hset : (w.setEntry i e.cancel).Fed out := h
  have hclosed := hset.close e.network (.cancelled e.playback reason)
  dsimp only
  split
  · next hrequest => exact (hclosed.request hrequest).of_eq rfl (List.append_nil _).symm rfl
  · next hrequest => exact (hclosed.request hrequest).endAt i _

theorem World.Fed.pumpFrames (h : w.Fed out) (now : ℕ) (generation : UInt32) (net : Network) :
    (Render.pumpFrames lk now generation w net).1.Fed out := by
  fun_induction Render.pumpFrames lk now generation w net with
  | case1 w net _ => exact h
  | case2 w net f rest _ w' hqueue ih => exact ih (h.queueFrame hqueue)
  | case3 w net f rest _ w' hqueue => exact h.queueFrame hqueue
  | case4 w net f rest _ w' hqueue => exact h.queueFrame hqueue

theorem World.Fed.pumpEnd (h : w.Fed out) (i : ℕ) (e : Entry) (net : Network) :
    (Render.pumpEnd lk w i e net).1.Fed out := by
  rw [Render.pumpEnd]
  split_ifs
  · split
    · next hrequest => exact (h.request hrequest).of_eq rfl (List.append_nil _).symm rfl
    · next hrequest => exact h.request hrequest
  · exact h

theorem World.Fed.pump (h : w.Fed out) (now i : ℕ) : (Render.pump lk w now i).Fed out := by
  rw [Render.pump]
  split
  · exact h
  next e _ =>
  split_ifs
  · exact h
  split
  · exact h
  next net _ =>
  have hframes := h.pumpFrames lk now e.playback.generation net
  rcases hloop : Render.pumpFrames lk now e.playback.generation w net with ⟨w₁, net₁, closed⟩
  rw [hloop] at hframes
  have hset : (w₁.setEntry i { e with network := some net₁ }).Fed out := hframes
  dsimp only
  cases closed with
  | true => exact hset.endAt i _
  | false =>
      have hend := hset.pumpEnd lk i e net₁
      simp only [Bool.false_eq_true, if_false]
      split_ifs
      · exact hend.endAt i _
      · exact hend

theorem World.Fed.supersedeLoop (h : w.Fed out) (sourceClass : SourceClass) (fuel : ℕ) :
    (Render.supersedeLoop lk sourceClass fuel w).Fed out := by
  induction fuel generalizing w with
  | zero => exact h
  | succ fuel ih =>
      rw [Render.supersedeLoop]
      split
      · exact ih (h.cancelAt lk _ _)
      · exact h

theorem World.Fed.launch (h : w.Fed out) (playback : PlaybackRef) (body : RenderStart)
    (network : Option Network) (limits : Option LimitClock) :
    (Render.launch lk w playback body network limits).1.Fed out := by
  rw [Render.launch]
  split
  · next hrequest => exact h.request hrequest
  · next hrequest => exact (h.request hrequest).of_eq rfl rfl rfl

theorem World.Fed.feed (h : w.Fed out) (now : ℕ) {playback : PlaybackRef} {mark : Effect}
    (hmark : emitted [mark] = []) (change : Network → Network) :
    (Render.feed lk w now playback mark change).1.Fed out := by
  rw [Render.feed]
  split
  · exact h
  next i _ =>
  split
  · exact h
  next e _ =>
  split_ifs
  · exact h
  split
  · exact h
  next net _ =>
  split_ifs
  · exact h
  · have hmarked : ((w.setEntry i { e with network := some (change net) }).note mark).Fed out :=
      h.of_eq rfl (log_note _ _) hmark
    exact hmarked.pump lk now i

theorem World.Fed.onAck (h : w.Fed out) (now : ℕ) (messageId : MessageId) (outcome : AckOutcome) :
    (Render.onAck lk w now messageId outcome).1.Fed out := by
  rw [Render.onAck]
  split
  · exact h
  generalize hw₁ : ({ w with client := { w.client with
    commands := Function.update w.client.commands messageId none } } : World L) = w₁
  have h₁ : w₁.Fed out := hw₁ ▸ h
  dsimp only
  split
  · exact h₁
  next i _ =>
  split
  · exact h₁
  next e _ =>
  split
  · split_ifs
    · have hset : (w₁.setEntry i { e with phase := .running }).Fed out := h₁
      exact (hset.emit _).pump lk now i
    · exact h₁
  · exact h₁.endAt i _
  · have h₂ : (if e.phase ≠ .cancelling then Render.cancelAt lk w₁ i .unconfirmed else w₁).Fed
        out := by
      split_ifs
      · exact h₁.cancelAt lk i _
      · exact h₁
    split
    · exact h₂.endAt _ _
    · exact h₂
  · exact h₁.endAt i _
  · exact h₁
  · exact h₁

theorem World.Fed.onReport (h : w.Fed out) (now : ℕ) (generation : UInt32)
    (report : RenderReport) : (Render.onReport lk w now generation report).1.Fed out := by
  rw [Render.onReport]
  split
  · exact h
  next i _ =>
  split
  · exact h
  next e _ =>
  cases report with
  | progress progress =>
    have hset : (w.setEntry i (e.report now progress)).Fed out := h
    refine World.Fed.pump lk (World.Fed.emit ?_ _) now i
    split_ifs
    · exact hset.emit _
    · exact hset
  | finished finished => exact h.endAt i _

theorem World.Fed.pollOne (h : w.Fed out) (now : ℕ) (id : PlaybackId) :
    (Render.pollOne lk now w id).Fed out := by
  have hretry : ∀ i, (Render.pollRetry lk w now i).Fed out := by
    intro i
    rw [Render.pollRetry]
    split
    · exact h
    · split_ifs
      · exact h.pump lk now i
      · exact h
  have hlimit : ∀ {w : World L} (i : ℕ), w.Fed out → (Render.pollLimit lk w now i).Fed out := by
    intro w i h
    rw [Render.pollLimit]
    split
    · exact h
    split_ifs
    · exact h
    split
    · exact h
    split_ifs
    · exact (h.emit _).cancelAt lk i _
    · exact h
  rw [Render.pollOne]
  split
  · exact h
  next i _ =>
  dsimp only
  split
  · exact hretry i
  · exact hlimit _ (hretry i)

theorem World.Fed.poll (h : w.Fed out) (now : ℕ) : (Render.poll lk w now).Fed out := by
  rw [Render.poll]
  generalize (w.client.entries.map fun e => e.playback.id) = ids
  induction ids generalizing w with
  | nil => exact h
  | cons id ids ih => exact ih (h.pollOne lk now id)

theorem World.Fed.sessionEnded (h : w.Fed out) : (Render.sessionEnded w).Fed out := by
  rw [Render.sessionEnded]
  generalize w.client.entries = entries
  generalize hw' : ({ w with client := { w.client with
    entries := [], commands := fun _ => none } } : World L) = w'
  have h' : w'.Fed out := hw' ▸ h
  clear hw'
  induction entries generalizing w' with
  | nil => exact h'
  | cons e entries ih => exact ih _ (h'.close e.network _)

/-! ### What was pushed -/

/-- What the source says: a playback was opened, took samples, or has no more. -/
def Effect.isMark : Effect → Bool
  | .opened _ | .buffered .. | .sourceDone _ => true
  | _ => false

/-- The marks of a log. -/
def marks (log : List Effect) : List Effect := log.filter Effect.isMark

theorem marks_append (log new : List Effect) : marks (log ++ new) = marks log ++ marks new :=
  List.filter_append ..

theorem marks_tokenEffects (net : Option Network) : marks (tokenEffects net) = [] := by
  cases net <;> rfl

theorem marks_endAt (w : World L) (i : ℕ) (how : PlaybackEnd) :
    marks (endAt w i how).log = marks w.log := by
  rw [endAt]
  split
  · rfl
  · rw [log_emit, log_cancelToken, marks_append, marks_append, marks_tokenEffects]
    simp [marks, Effect.isMark]

theorem marks_pumpFrames (now : ℕ) (generation : UInt32) (w : World L) (net : Network) :
    marks (pumpFrames lk now generation w net).1.log = marks w.log := by
  have hoffered : ∀ {w w' : World L} {f : RenderFrame} {a : FrameAnswer},
      w.queueFrame lk f = (w', a) → marks w'.log = marks w.log := by
    intro w w' f a hqueue
    rw [(World.queueFrame_eq lk hqueue).2, marks_append]
    exact List.append_nil _
  fun_induction pumpFrames lk now generation w net with
  | case1 w net _ => rfl
  | case2 w net f rest _ w' hqueue ih => exact ih.trans (hoffered hqueue)
  | case3 w net f rest _ w' hqueue => exact hoffered hqueue
  | case4 w net f rest _ w' hqueue => exact hoffered hqueue

theorem marks_pumpEnd (w : World L) (i : ℕ) (e : Entry) (net : Network) :
    marks (pumpEnd lk w i e net).1.log = marks w.log := by
  have hsent : ∀ {w' : World L} {body : RenderEnd} {g : UInt32} {id : Option MessageId},
      w.request lk (.renderEnd body) g = (w', id) → marks w'.log = marks w.log := by
    intro w' body g id hrequest
    rw [(World.request_eq hrequest).2, marks_append]
    exact List.append_nil _
  rw [pumpEnd]
  split_ifs
  · split
    · next hrequest =>
      have hmarks := hsent hrequest
      exact hmarks
    · next hrequest => exact hsent hrequest
  · rfl

/-- Pumping neither takes samples nor opens a playback. -/
theorem marks_pump (w : World L) (now i : ℕ) : marks (pump lk w now i).log = marks w.log := by
  rw [pump]
  split
  · rfl
  next e _ =>
  split_ifs
  · rfl
  split
  · rfl
  next net _ =>
  have hframes := marks_pumpFrames lk now e.playback.generation w net
  rcases hloop : pumpFrames lk now e.playback.generation w net with ⟨w₁, net₁, closed⟩
  rw [hloop] at hframes
  dsimp only at hframes ⊢
  cases closed with
  | true => exact (marks_endAt _ i _).trans hframes
  | false =>
      have hend := marks_pumpEnd lk (w₁.setEntry i { e with network := some net₁ }) i e net₁
      simp only [Bool.false_eq_true, if_false]
      split_ifs
      · exact (marks_endAt _ i _).trans (hend.trans hframes)
      · exact hend.trans hframes

/-- Samples are taken exactly when `push_audio` or `finish_audio` answers that they are. -/
theorem feed_log (w : World L) (now : ℕ) (playback : PlaybackRef) {mark : Effect}
    (hmark : mark.isMark = true) (change : Network → Network) :
    ((feed lk w now playback mark change).2 = .ok () ∧
        marks (feed lk w now playback mark change).1.log = marks w.log ++ [mark]) ∨
      (∃ refused, (feed lk w now playback mark change).2 = .error refused) ∧
        (feed lk w now playback mark change).1 = w := by
  rw [feed]
  split
  · exact .inr ⟨⟨_, rfl⟩, rfl⟩
  next i _ =>
  split
  · exact .inr ⟨⟨_, rfl⟩, rfl⟩
  next e _ =>
  split_ifs
  · exact .inr ⟨⟨_, rfl⟩, rfl⟩
  split
  · exact .inr ⟨⟨_, rfl⟩, rfl⟩
  next net _ =>
  split_ifs
  · exact .inr ⟨⟨_, rfl⟩, rfl⟩
  · refine .inl ⟨rfl, (marks_pump lk _ now i).trans ?_⟩
    rw [log_note, log_setEntry, marks_append, marks, marks, List.filter_singleton, hmark]
    rfl

/-! ### Deadlines -/

/-- An entry has no work at `now`. -/
def Entry.Idle (now : ℕ) (e : Entry) : Prop := ∀ d ∈ e.deadlines, now < d

/-- The live entries of one playback id are one entry. -/
theorem World.Sound.unique {used : List PlaybackId} (h : w.Sound used) {i : ℕ} {e x : Entry}
    (hi : w.client.entries[i]? = some e) (hx : x ∈ w.client.entries)
    (hid : x.playback.id = e.playback.id) : x = e := by
  have hsame : replaced w.client.entries i (some e) = w.client.entries := by
    obtain ⟨hlt, rfl⟩ := List.getElem?_eq_some_iff.mp hi
    exact List.set_getElem_self hlt
  rw [← hsame] at hx
  rcases mem_replaced h.nodup hi hx with he | ⟨-, hne⟩
  · exact (Option.some.inj he).symm
  · exact absurd hid hne

/-- After the retry of a playback, its blocked frame is due later. -/
theorem pollRetry_idle {used : List PlaybackId} (h : w.Sound used) (now : ℕ) {i : ℕ} {e : Entry}
    (hi : w.client.entries[i]? = some e) :
    ∀ x ∈ (pollRetry lk w now i).client.entries,
      (x ∈ w.client.entries ∧ x.playback.id ≠ e.playback.id) ∨
        x.playback.id = e.playback.id ∧ ∀ t, x.network.bind Network.retryAt = some t → now < t := by
  obtain ⟨hkept, hlaw⟩ := h.entry hi
  rw [pollRetry]
  simp only [hi]
  split_ifs with hdue
  · obtain ⟨new, after, hh, hafter, hpumps⟩ := pump_handled lk now hi hkept hlaw
    intro x hx
    rw [hh.entries] at hx
    rcases mem_replaced h.nodup hi hx with rfl | hother
    · refine .inr ⟨by rw [hafter.1], fun t ht => ?_⟩
      have hrunning : e.phase = .running := by
        rw [Entry.retryDue] at hdue
        split at hdue
        · next t' ht' =>
          obtain ⟨net, hnet, hretry⟩ := Option.bind_eq_some_iff.mp ht'
          exact (hkept.retry net hnet (by rw [hretry]; rfl)).1
        · cases hdue
      obtain ⟨net, hnet, hretry⟩ := Option.bind_eq_some_iff.mp ht
      exact ((hpumps x rfl).2.2 hrunning net hnet t hretry).2
    · exact .inl hother
  · intro x hx
    by_cases hid : x.playback.id = e.playback.id
    · obtain rfl := h.unique hi hx hid
      refine .inr ⟨rfl, fun t ht => ?_⟩
      simp only [Entry.retryDue, ht, decide_eq_true_eq] at hdue
      omega
    · exact .inl ⟨hx, hid⟩

/-- A cancelled entry has no work. -/
theorem Kept.idle_of_cancelling {e : Entry} {es : List Effect} (h : Kept e es)
    (hphase : e.phase = .cancelling) (now : ℕ) : e.Idle now := by
  intro d hd
  rw [Entry.deadlines, if_neg (not_not.mpr hphase), List.append_nil] at hd
  obtain ⟨net, hnet, hretry⟩ := Option.bind_eq_some_iff.mp (Option.mem_toList.mp hd)
  have hrunning := (h.retry net hnet (by rw [hretry]; rfl)).1
  exact absurd (hphase.symm.trans hrunning) nofun

/-- After the limit of a playback was enforced, it has no work. -/
theorem pollLimit_idle {used : List PlaybackId} (h : w.Sound used) (now : ℕ) {i : ℕ} {e : Entry}
    (hi : w.client.entries[i]? = some e)
    (hretry : ∀ t, e.network.bind Network.retryAt = some t → now < t) :
    ∀ x ∈ (pollLimit lk w now i).client.entries,
      (x ∈ w.client.entries ∧ x.playback.id ≠ e.playback.id) ∨
        x.playback.id = e.playback.id ∧ x.Idle now := by
  obtain ⟨hkept, hlaw⟩ := h.entry hi
  have hsame : e.Idle now → ∀ x ∈ w.client.entries,
      (x ∈ w.client.entries ∧ x.playback.id ≠ e.playback.id) ∨
        x.playback.id = e.playback.id ∧ x.Idle now := by
    intro hidle x hx
    by_cases hid : x.playback.id = e.playback.id
    · obtain rfl := h.unique hi hx hid
      exact .inr ⟨rfl, hidle⟩
    · exact .inl ⟨hx, hid⟩
  rw [pollLimit]
  simp only [hi]
  split_ifs with hphase
  · exact hsame (hkept.idle_of_cancelling hphase now)
  split
  · next hlimits =>
    refine hsame fun d hd => ?_
    rw [Entry.deadlines, hlimits] at hd
    simp only [Option.map_none, Option.toList_none, ite_self, List.append_nil] at hd
    exact hretry d (Option.mem_toList.mp hd)
  next limits hlimits =>
  split_ifs with hdue
  · have hemit : (w.emit (.limitExceeded e.playback limits.deadline.2)).client.entries =
        w.client.entries := rfl
    have hi' : (w.emit (.limitExceeded e.playback limits.deadline.2)).client.entries[i]? = some e :=
      hi
    obtain ⟨new, after, hh, hafter, hcancel⟩ := cancelAt_handled lk hi'
      (hkept.concat (neutral_limitExceeded e.playback limits.deadline.2))
      (obeys_concat.mpr ⟨hlaw, hkept.notEnded, trivial⟩) hphase .responseTimeout
    intro x hx
    rw [hh.entries, hemit] at hx
    rcases mem_replaced h.nodup hi hx with rfl | hother
    · refine .inr ⟨by rw [hafter.1], hafter.2.2.idle_of_cancelling ?_ now⟩
      rcases hcancel with hnone | hsome
      · cases hnone
      · rw [Option.some.inj hsome]
        rfl
    · exact .inl hother
  · refine hsame fun d hd => ?_
    rw [Entry.deadlines, hlimits, if_pos hphase, List.mem_append] at hd
    rcases hd with hd | hd
    · exact hretry d (Option.mem_toList.mp hd)
    · simp only [Option.map_some, Option.toList_some, List.mem_singleton] at hd
      omega

/-- Polling a playback leaves it without work and the others as they are. -/
theorem pollOne_idle {used : List PlaybackId} (h : w.Sound used) (now : ℕ) (id : PlaybackId) :
    ∀ x ∈ (pollOne lk now w id).client.entries,
      (x ∈ w.client.entries ∧ x.playback.id ≠ id) ∨ x.playback.id = id ∧ x.Idle now := by
  have hnone : ∀ {w : World L}, w.client.position id = none →
      ∀ x ∈ w.client.entries, x.playback.id ≠ id := by
    intro w hposition x hx
    simpa using List.findIdx?_eq_none_iff.mp hposition x hx
  rw [pollOne]
  split
  · next hposition => exact fun x hx => .inl ⟨hx, hnone hposition x hx⟩
  next i hposition =>
  obtain ⟨e, hi, rfl⟩ := position_entry hposition
  have hretried := pollRetry_idle lk h now hi
  have hsound := h.pollRetry lk now i
  dsimp only
  split
  · next hgone =>
    intro x hx
    rcases hretried x hx with hother | ⟨hid, -⟩
    · exact .inl hother
    · exact absurd hid (hnone hgone x hx)
  next j hj =>
  obtain ⟨e', hi', hid'⟩ := position_entry hj
  have he' : ∀ t, e'.network.bind Network.retryAt = some t → now < t := by
    rcases hretried e' (List.mem_of_getElem? hi') with ⟨-, hne⟩ | ⟨-, hlater⟩
    · exact absurd hid' hne
    · exact hlater
  intro x hx
  rcases pollLimit_idle lk hsound now hi' he' x hx with ⟨hx, hne⟩ | ⟨hid, hidle⟩
  · rcases hretried x hx with hother | ⟨hid, -⟩
    · exact .inl hother
    · exact absurd (hid.trans hid'.symm) hne
  · exact .inr ⟨hid.trans hid', hidle⟩

/-- After a poll, no playback has work before the next instant. -/
theorem poll_idle {used : List PlaybackId} (h : w.Sound used) (now : ℕ) :
    ∀ x ∈ (poll lk w now).client.entries, x.Idle now := by
  have hall : ∀ (ids : List PlaybackId) {w : World L}, w.Sound used →
      ∀ x ∈ (ids.foldl (pollOne lk now) w).client.entries,
        (x ∈ w.client.entries ∧ x.playback.id ∉ ids) ∨ x.Idle now := by
    intro ids
    induction ids with
    | nil => exact fun _ x hx => .inl ⟨hx, List.not_mem_nil⟩
    | cons id ids ih =>
        intro w h x hx
        rcases ih (h.pollOne lk now id) x hx with ⟨hx, hnot⟩ | hidle
        · rcases pollOne_idle lk h now id x hx with ⟨hx, hne⟩ | ⟨-, hidle⟩
          · refine .inl ⟨hx, ?_⟩
            rw [List.mem_cons, not_or]
            exact ⟨hne, hnot⟩
          · exact .inr hidle
        · exact .inr hidle
  intro x hx
  rcases hall _ h x hx with ⟨hx, hnot⟩ | hidle
  · exact absurd (List.mem_map_of_mem hx) hnot
  · exact hidle

/-! ### Runs -/

/-- The event that an operation hands out. -/
def handed (w : World L) : Op → List RenderEvent
  | .nextEvent => (nextEvent w).2.toList
  | _ => []

/-- The events that a run hands out. -/
def delivered (w : World L) : List Op → List RenderEvent
  | [] => []
  | op :: ops => handed w op ++ delivered (step lk w op) ops

/-- The events queued in a run are those handed out, then those waiting. -/
theorem World.Fed.run (h : w.Fed out) (ops : List Op) :
    (ops.foldl (step lk) w).Fed (out ++ delivered lk w ops) := by
  induction ops generalizing w out with
  | nil => rwa [delivered, List.append_nil]
  | cons op ops ih =>
      rw [delivered, ← List.append_assoc, List.foldl_cons]
      refine ih ?_
      cases op with
      | nextEvent =>
          rw [step, handed, nextEvent]
          split
          · simpa using h
          · next e events hevents =>
            rw [World.Fed, hevents] at h
            rw [World.Fed, h]
            simp
      | startNetwork start id epoch =>
          simp only [handed, List.append_nil]
          have hnext : (nextPlayback (supersede lk w start.class.toSource) start.class.toSource
              id).1.Fed out := h.supersedeLoop lk _ _
          exact hnext.launch lk _ _ _ _
      | startLocal source gainDb announcement id =>
          simp only [handed, List.append_nil]
          rw [step, startLocal]
          split
          · exact h
          have hnext : (nextPlayback (supersede lk w source.class) source.class id).1.Fed out :=
            h.supersedeLoop lk _ _
          dsimp only
          split
          · next hl => exact congrArg Prod.fst hl ▸ hnext.launch lk _ _ _ _
          · next hl => exact congrArg Prod.fst hl ▸ hnext.launch lk _ _ _ _
      | pushAudio now playback pcm =>
          simp only [handed, List.append_nil]
          exact h.feed lk now rfl _
      | finishAudio now playback =>
          simp only [handed, List.append_nil]
          exact h.feed lk now rfl _
      | cancel playback reason =>
          simp only [handed, List.append_nil]
          rw [step, cancel]
          split
          · exact h
          split
          · exact h
          split_ifs
          · exact h
          · exact h.cancelAt lk _ _
      | onAck now messageId outcome =>
          simp only [handed, List.append_nil]
          exact h.onAck lk now messageId outcome
      | onReport now generation report =>
          simp only [handed, List.append_nil]
          exact h.onReport lk now generation report
      | poll now =>
          simp only [handed, List.append_nil]
          exact h.poll lk now
      | sessionEnded =>
          simp only [handed, List.append_nil]
          exact h.sessionEnded

theorem le_of_nextDeadline {c : RenderClient} {t now : ℕ} (h : c.nextDeadline = some t)
    (hidle : ∀ e ∈ c.entries, e.Idle now) : now < t := by
  obtain ⟨e, he, ht⟩ := List.mem_flatMap.mp (List.min?_mem h)
  exact hidle e he t ht

/-- **The stream of every playback is intact**, in every run of the client with distinct playback
ids, whatever the link answers and whatever is acknowledged and reported. Each playback's log, from
which the events come in order, has the integrity of a stream; a playback that was opened is live
and not over, or has left the client and ended once. The samples of a log are those `push_audio`
accepted. After a poll, nothing is due before the next instant. -/
theorem render_integrity (noInputChime announcementChime : Bool) (link : L) (ops : List Op)
    (hids : (drawn ops).Nodup) :
    let w := run lk noInputChime announcementChime link ops
    (∀ id, Integrity (about id w.log)) ∧
      (∀ id, (about id w.log).any Effect.isOpened = true →
        (about id w.log).countP Effect.isEnded =
          if w.client.entries.any (fun e => e.playback.id = id) then 0 else 1) ∧
      delivered lk ⟨RenderClient.new noInputChime announcementChime, link, []⟩ ops ++
        w.client.events = emitted w.log ∧
      (∀ now playback pcm,
        ((pushAudio lk w now playback pcm).2 = .ok () ∧
          marks (pushAudio lk w now playback pcm).1.log =
            marks w.log ++ [.buffered playback pcm]) ∨
        (∃ refused, (pushAudio lk w now playback pcm).2 = .error refused) ∧
          (pushAudio lk w now playback pcm).1 = w) ∧
      ∀ now t, (poll lk w now).client.nextDeadline = some t → now < t := by
  intro w
  obtain ⟨used, hsound⟩ := sound_run lk noInputChime announcementChime link hids
  have hfed : (⟨RenderClient.new noInputChime announcementChime, link, []⟩ : World L).Fed [] := rfl
  refine ⟨fun id => .of_obeys (hsound.lawful id), fun id hopened => ?_, ?_,
    fun now playback pcm => feed_log lk w now playback rfl _, fun now t ht => ?_⟩
  · split_ifs with hlive
    · obtain ⟨e, he, hid⟩ := List.any_eq_true.mp hlive
      obtain rfl : e.playback.id = id := by simpa using hid
      have hnotEnded := (hsound.kept e he).notEnded
      exact List.countP_eq_zero.mpr fun x hx => by simpa using List.any_eq_false.mp hnotEnded x hx
    · rcases hsound.gone id hopened with ⟨e, he, hid⟩ | hended
      · exact absurd (List.any_eq_true.mpr ⟨e, he, by simpa using hid⟩) hlive
      · obtain ⟨x, hx, hp⟩ := List.any_eq_true.mp hended
        have hpos : 0 < (about id w.log).countP Effect.isEnded :=
          List.countP_pos_iff.mpr ⟨x, hx, hp⟩
        have hone : (about id w.log).countP Effect.isEnded ≤ 1 :=
          (Integrity.of_obeys (hsound.lawful id)).ended_once
        omega
  · exact (World.Fed.run lk hfed ops).symm
  · exact le_of_nextDeadline ht (poll_idle lk hsound now)

end

/-- A link that takes everything, and counts its messages. -/
def openLink : RenderLink ℕ where
  request n _ _ := (n + 1, some ⟨toString n⟩)
  queueFrame n _ := (n, .accepted)

/-- Two playbacks, the second of which replaces the first. -/
theorem render_integrity_replaced :
    let w := run openLink true true 0
      [.startNetwork ⟨.content, 0, false, none⟩ ⟨"a"⟩ ⟨7, by decide⟩,
        .startNetwork ⟨.content, 0, false, none⟩ ⟨"b"⟩ ⟨9, by decide⟩]
    Integrity (about ⟨"a"⟩ w.log) :=
  (render_integrity openLink true true 0
    [.startNetwork ⟨.content, 0, false, none⟩ ⟨"a"⟩ ⟨7, by decide⟩,
      .startNetwork ⟨.content, 0, false, none⟩ ⟨"b"⟩ ⟨9, by decide⟩] (by decide)).1 ⟨"a"⟩

end EchoMuse.Render
