import EchoMuse.Playback.Sending

/-!
# Handling One Playback

An operation works on the entry of one playback, which it changes or removes. This module says
what an entry has to do with its playback's log, and that ending, cancelling and pumping keep it.

## Main results

* `endAt_handled`, `cancelAt_handled`, `pump_handled`: each changes one entry or removes it, and
  the playback's log goes on lawfully.
-/

namespace EchoMuse.Render

open Monitors

/-! ### Entries and logs -/

/-- What a live entry has to do with the log `es` of its playback. -/
structure Kept (e : Entry) (es : List Effect) : Prop where
  opened : es.any Effect.isOpened = true
  notEnded : es.any Effect.isEnded = false
  awaiting : e.phase = .awaitingAck →
    es.any Effect.isAccepted = false ∧ es.any Effect.isCancelled = false
  running : e.phase = .running →
    es.any Effect.isAccepted = true ∧ es.any Effect.isCancelled = false
  cancelling : e.phase = .cancelling → es.any Effect.isCancelled = true
  token : ∀ net, e.network = some net → net.token.playback = e.playback.id
  sending : e.phase ≠ .cancelling → ∀ net, e.network = some net → Sending net net.blocked es
  retry : ∀ net, e.network = some net → net.retryAt.isSome = true →
    e.phase = .running ∧ net.blocked.isSome = true

/-- What is left of an entry after it was handled: a live entry for the same playback, or the
playback's end. -/
def After (e : Entry) (es : List Effect) : Option Entry → Prop
  | some e' => e'.playback = e.playback ∧ Obeys May es ∧ Kept e' es
  | none => Obeys May es ∧ es.any Effect.isEnded = true

/-- The entries once the one at `i` was replaced or removed. -/
def replaced (entries : List Entry) (i : ℕ) : Option Entry → List Entry
  | some e => entries.set i e
  | none => entries.eraseIdx i

/-- The entry `e` at `i` was handled: it was replaced or removed, and the log has new entries, all
about its playback. -/
structure Handled {L : Type*} (w w' : World L) (i : ℕ) (e : Entry) (new : List Effect)
    (after : Option Entry) : Prop where
  entries : w'.client.entries = replaced w.client.entries i after
  log : w'.log = w.log ++ new
  about : ∀ x ∈ new, x.playbackId = e.playback.id

section

variable {L : Type*} {w w' w'' : World L} {i : ℕ} {e e' : Entry} {new more : List Effect}
  {after : Option Entry}

theorem replaced_set (entries : List Entry) (i : ℕ) (e : Entry) (after : Option Entry) :
    replaced (entries.set i e) i after = replaced entries i after := by
  cases after with
  | none => exact List.eraseIdx_set_eq
  | some e' => exact List.set_set e

/-- Handling an entry twice. -/
theorem Handled.trans (h : Handled w w' i e new (some e')) (he : e'.playback = e.playback)
    (h' : Handled w' w'' i e' more after) : Handled w w'' i e (new ++ more) after := by
  refine ⟨?_, by rw [h'.log, h.log, List.append_assoc], ?_⟩
  · rw [h'.entries, h.entries]
    exact replaced_set ..
  · intro x hx
    rcases List.mem_append.mp hx with hx | hx
    · exact h.about x hx
    · rw [h'.about x hx, he]

/-- The entry at `i` once it was replaced. -/
theorem Handled.getElem? (h : Handled w w' i e new (some e')) (hi : w.client.entries[i]? = some e) :
    w'.client.entries[i]? = some e' := by
  obtain ⟨hlt, -⟩ := List.getElem?_eq_some_iff.mp hi
  rw [h.entries, replaced, List.getElem?_set_self hlt]

/-- An entry that stays as it is. -/
theorem Handled.same (hentries : w'.client.entries = w.client.entries)
    (hi : w.client.entries[i]? = some e) (hlog : w'.log = w.log ++ new)
    (habout : ∀ x ∈ new, x.playbackId = e.playback.id) : Handled w w' i e new (some e) := by
  obtain ⟨hlt, rfl⟩ := List.getElem?_eq_some_iff.mp hi
  exact ⟨by rw [hentries, replaced, List.set_getElem_self], hlog, habout⟩

end

/-- An effect that changes nothing a live entry depends on. -/
structure Neutral (x : Effect) : Prop where
  sourceDone : x.isSourceDone = false
  accepted : x.isAccepted = false
  cancelled : x.isCancelled = false
  ended : x.isEnded = false
  renderEnd : x.isRenderEnd = false
  completed : x.completed = 0
  buffered : Render.buffered [x] = []
  queued : Render.queued [x] = []

theorem Kept.concat {e : Entry} {es : List Effect} (h : Kept e es) {x : Effect} (hx : Neutral x) :
    Kept e (es ++ [x]) where
  opened := by simp [h.opened]
  notEnded := by simp [h.notEnded, hx.ended]
  awaiting := fun hp => by simpa [hx.accepted, hx.cancelled] using h.awaiting hp
  running := fun hp => by simpa [hx.accepted, hx.cancelled] using h.running hp
  cancelling := fun hp => by simp [h.cancelling hp]
  token := h.token
  sending := fun hp net hnet =>
    (h.sending hp net hnet).concat hx.sourceDone hx.completed hx.buffered hx.queued hx.renderEnd
  retry := h.retry

theorem neutral_tokenCancelled (t : CancellationToken) : Neutral (.tokenCancelled t) :=
  ⟨rfl, rfl, rfl, rfl, rfl, rfl, rfl, rfl⟩

theorem neutral_started (p : PlaybackRef) : Neutral (.event (.started p)) :=
  ⟨rfl, rfl, rfl, rfl, rfl, rfl, rfl, rfl⟩

theorem neutral_limitExceeded (p : PlaybackRef) (l : ResponseLimit) :
    Neutral (.event (.limitExceeded p l)) :=
  ⟨rfl, rfl, rfl, rfl, rfl, rfl, rfl, rfl⟩

theorem neutral_renderCancel (b : RenderCancel) (g : UInt32) (sent : Bool) :
    Neutral (.request (.renderCancel b) g sent) :=
  ⟨rfl, rfl, rfl, rfl, rfl, rfl, rfl, rfl⟩

/-! ### Ending -/

/-- The log entry for a cancelled token. -/
def tokenEffects : Option Network → List Effect
  | some net => [.tokenCancelled net.token]
  | none => []

section

variable {L : Type*}

@[simp] theorem client_note (w : World L) (x : Effect) : (w.note x).client = w.client := rfl

@[simp] theorem log_note (w : World L) (x : Effect) : (w.note x).log = w.log ++ [x] := rfl

@[simp] theorem entries_emit (w : World L) (x : RenderEvent) :
    (w.emit x).client.entries = w.client.entries := rfl

@[simp] theorem log_emit (w : World L) (x : RenderEvent) : (w.emit x).log = w.log ++ [.event x] :=
  rfl

@[simp] theorem log_setEntry (w : World L) (i : ℕ) (e : Entry) : (w.setEntry i e).log = w.log := rfl

@[simp] theorem entries_setEntry (w : World L) (i : ℕ) (e : Entry) :
    (w.setEntry i e).client.entries = w.client.entries.set i e := rfl

@[simp] theorem log_insertCommand (w : World L) (m : MessageId) (id : PlaybackId)
    (kind : CommandKind) : (w.insertCommand m id kind).log = w.log := rfl

@[simp] theorem entries_insertCommand (w : World L) (m : MessageId) (id : PlaybackId)
    (kind : CommandKind) : (w.insertCommand m id kind).client.entries = w.client.entries := rfl

@[simp] theorem client_cancelToken (w : World L) (net : Option Network) :
    (w.cancelToken net).client = w.client := by
  cases net <;> rfl

@[simp] theorem log_cancelToken (w : World L) (net : Option Network) :
    (w.cancelToken net).log = w.log ++ tokenEffects net := by
  cases net with
  | none => exact (List.append_nil _).symm
  | some net => rfl

/-- Sending a request is one entry of the log. -/
theorem World.request_eq {lk : RenderLink L} {w w' : World L} {command : Command}
    {generation : UInt32} {id : Option MessageId}
    (h : w.request lk command generation = (w', id)) :
    w'.client = w.client ∧ w'.log = w.log ++ [.request command generation id.isSome] := by
  rw [World.request] at h
  split at h
  simp only [Prod.mk.injEq] at h
  obtain ⟨rfl, rfl⟩ := h
  exact ⟨rfl, rfl⟩

theorem tokenEffects_about {e : Entry}
    (htoken : ∀ net, e.network = some net → net.token.playback = e.playback.id) :
    ∀ x ∈ tokenEffects e.network, x.playbackId = e.playback.id := by
  intro x hx
  cases hnet : e.network with
  | none => simp [hnet, tokenEffects] at hx
  | some net =>
      rw [hnet, tokenEffects, List.mem_singleton] at hx
      rw [hx, Effect.playbackId, htoken net hnet]

/-- A token may be cancelled until the playback ends. -/
theorem obeys_tokenEffects {es : List Effect} (hlaw : Obeys May es)
    (hlive : es.any Effect.isEnded = false) (net : Option Network) :
    Obeys May (es ++ tokenEffects net) ∧ (es ++ tokenEffects net).any Effect.isEnded = false := by
  cases net with
  | none => exact ⟨by rwa [tokenEffects, List.append_nil], by rwa [tokenEffects, List.append_nil]⟩
  | some net =>
      refine ⟨obeys_concat.mpr ⟨hlaw, hlive, trivial⟩, ?_⟩
      simp [hlive, tokenEffects, Effect.isEnded]

theorem Kept.tokenEffects {e : Entry} {es : List Effect} (h : Kept e es) (net : Option Network) :
    Kept e (es ++ tokenEffects net) := by
  cases net with
  | none => simpa [Render.tokenEffects] using h
  | some net => exact h.concat (neutral_tokenCancelled net.token)

/-- Ending a playback removes its entry and is the last its log says. -/
theorem endAt_handled {w : World L} {i : ℕ} {e : Entry} (hi : w.client.entries[i]? = some e)
    (htoken : ∀ net, e.network = some net → net.token.playback = e.playback.id)
    (how : PlaybackEnd) : ∃ new, Handled w (endAt w i how) i e new none ∧
      ∀ es, Obeys May es → es.any Effect.isEnded = false → After e (es ++ new) none := by
  refine ⟨tokenEffects e.network ++ [.event (.ended e.playback how)], ⟨?_, ?_, ?_⟩, ?_⟩
  · simp [endAt, hi, replaced]
  · simp [endAt, hi]
  · intro x hx
    rcases List.mem_append.mp hx with hx | hx
    · exact tokenEffects_about htoken x hx
    · rw [List.mem_singleton.mp hx]
      rfl
  · intro es hlaw hlive
    obtain ⟨hlaw, hlive⟩ := obeys_tokenEffects hlaw hlive e.network
    rw [← List.append_assoc]
    exact ⟨obeys_concat.mpr ⟨hlaw, hlive, trivial⟩, by simp [Effect.isEnded]⟩

/-! ### Cancelling -/

variable (lk : RenderLink L)

/-- A cancelled entry, once the log says so. -/
theorem Kept.cancel {e : Entry} {es : List Effect} (h : Kept e es) (reason : CancelReason) :
    Kept e.cancel (es ++ [.event (.cancelled e.playback reason)]) where
  opened := by simp [h.opened]
  notEnded := by simp [h.notEnded, Effect.isEnded]
  awaiting := nofun
  running := nofun
  cancelling := fun _ => by simp [Effect.isCancelled]
  token := by
    intro net hnet
    obtain ⟨old, hold, rfl⟩ := Option.map_eq_some_iff.mp hnet
    exact h.token old hold
  sending := fun hne => absurd rfl hne
  retry := by
    intro net hnet hretry
    obtain ⟨net, -, rfl⟩ := Option.map_eq_some_iff.mp hnet
    cases hretry

/-- Cancelling a playback leaves its entry cancelling, or ends it when the link is closed. -/
theorem cancelAt_handled {w : World L} {i : ℕ} {e : Entry} {es : List Effect}
    (hi : w.client.entries[i]? = some e) (hkept : Kept e es) (hlaw : Obeys May es)
    (hphase : e.phase ≠ .cancelling) (reason : CancelReason) :
    ∃ new after, Handled w (cancelAt lk w i reason) i e new after ∧ After e (es ++ new) after ∧
      (after = none ∨ after = some e.cancel) := by
  have hnot : es.any Effect.isCancelled = false := by
    rcases hp : e.phase with _ | _ | _
    · exact (hkept.awaiting hp).2
    · exact (hkept.running hp).2
    · exact absurd hp hphase
  set x : Effect := .event (.cancelled e.playback reason) with hx
  set w₁ : World L := ((w.setEntry i e.cancel).cancelToken e.network).emit
    (.cancelled e.playback reason) with hw₁
  have hfirst : Handled w w₁ i e (tokenEffects e.network ++ [x]) (some e.cancel) := by
    refine ⟨by simp [hw₁, replaced], by simp [hw₁, hx], ?_⟩
    intro y hy
    rcases List.mem_append.mp hy with hy | hy
    · exact tokenEffects_about hkept.token y hy
    · rw [List.mem_singleton.mp hy]
      rfl
  obtain ⟨hlaw₁, hlive₁⟩ := obeys_tokenEffects hlaw hkept.notEnded e.network
  have hnot₁ : (es ++ tokenEffects e.network).any Effect.isCancelled = false := by
    cases e.network <;> simp [tokenEffects, hnot, Effect.isCancelled]
  have hlaw₂ : Obeys May (es ++ (tokenEffects e.network ++ [x])) := by
    rw [← List.append_assoc]
    exact obeys_concat.mpr ⟨hlaw₁, hlive₁, hnot₁⟩
  have hkept₂ : Kept e.cancel (es ++ (tokenEffects e.network ++ [x])) := by
    rw [← List.append_assoc]
    exact (hkept.tokenEffects e.network).cancel reason
  have hi₁ := hfirst.getElem? hi
  rw [cancelAt]
  simp only [hi]
  rw [← hw₁]
  split
  · -- the request was sent
    next w₂ m hrequest =>
    obtain ⟨hclient, hlog⟩ := World.request_eq hrequest
    refine ⟨_, some e.cancel, hfirst.trans rfl (Handled.same (by simp [hclient]) hi₁ hlog ?_), ?_,
      .inr rfl⟩
    · intro y hy
      rw [List.mem_singleton.mp hy]
      rfl
    · rw [← List.append_assoc]
      exact ⟨rfl, obeys_concat.mpr ⟨hlaw₂, hkept₂.notEnded, trivial⟩,
        hkept₂.concat (neutral_renderCancel _ _ _)⟩
  · -- the link is closed
    next w₂ hrequest =>
    obtain ⟨hclient, hlog⟩ := World.request_eq hrequest
    have hsecond : Handled w₁ w₂ i e.cancel _ (some e.cancel) :=
      Handled.same (by rw [hclient]) hi₁ hlog (by
        intro y hy
        rw [List.mem_singleton.mp hy]
        rfl)
    obtain ⟨new, hended, hafter⟩ := endAt_handled (hsecond.getElem? hi₁) hkept₂.token .linkClosed
    refine ⟨_, none, hfirst.trans rfl (hsecond.trans rfl hended), ?_, .inl rfl⟩
    rw [← List.append_assoc, ← List.append_assoc]
    exact hafter _ (obeys_concat.mpr ⟨hlaw₂, hkept₂.notEnded, trivial⟩)
      (hkept₂.concat (neutral_renderCancel _ _ _)).notEnded

/-! ### Pumping -/

/-- What pumping leaves of the parts of an entry that it does not work on. -/
def Pumps (e : Entry) (now : ℕ) (e' : Entry) : Prop :=
  e'.phase = e.phase ∧ e'.limits = e.limits ∧
    (e.phase = .running → ∀ net, e'.network = some net → net.Retries now)

theorem Network.Retries.retry {net : Network} {now : ℕ} (h : net.Retries now)
    (hretry : net.retryAt.isSome = true) : net.blocked.isSome = true := by
  obtain ⟨t, ht⟩ := Option.isSome_iff_exists.mp hretry
  exact (h t ht).1

/-- `render.end` goes on lawfully, and nothing is left once it is sent. -/
theorem pumpEnd_handled {w : World L} {i : ℕ} {e : Entry} {net : Network} {es : List Effect}
    {now : ℕ} (hi : w.client.entries[i]? = some { e with network := some net })
    (hkept : Kept { e with network := some net } es) (hlaw : Obeys May es)
    (hphase : e.phase = .running) (hretries : net.Retries now) :
    ∃ new net', Handled w (pumpEnd lk w i e net).1 i { e with network := some net } new
        (some { e with network := some net' }) ∧
      Kept { e with network := some net' } (es ++ new) ∧ Obeys May (es ++ new) ∧
      net'.Retries now := by
  rw [pumpEnd]
  split_ifs with hall
  · simp only [Bool.and_eq_true, Bool.not_eq_true', List.isEmpty_iff, Option.isNone_iff_eq_none]
      at hall
    obtain ⟨⟨⟨hdone, hnotSent⟩, hpending⟩, hblocked⟩ := hall
    have hsending : Sending net net.blocked es :=
      hkept.sending (by simp [hphase]) net rfl
    obtain ⟨haccepted, hnotCancelled⟩ := hkept.running hphase
    have hplayed : played es = buffered es := by
      rw [hsending.audio, hblocked, hpending, handPcm, List.append_nil, List.append_nil]
    have hnext : net.nextFrame = (buffered es).length := by
      rw [hsending.nextFrame, hblocked, handPcm, hplayed, List.length_nil, Nat.add_zero]
    have hmay : ∀ sent, May es
        (.request (.renderEnd ⟨e.playback.id, net.nextFrame⟩) e.playback.generation sent) :=
      fun sent => ⟨hkept.notEnded, haccepted, hnotCancelled, hsending.endSent.trans hnotSent,
        hsending.done.symm.trans hdone, hplayed, hnext⟩
    split
    · -- it is sent
      next w' m hrequest =>
      obtain ⟨hclient, hlog⟩ := World.request_eq hrequest
      set x : Effect :=
        .request (.renderEnd ⟨e.playback.id, net.nextFrame⟩) e.playback.generation true with hx
      have hsent : Sending { net with endSent := true } net.blocked (es ++ [x]) := by
        refine
          { done := ?_, completed := ?_, audio := ?_, nextFrame := ?_, nextSequence := ?_
            full := ?_, hand_fits := by simp [hblocked], endSent := ?_
            ended := fun _ => ⟨hdone, hblocked, hpending⟩ }
        · simpa [hx, Effect.isSourceDone] using hsending.done
        · simpa [hx, reportedFrames_concat, Effect.completed] using hsending.completed
        · simpa [hx, buffered, played, queued] using hsending.audio
        · simpa [hx, played, queued] using hsending.nextFrame
        · simpa [hx, queued] using hsending.nextSequence
        · simpa [hx, queued] using hsending.full
        · simp [hx, Effect.isRenderEnd]
      refine ⟨[x], { net with endSent := true }, ⟨by simp [hclient, replaced], by simp [hlog, hx], ?_⟩,
        ?_, obeys_concat.mpr ⟨hlaw, hmay true⟩, hretries⟩
      · intro y hy
        rw [List.mem_singleton.mp hy]
        rfl
      · exact
          { opened := by simp [hkept.opened]
            notEnded := by simp [hkept.notEnded, hx, Effect.isEnded]
            awaiting := fun hp => absurd (hphase.symm.trans hp) (by simp)
            running := fun _ => by
              simp [haccepted, hnotCancelled, hx, Effect.isAccepted, Effect.isCancelled]
            cancelling := fun hp => absurd (hphase.symm.trans hp) (by simp)
            token := by
              rintro _ ⟨⟩
              exact hkept.token net rfl
            sending := by
              rintro - _ ⟨⟩
              exact hsent
            retry := by
              rintro _ ⟨⟩ hretry
              exact hkept.retry net rfl hretry }
    · -- the link is closed
      next w' hrequest =>
      obtain ⟨hclient, hlog⟩ := World.request_eq hrequest
      refine ⟨_, net, Handled.same (by rw [hclient]) hi hlog ?_, ?_,
        obeys_concat.mpr ⟨hlaw, hmay false⟩, hretries⟩
      · intro y hy
        rw [List.mem_singleton.mp hy]
        rfl
      · exact hkept.concat ⟨rfl, rfl, rfl, rfl, rfl, rfl, rfl, rfl⟩
  · refine ⟨[], net, Handled.same rfl hi (by simp) (by simp), ?_, ?_, hretries⟩
    · simpa using hkept
    · simpa using hlaw

/-- A running entry whose audio went through the send loop. -/
theorem Kept.pumped {e : Entry} {net net' : Network} {es new : List Effect} {now : ℕ}
    {w w' : World L} (hkept : Kept e es) (hnet : e.network = some net)
    (hphase : e.phase = .running) (hp : Pumped w w' es net net' false now new)
    (hopened : (es ++ new).any Effect.isOpened = true) :
    Kept { e with network := some net' } (es ++ new) where
  opened := hopened
  notEnded := hp.running.notEnded
  awaiting := fun h => absurd (hphase.symm.trans h) nofun
  running := fun _ => ⟨hp.running.accepted, hp.running.notCancelled⟩
  cancelling := fun h => absurd (hphase.symm.trans h) nofun
  token := by
    rintro _ ⟨⟩
    rw [hp.token]
    exact hkept.token net hnet
  sending := by
    rintro - _ ⟨⟩
    exact hp.sending rfl
  retry := by
    rintro _ ⟨⟩ hretry
    exact ⟨hphase, (hp.retries rfl).retry hretry⟩

/-- Pumping a playback sends what it may, or ends it when the link is closed. -/
theorem pump_handled {w : World L} {i : ℕ} {e : Entry} {es : List Effect} (now : ℕ)
    (hi : w.client.entries[i]? = some e) (hkept : Kept e es) (hlaw : Obeys May es) :
    ∃ new after, Handled w (pump lk w now i) i e new after ∧ After e (es ++ new) after ∧
      ∀ e', after = some e' → Pumps e now e' := by
  have hsame : ∀ w' : World L, w' = w → (e.phase = .running → e.network = none) →
      ∃ new after, Handled w w' i e new after ∧ After e (es ++ new) after ∧
        ∀ e', after = some e' → Pumps e now e' := by
    rintro _ rfl hnone
    refine ⟨[], some e, Handled.same rfl hi (by simp) (by simp), ⟨rfl, by simpa, by simpa⟩, ?_⟩
    rintro _ ⟨⟩
    refine ⟨rfl, rfl, fun hp net hnet => ?_⟩
    rw [hnone hp] at hnet
    cases hnet
  rw [pump]
  simp only [hi]
  split_ifs with hphase
  · exact hsame w rfl fun hp => absurd hp hphase
  rw [ne_eq, not_not] at hphase
  split
  · next hnone => exact hsame w rfl fun _ => hnone
  next net hnet =>
  have hsending := hkept.sending (by rw [hphase]; nofun) net hnet
  have hrunning : Running es :=
    ⟨(hkept.running hphase).1, (hkept.running hphase).2, hkept.notEnded⟩
  obtain ⟨new, hp⟩ := hsending.loop lk now e.playback.generation w net hrunning
    fun hretry => (hkept.retry net hnet hretry).2
  rcases hloop : pumpFrames lk now e.playback.generation w net with ⟨w₁, net₁, closed⟩
  rw [hloop] at hp
  dsimp only at hp ⊢
  set e₁ : Entry := { e with network := some net₁ } with he₁
  have hfirst : Handled w (w₁.setEntry i e₁) i e new (some e₁) := by
    refine ⟨by simp [hp.client, replaced], by simp [hp.log], fun x hx => ?_⟩
    rw [hp.about x hx, hkept.token net hnet]
  have hi₁ := hfirst.getElem? hi
  have hlaw₁ := hp.lawful hlaw
  have htoken : ∀ net', e₁.network = some net' → net'.token.playback = e₁.playback.id := by
    rintro _ ⟨⟩
    rw [hp.token]
    exact hkept.token net hnet
  cases closed with
  | true =>
      obtain ⟨more, hended, hafter⟩ := endAt_handled hi₁ htoken .linkClosed
      refine ⟨_, none, hfirst.trans rfl hended, ?_, by simp⟩
      rw [← List.append_assoc]
      exact hafter _ hlaw₁ hp.running.notEnded
  | false =>
      have hkept₁ : Kept e₁ (es ++ new) :=
        hkept.pumped hnet hphase hp (by simp [hkept.opened])
      obtain ⟨more, net₂, hsecond, hkept₂, hlaw₂, hretries⟩ :=
        pumpEnd_handled lk hi₁ hkept₁ hlaw₁ hphase (hp.retries rfl)
      rcases hend : pumpEnd lk (w₁.setEntry i e₁) i e net₁ with ⟨w₂, finished⟩
      rw [hend] at hsecond
      dsimp only at hsecond
      simp only [Bool.false_eq_true, if_false]
      have hboth := hfirst.trans rfl hsecond
      rw [List.append_assoc] at hkept₂ hlaw₂
      cases finished with
      | false =>
          refine ⟨_, some { e with network := some net₂ }, hboth, ⟨rfl, hlaw₂, hkept₂⟩, ?_⟩
          rintro _ ⟨⟩
          refine ⟨rfl, rfl, fun _ => ?_⟩
          rintro _ ⟨⟩
          exact hretries
      | true =>
          obtain ⟨last, hended, hafter⟩ :=
            endAt_handled (hboth.getElem? hi) hkept₂.token .linkClosed
          refine ⟨_, none, hboth.trans rfl hended, ?_, by simp⟩
          rw [← List.append_assoc]
          exact hafter _ hlaw₂ hkept₂.notEnded

end

end EchoMuse.Render
