import EchoMuse.Uplink.Steps

/-!
# Operations on the Timeline

What the operations of an `Uplink` do to its timeline, as a sequence of small changes, and
what they keep: every buffer refines a window, and no capture epoch that was erased is the
current one or has storage.

## Main results

* `Timeline.SameAudio`: what ending subscriptions leaves of a timeline;
* `Timeline.Change`, `Timeline.Changes.keeps`: the changes, and what they keep;
* `apply_changes`: what every operation does to the timeline.
-/

namespace EchoMuse.Uplink

open EchoMuse.Ema EchoMuse.Streams EchoMuse.Intervals EchoMuse.Traverse
open Relation

namespace Timeline

variable {t t' t'' : Timeline}

/-! ### The same audio -/

/-- The audio of a stream: its epochs with their buffers. -/
def audio (t : Timeline) (stream : StreamId) : List (UInt64 × EpochBuffer) :=
  (t.stores stream).map fun e => (e.epoch, e.buffer)

theorem get_audio (t : Timeline) (stream : StreamId) (epoch : UInt64) :
    (t.get stream epoch).map EpochStream.buffer =
      ((t.audio stream).find? (·.1 = epoch)).map Prod.snd := by
  rw [audio, List.find?_map, Option.map_map]
  rfl

theorem epochs_audio (t : Timeline) (stream : StreamId) :
    t.epochs stream = (t.audio stream).map Prod.fst := by
  rw [audio, List.map_map]
  rfl

/-- The timelines differ in their tracks at most. -/
structure SameAudio (t t' : Timeline) : Prop where
  config : t'.config = t.config
  capture : t'.capture = t.capture
  reference : t'.reference = t.reference
  erased : t'.erased = t.erased
  audio : ∀ stream, t'.audio stream = t.audio stream

namespace SameAudio

theorem refl (t : Timeline) : SameAudio t t := ⟨rfl, rfl, rfl, rfl, fun _ => rfl⟩

theorem trans (h : SameAudio t t') (h' : SameAudio t' t'') : SameAudio t t'' where
  config := h'.config.trans h.config
  capture := h'.capture.trans h.capture
  reference := h'.reference.trans h.reference
  erased := h'.erased.trans h.erased
  audio := fun stream => (h'.audio stream).trans (h.audio stream)

theorem dropClaims (t : Timeline) (key : SubKey) : SameAudio t (t.dropClaims key) := by
  refine ⟨rfl, rfl, rfl, rfl, fun stream => ?_⟩
  simp only [Timeline.audio, Timeline.dropClaims, List.map_map]
  rfl

theorem foldl_dropClaims {α : Type} (key : α → SubKey) (as : List α) (t : Timeline) :
    SameAudio t (as.foldl (fun t a => t.dropClaims (key a)) t) := by
  induction as generalizing t with
  | nil => exact refl t
  | cons a as ih => exact (dropClaims t (key a)).trans (ih (t.dropClaims (key a)))

theorem get (h : SameAudio t t') (stream : StreamId) (epoch : UInt64) :
    (t'.get stream epoch).map EpochStream.buffer = (t.get stream epoch).map EpochStream.buffer := by
  rw [get_audio, get_audio, h.audio]

theorem sound (h : SameAudio t t') (ht : t.Sound) : t'.Sound := by
  intro stream e he
  have hmem : (e.epoch, e.buffer) ∈ t.audio stream := by
    rw [← h.audio]
    exact List.mem_map_of_mem he
  obtain ⟨e', he', heq⟩ := List.mem_map.mp hmem
  rw [← (Prod.mk.inj heq).2]
  exact ht stream e' he'

end SameAudio

/-! ### Changes -/

/-- One change of a timeline. -/
inductive Change : Timeline → Timeline → Prop
  | same {t t' : Timeline} (h : SameAudio t t') : Change t t'
  /-- Storage for an epoch that was not erased. -/
  | ensure (t : Timeline) (stream : StreamId) (epoch : UInt64)
      (h : t.isErased stream epoch = false) : Change t (t.ensure stream epoch)
  /-- The storage of an epoch changes to one that refines a window. -/
  | set (t : Timeline) (stream : StreamId) (held : EpochStream)
      (h : ∃ w, Refines stream held.buffer w) : Change t (t.set stream held)
  /-- A capture epoch that was not erased begins, or the current one ends. -/
  | capture (t : Timeline) (current : Option UInt64) (h : ∀ e ∈ t.erased, current ≠ some e) :
      Change t { t with capture := current }
  | reference (t : Timeline) (current : Option UInt64) : Change t { t with reference := current }
  | erase (t : Timeline) : Change t t.erase
  | clear (t : Timeline) : Change t t.clear

/-- A sequence of changes. -/
abbrev Changes : Timeline → Timeline → Prop := ReflTransGen Change

/-- What the changes keep: sound buffers, and nothing of an erased capture epoch. -/
structure Keeps (t : Timeline) : Prop where
  sound : t.Sound
  current : ∀ e ∈ t.erased, t.capture ≠ some e
  stored : ∀ stream, stream ≠ .reference → ∀ e ∈ t.epochs stream, e ∉ t.erased

theorem isErased_eq_true_iff {stream : StreamId} {epoch : UInt64} :
    t.isErased stream epoch = true ↔ stream ≠ .reference ∧ epoch ∈ t.erased := by
  simp [isErased]

theorem epochs_set (t : Timeline) (stream : StreamId) (held : EpochStream) (s : StreamId) :
    (t.set stream held).epochs s = t.epochs s := by
  simp only [epochs, set, setStore]
  split_ifs with hs
  · subst hs
    exact map_eq_of_forall₂ (fun _ _ h => h) (updateFirst_rel
      (R := fun e e' : EpochStream => e'.epoch = e.epoch) (fun _ _ => rfl)
      (fun e _ he _ => by simpa using (of_decide_eq_true he).symm) ())
  · rfl

theorem mem_epochs_ensure {stream s : StreamId} {epoch e : UInt64}
    (h : e ∈ (t.ensure stream epoch).epochs s) : e ∈ t.epochs s ∨ s = stream ∧ e = epoch := by
  rw [ensure] at h
  split_ifs at h
  · exact Or.inl h
  · simp only [epochs, setStore] at h ⊢
    split_ifs at h with hs
    · rw [List.map_append, List.mem_append] at h
      rcases h with h | h
      · rw [hs]
        exact Or.inl (List.map_subset _ (List.drop_subset _ _) h)
      · exact Or.inr ⟨hs, by simpa [emptyEpoch] using h⟩
    · exact Or.inl h

@[simp] theorem erased_ensure (t : Timeline) (stream : StreamId) (epoch : UInt64) :
    (t.ensure stream epoch).erased = t.erased := by
  simp only [ensure]
  split_ifs <;> rfl

@[simp] theorem capture_ensure (t : Timeline) (stream : StreamId) (epoch : UInt64) :
    (t.ensure stream epoch).capture = t.capture := by
  simp only [ensure]
  split_ifs <;> rfl

@[simp] theorem erased_set (t : Timeline) (stream : StreamId) (held : EpochStream) :
    (t.set stream held).erased = t.erased := rfl

@[simp] theorem capture_set (t : Timeline) (stream : StreamId) (held : EpochStream) :
    (t.set stream held).capture = t.capture := rfl

theorem Change.keeps (h : Change t t') (ht : t.Keeps) : t'.Keeps := by
  cases h with
  | same h =>
      refine ⟨h.sound ht.sound, ?_, fun stream hs e he => ?_⟩
      · rw [h.erased, h.capture]
        exact ht.current
      · rw [epochs_audio, h.audio, ← epochs_audio] at he
        rw [h.erased]
        exact ht.stored stream hs e he
  | ensure stream epoch h =>
      refine ⟨ht.sound.ensure stream epoch, ?_, fun s hs e he => ?_⟩
      · rw [erased_ensure, capture_ensure]
        exact ht.current
      · rw [erased_ensure]
        rcases mem_epochs_ensure he with he | ⟨rfl, rfl⟩
        · exact ht.stored s hs e he
        · intro hmem
          rw [isErased_eq_true_iff.mpr ⟨hs, hmem⟩] at h
          cases h
  | set stream held h =>
      refine ⟨ht.sound.set h, ht.current, fun s hs e he => ?_⟩
      rw [epochs_set] at he
      exact ht.stored s hs e he
  | capture current h => exact ⟨ht.sound, h, ht.stored⟩
  | reference current => exact ⟨ht.sound, ht.current, ht.stored⟩
  | erase =>
      refine ⟨Sound.erase t, fun _ _ h => (by cases h), fun stream hs e he => ?_⟩
      simp only [epochs, Timeline.erase, if_neg hs, List.map_nil] at he
      cases he
  | clear => exact ⟨Sound.clear t, fun _ _ h => (by cases h), fun _ _ _ h => (by cases h)⟩

theorem Changes.keeps (h : Changes t t') (ht : t.Keeps) : t'.Keeps := by
  induction h with
  | refl => exact ht
  | tail _ hchange ih => exact hchange.keeps ih

theorem Change.erased_subset (h : Change t t') : t.erased ⊆ t'.erased := by
  cases h with
  | same h => exact h.erased ▸ List.Subset.refl _
  | ensure stream epoch h => exact (erased_ensure t stream epoch).symm ▸ List.Subset.refl _
  | set stream held h => exact List.Subset.refl _
  | capture current h => exact List.Subset.refl _
  | reference current => exact List.Subset.refl _
  | erase =>
      simp only [Timeline.erase, List.append_assoc]
      exact List.subset_append_left _ _
  | clear => exact List.Subset.refl _

theorem Changes.erased_subset (h : Changes t t') : t.erased ⊆ t'.erased := by
  induction h with
  | refl => exact List.Subset.refl _
  | tail _ hchange ih => exact List.Subset.trans ih hchange.erased_subset

theorem Keeps.new (config : UplinkConfig) : (Timeline.new config).Keeps :=
  ⟨Sound.new config, fun _ h => (by cases h), fun _ _ _ h => (by cases h)⟩

end Timeline

/-! ### What ending subscriptions leaves -/

open Timeline

theorem sameAudio_endSub (u : Uplink) (index : ℕ) (sub : Sub) (cause : EndCause)
    (leaves : Leaves) (now : ℕ) :
    SameAudio u.timeline (u.endSub index sub cause leaves now).timeline := by
  cases leaves with
  | zombie => exact SameAudio.refl u.timeline
  | gone => exact SameAudio.dropClaims u.timeline sub.key

theorem sameAudio_closeAt (u : Uplink) (index : ℕ) (sub : Sub) (reason : CloseReason)
    (cause : EndCause) (now : ℕ) :
    SameAudio u.timeline (u.closeAt index sub reason cause now).timeline := by
  simp only [closeAt]
  split_ifs
  · exact SameAudio.refl u.timeline
  · exact sameAudio_endSub u index sub cause .gone now

theorem sameAudio_settleAt (u : Uplink) (index : ℕ) (sub : Sub) (now : ℕ) :
    SameAudio u.timeline (u.settleAt index sub now).1.timeline := by
  rw [settleAt]
  by_cases hover : sub.overflowed = true
  · rw [if_pos hover]
    exact sameAudio_closeAt u index sub .closed .overflow now
  rw [if_neg hover]
  cases sub.phase with
  | draining report deadline =>
      dsimp only
      split_ifs
      · exact sameAudio_endSub u index sub (.device report) .gone now
      · exact SameAudio.dropClaims u.timeline _
      · exact SameAudio.refl u.timeline
  | active nextRenewal =>
      dsimp only
      split_ifs
      · exact sameAudio_closeAt u index sub .closed (.closed .closed) now
      · exact SameAudio.refl u.timeline

theorem sameAudio_settleSubs {t : Timeline} (u : Uplink) (h : u.timeline = t) (now : ℕ) :
    SameAudio t (u.settleSubs now).timeline := by
  subst h
  suffices h : ∀ fuel index (u : Uplink),
      SameAudio u.timeline (settleFrom now fuel index u).timeline from h u.subs.length 0 u
  intro fuel
  induction fuel with
  | zero => exact fun _ u => SameAudio.refl u.timeline
  | succ fuel ih =>
      intro index u
      rw [settleFrom]
      split
      · exact SameAudio.refl u.timeline
      · exact (sameAudio_settleAt u index _ now).trans (ih _ _)

theorem sameAudio_endAll (u : Uplink) (cause : EndCause) :
    SameAudio u.timeline (u.endAll cause).timeline := by
  have hended : ∀ (subs : List Sub) (u : Uplink), SameAudio u.timeline
      (subs.foldl (fun (u : Uplink) sub =>
        { u with
          timeline := u.timeline.dropClaims sub.key
          commands := u.commands.filter (·.command.subscriptionId ≠ sub.id) }.pushEnded sub cause)
        u).timeline := by
    intro subs
    induction subs with
    | nil => exact fun u => SameAudio.refl u.timeline
    | cons sub subs ih =>
        intro u
        rw [List.foldl_cons]
        refine SameAudio.trans ?_ (ih _)
        exact SameAudio.dropClaims u.timeline sub.key
  exact (hended u.subs { u with subs := [] }).trans
    (SameAudio.foldl_dropClaims (fun z : Zombie => z.key) u.zombies _)

theorem timeline_discardAll (u : Uplink) (cause : EndCause) :
    (u.discardAll cause).timeline = u.timeline := by
  have hended : ∀ (subs : List Sub) (u : Uplink),
      (subs.foldl (fun u sub => pushEnded u sub cause) u).timeline = u.timeline := by
    intro subs
    induction subs with
    | nil => exact fun _ => rfl
    | cons sub subs ih => exact fun u => (ih (u.pushEnded sub cause)).trans rfl
  exact hended u.subs _

theorem sameAudio_deviceEnded (u : Uplink) (report : UplinkEnded) (now : ℕ) :
    SameAudio u.timeline (u.deviceEnded report now).timeline := by
  simp only [deviceEnded]
  split_ifs with hzombie
  · exact SameAudio.refl u.timeline
  split
  · exact SameAudio.refl u.timeline
  · rename_i sub hsub
    by_cases hactive : sub.phase.isActive = true
    · rw [if_neg (not_not.mpr hactive)]
      cases report.reason <;> dsimp only
      case mute => exact SameAudio.dropClaims u.timeline sub.key
      case epoch => exact sameAudio_endSub u _ sub (.device report) .gone now
      case session => exact sameAudio_endSub u _ sub (.device report) .gone now
      all_goals
        refine sameAudio_settleSubs _ ?_ now
        rfl
    · rw [if_pos hactive]
      exact SameAudio.refl u.timeline

theorem sameAudio_poll (u : Uplink) (now : ℕ) :
    SameAudio u.timeline (u.poll now).timeline := by
  simp only [poll]
  refine SameAudio.trans (SameAudio.foldl_dropClaims (fun z : Zombie => z.key)
    (u.zombies.filter (·.expires ≤ now)) u.timeline) (sameAudio_settleSubs _ ?_ now)
  rfl

theorem sameAudio_convertToTurn {u u' : Uplink} {id : SubscriptionId} {turn : Owner} {now : ℕ}
    (h : u.convertToTurn id turn now = .ok u') : SameAudio u.timeline u'.timeline := by
  rw [convertToTurn] at h
  split at h
  · cases h
  · split_ifs at h
    cases h
    exact SameAudio.refl u.timeline

theorem sameAudio_close {u u' : Uplink} {id : SubscriptionId} {reason : CloseReason} {now : ℕ}
    (h : u.close id reason now = .ok u') : SameAudio u.timeline u'.timeline := by
  simp only [close] at h
  split at h
  · cases h
  · cases h
    exact sameAudio_closeAt u _ _ reason (.closed reason) now

theorem sameAudio_commandRejected (u : Uplink) (id : SubscriptionId) (generation : Generation)
    (code : Option String) (now : ℕ) :
    SameAudio u.timeline (u.commandRejected id generation code now).timeline := by
  simp only [commandRejected]
  split
  · exact SameAudio.refl u.timeline
  · split_ifs
    · exact SameAudio.refl u.timeline
    · exact sameAudio_endSub u _ _ (.rejected code) .gone now

/-! ### Every operation -/

theorem changes_streamOpened (u : Uplink) (o : StreamOpen) :
    Changes u.timeline (u.streamOpened o).timeline := by
  rw [streamOpened]
  cases herased : u.timeline.isErased o.streamId o.epoch with
  | true =>
      rw [if_pos rfl]
  | false =>
      rw [if_neg Bool.false_ne_true]
      by_cases hstream : o.streamId = .reference
      · rw [if_pos hstream]
        rw [hstream] at herased
        exact (ReflTransGen.single (Change.reference u.timeline (some o.epoch))).tail
          (Change.ensure _ .reference o.epoch herased)
      · rw [if_neg hstream]
        have hmem : o.epoch ∉ u.timeline.erased := by
          intro hmem
          rw [isErased_eq_true_iff.mpr ⟨hstream, hmem⟩] at herased
          cases herased
        by_cases hcapture : u.timeline.capture = some o.epoch
        · simp only [if_pos hcapture]
          exact ReflTransGen.single (Change.ensure u.timeline o.streamId o.epoch herased)
        · simp only [if_neg hcapture]
          have hends := sameAudio_endAll u .captureEpoch
          have hnot : ∀ e ∈ (u.endAll .captureEpoch).timeline.erased, some o.epoch ≠ some e := by
            rintro e he heq
            rw [hends.erased, ← Option.some.inj heq] at he
            exact hmem he
          refine ((ReflTransGen.single (Change.same hends)).tail
            (Change.capture _ (some o.epoch) hnot)).tail (Change.ensure _ o.streamId o.epoch ?_)
          rw [← Bool.not_eq_true, isErased_eq_true_iff]
          rintro ⟨-, he⟩
          exact hmem (hends.erased ▸ he)

theorem changes_streamEnded (u : Uplink) (e : StreamEnd) (now : ℕ) :
    Changes u.timeline (u.streamEnded e now).timeline := by
  simp only [streamEnded]
  by_cases hstream : e.streamId = .reference
  · rw [if_neg (not_not.mpr hstream)]
    by_cases hreference : u.timeline.reference = some e.epoch
    · rw [if_pos hreference]
      refine (ReflTransGen.single (Change.reference u.timeline none)).trans ?_
      split
      · exact ReflTransGen.refl
      · refine ReflTransGen.single (Change.same (sameAudio_settleSubs _ ?_ now))
        rfl
    · rw [if_neg hreference]
      split
      · exact ReflTransGen.refl
      · refine ReflTransGen.single (Change.same (sameAudio_settleSubs _ ?_ now))
        rfl
  · rw [if_pos hstream]
    split_ifs
    · exact (ReflTransGen.single (Change.same (sameAudio_endAll u .captureEpoch))).tail
        (Change.capture _ none fun _ _ h => by cases h)
    · exact ReflTransGen.refl

/-- The timeline with a claim on a stream epoch it made room for. -/
theorem changes_claim {t : Timeline} (ht : t.Keeps) {stream : StreamId} {epoch : UInt64}
    (herased : t.isErased stream epoch = false) (claim : Claim) :
    Changes t (match (t.ensure stream epoch).get stream epoch with
      | some held =>
        (t.ensure stream epoch).set stream { held with track := held.track.claim claim }
      | none => t.ensure stream epoch) := by
  have hensure := Change.ensure t stream epoch herased
  split
  · rename_i held hget
    have hheld : ∃ w, Refines stream held.buffer w := (hensure.keeps ht).sound.get hget
    exact (ReflTransGen.single hensure).tail (Change.set _ stream _ hheld)
  · exact ReflTransGen.single hensure

theorem changes_activateStream {u : Uplink} {key : SubKey} {capture : UInt64} {stream : StreamId}
    {start : StreamStart} {t : Timeline} (ht : t.Keeps) (hcapture : capture ∉ t.erased) :
    Changes t (u.activateStream key capture stream start t).1 := by
  simp only [activateStream]
  split
  · exact ReflTransGen.refl
  · rename_i epoch hepoch
    have herased : t.isErased stream epoch = false := by
      rw [← Bool.not_eq_true, isErased_eq_true_iff]
      rintro ⟨hstream, hmem⟩
      rw [if_neg hstream] at hepoch
      exact hcapture (Option.some.inj hepoch ▸ hmem)
    by_cases hlive : startSpec stream start = .live
    · rw [if_pos hlive]
    · rw [if_neg hlive]
      exact changes_claim ht herased _

/-- A claim neither begins nor erases a capture epoch. -/
theorem epochs_activateStream (u : Uplink) (key : SubKey) (capture : UInt64) (stream : StreamId)
    (start : StreamStart) (t : Timeline) :
    (u.activateStream key capture stream start t).1.capture = t.capture ∧
      (u.activateStream key capture stream start t).1.erased = t.erased := by
  simp only [activateStream]
  split
  · exact ⟨rfl, rfl⟩
  · by_cases hlive : startSpec stream start = .live
    · rw [if_pos hlive]
      exact ⟨rfl, rfl⟩
    · rw [if_neg hlive]
      dsimp only
      split
      · rw [capture_set, erased_set, capture_ensure, erased_ensure]
        exact ⟨rfl, rfl⟩
      · rw [capture_ensure, erased_ensure]
        exact ⟨rfl, rfl⟩

theorem epochs_activateStreams (u : Uplink) (key : SubKey) (capture : UInt64) (streams : Starts)
    (list : List StreamId) (t : Timeline) :
    (u.activateStreams key capture streams list t).1.capture = t.capture ∧
      (u.activateStreams key capture streams list t).1.erased = t.erased := by
  induction list generalizing t with
  | nil => exact ⟨rfl, rfl⟩
  | cons stream list ih =>
      rw [activateStreams]
      split
      · exact ih t
      · rename_i start _
        obtain ⟨hcapture, herased⟩ := u.epochs_activateStream key capture stream start t
        obtain ⟨hcapture', herased'⟩ := ih (u.activateStream key capture stream start t).1
        exact ⟨hcapture'.trans hcapture, herased'.trans herased⟩

theorem changes_activateStreams {u : Uplink} {key : SubKey} {capture : UInt64} {streams : Starts}
    (list : List StreamId) {t : Timeline} (ht : t.Keeps) (hcapture : capture ∉ t.erased) :
    Changes t (u.activateStreams key capture streams list t).1 := by
  induction list generalizing t with
  | nil => exact ReflTransGen.refl
  | cons stream list ih =>
      rw [activateStreams]
      split
      · exact ih ht hcapture
      · rename_i start _
        have hone : Changes t (u.activateStream key capture stream start t).1 :=
          changes_activateStream ht hcapture
        refine hone.trans (ih (hone.keeps ht) ?_)
        rw [(u.epochs_activateStream key capture stream start t).2]
        exact hcapture

theorem changes_ingest {u : Uplink} (ht : u.timeline.Keeps) (packet : Packet) (now : ℕ) :
    Changes u.timeline (u.ingest packet now).1.timeline := by
  rcases u.ingest_cases packet now with heq | ⟨stream, held, hstream, -, hget, heq⟩
  · rw [heq]
  · rw [heq]
    have hplaced := refines_place (ht.sound.get hget) (StreamId.kind_of_ofKind hstream)
      (u.subs.any (·.wantsOn stream packet.header.epoch))
    exact (ReflTransGen.single (Change.set u.timeline stream _ hplaced)).tail
      (Change.same (sameAudio_settleSubs (u.received stream held packet now) rfl now))

end EchoMuse.Uplink
