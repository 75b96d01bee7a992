import EchoMuse.Uplink.Accounts
import EchoMuse.Uplink.Changes

/-!
# Every Operation as a Step

An operation of an `Uplink` begins a subscription, opens a reference epoch, hands the queue
over, or is a sequence of moves on the desk.

## Main results

* `Begins`, `begins_activate`: what a subscription starts with;
* `Step`, `apply_step`: every operation is a step;
* `Sound`, `Sound.run`: the timeline and the cursors stay sound over every run.
-/

namespace EchoMuse.Uplink

open EchoMuse.Ema EchoMuse.Streams EchoMuse.Intervals EchoMuse.Traverse
open Relation

/-! ### Beginnings -/

/-- A subscription as it begins: for every stream asked for it has at most one cursor, in the
capture epoch unless the stream is the reference. -/
structure Begins (capture : UInt64) (starts : Starts) (sub : Sub) : Prop where
  nodup : (sub.wants.map Want.stream).Nodup
  wants : ∀ w ∈ sub.wants, ∃ start, starts w.stream = some start ∧ (w.cursors = [] ∨
    ∃ epoch, w.cursors = [.new epoch (startSpec w.stream start)] ∧
      (w.stream ≠ .reference → epoch = capture))

theorem wants_activateStream (u : Uplink) (key : SubKey) (capture : UInt64) (stream : StreamId)
    (start : StreamStart) (t : Timeline) :
    (u.activateStream key capture stream start t).2.1.stream = stream ∧
      ((u.activateStream key capture stream start t).2.1.cursors = [] ∨
        ∃ epoch, (u.activateStream key capture stream start t).2.1.cursors =
          [.new epoch (startSpec stream start)] ∧ (stream ≠ .reference → epoch = capture)) := by
  simp only [activateStream]
  split
  · exact ⟨rfl, Or.inl rfl⟩
  · rename_i epoch hepoch
    have hcapture : stream ≠ .reference → epoch = capture := by
      intro hstream
      rw [if_neg hstream] at hepoch
      exact (Option.some.inj hepoch).symm
    by_cases hlive : startSpec stream start = .live
    · rw [if_pos hlive]
      exact ⟨rfl, Or.inr ⟨epoch, rfl, hcapture⟩⟩
    · rw [if_neg hlive]
      exact ⟨rfl, Or.inr ⟨epoch, rfl, hcapture⟩⟩

/-- The wants of a new subscription are among the streams it asked for, in their order. -/
theorem wants_activateStreams (u : Uplink) (key : SubKey) (capture : UInt64) (starts : Starts)
    (list : List StreamId) (t : Timeline) :
    ((u.activateStreams key capture starts list t).2.1.map Want.stream).Sublist list ∧
      ∀ w ∈ (u.activateStreams key capture starts list t).2.1, ∃ start,
        starts w.stream = some start ∧ (w.cursors = [] ∨
          ∃ epoch, w.cursors = [.new epoch (startSpec w.stream start)] ∧
            (w.stream ≠ .reference → epoch = capture)) := by
  induction list generalizing t with
  | nil => exact ⟨List.Sublist.refl _, by simp [activateStreams]⟩
  | cons stream list ih =>
      rw [activateStreams]
      split
      · exact ⟨(ih t).1.cons stream, (ih t).2⟩
      · rename_i start hstart
        obtain ⟨hstream, hcursors⟩ := u.wants_activateStream key capture stream start t
        obtain ⟨hsub, hwants⟩ := ih (u.activateStream key capture stream start t).1
        dsimp only
        refine ⟨?_, List.forall_mem_cons.mpr ⟨⟨start, ?_, ?_⟩, hwants⟩⟩
        · rw [List.map_cons, hstream]
          exact hsub.cons_cons stream
        · rw [hstream, hstart]
        · rw [hstream]
          exact hcursors

theorem begins_activate (u : Uplink) (id : SubscriptionId) (owner : Owner)
    (reason : SubscriptionReason) (capture : UInt64) (starts : Starts)
    (nearMiss : Option NearMissPlan) (now : ℕ) :
    ∃ sub, sub.id = id ∧ Begins capture starts sub ∧
      desk (u.activate id owner reason capture starts nearMiss now).1 =
        ⟨u.subs ++ [sub], u.outbox.queue⟩ := by
  obtain ⟨hsub, hwants⟩ :=
    u.wants_activateStreams ⟨u.nextKey⟩ capture starts streamIds u.timeline
  refine ⟨_, ?_, ⟨?_, ?_⟩, rfl⟩
  · rfl
  · exact hsub.nodup (by decide)
  · exact hwants

/-! ### Opening -/

theorem of_checkOpen {u : Uplink} {requested : Option UInt64} {capture : UInt64}
    (h : u.checkOpen requested = .ok capture) :
    u.muted = false ∧ u.timeline.capture = some capture := by
  unfold checkOpen at h
  cases hmuted : u.muted with
  | true =>
      rw [hmuted, if_pos rfl] at h
      cases h
  | false =>
      rw [hmuted, if_neg Bool.false_ne_true] at h
      refine ⟨rfl, ?_⟩
      split at h
      · cases h
      · rename_i current hcurrent
        cases h
        exact hcurrent
      · split at h
        · rename_i heq
          cases h
          exact heq
        · cases h

/-- The settings of an uplink and its mute are the same. -/
structure SameTerms (u u' : Uplink) : Prop where
  config : u'.config = u.config
  terms : u'.terms = u.terms
  muted : u'.muted = u.muted

/-- What a successful open attempt does. -/
structure Opens (u : Uplink) (id : SubscriptionId) (starts : Starts) (u' : Uplink) : Prop where
  muted : u.muted = false
  opened : ∃ capture sub, u.timeline.capture = some capture ∧ sub.id = id ∧
    Begins capture starts sub ∧ desk u' = ⟨u.subs ++ [sub], u.outbox.queue⟩
  changes : u.timeline.Keeps → Timeline.Changes u.timeline u'.timeline
  epochs : u'.timeline.capture = u.timeline.capture ∧ u'.timeline.erased = u.timeline.erased
  same : SameTerms u u'

theorem opens_activate {u : Uplink} {requested : Option UInt64} {capture : UInt64}
    (h : u.checkOpen requested = .ok capture) (id : SubscriptionId) (owner : Owner)
    (reason : SubscriptionReason) (starts : Starts) (nearMiss : Option NearMissPlan) (now : ℕ) :
    Opens u id starts (u.activate id owner reason capture starts nearMiss now).1 := by
  obtain ⟨hmuted, hcapture⟩ := of_checkOpen h
  obtain ⟨sub, hid, hbegins, hdesk⟩ := u.begins_activate id owner reason capture starts nearMiss now
  refine ⟨hmuted, ⟨capture, sub, hcapture, hid, hbegins, hdesk⟩, fun ht => ?_,
    u.epochs_activateStreams ⟨u.nextKey⟩ capture starts streamIds u.timeline, rfl, rfl, rfl⟩
  exact changes_activateStreams streamIds ht fun hmem => ht.current capture hmem hcapture

theorem opens_openWith {u : Uplink} {id : SubscriptionId} {reason : OpenReason} {owner : Owner}
    {starts : Starts} {nearMiss : Option NearMissPlan} {now : ℕ} {r : Uplink × List Grant}
    (h : u.openWith id reason owner starts nearMiss now = .ok r) : Opens u id starts r.1 := by
  rw [openWith] at h
  split at h
  · cases h
  · rename_i capture hcheck
    split_ifs at h
    cases h
    have hopens := opens_activate hcheck id owner (.of reason) starts nearMiss now
    exact ⟨hopens.muted, hopens.opened, hopens.changes, hopens.epochs,
      ⟨hopens.same.config, hopens.same.terms, hopens.same.muted⟩⟩

theorem opens_open {u : Uplink} {id : SubscriptionId} {reason : OpenReason} {owner : Owner}
    {starts : Starts} {now : ℕ} {r : Uplink × List Grant}
    (h : u.open id reason owner starts now = .ok r) : Opens u id starts r.1 := by
  rw [«open»] at h
  split_ifs at h
  exact opens_openWith h

theorem opens_openNearMiss {u : Uplink} {id : SubscriptionId} {owner : Owner}
    {captureEpoch : UInt64} {supportStart supportEnd now : ℕ} {r : Uplink × List Grant}
    (h : u.openNearMiss id owner captureEpoch supportStart supportEnd now = .ok r) :
    Opens u id (nearMissStreams u.terms supportStart) r.1 := by
  rw [openNearMiss] at h
  split_ifs at h
  split at h
  · cases h
  · exact opens_openWith h

theorem opens_acceptCandidate {u : Uplink} {id : SubscriptionId} {captureEpoch : UInt64}
    {supportStart now : ℕ} {r : Uplink × List Grant}
    (h : u.acceptCandidate id captureEpoch supportStart now = .ok r) :
    Opens u id (CandidateStarts.new supportStart u.terms.afeMetadata).streams r.1 ∧
      id ∉ u.subs.map Sub.id := by
  rw [acceptCandidate] at h
  split at h
  · cases h
  · rename_i capture hcheck
    split_ifs at h with hduplicate
    cases h
    refine ⟨opens_activate hcheck id _ _ _ _ _, fun hmem => hduplicate ?_⟩
    obtain ⟨s, hs, hid⟩ := List.mem_map.mp hmem
    exact List.any_eq_true.mpr ⟨s, hs, by simpa using hid⟩

/-! ### What stays -/

namespace SameTerms

variable {u v w : Uplink}

theorem refl (u : Uplink) : SameTerms u u := ⟨rfl, rfl, rfl⟩

theorem trans (h : SameTerms u v) (h' : SameTerms v w) : SameTerms u w :=
  ⟨h'.config.trans h.config, h'.terms.trans h.terms, h'.muted.trans h.muted⟩

theorem endSub (u : Uplink) (index : ℕ) (sub : Sub) (cause : EndCause) (leaves : Leaves)
    (now : ℕ) : SameTerms u (u.endSub index sub cause leaves now) := by
  cases leaves <;> exact ⟨rfl, rfl, rfl⟩

theorem closeAt (u : Uplink) (index : ℕ) (sub : Sub) (reason : CloseReason) (cause : EndCause)
    (now : ℕ) : SameTerms u (u.closeAt index sub reason cause now) := by
  simp only [Uplink.closeAt]
  split_ifs
  · exact ⟨rfl, rfl, rfl⟩
  · exact endSub u index sub cause .gone now

theorem settleAt (u : Uplink) (index : ℕ) (sub : Sub) (now : ℕ) :
    SameTerms u (u.settleAt index sub now).1 := by
  rw [Uplink.settleAt]
  by_cases hover : sub.overflowed = true
  · rw [if_pos hover]
    exact closeAt u index sub .closed .overflow now
  rw [if_neg hover]
  cases sub.phase with
  | draining report deadline =>
      dsimp only
      split_ifs
      · exact endSub u index sub (.device report) .gone now
      · exact ⟨rfl, rfl, rfl⟩
      · exact refl u
  | active nextRenewal =>
      dsimp only
      split_ifs
      · exact closeAt u index sub .closed (.closed .closed) now
      · exact refl u

theorem settleSubs {u : Uplink} (h : SameTerms u v) (now : ℕ) :
    SameTerms u (v.settleSubs now) := by
  suffices hfrom : ∀ fuel index (v : Uplink), SameTerms v (settleFrom now fuel index v) from
    h.trans (hfrom v.subs.length 0 v)
  intro fuel
  induction fuel with
  | zero => exact fun _ v => refl v
  | succ fuel ih =>
      intro index v
      rw [settleFrom]
      split
      · exact refl v
      · exact (settleAt v index _ now).trans (ih _ _)

/-- A loop over subscriptions whose turns keep the terms. -/
theorem foldl {f : Uplink → Sub → Uplink} (hf : ∀ u sub, SameTerms u (f u sub))
    (subs : List Sub) (u : Uplink) : SameTerms u (subs.foldl f u) := by
  induction subs generalizing u with
  | nil => exact refl u
  | cons sub subs ih => exact (hf u sub).trans (ih (f u sub))

theorem endAll (u : Uplink) (cause : EndCause) : SameTerms u (u.endAll cause) := by
  have hfold := foldl (f := fun (v : Uplink) sub =>
      ({ v with
        timeline := v.timeline.dropClaims sub.key
        commands := v.commands.filter (·.command.subscriptionId ≠ sub.id) } : Uplink).pushEnded sub
          cause) (fun _ _ => ⟨rfl, rfl, rfl⟩) u.subs { u with subs := [] }
  exact ⟨hfold.config, hfold.terms, hfold.muted⟩

theorem discardAll (u : Uplink) (cause : EndCause) : SameTerms u (u.discardAll cause) := by
  have hfold := foldl (f := fun (v : Uplink) sub => v.pushEnded sub cause)
    (fun _ _ => ⟨rfl, rfl, rfl⟩) u.subs
    { u with outbox := u.outbox.discardChunks, commands := [], zombies := [], subs := [] }
  exact ⟨hfold.config, hfold.terms, hfold.muted⟩

theorem deviceEnded (u : Uplink) (report : UplinkEnded) (now : ℕ) :
    SameTerms u (u.deviceEnded report now) := by
  simp only [Uplink.deviceEnded]
  split_ifs with hzombie
  · exact ⟨rfl, rfl, rfl⟩
  split
  · exact refl u
  · rename_i sub hsub
    by_cases hactive : sub.phase.isActive = true
    · rw [if_neg (not_not.mpr hactive)]
      cases report.reason <;> dsimp only
      case mute => exact ⟨rfl, rfl, rfl⟩
      case epoch => exact endSub u _ sub (.device report) .gone now
      case session => exact endSub u _ sub (.device report) .gone now
      all_goals
        refine settleSubs ?_ now
        exact ⟨rfl, rfl, rfl⟩
    · rw [if_pos hactive]
      exact refl u

theorem streamOpened (u : Uplink) (o : StreamOpen) : SameTerms u (u.streamOpened o) := by
  have hends := endAll u .captureEpoch
  rw [Uplink.streamOpened]
  split_ifs
  · exact refl u
  · exact ⟨rfl, rfl, rfl⟩
  · exact ⟨rfl, rfl, rfl⟩
  · exact ⟨hends.config, hends.terms, hends.muted⟩

theorem streamEnded (u : Uplink) (e : StreamEnd) (now : ℕ) :
    SameTerms u (u.streamEnded e now) := by
  simp only [Uplink.streamEnded]
  by_cases hstream : e.streamId = .reference
  · rw [if_neg (not_not.mpr hstream)]
    by_cases hreference : u.timeline.reference = some e.epoch
    · rw [if_pos hreference]
      split
      · exact ⟨rfl, rfl, rfl⟩
      · refine settleSubs ?_ now
        exact ⟨rfl, rfl, rfl⟩
    · rw [if_neg hreference]
      split
      · exact refl u
      · refine settleSubs ?_ now
        exact ⟨rfl, rfl, rfl⟩
  · rw [if_pos hstream]
    have hends := endAll u .captureEpoch
    split_ifs
    · exact ⟨hends.config, hends.terms, hends.muted⟩
    · exact refl u

theorem ingest (u : Uplink) (packet : Packet) (now : ℕ) :
    SameTerms u (u.ingest packet now).1 := by
  rcases u.ingest_cases packet now with heq | ⟨stream, held, -, -, -, heq⟩
  · rw [heq]
    exact refl u
  · rw [heq]
    refine settleSubs ?_ now
    exact ⟨rfl, rfl, rfl⟩

theorem convertToTurn {u u' : Uplink} {id : SubscriptionId} {turn : Owner} {now : ℕ}
    (h : u.convertToTurn id turn now = .ok u') : SameTerms u u' := by
  rw [Uplink.convertToTurn] at h
  split at h
  · cases h
  · split_ifs at h
    cases h
    exact ⟨rfl, rfl, rfl⟩

theorem close {u u' : Uplink} {id : SubscriptionId} {reason : CloseReason} {now : ℕ}
    (h : u.close id reason now = .ok u') : SameTerms u u' := by
  simp only [Uplink.close] at h
  split at h
  · cases h
  · cases h
    exact closeAt u _ _ reason (.closed reason) now

theorem commandRejected (u : Uplink) (id : SubscriptionId) (generation : Generation)
    (code : Option String) (now : ℕ) : SameTerms u (u.commandRejected id generation code now) := by
  simp only [Uplink.commandRejected]
  split
  · exact refl u
  · split_ifs
    · exact refl u
    · exact endSub u _ _ (.rejected code) .gone now

theorem poll (u : Uplink) (now : ℕ) : SameTerms u (u.poll now) := by
  simp only [Uplink.poll]
  refine settleSubs ?_ now
  exact ⟨rfl, rfl, rfl⟩

end SameTerms

/-! ### Soundness -/

/-- The timeline and the cursors of an uplink are sound. -/
structure Sound (u : Uplink) : Prop where
  timeline : u.timeline.Keeps
  ready : ∀ s ∈ u.subs, s.Ready

theorem Begins.ready {capture : UInt64} {starts : Starts} {sub : Sub}
    (h : Begins capture starts sub) : sub.Ready := by
  intro w hw c hc
  obtain ⟨start, -, hnil | ⟨epoch, hone, -⟩⟩ := h.wants w hw
  · rw [hnil] at hc
    cases hc
  · rw [hone, List.mem_singleton] at hc
    rw [hc]
    exact Cursor.Ready.new epoch _

theorem ready_openReference {epoch : UInt64} {sub : Sub} (h : sub.Ready) :
    (openReference epoch sub).Ready := by
  rw [openReference]
  split_ifs
  · have hrel : List.Forall₂ (fun w w' : Want =>
        (∀ c ∈ w.cursors, c.Ready) → ∀ c ∈ w'.cursors, c.Ready) sub.wants
        (updateFirst (·.stream = .reference) (fun w s =>
          (if w.cursors.any (·.epoch = epoch) then w
            else { w with cursors := w.cursors ++ [.new epoch .live] }, s)) sub.wants ()).1 := by
      refine updateFirst_rel (fun _ _ h => h) (fun w _ _ _ hready => ?_) ()
      dsimp only
      split_ifs
      · exact hready
      · exact List.forall_mem_append.mpr ⟨hready, by simpa using Cursor.Ready.new epoch .live⟩
    intro w hw c hc
    obtain ⟨w', hw', himp⟩ := exists_of_mem_forall₂ hrel hw
    exact himp (h w' hw') c hc
  · exact h

/-! ### Steps -/

/-- What one operation does. -/
inductive Step (u : Uplink) (op : Op) (u' : Uplink) (answer : Answer) : Prop
  /-- The desk changes by moves. -/
  | moves
      (hmoves : ∀ E, (∀ e, op.over = some e → e ∈ E) →
        Moves (fun _ => True) E (op.discards = true) (desk u) (desk u'))
      (hopened : ∀ grants, answer ≠ .opened (.ok grants)) (hanswer : answer.deliveries = [])
  /-- A subscription begins. -/
  | opens (id : SubscriptionId) (starts : Starts) (hop : op.opening u.terms = some (id, starts))
      (hopens : Opens u id starts u')
      (hfresh : op.generated u.terms = none → id ∉ u.subs.map Sub.id)
      (hanswer : ∃ grants, answer = .opened (.ok grants))
  /-- A reference epoch begins. -/
  | refers (o : StreamOpen) (hop : op = .streamOpened o) (hstream : o.streamId = .reference)
      (hdesk : desk u' = ⟨u.subs.map (openReference o.epoch), u.outbox.queue⟩)
      (hanswer : answer = .done)
  /-- The queue is handed over. -/
  | drains (hop : op = .drain) (hdesk : desk u' = ⟨u.subs, []⟩)
      (hanswer : answer = .drained u.outbox.queue)

theorem queue_drain (o : Outbox) : o.drain.1.queue = [] ∧ o.drain.2 = o.queue :=
  ⟨o.queue_drain, rfl⟩

/-- A refused open attempt changes nothing, and a successful one opens. -/
theorem step_answerOpen {u : Uplink} {op : Op} {id : SubscriptionId} {starts : Starts}
    {r : Except OpenError (Uplink × List Grant)} (hop : op.opening u.terms = some (id, starts))
    (hopens : ∀ r', r = .ok r' → Opens u id starts r'.1 ∧
      (op.generated u.terms = none → id ∉ u.subs.map Sub.id)) :
    Step u op (u.answerOpen r).1 (u.answerOpen r).2 := by
  cases r with
  | ok r =>
      exact Step.opens id starts hop (hopens r rfl).1 (hopens r rfl).2 ⟨r.2, rfl⟩
  | error e => exact Step.moves (fun _ _ => ReflTransGen.refl) (fun _ h => by cases h) rfl

/-- A refused command changes nothing, and one that is issued changes the desk by moves. -/
theorem step_answerCommand {u : Uplink} {op : Op} {r : Except CommandError Uplink}
    (hmoves : ∀ u', r = .ok u' → ∀ E,
      Moves (fun _ => True) E (op.discards = true) (desk u) (desk u')) :
    Step u op (u.answerCommand r).1 (u.answerCommand r).2 := by
  cases r with
  | ok u' => exact Step.moves (fun E _ => hmoves u' rfl E) (fun _ h => by cases h) rfl
  | error e => exact Step.moves (fun _ _ => ReflTransGen.refl) (fun _ h => by cases h) rfl

/-- **Every operation is a step.** -/
theorem apply_step {u : Uplink} (hu : u.Sound) (op : Op) :
    Step u op (u.apply op).1 (u.apply op).2 := by
  have ht := hu.timeline.sound
  have hany : ∀ ch : Chunk, True := fun _ => trivial
  have hdone : ∀ grants, Answer.done ≠ .opened (.ok grants) := fun _ h => by cases h
  cases op with
  | streamOpened o =>
      by_cases hrefers : u.timeline.isErased o.streamId o.epoch = false ∧ o.streamId = .reference
      · refine Step.refers o rfl hrefers.2 ?_ rfl
        simp only [apply, streamOpened, hrefers.1, if_pos hrefers.2]
        rfl
      · refine Step.moves (fun E _ => ?_) hdone rfl
        simp only [apply, streamOpened]
        split_ifs with herased hstream
        · exact ReflTransGen.refl
        · exact absurd ⟨by simpa using herased, hstream⟩ hrefers
        · exact ReflTransGen.refl
        · exact Moves.endAll u .captureEpoch
  | streamEnded e now =>
      refine Step.moves (fun E hE => Moves.streamEnded hany ht hu.ready e now fun hstream => ?_)
        hdone rfl
      exact hE e.epoch (if_pos hstream)
  | ingest packet now =>
      exact Step.moves (fun E _ => Moves.ingest ht hu.ready packet now (fun _ _ _ _ _ _ => trivial)
        fun _ _ => trivial) (fun _ h => by cases h) rfl
  | deviceEnded report now =>
      refine Step.moves (fun E _ => Moves.deviceEnded ht hu.ready hany report now fun h => ?_)
        hdone rfl
      simpa [Op.discards] using h
  | mute => exact Step.moves (fun E _ => Moves.discardAll rfl { u with muted := true } .muted) hdone rfl
  | unmute => exact Step.moves (fun E _ => ReflTransGen.refl) hdone rfl
  | sessionLost => exact Step.moves (fun E _ => Moves.discardAll rfl u .sessionLost) hdone rfl
  | acceptCandidate id captureEpoch supportStart now =>
      refine step_answerOpen rfl fun r hr => ?_
      exact ⟨(opens_acceptCandidate hr).1, fun _ => (opens_acceptCandidate hr).2⟩
  | «open» id reason owner streams now =>
      exact step_answerOpen rfl fun r hr => ⟨opens_open hr, fun h => by cases h⟩
  | openButtonTurn id turn press now =>
      exact step_answerOpen rfl fun r hr => ⟨opens_open hr, fun h => by cases h⟩
  | openReply id expectation cellsFrom now =>
      exact step_answerOpen rfl fun r hr => ⟨opens_open hr, fun h => by cases h⟩
  | openDiagnostic id mode now =>
      exact step_answerOpen rfl fun r hr => ⟨opens_open hr, fun h => by cases h⟩
  | openResponse id turn afeFrom micFrom now =>
      exact step_answerOpen rfl fun r hr => ⟨opens_open hr, fun h => by cases h⟩
  | openNearMiss id owner captureEpoch supportStart supportEnd now =>
      exact step_answerOpen rfl fun r hr => ⟨opens_openNearMiss hr, fun h => by cases h⟩
  | convertToTurn id turn now =>
      exact step_answerCommand fun u' hr E => Moves.convertToTurn hr
  | close id reason now => exact step_answerCommand fun u' hr E => Moves.close hr
  | commandRejected id generation code now =>
      exact Step.moves (fun E _ => Moves.commandRejected u id generation code now) hdone rfl
  | poll now => exact Step.moves (fun E _ => Moves.poll hany ht hu.ready now) hdone rfl
  | drain => exact Step.drains rfl (congrArg (Desk.mk u.subs) (queue_drain u.outbox).1) rfl
  | takeCommands => exact Step.moves (fun E _ => ReflTransGen.refl) (fun _ h => by cases h) rfl

/-! ### Runs -/

theorem changes_apply {u : Uplink} (hu : u.Sound) (op : Op) :
    Timeline.Changes u.timeline (u.apply op).1.timeline := by
  have ht := hu.timeline
  have hsame : ∀ {t}, Timeline.SameAudio u.timeline t → Timeline.Changes u.timeline t :=
    fun h => ReflTransGen.single (Timeline.Change.same h)
  have hopen : ∀ {id starts} {r : Except OpenError (Uplink × List Grant)},
      (∀ r', r = .ok r' → Opens u id starts r'.1) →
      Timeline.Changes u.timeline (u.answerOpen r).1.timeline := by
    intro id starts r h
    cases r with
    | ok r => exact (h r rfl).changes ht
    | error e => exact ReflTransGen.refl
  cases op with
  | streamOpened o => exact changes_streamOpened u o
  | streamEnded e now => exact changes_streamEnded u e now
  | ingest packet now => exact changes_ingest ht packet now
  | deviceEnded report now => exact hsame (sameAudio_deviceEnded u report now)
  | mute =>
      have hmute : (u.mute).timeline = u.timeline.erase :=
        congrArg Timeline.erase (timeline_discardAll { u with muted := true } .muted)
      exact hmute ▸ ReflTransGen.single (Timeline.Change.erase u.timeline)
  | unmute => exact ReflTransGen.refl
  | sessionLost =>
      have hlost : (u.sessionLost).timeline = u.timeline.clear :=
        congrArg Timeline.clear (timeline_discardAll u .sessionLost)
      exact hlost ▸ ReflTransGen.single (Timeline.Change.clear u.timeline)
  | acceptCandidate id captureEpoch supportStart now =>
      exact hopen fun r hr => (opens_acceptCandidate hr).1
  | «open» id reason owner streams now => exact hopen fun r hr => opens_open hr
  | openButtonTurn id turn press now => exact hopen fun r hr => opens_open hr
  | openReply id expectation cellsFrom now => exact hopen fun r hr => opens_open hr
  | openDiagnostic id mode now => exact hopen fun r hr => opens_open hr
  | openResponse id turn afeFrom micFrom now => exact hopen fun r hr => opens_open hr
  | openNearMiss id owner captureEpoch supportStart supportEnd now =>
      exact hopen fun r hr => opens_openNearMiss hr
  | convertToTurn id turn now =>
      simp only [apply, answerCommand]
      split
      · rename_i u' hr
        exact hsame (sameAudio_convertToTurn hr)
      · exact ReflTransGen.refl
  | close id reason now =>
      simp only [apply, answerCommand]
      split
      · rename_i u' hr
        exact hsame (sameAudio_close hr)
      · exact ReflTransGen.refl
  | commandRejected id generation code now =>
      exact hsame (sameAudio_commandRejected u id generation code now)
  | poll now => exact hsame (sameAudio_poll u now)
  | drain => exact ReflTransGen.refl
  | takeCommands => exact ReflTransGen.refl

/-- Only the mute and the unmute change the settings of an uplink. -/
theorem sameTerms_apply (u : Uplink) (op : Op) (hmute : op ≠ .mute) (hunmute : op ≠ .unmute) :
    SameTerms u (u.apply op).1 := by
  have hopen : ∀ {id starts} {r : Except OpenError (Uplink × List Grant)},
      (∀ r', r = .ok r' → Opens u id starts r'.1) → SameTerms u (u.answerOpen r).1 := by
    intro id starts r h
    cases r with
    | ok r => exact (h r rfl).same
    | error e => exact SameTerms.refl u
  cases op with
  | streamOpened o => exact SameTerms.streamOpened u o
  | streamEnded e now => exact SameTerms.streamEnded u e now
  | ingest packet now => exact SameTerms.ingest u packet now
  | deviceEnded report now => exact SameTerms.deviceEnded u report now
  | mute => exact absurd rfl hmute
  | unmute => exact absurd rfl hunmute
  | sessionLost =>
      have hdiscard := SameTerms.discardAll u .sessionLost
      exact ⟨hdiscard.config, hdiscard.terms, hdiscard.muted⟩
  | acceptCandidate id captureEpoch supportStart now =>
      exact hopen fun r hr => (opens_acceptCandidate hr).1
  | «open» id reason owner streams now => exact hopen fun r hr => opens_open hr
  | openButtonTurn id turn press now => exact hopen fun r hr => opens_open hr
  | openReply id expectation cellsFrom now => exact hopen fun r hr => opens_open hr
  | openDiagnostic id mode now => exact hopen fun r hr => opens_open hr
  | openResponse id turn afeFrom micFrom now => exact hopen fun r hr => opens_open hr
  | openNearMiss id owner captureEpoch supportStart supportEnd now =>
      exact hopen fun r hr => opens_openNearMiss hr
  | convertToTurn id turn now =>
      simp only [apply, answerCommand]
      split
      · rename_i u' hr
        exact SameTerms.convertToTurn hr
      · exact SameTerms.refl u
  | close id reason now =>
      simp only [apply, answerCommand]
      split
      · rename_i u' hr
        exact SameTerms.close hr
      · exact SameTerms.refl u
  | commandRejected id generation code now => exact SameTerms.commandRejected u id generation code now
  | poll now => exact SameTerms.poll u now
  | drain => exact ⟨rfl, rfl, rfl⟩
  | takeCommands => exact ⟨rfl, rfl, rfl⟩

theorem terms_apply (u : Uplink) (op : Op) : (u.apply op).1.terms = u.terms := by
  by_cases hmute : op = .mute
  · subst hmute
    exact (SameTerms.discardAll { u with muted := true } .muted).terms
  by_cases hunmute : op = .unmute
  · subst hunmute
    rfl
  exact (sameTerms_apply u op hmute hunmute).terms

namespace Sound

theorem new (config : UplinkConfig) (terms : SessionTerms) (muted : Bool) :
    (Uplink.new config terms muted).Sound :=
  ⟨Timeline.Keeps.new config, fun _ h => by cases h⟩

theorem apply {u : Uplink} (h : u.Sound) (op : Op) : (u.apply op).1.Sound := by
  refine ⟨(changes_apply h op).keeps h.timeline, ?_⟩
  rcases apply_step h op with ⟨hmoves, -, -⟩ | ⟨id, starts, -, hopens, -, -⟩ |
    ⟨o, -, -, hdesk, -⟩ | ⟨-, hdesk, -⟩
  · have hall := hmoves op.over.toList fun e he => by rw [he]; exact List.mem_singleton_self e
    exact Moves.ready hall h.ready
  · obtain ⟨capture, sub, -, -, hbegins, hdesk⟩ := hopens.opened
    rw [show (u.apply op).1.subs = u.subs ++ [sub] from congrArg Desk.subs hdesk]
    exact List.forall_mem_append.mpr ⟨h.ready, by simpa using hbegins.ready⟩
  · rw [show (u.apply op).1.subs = u.subs.map (openReference o.epoch) from
      congrArg Desk.subs hdesk]
    exact List.forall_mem_map.mpr fun s hs => ready_openReference (h.ready s hs)
  · rw [show (u.apply op).1.subs = u.subs from congrArg Desk.subs hdesk]
    exact h.ready

theorem run {u : Uplink} (h : u.Sound) (ops : List Op) : (u.run ops).1.Sound := by
  induction ops generalizing u with
  | nil => exact h
  | cons op ops ih => exact ih (h.apply op)

end Sound

end EchoMuse.Uplink
