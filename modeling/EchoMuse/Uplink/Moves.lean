import EchoMuse.Uplink.Operations
import EchoMuse.Uplink.Serving

/-!
# Operations as Moves

What the consumers see of an `Uplink` is its desk: the live subscriptions and the queue. Every
operation changes the desk by a sequence of small moves: a cursor goes on and queues chunks, a
reference cursor is retired, a subscription is finished with its end notice, or queued chunks
of subscriptions that ended are discarded. Invariants of the desk are proved move by move.

## Main results

* `Move`, `Move.ready`: the moves, and that they keep the cursors ready;
* `Moves.releaseAll`, `Moves.endAll`, `Moves.settleSubs`: what the operations share.
-/

namespace EchoMuse.Uplink

open EchoMuse.Ema EchoMuse.Streams EchoMuse.Intervals EchoMuse.Traverse
open Relation

/-! ### The desk -/

/-- The live subscriptions and the deliveries waiting. -/
structure Desk where
  subs : List Sub
  queue : List Delivery

/-- What the consumers see of an uplink. -/
def desk (u : Uplink) : Desk := ⟨u.subs, u.outbox.queue⟩

/-- Every cursor of the subscription is ready. -/
def Sub.Ready (s : Sub) : Prop := ∀ w ∈ s.wants, ∀ c ∈ w.cursors, c.Ready

/-- The desk that shows `sub` between other subscriptions, with these wants, the outbox and
overflow mark passed through a release. -/
def Desk.around (pre : List Sub) (sub : Sub) (post : List Sub) (wants : List Want)
    (s : Outbox × Bool) : Desk :=
  ⟨pre ++ { sub with wants := wants, overflowed := s.2 } :: post, s.1.queue⟩

/-- One move on the desk. The chunks it queues have the property `Q`; it retires reference
cursors only on the epochs `E`; and it discards only if `D`. -/
inductive Move (Q : Chunk → Prop) (E : List UInt64) (D : Prop) : Desk → Desk → Prop
  /-- A cursor goes on, and what it passes is queued. -/
  | cursor (pre post : List Sub) (sub : Sub) (before behind : List Want) (w : Want)
      (cs ds : List Cursor) {c c' : Cursor} {new : List Chunk} (queue : List Delivery)
      (h : Serves Q sub.id w.stream c new c') :
      Move Q E D
        ⟨pre ++ { sub with
          wants := before ++ { w with cursors := cs ++ c :: ds } :: behind } :: post, queue⟩
        ⟨pre ++ { sub with
          wants := before ++ { w with cursors := cs ++ c' :: ds } :: behind } :: post,
          queue ++ new.map .chunk⟩
  /-- The cursor of a reference epoch that is over goes away. -/
  | retire (pre post : List Sub) (sub : Sub) (before behind : List Want) (w : Want)
      (cs ds : List Cursor) (c : Cursor) (queue : List Delivery) (hstream : w.stream = .reference)
      (hover : c.epoch ∈ E) :
      Move Q E D
        ⟨pre ++ { sub with
          wants := before ++ { w with cursors := cs ++ c :: ds } :: behind } :: post, queue⟩
        ⟨pre ++ { sub with
          wants := before ++ { w with cursors := cs ++ ds } :: behind } :: post, queue⟩
  /-- Anything but the ID and the cursors of a subscription changes. -/
  | note (pre post : List Sub) {sub sub' : Sub} (queue : List Delivery) (hid : sub'.id = sub.id)
      (hwants : sub'.wants = sub.wants) :
      Move Q E D ⟨pre ++ sub :: post, queue⟩ ⟨pre ++ sub' :: post, queue⟩
  /-- A subscription ends. -/
  | finish (pre post : List Sub) (sub : Sub) (e : Ended) (queue : List Delivery)
      (hid : e.subscription = sub.id) :
      Move Q E D ⟨pre ++ sub :: post, queue⟩ ⟨pre ++ post, queue ++ [.ended e]⟩
  /-- A subscription ends, and its queued chunks are discarded. -/
  | drop (pre post : List Sub) (sub : Sub) (e : Ended) (queue : List Delivery) (hdrops : D)
      (hid : e.subscription = sub.id) :
      Move Q E D ⟨pre ++ sub :: post, queue⟩
        ⟨pre ++ post,
          queue.filter (fun d => d.subscription ≠ sub.id || d.isEnded) ++ [.ended e]⟩
  /-- With no subscription left, every queued chunk is discarded. -/
  | discard (queue : List Delivery) (hdrops : D) :
      Move Q E D ⟨[], queue⟩ ⟨[], queue.filter Delivery.isEnded⟩

/-- A sequence of moves. -/
abbrev Moves (Q : Chunk → Prop) (E : List UInt64) (D : Prop) : Desk → Desk → Prop :=
  ReflTransGen (Move Q E D)

variable {Q : Chunk → Prop} {E : List UInt64} {D : Prop} {d d' : Desk}

/-- Moves keep the cursors ready. -/
theorem Move.ready (h : Move Q E D d d') (hd : ∀ s ∈ d.subs, s.Ready) :
    ∀ s ∈ d'.subs, s.Ready := by
  cases h with
  | cursor pre post sub before behind w cs ds queue h =>
      simp only [Sub.Ready, List.forall_mem_append, List.forall_mem_cons] at hd ⊢
      exact ⟨hd.1, ⟨hd.2.1.1, ⟨hd.2.1.2.1.1, h.ready, hd.2.1.2.1.2.2⟩, hd.2.1.2.2⟩, hd.2.2⟩
  | retire pre post sub before behind w cs ds c queue _ _ =>
      simp only [Sub.Ready, List.forall_mem_append, List.forall_mem_cons] at hd ⊢
      exact ⟨hd.1, ⟨hd.2.1.1, ⟨hd.2.1.2.1.1, hd.2.1.2.1.2.2⟩, hd.2.1.2.2⟩, hd.2.2⟩
  | note pre post queue hid hwants =>
      simp only [Sub.Ready, List.forall_mem_append, List.forall_mem_cons] at hd ⊢
      rw [hwants]
      exact hd
  | finish pre post sub e queue hid =>
      rw [List.forall_mem_append, List.forall_mem_cons] at hd
      exact List.forall_mem_append.mpr ⟨hd.1, hd.2.2⟩
  | drop pre post sub e queue hdrops hid =>
      rw [List.forall_mem_append, List.forall_mem_cons] at hd
      exact List.forall_mem_append.mpr ⟨hd.1, hd.2.2⟩
  | discard queue hdrops => exact hd

theorem Moves.ready (h : Moves Q E D d d') (hd : ∀ s ∈ d.subs, s.Ready) :
    ∀ s ∈ d'.subs, s.Ready := by
  induction h with
  | refl => exact hd
  | tail _ hmove ih => exact hmove.ready ih

namespace Moves

/-! ### Releases -/

/-- A loop over the wants and cursors that handles the cursor of one stream epoch. -/
theorem findCursor_steps {σ τ : Type} {r : τ → τ → Prop} (whole : List Want → σ → τ)
    {stream : StreamId} {epoch : UInt64} {f : Cursor → σ → Cursor × σ} {wants : List Want}
    (hf : ∀ w ∈ wants, w.stream = stream → ∀ c ∈ w.cursors, c.epoch = epoch →
      ∀ before behind cs ds s,
        ReflTransGen r (whole (before ++ { w with cursors := cs ++ c :: ds } :: behind) s)
          (whole (before ++ { w with cursors := cs ++ (f c s).1 :: ds } :: behind) (f c s).2))
    (s : σ) :
    ReflTransGen r (whole wants s) (whole (findCursor stream epoch f wants s).1
      (findCursor stream epoch f wants s).2) := by
  refine updateFirst_steps whole (fun w hw hstream before behind s => ?_) [] s
  refine updateFirst_steps (fun cursors s => whole (before ++ { w with cursors := cursors } :: behind) s)
    (fun c hc hepoch cs ds s => ?_) [] s
  exact hf w hw (by simpa using hstream) c hc (by simpa using hepoch) before behind cs ds s

/-- A loop over every cursor of every want. -/
theorem cursors_steps {σ τ : Type} {r : τ → τ → Prop} (whole : List Want → σ → τ)
    {f : StreamId → Cursor → σ → Cursor × σ} {wants : List Want}
    (hf : ∀ w ∈ wants, ∀ c ∈ w.cursors, ∀ before behind cs ds s,
        ReflTransGen r (whole (before ++ { w with cursors := cs ++ c :: ds } :: behind) s)
          (whole (before ++ { w with cursors := cs ++ (f w.stream c s).1 :: ds } :: behind)
            (f w.stream c s).2))
    (s : σ) :
    ReflTransGen r (whole wants s)
      (whole (mapState (fun w s => ({ w with cursors := (mapState (f w.stream) w.cursors s).1 },
          (mapState (f w.stream) w.cursors s).2)) wants s).1
        (mapState (fun w s => ({ w with cursors := (mapState (f w.stream) w.cursors s).1 },
          (mapState (f w.stream) w.cursors s).2)) wants s).2) := by
  refine mapState_steps whole (fun w hw before behind s => ?_) [] s
  exact mapState_steps (fun cursors s => whole (before ++ { w with cursors := cursors } :: behind) s)
    (fun c hc cs ds s => hf w hw c hc before behind cs ds s) [] s

/-- A change of a cursor that queues nothing, and then a release from it. -/
theorem release {source : Source} (hs : source.Sound) (hQ : ∀ ch, source.Cuts ch → Q ch)
    {w : Want} (hstream : source.stream = w.stream) {c c' : Cursor} (hepoch : source.epoch = c.epoch)
    (sub : Sub) (hc : Serves Q sub.id w.stream c [] c') (pre post : List Sub)
    (before behind : List Want) (cs ds : List Cursor) (holeWait now : ℕ) (s : Outbox × Bool) :
    Moves Q E D
      (.around pre sub post (before ++ { w with cursors := cs ++ c :: ds } :: behind) s)
      (.around pre sub post (before ++
        { w with cursors := cs ++ (sub.release source holeWait now c' s).1 :: ds } :: behind)
        (sub.release source holeWait now c' s).2) := by
  obtain ⟨new, hqueue, hserves⟩ := release_serves hs sub.id sub.generation holeWait now
    (hepoch.trans hc.epoch.symm) hc.ready s.1
  rw [hstream] at hserves
  have hserved : Serves Q sub.id w.stream c ([] ++ new)
      (sub.release source holeWait now c' s).1 := hc.trans (hserves.imp hQ)
  refine (ReflTransGen.single (Move.cursor pre post { sub with overflowed := s.2 } before behind w
    cs ds s.1.queue hserved)).tail ?_
  simp only [Desk.around, Sub.release, hqueue]
  exact Move.note pre post _ rfl rfl

/-- A change of a cursor that queues nothing. -/
theorem quiet {w : Want} {c c' : Cursor} {sub : Sub} (h : Serves Q sub.id w.stream c [] c')
    (pre post : List Sub) (before behind : List Want) (cs ds : List Cursor)
    (queue : List Delivery) :
    Moves Q E D
      ⟨pre ++ { sub with
        wants := before ++ { w with cursors := cs ++ c :: ds } :: behind } :: post, queue⟩
      ⟨pre ++ { sub with
        wants := before ++ { w with cursors := cs ++ c' :: ds } :: behind } :: post, queue⟩ := by
  have hmove := Move.cursor (E := E) (D := D) pre post sub before behind w cs ds
    queue h
  rw [List.map_nil, List.append_nil] at hmove
  exact ReflTransGen.single hmove

/-- Everything a subscription can release at one time. -/
theorem releaseSub (hQ : ∀ ch, Q ch) {timeline : Timeline} (ht : timeline.Sound) {sub : Sub}
    (hsub : sub.Ready) (holeWait now : ℕ) (pre post : List Sub) (o : Outbox) :
    Moves Q E D ⟨pre ++ sub :: post, o.queue⟩
      ⟨pre ++ (releaseSub timeline holeWait now sub o).1 :: post,
        (releaseSub timeline holeWait now sub o).2.queue⟩ := by
  refine cursors_steps (Desk.around pre sub post)
    (f := releaseCursor timeline holeWait now sub)
    (fun w hw c hc before behind cs ds s => ?_) (o, sub.overflowed)
  simp only [releaseCursor]
  cases hget : timeline.get w.stream c.epoch with
  | none => exact ReflTransGen.refl
  | some held =>
      have hs : Source.Sound ⟨held.buffer, held.track.liveEnd, none, w.stream, held.epoch⟩ :=
        ht.get hget
      exact release hs (fun ch _ => hQ ch) rfl (Timeline.get_mem hget).2 sub
        (Serves.refl (hsub w hw c hc)) pre post before behind cs ds holeWait now s

theorem releaseAll (hQ : ∀ ch, Q ch) {u : Uplink} (ht : u.timeline.Sound)
    (hu : ∀ s ∈ u.subs, s.Ready) (now : ℕ) :
    Moves Q E D (desk u) (desk (u.releaseAll now)) :=
  mapState_steps (fun subs (o : Outbox) => (⟨subs, o.queue⟩ : Desk))
    (fun s hs pre post o => releaseSub hQ ht (hu s hs) u.config.holeWait now pre post o) [] u.outbox

/-! ### Endings -/

theorem desk_endSub (u : Uplink) (index : ℕ) (sub : Sub) (cause : EndCause) (leaves : Leaves)
    (now : ℕ) :
    desk (u.endSub index sub cause leaves now) = ⟨u.subs.eraseIdx index, u.outbox.queue ++
      [.ended ⟨sub.id, sub.owner, sub.reason, sub.generation, cause⟩]⟩ := by
  cases leaves <;> rfl

theorem endSub {u : Uplink} {index : ℕ} {sub : Sub} (h : u.subs[index]? = some sub)
    (cause : EndCause) (leaves : Leaves) (now : ℕ) :
    Moves Q E D (desk u) (desk (u.endSub index sub cause leaves now)) := by
  obtain ⟨pre, post, hsubs, herase, -⟩ := exists_around_of_getElem? h
  rw [desk_endSub, herase, desk, hsubs]
  exact ReflTransGen.single (Move.finish pre post sub _ u.outbox.queue rfl)

theorem closeAt {u : Uplink} {index : ℕ} {sub : Sub} (h : u.subs[index]? = some sub)
    (reason : CloseReason) (cause : EndCause) (now : ℕ) :
    Moves Q E D (desk u) (desk (u.closeAt index sub reason cause now)) := by
  simp only [Uplink.closeAt]
  split_ifs
  · have hend : ({ u with commands := u.commands ++
      [⟨sub.generation, .close sub.id reason⟩] } : Uplink).subs[index]? = some sub := h
    exact endSub hend cause .zombie now
  · exact endSub h cause .gone now

/-- Every subscription ends. -/
theorem finishAll (cause : EndCause) (subs : List Sub) (queue : List Delivery) :
    Moves Q E D ⟨subs, queue⟩ ⟨[], queue ++ subs.map fun sub =>
      .ended ⟨sub.id, sub.owner, sub.reason, sub.generation, cause⟩⟩ := by
  induction subs generalizing queue with
  | nil =>
      rw [List.map_nil, List.append_nil]
  | cons sub subs ih =>
      have hrest := ih (queue ++ [.ended ⟨sub.id, sub.owner, sub.reason, sub.generation, cause⟩])
      rw [List.append_assoc] at hrest
      exact ReflTransGen.head (Move.finish [] subs sub _ queue rfl) hrest

/-- The desk after a loop that pushes an end notice for every subscription. -/
theorem desk_foldl_ended (cause : EndCause) {f : Uplink → Sub → Uplink}
    (hf : ∀ u sub, desk (f u sub) = desk (u.pushEnded sub cause)) (subs : List Sub) (u : Uplink) :
    desk (subs.foldl f u) = ⟨u.subs, u.outbox.queue ++ subs.map fun sub =>
      .ended ⟨sub.id, sub.owner, sub.reason, sub.generation, cause⟩⟩ := by
  induction subs generalizing u with
  | nil => simp [desk]
  | cons sub subs ih =>
      have hqueue : (f u sub).outbox.queue = u.outbox.queue ++
          [.ended ⟨sub.id, sub.owner, sub.reason, sub.generation, cause⟩] :=
        congrArg Desk.queue (hf u sub)
      have hsubs : (f u sub).subs = u.subs := congrArg Desk.subs (hf u sub)
      rw [List.foldl_cons, ih, hqueue, hsubs, List.append_assoc, List.map_cons,
        List.singleton_append]

theorem desk_endAll (u : Uplink) (cause : EndCause) :
    desk (u.endAll cause) = ⟨[], u.outbox.queue ++ u.subs.map fun sub =>
      .ended ⟨sub.id, sub.owner, sub.reason, sub.generation, cause⟩⟩ :=
  desk_foldl_ended cause (f := fun (v : Uplink) sub =>
    ({ v with
      timeline := v.timeline.dropClaims sub.key
      commands := v.commands.filter (·.command.subscriptionId ≠ sub.id) } : Uplink).pushEnded sub
        cause) (fun _ _ => rfl) u.subs { u with subs := [] }

theorem endAll (u : Uplink) (cause : EndCause) :
    Moves Q E D (desk u) (desk (u.endAll cause)) := by
  rw [desk_endAll]
  exact finishAll cause u.subs u.outbox.queue

theorem desk_discardAll (u : Uplink) (cause : EndCause) :
    desk (u.discardAll cause) = ⟨[], u.outbox.queue.filter Delivery.isEnded ++
      u.subs.map fun sub => .ended ⟨sub.id, sub.owner, sub.reason, sub.generation, cause⟩⟩ :=
  desk_foldl_ended cause (fun _ _ => rfl) u.subs
    { u with outbox := u.outbox.discardChunks, commands := [], zombies := [], subs := [] }

theorem discardAll (hdrops : D) (u : Uplink) (cause : EndCause) :
    Moves Q E D (desk u) (desk (u.discardAll cause)) := by
  rw [desk_discardAll]
  refine (finishAll cause u.subs u.outbox.queue).tail ?_
  have hmove := Move.discard (Q := Q) (E := E) (u.outbox.queue ++ u.subs.map fun sub =>
    .ended ⟨sub.id, sub.owner, sub.reason, sub.generation, cause⟩) hdrops
  have hkeep : (u.subs.map fun sub => Delivery.ended
      ⟨sub.id, sub.owner, sub.reason, sub.generation, cause⟩).filter Delivery.isEnded =
      u.subs.map fun sub => .ended ⟨sub.id, sub.owner, sub.reason, sub.generation, cause⟩ := by
    refine List.filter_eq_self.mpr fun d hd => ?_
    obtain ⟨sub, -, rfl⟩ := List.mem_map.mp hd
    rfl
  rw [List.filter_append, hkeep] at hmove
  exact hmove

/-! ### Settling -/

/-- Everything a drain that ran out still owed. -/
theorem giveUpDrain (hQ : ∀ ch : Chunk, ch.body = .missing .timedOut → Q ch) {sub : Sub}
    (hsub : sub.Ready) (pre post : List Sub) (o : Outbox) :
    Moves Q E D ⟨pre ++ sub :: post, o.queue⟩
      ⟨pre ++ (giveUpDrain sub o).1 :: post, (giveUpDrain sub o).2.queue⟩ := by
  refine cursors_steps (fun wants (o : Outbox) =>
      (⟨pre ++ { sub with wants := wants } :: post, o.queue⟩ : Desk))
    (f := giveUpCursor sub) (fun w hw c hc before behind cs ds o => ?_) o
  obtain ⟨new, hqueue, hserves⟩ := Serves.giveUp (hsub w hw c hc) sub o hQ
  rw [hqueue]
  exact ReflTransGen.single (Move.cursor pre post sub before behind w cs ds o.queue hserves)

theorem settleAt (hQ : ∀ ch : Chunk, ch.body = .missing .timedOut → Q ch) {u : Uplink}
    {index : ℕ} {sub : Sub} (h : u.subs[index]? = some sub) (hsub : sub.Ready) (now : ℕ) :
    Moves Q E D (desk u) (desk (u.settleAt index sub now).1) := by
  rw [Uplink.settleAt]
  by_cases hover : sub.overflowed = true
  · rw [if_pos hover]
    exact closeAt h .closed .overflow now
  rw [if_neg hover]
  cases sub.phase with
  | draining report deadline =>
      dsimp only
      split_ifs
      · exact endSub h (.device report) .gone now
      · obtain ⟨pre, post, hsubs, -, hset⟩ := exists_around_of_getElem? h
        have hgive := giveUpDrain (E := E) (D := D) hQ hsub pre post u.outbox
        rw [← hsubs, ← hset] at hgive
        set v : Uplink := { u with
          subs := u.subs.set index (Uplink.giveUpDrain sub u.outbox).1
          outbox := (Uplink.giveUpDrain sub u.outbox).2 } with hv
        have hlast : v.subs[index]? = some (Uplink.giveUpDrain sub u.outbox).1 :=
          List.getElem?_set_self (List.getElem?_eq_some_iff.mp h).1
        exact hgive.trans (endSub hlast (.device report) .gone now)
      · exact ReflTransGen.refl
  | active nextRenewal =>
      dsimp only
      split_ifs
      · exact closeAt h .closed (.closed .closed) now
      · exact ReflTransGen.refl

theorem settleFrom (hQ : ∀ ch : Chunk, ch.body = .missing .timedOut → Q ch) (now fuel index : ℕ)
    {u : Uplink} (hu : ∀ s ∈ u.subs, s.Ready) :
    Moves Q E D (desk u) (desk (settleFrom now fuel index u)) := by
  induction fuel generalizing index u with
  | zero => exact ReflTransGen.refl
  | succ fuel ih =>
      rw [Uplink.settleFrom]
      split
      · exact ReflTransGen.refl
      · rename_i sub hsub
        have hturn := settleAt (E := E) (D := D) hQ hsub
          (hu sub (List.mem_of_getElem? hsub)) now
        exact hturn.trans (ih _ (hturn.ready hu))

theorem settleSubs (hQ : ∀ ch : Chunk, ch.body = .missing .timedOut → Q ch) {u : Uplink}
    (hu : ∀ s ∈ u.subs, s.Ready) (now : ℕ) :
    Moves Q E D (desk u) (desk (u.settleSubs now)) :=
  settleFrom hQ now u.subs.length 0 hu

end Moves

end EchoMuse.Uplink
