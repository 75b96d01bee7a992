import EchoMuse.Uplink.Accounts
import EchoMuse.Uplink.Moves

/-!
# Postings

What a session's deliveries are meant to do, said without counters: every delivery goes to the
back of the queue, a subscription is marked overflowed when the queue holds more for it than the
bounds allow, and a marked one ends for overflow. `Posting` is one such step of the desk. The
code's steps, with the accounts, are `Entry`; while the accounts count the queue an entry is a
posting.

## Main results

* `Entry.keeps`, `Entries.postings`: entries keep the accounts and show on the desk as postings;
* `Entries.releaseAll`, `Entries.settleSubs`, `Entries.endAll`: what the operations share.
-/

namespace EchoMuse.Uplink

open EchoMuse.Ema EchoMuse.Streams EchoMuse.Intervals EchoMuse.Traverse
open Relation

/-- Whether the end notice says that the consumer was overloaded. -/
def EndCause.isOverflow : EndCause → Bool
  | .overflow => true
  | _ => false

/-! ### Postings -/

/-- One step of the desk under these bounds; it discards only if `D`. -/
inductive Posting (maxBytes maxDeliveries : ℕ) (D : Prop) : Desk → Desk → Prop
  /-- A live subscription is sent a chunk, and marked if that leaves it past the bounds. -/
  | chunk (pre post : List Sub) {sub sub' : Sub} (ch : Chunk) (queue : List Delivery)
      (hid : sub'.id = sub.id) (hch : ch.subscription = sub.id)
      (hmark : sub'.overflowed = (sub.overflowed ||
        (queued (queue ++ [.chunk ch]) sub.id).over maxBytes maxDeliveries)) :
      Posting maxBytes maxDeliveries D ⟨pre ++ sub :: post, queue⟩
        ⟨pre ++ sub' :: post, queue ++ [.chunk ch]⟩
  /-- Anything but the ID and the mark of a subscription changes. -/
  | note (pre post : List Sub) {sub sub' : Sub} (queue : List Delivery) (hid : sub'.id = sub.id)
      (hmark : sub'.overflowed = sub.overflowed) :
      Posting maxBytes maxDeliveries D ⟨pre ++ sub :: post, queue⟩ ⟨pre ++ sub' :: post, queue⟩
  /-- A subscription opens, unmarked. -/
  | opened (subs : List Sub) (sub : Sub) (queue : List Delivery)
      (hmark : sub.overflowed = false) :
      Posting maxBytes maxDeliveries D ⟨subs, queue⟩ ⟨subs ++ [sub], queue⟩
  /-- A subscription ends: for overflow if it is marked, and otherwise after the ranges it was
  still owed are declared missing. -/
  | finish (pre post : List Sub) (sub : Sub) (owed : List Chunk) (e : Ended)
      (queue : List Delivery) (howed : ∀ ch ∈ owed, ch.subscription = sub.id ∧
        ch.body = .missing .timedOut ∧ sub.overflowed = false)
      (hid : e.subscription = sub.id) (hcause : e.cause.isOverflow = sub.overflowed) :
      Posting maxBytes maxDeliveries D ⟨pre ++ sub :: post, queue⟩
        ⟨pre ++ post, queue ++ owed.map .chunk ++ [.ended e]⟩
  /-- The queued chunks of one subscription are discarded. -/
  | discardOf (subs : List Sub) (id : SubscriptionId) (queue : List Delivery) (hdrops : D) :
      Posting maxBytes maxDeliveries D ⟨subs, queue⟩
        ⟨subs, queue.filter fun d => d.subscription ≠ id || d.isEnded⟩
  /-- Every queued chunk is discarded. -/
  | discard (subs : List Sub) (queue : List Delivery) (hdrops : D) :
      Posting maxBytes maxDeliveries D ⟨subs, queue⟩ ⟨subs, queue.filter Delivery.isEnded⟩

abbrev Postings (maxBytes maxDeliveries : ℕ) (D : Prop) : Desk → Desk → Prop :=
  ReflTransGen (Posting maxBytes maxDeliveries D)

namespace Postings

variable {maxBytes maxDeliveries : ℕ} {D : Prop} {d d' : Desk}

/-- Without discards, postings only add to the queue. -/
theorem queue_prefix (h : Postings maxBytes maxDeliveries D d d') (hD : ¬ D) :
    d.queue <+: d'.queue := by
  induction h with
  | refl => exact List.prefix_rfl
  | tail _ hstep ih =>
      refine ih.trans ?_
      cases hstep with
      | chunk pre post ch queue hid hch hmark => exact List.prefix_append _ _
      | note pre post queue hid hmark => exact List.prefix_rfl
      | opened subs sub queue hmark => exact List.prefix_rfl
      | finish pre post sub owed e queue howed hid hcause =>
          rw [List.append_assoc]
          exact List.prefix_append _ _
      | discardOf subs id queue hdrops => exact absurd hdrops hD
      | discard subs queue hdrops => exact absurd hdrops hD

/-- What waited stays in front in its order, but for chunks that were discarded. -/
theorem kept (h : Postings maxBytes maxDeliveries D d d') :
    ∃ kept new, d'.queue = kept ++ new ∧ kept.Sublist d.queue ∧
      kept.filter Delivery.isEnded = d.queue.filter Delivery.isEnded := by
  induction h with
  | refl => exact ⟨d.queue, [], (List.append_nil _).symm, List.Sublist.refl _, rfl⟩
  | tail _ hstep ih =>
      obtain ⟨kept, new, hqueue, hsub, hended⟩ := ih
      cases hstep with
      | chunk pre post ch queue hid hch hmark =>
          dsimp only at hqueue ⊢
          rw [hqueue]
          exact ⟨kept, new ++ [.chunk ch], List.append_assoc _ _ _, hsub, hended⟩
      | note pre post queue hid hmark => exact ⟨kept, new, hqueue, hsub, hended⟩
      | opened subs sub queue hmark => exact ⟨kept, new, hqueue, hsub, hended⟩
      | finish pre post sub owed e queue howed hid hcause =>
          dsimp only at hqueue ⊢
          rw [hqueue]
          exact ⟨kept, new ++ (owed.map .chunk ++ [.ended e]), by simp, hsub, hended⟩
      | discardOf subs id queue hdrops =>
          dsimp only at hqueue ⊢
          rw [hqueue]
          refine ⟨_, _, List.filter_append .., List.filter_sublist.trans hsub, ?_⟩
          rw [List.filter_filter, ← hended]
          refine List.filter_congr fun x _ => ?_
          cases x.isEnded <;> simp
      | discard subs queue hdrops =>
          dsimp only at hqueue ⊢
          rw [hqueue]
          refine ⟨_, _, List.filter_append .., List.filter_sublist.trans hsub, ?_⟩
          rw [List.filter_filter, ← hended]
          refine List.filter_congr fun x _ => ?_
          cases x.isEnded <;> simp

end Postings

/-! ### Entries -/

/-- Queues deliveries whatever the bounds say. -/
def Outbox.pushAll (o : Outbox) (deliveries : List Delivery) : Outbox :=
  deliveries.foldl (fun o d => (o.push d).1) o

/-- The live subscriptions and the outbox. -/
structure Book where
  subs : List Sub
  outbox : Outbox

/-- The subscriptions and the outbox of an uplink. -/
def book (u : Uplink) : Book := ⟨u.subs, u.outbox⟩

def Book.desk (b : Book) : Desk := ⟨b.subs, b.outbox.queue⟩

/-- One step of the book as the code takes it. Live subscriptions are sent chunks only if `R`.
Chunks are discarded only if `D`, and those of one subscription when no end notice of its ID
waits. -/
inductive Entry (R D : Prop) : Book → Book → Prop
  | chunk (pre post : List Sub) {sub sub' : Sub} (ch : Chunk) (o : Outbox) (hreleases : R)
      (hid : sub'.id = sub.id) (hch : ch.subscription = sub.id)
      (hmark : sub'.overflowed = (sub.overflowed || !(o.push (.chunk ch)).2)) :
      Entry R D ⟨pre ++ sub :: post, o⟩ ⟨pre ++ sub' :: post, (o.push (.chunk ch)).1⟩
  | note (pre post : List Sub) {sub sub' : Sub} (o : Outbox) (hid : sub'.id = sub.id)
      (hmark : sub'.overflowed = sub.overflowed) :
      Entry R D ⟨pre ++ sub :: post, o⟩ ⟨pre ++ sub' :: post, o⟩
  | opened (subs : List Sub) (sub : Sub) (o : Outbox) (hmark : sub.overflowed = false) :
      Entry R D ⟨subs, o⟩ ⟨subs ++ [sub], o⟩
  | finish (pre post : List Sub) (sub : Sub) (owed : List Chunk) (e : Ended) (o : Outbox)
      (howed : ∀ ch ∈ owed, ch.subscription = sub.id ∧ ch.body = .missing .timedOut ∧
        sub.overflowed = false)
      (hid : e.subscription = sub.id) (hcause : e.cause.isOverflow = sub.overflowed) :
      Entry R D ⟨pre ++ sub :: post, o⟩
        ⟨pre ++ post, o.pushAll (owed.map .chunk ++ [.ended e])⟩
  | discardOf (subs : List Sub) (id : SubscriptionId) (o : Outbox) (hdrops : D)
      (hclear : ∀ d ∈ o.queue, d.subscription = id → d.isEnded = false) :
      Entry R D ⟨subs, o⟩ ⟨subs, o.discardChunksOf id⟩
  | discard (subs : List Sub) (o : Outbox) (hdrops : D) :
      Entry R D ⟨subs, o⟩ ⟨subs, o.discardChunks⟩

abbrev Entries (R D : Prop) : Book → Book → Prop := ReflTransGen (Entry R D)

/-- The accounts count the queue, and the bounds are these. -/
structure Outbox.Keeps (o : Outbox) (maxBytes maxDeliveries : ℕ) : Prop where
  booked : o.Booked
  bytes : o.maxBytes = maxBytes
  deliveries : o.maxDeliveries = maxDeliveries

namespace Outbox.Keeps

variable {o : Outbox} {maxBytes maxDeliveries : ℕ}

theorem push (h : o.Keeps maxBytes maxDeliveries) (d : Delivery) :
    (o.push d).1.Keeps maxBytes maxDeliveries :=
  ⟨h.booked.push d, h.bytes, h.deliveries⟩

theorem pushAll (h : o.Keeps maxBytes maxDeliveries) (ds : List Delivery) :
    (o.pushAll ds).Keeps maxBytes maxDeliveries ∧ (o.pushAll ds).queue = o.queue ++ ds := by
  induction ds generalizing o with
  | nil => exact ⟨h, (List.append_nil _).symm⟩
  | cons d ds ih =>
      obtain ⟨hkeeps, hqueue⟩ := ih (h.push d)
      exact ⟨hkeeps, hqueue.trans (by rw [queue_push, List.append_assoc, List.singleton_append])⟩

theorem drain (h : o.Keeps maxBytes maxDeliveries) : o.drain.1.Keeps maxBytes maxDeliveries :=
  ⟨h.booked.drain, (foldl_take o.queue { o with queue := [] }).2.1.trans h.bytes,
    (foldl_take o.queue { o with queue := [] }).2.2.trans h.deliveries⟩

end Outbox.Keeps

variable {R D : Prop} {b b' : Book} {maxBytes maxDeliveries : ℕ}

/-- **An entry keeps the accounts, and is a posting on the desk.** -/
theorem Entry.keeps (h : Entry R D b b') (hb : b.outbox.Keeps maxBytes maxDeliveries) :
    b'.outbox.Keeps maxBytes maxDeliveries ∧
      Posting maxBytes maxDeliveries D b.desk b'.desk := by
  cases h with
  | chunk pre post ch o hreleases hid hch hmark =>
      refine ⟨hb.push _, Posting.chunk pre post ch o.queue hid hch ?_⟩
      have hover := hb.booked.push_snd (.chunk ch)
      rw [hb.bytes, hb.deliveries] at hover
      rw [hmark, hover, Bool.not_not]
      exact congrArg (fun i => _ || (queued _ i).over maxBytes maxDeliveries) hch
  | note pre post o hid hmark => exact ⟨hb, Posting.note pre post o.queue hid hmark⟩
  | opened subs sub o hmark => exact ⟨hb, Posting.opened subs sub o.queue hmark⟩
  | finish pre post sub owed e o howed hid hcause =>
      obtain ⟨hkeeps, hqueue⟩ := hb.pushAll (owed.map .chunk ++ [.ended e])
      refine ⟨hkeeps, ?_⟩
      have hposting : Posting maxBytes maxDeliveries D _ _ :=
        Posting.finish pre post sub owed e o.queue howed hid hcause
      rw [List.append_assoc, ← hqueue] at hposting
      exact hposting
  | discardOf subs id o hdrops hclear =>
      exact ⟨⟨hb.booked.discardChunksOf hclear, hb.bytes, hb.deliveries⟩,
        Posting.discardOf subs id o.queue hdrops⟩
  | discard subs o hdrops =>
      exact ⟨⟨hb.booked.discardChunks, hb.bytes, hb.deliveries⟩,
        Posting.discard subs o.queue hdrops⟩

/-- Entries keep the accounts, and are postings on the desk. -/
theorem Entries.postings (h : Entries R D b b') (hb : b.outbox.Keeps maxBytes maxDeliveries) :
    b'.outbox.Keeps maxBytes maxDeliveries ∧
      Postings maxBytes maxDeliveries D b.desk b'.desk := by
  induction h with
  | refl => exact ⟨hb, ReflTransGen.refl⟩
  | tail _ hentry ih =>
      obtain ⟨hkeeps, hposting⟩ := hentry.keeps ih.1
      exact ⟨hkeeps, ih.2.tail hposting⟩

namespace Entries

/-! ### Releases -/

/-- The book that shows `sub` between other subscriptions, with these wants, the outbox and the
mark passed through a release. -/
def around (pre : List Sub) (sub : Sub) (post : List Sub) (wants : List Want)
    (s : Outbox × Bool) : Book :=
  ⟨pre ++ { sub with wants := wants, overflowed := s.2 } :: post, s.1⟩

/-- A change of the wants alone. -/
theorem quiet (pre post : List Sub) (sub : Sub) (wants wants' : List Want) (s : Outbox × Bool) :
    Entries R D (around pre sub post wants s) (around pre sub post wants' s) :=
  ReflTransGen.single (Entry.note pre post s.1 rfl rfl)

/-- The release loop: every piece is one entry, and the last one may mark the subscription. -/
theorem releaseFrom (hR : R) (source : Source) (sub : Sub) (holeWait now : ℕ) (pre post : List Sub)
    (whole : Cursor → List Want) (fuel : ℕ) (c : Cursor) (s : Outbox × Bool) :
    Entries R D (around pre sub post (whole c) s)
      (around pre sub post
        (whole (source.releaseFrom sub.id sub.generation holeWait now fuel c s.1).1)
        ((source.releaseFrom sub.id sub.generation holeWait now fuel c s.1).2.1,
          s.2 || !(source.releaseFrom sub.id sub.generation holeWait now fuel c s.1).2.2)) := by
  have hsame : ∀ b : Bool, (b || !true) = b := by decide
  induction fuel generalizing c s with
  | zero =>
      rw [Source.releaseFrom, hsame]
  | succ fuel ih =>
      rw [Source.releaseFrom]
      cases hpos : c.pos with
      | none =>
          dsimp only
          rw [hsame]
      | some pos =>
          dsimp only
          cases hpace : source.pace c pos holeWait now with
          | wait stalled =>
              rw [hsame]
              exact quiet pre post sub _ _ s
          | release stop body =>
              dsimp only
              set ch : Chunk :=
                ⟨sub.id, sub.generation, source.stream, source.epoch, ⟨pos, stop⟩, body⟩
              set c' : Cursor := { c with pos := some stop, stalledSince := none }
              have hentry : Entry R D (around pre sub post (whole c) s)
                  (around pre sub post (whole c') ((s.1.push (.chunk ch)).1,
                    s.2 || !(s.1.push (.chunk ch)).2)) :=
                Entry.chunk pre post ch s.1 hR rfl rfl rfl
              cases hwithin : (s.1.push (.chunk ch)).2 with
              | true =>
                  rw [hwithin, hsame] at hentry
                  rw [if_pos rfl]
                  exact ReflTransGen.head hentry (ih c' ((s.1.push (.chunk ch)).1, s.2))
              | false =>
                  rw [hwithin] at hentry
                  rw [if_neg Bool.false_ne_true]
                  exact ReflTransGen.single hentry

/-- A change of a cursor, and then a release from it. -/
theorem release (hR : R) (source : Source) (sub : Sub) (holeWait now : ℕ) (pre post : List Sub)
    (before behind : List Want) (w : Want) (cs ds : List Cursor) (c c' : Cursor)
    (s : Outbox × Bool) :
    Entries R D
      (around pre sub post (before ++ { w with cursors := cs ++ c :: ds } :: behind) s)
      (around pre sub post (before ++
        { w with cursors := cs ++ (sub.release source holeWait now c' s).1 :: ds } :: behind)
        (sub.release source holeWait now c' s).2) :=
  (quiet pre post sub _ _ s).trans (releaseFrom hR source sub holeWait now pre post
    (fun c => before ++ { w with cursors := cs ++ c :: ds } :: behind) _ c' s)

/-- Everything a subscription can release at one time. -/
theorem releaseSub (hR : R) (timeline : Timeline) (holeWait now : ℕ) (pre post : List Sub) (sub : Sub)
    (o : Outbox) :
    Entries R D ⟨pre ++ sub :: post, o⟩
      ⟨pre ++ (releaseSub timeline holeWait now sub o).1 :: post,
        (releaseSub timeline holeWait now sub o).2⟩ := by
  refine Moves.cursors_steps (around pre sub post)
    (f := releaseCursor timeline holeWait now sub)
    (fun w _ c _ before behind cs ds s => ?_) (o, sub.overflowed)
  simp only [releaseCursor]
  cases hget : timeline.get w.stream c.epoch with
  | none => exact ReflTransGen.refl
  | some held => exact release hR _ sub holeWait now pre post before behind w cs ds c c s

theorem releaseAll (hR : R) (u : Uplink) (now : ℕ) : Entries R D (book u) (book (u.releaseAll now)) :=
  mapState_steps (fun subs (o : Outbox) => (⟨subs, o⟩ : Book))
    (fun sub _ pre post o => releaseSub hR u.timeline u.config.holeWait now pre post sub o) []
    u.outbox

/-! ### Endings -/

/-- The end notice of a subscription. -/
def notice (sub : Sub) (cause : EndCause) : Ended :=
  ⟨sub.id, sub.owner, sub.reason, sub.generation, cause⟩

theorem book_endSub (u : Uplink) (index : ℕ) (sub : Sub) (cause : EndCause) (leaves : Leaves)
    (now : ℕ) :
    book (u.endSub index sub cause leaves now) =
      ⟨u.subs.eraseIdx index, u.outbox.pushAll [.ended (notice sub cause)]⟩ := by
  cases leaves <;> rfl

theorem endSub {u : Uplink} {index : ℕ} {sub : Sub} (h : u.subs[index]? = some sub)
    {cause : EndCause} (hcause : cause.isOverflow = sub.overflowed) (leaves : Leaves) (now : ℕ) :
    Entries R D (book u) (book (u.endSub index sub cause leaves now)) := by
  obtain ⟨pre, post, hsubs, herase, -⟩ := exists_around_of_getElem? h
  rw [book_endSub, herase, book, hsubs]
  exact ReflTransGen.single (Entry.finish pre post sub [] (notice sub cause) u.outbox (by simp)
    rfl hcause)

theorem closeAt {u : Uplink} {index : ℕ} {sub : Sub} (h : u.subs[index]? = some sub)
    (reason : CloseReason) {cause : EndCause} (hcause : cause.isOverflow = sub.overflowed)
    (now : ℕ) : Entries R D (book u) (book (u.closeAt index sub reason cause now)) := by
  simp only [Uplink.closeAt]
  split_ifs
  · have hend : ({ u with commands := u.commands ++
      [⟨sub.generation, .close sub.id reason⟩] } : Uplink).subs[index]? = some sub := h
    exact endSub hend hcause .zombie now
  · exact endSub h hcause .gone now

/-- Every subscription ends. -/
theorem finishAll {cause : EndCause} (subs : List Sub)
    (hcause : ∀ sub ∈ subs, cause.isOverflow = sub.overflowed) (o : Outbox) :
    Entries R D ⟨subs, o⟩ ⟨[], o.pushAll (subs.map fun sub => .ended (notice sub cause))⟩ := by
  induction subs generalizing o with
  | nil => exact ReflTransGen.refl
  | cons sub subs ih =>
      rw [List.forall_mem_cons] at hcause
      exact ReflTransGen.head
        (Entry.finish [] subs sub [] (notice sub cause) o (by simp) rfl hcause.1)
        (ih hcause.2 (o.pushAll [.ended (notice sub cause)]))

/-- The book after a loop that pushes an end notice for every subscription. -/
theorem book_foldl_ended (cause : EndCause) {f : Uplink → Sub → Uplink}
    (hf : ∀ u sub, book (f u sub) = book (u.pushEnded sub cause)) (subs : List Sub) (u : Uplink) :
    book (subs.foldl f u) =
      ⟨u.subs, u.outbox.pushAll (subs.map fun sub => .ended (notice sub cause))⟩ := by
  induction subs generalizing u with
  | nil => rfl
  | cons sub subs ih =>
      have houtbox : (f u sub).outbox = u.outbox.pushAll [.ended (notice sub cause)] :=
        congrArg Book.outbox (hf u sub)
      have hsubs : (f u sub).subs = u.subs := congrArg Book.subs (hf u sub)
      rw [List.foldl_cons, ih, houtbox, hsubs]
      rfl

theorem book_endAll (u : Uplink) (cause : EndCause) :
    book (u.endAll cause) =
      ⟨[], u.outbox.pushAll (u.subs.map fun sub => .ended (notice sub cause))⟩ :=
  book_foldl_ended cause (f := fun (v : Uplink) sub =>
    ({ v with
      timeline := v.timeline.dropClaims sub.key
      commands := v.commands.filter (·.command.subscriptionId ≠ sub.id) } : Uplink).pushEnded sub
        cause) (fun _ _ => rfl) u.subs { u with subs := [] }

theorem endAll {u : Uplink} {cause : EndCause}
    (hcause : ∀ sub ∈ u.subs, cause.isOverflow = sub.overflowed) :
    Entries R D (book u) (book (u.endAll cause)) := by
  rw [book_endAll]
  exact finishAll u.subs hcause u.outbox

theorem discardAll {u : Uplink} {cause : EndCause}
    (hcause : ∀ sub ∈ u.subs, cause.isOverflow = sub.overflowed) (hdrops : D) :
    Entries R D (book u) (book (u.discardAll cause)) := by
  have hbook : book (u.discardAll cause) =
      ⟨[], u.outbox.discardChunks.pushAll (u.subs.map fun sub => .ended (notice sub cause))⟩ :=
    book_foldl_ended cause (fun _ _ => rfl) u.subs
      { u with outbox := u.outbox.discardChunks, commands := [], zombies := [], subs := [] }
  rw [hbook]
  exact ReflTransGen.head (Entry.discard u.subs u.outbox hdrops)
    (finishAll u.subs hcause u.outbox.discardChunks)

/-! ### Settling -/

/-- What a drain that ran out still owed is declared missing, piece by piece. -/
theorem giveUpDrain (sub : Sub) (o : Outbox) :
    ∃ owed : List Chunk, (giveUpDrain sub o).2 = o.pushAll (owed.map .chunk) ∧
      ∀ ch ∈ owed, ch.subscription = sub.id ∧ ch.body = .missing .timedOut := by
  have hsteps : ReflTransGen (fun o o' : Outbox => ∃ ch : Chunk, ch.subscription = sub.id ∧
      ch.body = .missing .timedOut ∧ o' = (o.push (.chunk ch)).1) o
      (Uplink.giveUpDrain sub o).2 := by
    refine Moves.cursors_steps (fun _ (o : Outbox) => o) (f := giveUpCursor sub)
      (fun w _ c _ _ _ _ _ o => ?_) o
    rw [giveUpCursor]
    split
    · split_ifs
      · exact ReflTransGen.refl
      · exact ReflTransGen.single ⟨_, rfl, rfl, rfl⟩
    · exact ReflTransGen.refl
  generalize (Uplink.giveUpDrain sub o).2 = o' at hsteps
  induction hsteps with
  | refl => exact ⟨[], rfl, by simp⟩
  | tail _ hstep ih =>
      obtain ⟨ch, hid, hbody, rfl⟩ := hstep
      obtain ⟨owed, heq, howed⟩ := ih
      refine ⟨owed ++ [ch], ?_, ?_⟩
      · rw [heq, List.map_append, Outbox.pushAll, Outbox.pushAll, List.foldl_append]
        rfl
      · rw [List.forall_mem_append]
        exact ⟨howed, by simp [hid, hbody]⟩

theorem settleAt {u : Uplink} {index : ℕ} {sub : Sub} (h : u.subs[index]? = some sub)
    (now : ℕ) : Entries R D (book u) (book (u.settleAt index sub now).1) := by
  rw [Uplink.settleAt]
  by_cases hover : sub.overflowed = true
  · rw [if_pos hover]
    exact closeAt h .closed (by rw [hover]; rfl) now
  rw [if_neg hover]
  rw [Bool.not_eq_true] at hover
  cases sub.phase with
  | draining report deadline =>
      dsimp only
      split_ifs
      · exact endSub h (by rw [hover]; rfl) .gone now
      · -- the ranges still owed and the end notice are one entry
        obtain ⟨pre, post, hsubs, herase, -⟩ := exists_around_of_getElem? h
        obtain ⟨owed, hgiven, howed⟩ := giveUpDrain sub u.outbox
        have hfinish := Entry.finish (R := R) (D := D) pre post sub owed (notice sub (.device report))
          u.outbox (fun ch hch => ⟨(howed ch hch).1, (howed ch hch).2, hover⟩) rfl
          (by rw [hover]; rfl)
        have hpushed : u.outbox.pushAll (owed.map .chunk ++ [.ended (notice sub (.device report))])
            = (Uplink.giveUpDrain sub u.outbox).2.pushAll
              [.ended (notice sub (.device report))] := by
          rw [hgiven, Outbox.pushAll, List.foldl_append]
          rfl
        rw [book_endSub, List.eraseIdx_set_eq, herase, book, hsubs]
        rw [hpushed] at hfinish
        exact ReflTransGen.single hfinish
      · exact ReflTransGen.refl
  | active nextRenewal =>
      dsimp only
      split_ifs
      · exact closeAt h .closed (by rw [hover]; rfl) now
      · exact ReflTransGen.refl

theorem settleSubs {u : Uplink} (h : Entries R D b (book u)) (now : ℕ) :
    Entries R D b (book (u.settleSubs now)) := by
  suffices hfrom : ∀ fuel index (u : Uplink),
      Entries R D (book u) (book (settleFrom now fuel index u)) from
    h.trans (hfrom u.subs.length 0 u)
  intro fuel
  induction fuel with
  | zero => exact fun _ _ => ReflTransGen.refl
  | succ fuel ih =>
      intro index u
      rw [settleFrom]
      split
      · exact ReflTransGen.refl
      · rename_i sub hsub
        exact (settleAt hsub now).trans (ih _ _)

end Entries

end EchoMuse.Uplink
