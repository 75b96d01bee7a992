import EchoMuse.Uplink.Runs

/-!
# Gapless Ordered Delivery

What a subscription's consumer gets over a whole run, drained or still queued. The feed of an
ID is one block after the other, one for each time a subscription opened under it: the chunks
of the block are contiguous on every stream epoch and start where the subscription asked, and
the block ends with the subscription's only end notice.

## Main results

* `Follows`, `Follows.serve`: a subscription's chunks lead up to its cursors' positions;
* `Feeds`, `Move.feeds`: the feeds of all subscriptions over one move;
* `gapless_delivery`: the feeds over a whole run.
-/

namespace EchoMuse.Uplink

open EchoMuse.Ema EchoMuse.Streams EchoMuse.Intervals EchoMuse.Traverse
open Relation

/-! ### The chunks of one activation -/

/-- The stream epoch a chunk is of. -/
def Chunk.key (c : Chunk) : StreamId × UInt64 := (c.stream, c.epoch)

/-- The chunks of one stream epoch. -/
def onKey (k : StreamId × UInt64) (cs : List Chunk) : List Chunk := cs.filter (·.key = k)

/-- The chunks of one activation are in order: on each stream epoch each starts where the one
before ended, and a capture stream opened at a sample starts there, on the device's grid. -/
structure InOrder (starts : Starts) (cs : List Chunk) : Prop where
  contiguous : ∀ k, ∃ p q, Chain p (onKey k cs) q
  first : ∀ stream x, stream ≠ .reference → starts stream = some (.at x) →
    ∀ epoch c, (onKey (stream, epoch) cs).head? = some c →
      c.span.start = roundDown x (deviceGrid stream)

/-- The feed of an ID whose activations have all ended: for each, its chunks in order and then
its end notice. -/
inductive Closed : List Starts → List Delivery → Prop
  | nil : Closed [] []
  | snoc {olds : List Starts} {old : List Delivery} {starts : Starts} {cs : List Chunk}
      (e : Ended) (hold : Closed olds old) (horder : InOrder starts cs) :
      Closed (olds ++ [starts]) (old ++ cs.map .chunk ++ [.ended e])

/-- The feed of an ID: all its activations have ended, or all but the last. -/
def Served (opened : List Starts) (feed : List Delivery) : Prop :=
  Closed opened feed ∨ ∃ olds starts old cs, opened = olds ++ [starts] ∧
    feed = old ++ cs.map .chunk ∧ Closed olds old ∧ InOrder starts cs

/-! ### Chains and prefixes -/

theorem onKey_append (k : StreamId × UInt64) (cs ds : List Chunk) :
    onKey k (cs ++ ds) = onKey k cs ++ onKey k ds := List.filter_append _ _

theorem Chain.head_eq {p : ℕ} {q : Option ℕ} {cs : List Chunk} (h : Chain (some p) cs q) {c : Chunk}
    (hc : cs.head? = some c) : c.span.start = p := by
  cases h with
  | nil => cases hc
  | cons hlt hrest =>
      rw [List.head?_cons, Option.some.injEq] at hc
      rw [← hc]

theorem Chain.next {p q : Option ℕ} {c d : Chunk} {cs : List Chunk}
    (h : Chain p (c :: d :: cs) q) : d.span.start = c.span.end := by
  cases h with
  | cons hlt hrest => exact hrest.head_eq rfl

/-- The first chunks of an activation in order are in order. -/
theorem InOrder.of_append {starts : Starts} {cs ds : List Chunk} (h : InOrder starts (cs ++ ds)) :
    InOrder starts cs where
  contiguous := by
    intro k
    obtain ⟨p, q, hchain⟩ := h.contiguous k
    rw [onKey_append] at hchain
    obtain ⟨r, hr⟩ := hchain.of_append
    exact ⟨p, r, hr⟩
  first := by
    intro stream x hstream hstart epoch c hc
    refine h.first stream x hstream hstart epoch c ?_
    rw [onKey_append, List.head?_append, hc, Option.some_or]

theorem InOrder.nil {starts : Starts} {cs : List Chunk} (h : InOrder starts cs) :
    InOrder starts [] := by
  rw [← List.nil_append cs] at h
  exact h.of_append

/-- A chunk after the end of a feed that is discarded with all chunks behind it. -/
theorem thin_open {olds : List Starts} {starts : Starts} {old feed rest : List Delivery}
    {cs : List Chunk} (horder : InOrder starts cs) (hfeed : feed ++ rest = old ++ cs.map .chunk)
    (hclosed : Closed olds old)
    (hthin : ∀ feed rest, feed ++ rest = old → Closed olds (feed ++ rest.filter Delivery.isEnded)) :
    ∃ old' cs', feed ++ rest.filter Delivery.isEnded = old' ++ List.map .chunk cs' ∧
      Closed olds old' ∧ InOrder starts cs' := by
  rcases List.append_eq_append_iff.mp hfeed with ⟨as, has, hrest⟩ | ⟨as, has, hchunks⟩
  · -- the feed breaks off inside the ended activations
    have hchunks : (cs.map Delivery.chunk).filter Delivery.isEnded = [] := by
      rw [List.filter_eq_nil_iff]
      intro d hd
      obtain ⟨c, -, rfl⟩ := List.mem_map.mp hd
      exact Bool.false_ne_true
    refine ⟨feed ++ as.filter Delivery.isEnded, [], ?_, hthin feed as has.symm,
      horder.nil⟩
    rw [hrest, List.filter_append, hchunks, List.append_nil, List.map_nil, List.append_nil]
  · obtain ⟨cs', ds, rfl, rfl, hds⟩ := List.map_eq_append_iff.mp hchunks
    have hrest : rest.filter Delivery.isEnded = [] := by
      rw [List.filter_eq_nil_iff, ← hds]
      intro d hd
      obtain ⟨c, -, rfl⟩ := List.mem_map.mp hd
      exact Bool.false_ne_true
    exact ⟨old, cs', by rw [hrest, List.append_nil, has], hclosed, horder.of_append⟩

/-- **Discarding what is queued**: the end notices stay, so every activation keeps a prefix of
its chunks and its end. -/
theorem Closed.thin {opened : List Starts} {all : List Delivery} (h : Closed opened all) :
    ∀ feed rest, feed ++ rest = all → Closed opened (feed ++ rest.filter Delivery.isEnded) := by
  induction h with
  | nil =>
      intro feed rest hfeed
      obtain ⟨rfl, rfl⟩ := List.append_eq_nil_iff.mp hfeed
      exact Closed.nil
  | @snoc olds old starts cs e hold horder ih =>
      intro feed rest hfeed
      rcases List.eq_nil_or_concat rest with rfl | ⟨rest, d, rfl⟩
      · rw [List.append_nil] at hfeed
        rw [List.filter_nil, List.append_nil, hfeed]
        exact Closed.snoc e hold horder
      · rw [List.concat_eq_append, ← List.append_assoc] at hfeed
        obtain ⟨hfeed, hd⟩ := List.append_inj' hfeed rfl
        obtain ⟨old', cs', heq, hold', horder'⟩ := thin_open horder hfeed hold ih
        rw [List.singleton_inj] at hd
        subst hd
        rw [List.concat_eq_append, List.filter_append, ← List.append_assoc, heq]
        exact Closed.snoc e hold' horder'

/-! ### A live activation -/

/-- A subscription's cursors, with their streams. -/
def Sub.cursors (s : Sub) : List (StreamId × Cursor) :=
  s.wants.flatMap fun w => w.cursors.map fun c => (w.stream, c)

/-- The cursors of a subscription around one of them. -/
theorem exists_cursors_around (s : Sub) (wpre wpost : List Want) (w : Want) (cs ds : List Cursor) :
    ∃ pre post,
      (∀ c, Sub.cursors { s with wants := wpre ++ { w with cursors := cs ++ c :: ds } :: wpost } =
        pre ++ (w.stream, c) :: post) ∧
      Sub.cursors { s with wants := wpre ++ { w with cursors := cs ++ ds } :: wpost } =
        pre ++ post :=
  ⟨(wpre.flatMap fun w => w.cursors.map fun c => (w.stream, c)) ++ cs.map fun c => (w.stream, c),
    (ds.map fun c => (w.stream, c)) ++ wpost.flatMap fun w => w.cursors.map fun c => (w.stream, c),
    by simp [Sub.cursors], by simp [Sub.cursors]⟩

/-- The stream epoch a cursor is on. -/
def cursorKey (p : StreamId × Cursor) : StreamId × UInt64 := (p.1, p.2.epoch)

/-- The chunks `cs` of a live activation lead up to its cursors: on each cursor's stream epoch
they are a chain from the start to the cursor's position. Elsewhere there are none, unless on
a reference epoch that is over. -/
structure Follows (finished : List UInt64) (starts : Starts) (cursors : List (StreamId × Cursor))
    (cs : List Chunk) : Prop where
  distinct : (cursors.map cursorKey).Nodup
  starts : ∀ p ∈ cursors, p.1 ≠ .reference → ∀ x, starts p.1 = some (.at x) →
    p.2.start = .at (roundDown x (deviceGrid p.1))
  served : ∀ p ∈ cursors, ∃ q, Chain q (onKey (cursorKey p) cs) p.2.pos ∧
    ∀ x, p.2.start = .at x → q = some x
  rest : ∀ k, k ∉ cursors.map cursorKey → onKey k cs = [] ∨
    (k.1 = .reference ∧ k.2 ∈ finished ∧ ∃ p q, Chain p (onKey k cs) q)

namespace Follows

variable {finished : List UInt64} {starts : Starts} {cursors pre post : List (StreamId × Cursor)}
  {cs new : List Chunk} {p : StreamId × Cursor}

theorem mono {finished' : List UInt64} (hover : finished ⊆ finished')
    (h : Follows finished starts cursors cs) :
    Follows finished' starts cursors cs where
  distinct := h.distinct
  starts := h.starts
  served := h.served
  rest := by
    intro k hk
    rcases h.rest k hk with hnil | ⟨hreference, hmem, hchain⟩
    · exact Or.inl hnil
    · exact Or.inr ⟨hreference, hover hmem, hchain⟩

/-- The chunks of a live activation are in order. -/
theorem inOrder (h : Follows finished starts cursors cs) : InOrder starts cs where
  contiguous := by
    intro k
    by_cases hk : k ∈ cursors.map cursorKey
    · obtain ⟨p, hp, rfl⟩ := List.mem_map.mp hk
      obtain ⟨q, hchain, -⟩ := h.served p hp
      exact ⟨q, _, hchain⟩
    · rcases h.rest k hk with hnil | ⟨-, -, hchain⟩
      · rw [hnil]
        exact ⟨none, none, Chain.nil none⟩
      · exact hchain
  first := by
    intro stream x hstream hstart epoch c hc
    by_cases hk : (stream, epoch) ∈ cursors.map cursorKey
    · obtain ⟨p, hp, hkey⟩ := List.mem_map.mp hk
      have hp1 : p.1 = stream := congrArg Prod.fst hkey
      obtain ⟨q, hchain, hq⟩ := h.served p hp
      have hat := h.starts p hp (hp1 ▸ hstream) x (hp1 ▸ hstart)
      rw [hkey, hq _ hat, hp1] at hchain
      exact hchain.head_eq hc
    · rcases h.rest _ hk with hnil | ⟨hreference, -, -⟩
      · rw [hnil] at hc
        cases hc
      · exact absurd hreference hstream

/-- A change of one cursor, with the chunks it queues. -/
theorem serve {Q : Chunk → Prop} {id : SubscriptionId} {stream : StreamId} {c c' : Cursor}
    (h : Follows finished starts (pre ++ (stream, c) :: post) cs)
    (hserves : Serves Q id stream c new c') :
    Follows finished starts (pre ++ (stream, c') :: post) (cs ++ new) := by
  have hkeys : (pre ++ (stream, c') :: post).map cursorKey =
      (pre ++ (stream, c) :: post).map cursorKey := by
    simp [cursorKey, hserves.epoch]
  have hnew : ∀ ch ∈ new, ch.key = (stream, c.epoch) := by
    intro ch hch
    obtain ⟨-, hstream, hepoch, -⟩ := hserves.chunks ch hch
    exact Prod.ext hstream hepoch
  have hother : ∀ k, k ≠ (stream, c.epoch) → onKey k (cs ++ new) = onKey k cs := by
    intro k hk
    have hnil : onKey k new = [] := by
      rw [onKey, List.filter_eq_nil_iff]
      intro ch hch
      rw [hnew ch hch]
      simpa using Ne.symm hk
    rw [onKey_append, hnil, List.append_nil]
  have hself : onKey (stream, c.epoch) new = new := by
    rw [onKey, List.filter_eq_self]
    intro ch hch
    simpa using hnew ch hch
  have hold := h.distinct
  rw [List.map_append, List.map_cons, List.nodup_middle, List.nodup_cons, List.mem_append] at hold
  refine ⟨hkeys ▸ h.distinct, fun p hp => ?_, fun p hp => ?_, fun k hk => ?_⟩
  · rcases List.mem_append.mp hp with hp | hp
    · exact h.starts p (List.mem_append_left _ hp)
    · rcases List.mem_cons.mp hp with rfl | hp
      · rw [hserves.start]
        exact h.starts (stream, c) (by simp)
      · exact h.starts p (List.mem_append_right _ (List.mem_cons_of_mem _ hp))
  · -- the other cursors are on other stream epochs
    have hrest : ∀ p, p ∈ pre ∨ p ∈ post → ∃ q, Chain q (onKey (cursorKey p) (cs ++ new)) p.2.pos ∧
        ∀ x, p.2.start = .at x → q = some x := by
      intro p hp
      have hne : cursorKey p ≠ (stream, c.epoch) := by
        intro heq
        rcases hp with hp | hp
        · exact hold.1 (Or.inl (List.mem_map.mpr ⟨p, hp, heq⟩))
        · exact hold.1 (Or.inr (List.mem_map.mpr ⟨p, hp, heq⟩))
      rw [hother _ hne]
      rcases hp with hp | hp
      · exact h.served p (List.mem_append_left _ hp)
      · exact h.served p (List.mem_append_right _ (List.mem_cons_of_mem _ hp))
    rcases List.mem_append.mp hp with hp | hp
    · exact hrest p (Or.inl hp)
    · rcases List.mem_cons.mp hp with rfl | hp
      · obtain ⟨q, hchain, hq⟩ := h.served (stream, c) (by simp)
        obtain ⟨r, hr, hchain'⟩ := hserves.chain
        have hkey : cursorKey (stream, c') = (stream, c.epoch) := congrArg _ hserves.epoch
        rw [hkey, onKey_append, hself, hserves.start]
        rw [show cursorKey (stream, c) = (stream, c.epoch) from rfl] at hchain
        cases hpos : c.pos with
        | some x =>
            rw [hpos, ← hr x hpos] at hchain
            exact ⟨q, hchain.append hchain', hq⟩
        | none =>
            -- nothing was delivered before the position was found
            rw [hpos] at hchain
            obtain ⟨hnone, hnil⟩ := hchain.eq_of_none
            rw [hnil]
            exact ⟨r, hchain', fun x hx => by rw [hq x hx] at hnone; cases hnone⟩
      · exact hrest p (Or.inr hp)
  · rw [hkeys] at hk
    rw [hother k]
    · exact h.rest k hk
    · rintro rfl
      exact hk (List.mem_map.mpr ⟨(stream, c), by simp, rfl⟩)

/-- The cursor of a reference epoch that is over goes away. -/
theorem retire {c : Cursor} (h : Follows finished starts (pre ++ (.reference, c) :: post) cs)
    (hover : c.epoch ∈ finished) : Follows finished starts (pre ++ post) cs where
  distinct := by
    have hold := h.distinct
    rw [List.map_append, List.map_cons, List.nodup_middle, List.nodup_cons] at hold
    rw [List.map_append]
    exact hold.2
  starts := fun p hp => h.starts p (by
    rcases List.mem_append.mp hp with hp | hp
    · exact List.mem_append_left _ hp
    · exact List.mem_append_right _ (List.mem_cons_of_mem _ hp))
  served := fun p hp => h.served p (by
    rcases List.mem_append.mp hp with hp | hp
    · exact List.mem_append_left _ hp
    · exact List.mem_append_right _ (List.mem_cons_of_mem _ hp))
  rest := by
    intro k hk
    by_cases hkey : k = (.reference, c.epoch)
    · obtain ⟨q, hchain, -⟩ := h.served (.reference, c) (by simp)
      subst hkey
      exact Or.inr ⟨rfl, hover, q, c.pos, hchain⟩
    · refine h.rest k fun hmem => ?_
      rw [List.map_append, List.map_cons, List.mem_append, List.mem_cons] at hmem
      rw [List.map_append, List.mem_append] at hk
      rcases hmem with hmem | hmem | hmem
      · exact hk (Or.inl hmem)
      · exact hkey hmem
      · exact hk (Or.inr hmem)

/-- A cursor at the live position of a reference epoch that is not over. -/
theorem refer {epoch : UInt64} (h : Follows finished starts (pre ++ post) cs)
    (hover : epoch ∉ finished)
    (hnew : (StreamId.reference, epoch) ∉ (pre ++ post).map cursorKey) :
    Follows finished starts (pre ++ (.reference, .new epoch .live) :: post) cs where
  distinct := by
    rw [List.map_append, List.map_cons, List.nodup_middle, List.nodup_cons, ← List.map_append]
    exact ⟨hnew, h.distinct⟩
  starts := by
    intro p hp hstream
    rw [List.mem_append, List.mem_cons] at hp
    rcases hp with hp | rfl | hp
    · exact h.starts p (List.mem_append_left _ hp) hstream
    · exact absurd rfl hstream
    · exact h.starts p (List.mem_append_right _ hp) hstream
  served := by
    intro p hp
    rw [List.mem_append, List.mem_cons] at hp
    rcases hp with hp | rfl | hp
    · exact h.served p (List.mem_append_left _ hp)
    · rcases h.rest _ hnew with hnil | ⟨-, hmem, -⟩
      · refine ⟨none, ?_, fun x hx => by cases hx⟩
        rw [show cursorKey (.reference, .new epoch .live) = (.reference, epoch) from rfl, hnil]
        exact Chain.nil none
      · exact absurd hmem hover
    · exact h.served p (List.mem_append_right _ hp)
  rest := by
    intro k hk
    rw [List.map_append, List.map_cons, List.mem_append, List.mem_cons] at hk
    refine h.rest k fun hmem => hk ?_
    rw [List.map_append, List.mem_append] at hmem
    rcases hmem with hmem | hmem
    · exact Or.inl hmem
    · exact Or.inr (Or.inr hmem)

end Follows

/-! ### The feeds of all subscriptions -/

/-- The deliveries of one ID. -/
def feedOf (id : SubscriptionId) (ds : List Delivery) : List Delivery :=
  ds.filter (·.subscription = id)

/-- A live subscription's feed: the activations before it have ended, and its chunks lead up
to its cursors. -/
def Serving (opened : List Starts) (finished : List UInt64) (feed : List Delivery) (s : Sub) :
    Prop :=
  (s.wants.map Want.stream).Nodup ∧ ∃ olds starts old cs, opened = olds ++ [starts] ∧
    feed = old ++ cs.map .chunk ∧ Closed olds old ∧ Follows finished starts s.cursors cs

/-- The feeds of all IDs, `before` taken already and the rest in the desk's queue. -/
structure Feeds (opened : SubscriptionId → List Starts) (finished : List UInt64)
    (before : List Delivery) (d : Desk) : Prop where
  distinct : (d.subs.map Sub.id).Nodup
  live : ∀ s ∈ d.subs, Serving (opened s.id) finished (feedOf s.id (before ++ d.queue)) s
  closed : ∀ id, id ∉ d.subs.map Sub.id → Closed (opened id) (feedOf id (before ++ d.queue))

theorem Serving.closed {opened : List Starts} {finished : List UInt64} {feed : List Delivery}
    {s : Sub}
    (h : Serving opened finished feed s) (e : Ended) : Closed opened (feed ++ [.ended e]) := by
  obtain ⟨-, olds, starts, old, cs, rfl, rfl, hold, hfollows⟩ := h
  exact Closed.snoc e hold hfollows.inOrder

theorem feedOf_append (id : SubscriptionId) (ds es : List Delivery) :
    feedOf id (ds ++ es) = feedOf id ds ++ feedOf id es := List.filter_append _ _

theorem feedOf_chunks {id : SubscriptionId} {cs : List Chunk} (h : ∀ c ∈ cs, c.subscription = id) :
    feedOf id (cs.map .chunk) = cs.map .chunk := by
  refine List.filter_eq_self.mpr fun d hd => ?_
  obtain ⟨c, hc, rfl⟩ := List.mem_map.mp hd
  exact decide_eq_true (h c hc)

theorem feedOf_eq_nil {id : SubscriptionId} {ds : List Delivery} (h : ∀ d ∈ ds, d.subscription ≠ id) :
    feedOf id ds = [] :=
  List.filter_eq_nil_iff.mpr fun d hd => by simpa using h d hd

namespace Feeds

variable {Q : Chunk → Prop} {opened : SubscriptionId → List Starts} {finished : List UInt64}
  {before : List Delivery} {d d' : Desk}

/-- A change of one subscription, with what it queues for it. -/
theorem update {pre post : List Sub} {s s' : Sub} {queue new : List Delivery}
    (h : Feeds opened finished before ⟨pre ++ s :: post, queue⟩) (hid : s'.id = s.id)
    (hnew : ∀ d ∈ new, d.subscription = s.id)
    (hs : Serving (opened s.id) finished (feedOf s.id (before ++ queue)) s →
      Serving (opened s.id) finished (feedOf s.id (before ++ queue) ++ new) s') :
    Feeds opened finished before ⟨pre ++ s' :: post, queue ++ new⟩ := by
  have hids : (pre ++ s' :: post).map Sub.id = (pre ++ s :: post).map Sub.id := by simp [hid]
  have hother : ∀ id, id ≠ s.id → feedOf id (before ++ (queue ++ new)) = feedOf id (before ++ queue) := by
    intro id hne
    have hnil : feedOf id new = [] :=
      feedOf_eq_nil fun d hd heq => hne (heq.symm.trans (hnew d hd))
    rw [← List.append_assoc, feedOf_append, hnil, List.append_nil]
  have hself : feedOf s.id (before ++ (queue ++ new)) = feedOf s.id (before ++ queue) ++ new := by
    rw [← List.append_assoc, feedOf_append]
    congr 1
    exact List.filter_eq_self.mpr fun d hd => by simpa using hnew d hd
  have hdistinct := h.distinct
  rw [List.map_append, List.map_cons, List.nodup_middle, List.nodup_cons, List.mem_append]
    at hdistinct
  refine ⟨hids ▸ h.distinct, fun r hr => ?_, fun id hn => ?_⟩
  · rw [List.mem_append, List.mem_cons] at hr
    rcases hr with hr | rfl | hr
    · rw [hother]
      · exact h.live r (List.mem_append_left _ hr)
      · exact fun heq => hdistinct.1 (Or.inl (heq ▸ List.mem_map_of_mem hr))
    · rw [hid, hself]
      exact hs (h.live s (List.mem_append_right _ List.mem_cons_self))
    · rw [hother]
      · exact h.live r (List.mem_append_right _ (List.mem_cons_of_mem _ hr))
      · exact fun heq => hdistinct.1 (Or.inr (heq ▸ List.mem_map_of_mem hr))
  · dsimp only at hn
    rw [hids] at hn
    rw [hother]
    · exact h.closed id hn
    · rintro rfl
      exact hn (by simp)

/-- A subscription ends; of the queue at most its own chunks were discarded. -/
theorem finish {pre post : List Sub} {s : Sub} {queue queue' : List Delivery} {e : Ended}
    (h : Feeds opened finished before ⟨pre ++ s :: post, queue⟩) (hid : e.subscription = s.id)
    (hother : ∀ id, id ≠ s.id → feedOf id queue' = feedOf id queue)
    (hself : Closed (opened s.id) (feedOf s.id (before ++ queue') ++ [.ended e])) :
    Feeds opened finished before ⟨pre ++ post, queue' ++ [.ended e]⟩ := by
  have hrest : ∀ id, id ≠ s.id →
      feedOf id (before ++ (queue' ++ [.ended e])) = feedOf id (before ++ queue) := by
    intro id hne
    have hlast : feedOf id [Delivery.ended e] = [] := by
      refine feedOf_eq_nil fun d hd heq => hne ?_
      rw [List.mem_singleton] at hd
      subst hd
      exact heq.symm.trans hid
    rw [feedOf_append, feedOf_append, hlast, List.append_nil, hother id hne, feedOf_append]
  have hends : feedOf s.id (before ++ (queue' ++ [.ended e])) =
      feedOf s.id (before ++ queue') ++ [.ended e] := by
    rw [← List.append_assoc, feedOf_append]
    congr 1
    exact List.filter_eq_self.mpr fun d hd => by
      rw [List.mem_singleton] at hd
      subst hd
      exact decide_eq_true hid
  have hdistinct := h.distinct
  rw [List.map_append, List.map_cons, List.nodup_middle, List.nodup_cons, List.mem_append]
    at hdistinct
  refine ⟨?_, fun r hr => ?_, fun id hn => ?_⟩
  · rw [List.map_append]
    exact hdistinct.2
  · rcases List.mem_append.mp hr with hr | hr
    · rw [hrest]
      · exact h.live r (List.mem_append_left _ hr)
      · exact fun heq => hdistinct.1 (Or.inl (heq ▸ List.mem_map_of_mem hr))
    · rw [hrest]
      · exact h.live r (List.mem_append_right _ (List.mem_cons_of_mem _ hr))
      · exact fun heq => hdistinct.1 (Or.inr (heq ▸ List.mem_map_of_mem hr))
  · by_cases hs : id = s.id
    · subst hs
      rw [hends]
      exact hself
    · rw [hrest id hs]
      refine h.closed id fun hmem => hn ?_
      simp only [List.map_append, List.map_cons, List.mem_append, List.mem_cons] at hmem ⊢
      rcases hmem with hmem | hmem | hmem
      · exact Or.inl hmem
      · exact absurd hmem hs
      · exact Or.inr hmem

/-- Discarding chunks, seen from one ID. -/
theorem feedOf_filter (id : SubscriptionId) (keep : Delivery → Bool) (queue : List Delivery) :
    feedOf id (queue.filter keep) = (feedOf id queue).filter keep := by
  rw [feedOf, feedOf, List.filter_filter, List.filter_filter]
  exact List.filter_congr fun d _ => Bool.and_comm _ _

/-- **The feeds over one move.** -/
theorem move {D : Prop} (hmove : Move Q finished D d d') (h : Feeds opened finished before d) :
    Feeds opened finished before d' := by
  cases hmove with
  | @cursor pre post sub wpre wpost w cs ds c c' new queue hserves =>
      obtain ⟨cpre, cpost, haround, -⟩ := exists_cursors_around sub wpre wpost w cs ds
      refine h.update rfl (fun d hd => ?_) fun hs => ?_
      · obtain ⟨ch, hch, rfl⟩ := List.mem_map.mp hd
        exact (hserves.chunks ch hch).1
      · obtain ⟨hnodup, olds, starts, old, chunks, hopened, hfeed, hold, hfollows⟩ := hs
        rw [haround] at hfollows
        refine ⟨by simpa using hnodup, olds, starts, old, chunks ++ new, hopened, ?_, hold, ?_⟩
        · rw [hfeed, List.map_append, List.append_assoc]
        · rw [haround]
          exact hfollows.serve hserves
  | retire pre post sub wpre wpost w cs ds c queue hstream hover =>
      obtain ⟨cpre, cpost, haround, hgone⟩ := exists_cursors_around sub wpre wpost w cs ds
      have hretire : Feeds opened finished before ⟨pre ++ { sub with
          wants := wpre ++ { w with cursors := cs ++ ds } :: wpost } :: post, queue ++ []⟩ := by
        refine h.update rfl (fun d hd => by cases hd) fun hs => ?_
        obtain ⟨hnodup, olds, starts, old, chunks, hopened, hfeed, hold, hfollows⟩ := hs
        rw [List.append_nil]
        refine ⟨by simpa using hnodup, olds, starts, old, chunks, hopened, hfeed, hold, ?_⟩
        rw [haround, hstream] at hfollows
        rw [hgone]
        exact hfollows.retire hover
      rwa [List.append_nil] at hretire
  | @note pre post sub sub' queue hid hwants =>
      have hnote : Feeds opened finished before ⟨pre ++ sub' :: post, queue ++ []⟩ := by
        refine h.update hid (fun d hd => by cases hd) fun hs => ?_
        rw [Serving, Sub.cursors] at hs
        rw [List.append_nil, Serving, Sub.cursors, hwants]
        exact hs
      rwa [List.append_nil] at hnote
  | finish pre post sub e queue hid =>
      exact h.finish hid (fun _ _ => rfl) ((h.live sub (by simp)).closed e)
  | drop pre post sub e queue hdrops hid =>
      refine h.finish hid (fun id hne => ?_) ?_
      · rw [feedOf_filter, List.filter_eq_self]
        intro d hd
        have hsub : d.subscription = id := by simpa [feedOf] using (List.mem_filter.mp hd).2
        simp [hsub, hne]
      · obtain ⟨-, olds, starts, old, chunks, hopened, hfeed, hold, hfollows⟩ :=
          h.live sub (by simp)
        have hkeep : feedOf sub.id (queue.filter fun d => d.subscription ≠ sub.id || d.isEnded) =
            (feedOf sub.id queue).filter Delivery.isEnded := by
          rw [feedOf_filter]
          refine List.filter_congr fun d hd => ?_
          have hsub : d.subscription = sub.id := by simpa [feedOf] using (List.mem_filter.mp hd).2
          simp [hsub]
        rw [feedOf_append] at hfeed
        obtain ⟨old', chunks', heq, hold', horder'⟩ :=
          thin_open hfollows.inOrder hfeed hold hold.thin
        rw [feedOf_append, hkeep, heq, hopened]
        exact Closed.snoc e hold' horder'
  | discard queue hdrops =>
      refine ⟨h.distinct, fun s hs => (nomatch hs), fun id hn => ?_⟩
      have hclosed := h.closed id hn
      rw [feedOf_append] at hclosed
      rw [feedOf_append, feedOf_filter]
      exact hclosed.thin _ _ rfl

theorem moves {D : Prop} (hmoves : Moves Q finished D d d') (h : Feeds opened finished before d) :
    Feeds opened finished before d' := by
  induction hmoves with
  | refl => exact h
  | tail _ hmove ih => exact ih.move hmove

end Feeds

/-! ### Over a run -/

theorem Follows.begins {capture : UInt64} {starts : Starts} {sub : Sub}
    (h : Begins capture starts sub) (finished : List UInt64) :
    Follows finished starts sub.cursors [] where
  distinct := by
    have hnodup := h.nodup
    have hwants := h.wants
    rw [Sub.cursors]
    generalize sub.wants = wants at hnodup hwants
    induction wants with
    | nil => exact List.nodup_nil
    | cons w wants ih =>
        rw [List.map_cons, List.nodup_cons] at hnodup
        rw [List.forall_mem_cons] at hwants
        have hrest := ih hnodup.2 hwants.2
        obtain ⟨start, -, hnil | ⟨epoch, hone, -⟩⟩ := hwants.1
        · rw [List.flatMap_cons, hnil]
          exact hrest
        · rw [List.flatMap_cons, hone]
          refine List.nodup_cons.mpr ⟨fun hmem => hnodup.1 ?_, hrest⟩
          obtain ⟨p, hp, hkey⟩ := List.mem_map.mp hmem
          obtain ⟨w', hw', hpw⟩ := List.mem_flatMap.mp hp
          obtain ⟨c, -, rfl⟩ := List.mem_map.mp hpw
          exact List.mem_map.mpr ⟨w', hw', congrArg Prod.fst hkey⟩
  starts := by
    intro p hp hstream x hstart
    obtain ⟨w, hw, hpw⟩ := List.mem_flatMap.mp hp
    obtain ⟨c, hc, rfl⟩ := List.mem_map.mp hpw
    obtain ⟨start, hwstart, hnil | ⟨epoch, hone, -⟩⟩ := h.wants w hw
    · rw [hnil] at hc
      cases hc
    · rw [hone, List.mem_singleton] at hc
      rw [hstart] at hwstart
      rw [hc, ← Option.some.inj hwstart]
      simp only [Cursor.new, startSpec, deviceGridStart, if_neg hstream]
  served := by
    intro p hp
    refine ⟨p.2.pos, Chain.nil _, fun x hx => ?_⟩
    obtain ⟨w, hw, hpw⟩ := List.mem_flatMap.mp hp
    obtain ⟨c, hc, rfl⟩ := List.mem_map.mp hpw
    obtain ⟨start, -, hnil | ⟨epoch, hone, -⟩⟩ := h.wants w hw
    · rw [hnil] at hc
      cases hc
    · rw [hone, List.mem_singleton] at hc
      subst hc
      simp only [Cursor.new] at hx ⊢
      rw [hx]
  rest := fun _ _ => Or.inl rfl

/-- A new reference epoch adds at most a cursor on an epoch that no other cursor is on. -/
theorem cursors_openReference (epoch : UInt64) {s : Sub} (h : (s.wants.map Want.stream).Nodup) :
    (openReference epoch s).cursors = s.cursors ∨ ∃ pre post, s.cursors = pre ++ post ∧
      (StreamId.reference, epoch) ∉ s.cursors.map cursorKey ∧
      (openReference epoch s).cursors = pre ++ (.reference, .new epoch .live) :: post := by
  rw [openReference]
  split_ifs
  · cases hfind : s.wants.find? (·.stream = .reference) with
    | none =>
        rw [updateFirst_of_find?_eq_none hfind]
        exact Or.inl rfl
    | some w =>
        obtain ⟨wpre, wpost, hwants, -, hupdate⟩ := exists_around_of_find? (σ := Unit) hfind
        have hw : w.stream = .reference := by simpa using List.find?_some hfind
        rw [hupdate]
        dsimp only
        split_ifs with hany
        · rw [← hwants]
          exact Or.inl rfl
        · obtain ⟨pre, post, haround, hsame⟩ := exists_cursors_around s wpre wpost w w.cursors []
          rw [List.append_nil] at hsame
          have hcursors : s.cursors = pre ++ post := by
            rw [← hsame, ← hwants]
          refine Or.inr ⟨pre, post, hcursors, fun hmem => ?_, by rw [haround, hw]⟩
          -- no other want is of the reference
          obtain ⟨p, hp, hkey⟩ := List.mem_map.mp hmem
          obtain ⟨w', hw', hpw⟩ := List.mem_flatMap.mp hp
          obtain ⟨c, hc, rfl⟩ := List.mem_map.mp hpw
          have hstream : w'.stream = .reference := congrArg Prod.fst hkey
          have hsameWant : w' = w := by
            refine List.inj_on_of_nodup_map h hw' (List.mem_of_find?_eq_some hfind) ?_
            rw [hstream, hw]
          subst hsameWant
          have hepoch : c.epoch = epoch := congrArg Prod.snd hkey
          exact hany (List.any_eq_true.mpr ⟨c, hc, by simpa using hepoch⟩)
  · exact Or.inl rfl

/-- The other cursors stay as they are. -/
theorem mem_cursors_openReference {epoch : UInt64} {s : Sub} {p : StreamId × Cursor}
    (h : p ∈ (openReference epoch s).cursors) : p ∈ s.cursors ∨ p.1 = .reference := by
  rw [openReference] at h
  split_ifs at h
  · obtain ⟨w, hw, hp⟩ := List.mem_flatMap.mp h
    obtain ⟨c, hc, rfl⟩ := List.mem_map.mp hp
    by_cases hstream : w.stream = .reference
    · exact Or.inr hstream
    · have hrel : List.Forall₂ (fun w w' : Want => w' = w ∨ w'.stream = .reference) s.wants
          (updateFirst (·.stream = .reference) (fun w s =>
            (if w.cursors.any (·.epoch = epoch) then w
              else { w with cursors := w.cursors ++ [.new epoch .live] }, s)) s.wants ()).1 := by
        refine updateFirst_rel (R := fun w w' : Want => w' = w ∨ w'.stream = .reference)
          (fun _ _ => Or.inl rfl) (fun w _ hw _ => ?_) ()
        dsimp only
        split_ifs
        · exact Or.inl rfl
        · exact Or.inr (by simpa using hw)
      obtain ⟨w', hw', heq | hreference⟩ := exists_of_mem_forall₂ hrel hw
      · rw [heq] at hc ⊢
        exact Or.inl (List.mem_flatMap.mpr ⟨w', hw', List.mem_map.mpr ⟨c, hc, rfl⟩⟩)
      · exact absurd hreference hstream
  · exact Or.inl h

theorem id_openReference (epoch : UInt64) (s : Sub) : (openReference epoch s).id = s.id := by
  rw [openReference]
  split_ifs <;> rfl

theorem streams_openReference (epoch : UInt64) (s : Sub) :
    (openReference epoch s).wants.map Want.stream = s.wants.map Want.stream := by
  rw [openReference]
  split_ifs
  · refine map_eq_of_forall₂ (fun _ _ h => h) (updateFirst_rel
      (R := fun w w' : Want => w'.stream = w.stream) (fun _ _ => rfl) (fun w _ _ _ => ?_) ())
    dsimp only
    split_ifs <;> rfl
  · rfl

theorem Serving.openReference {opened : List Starts} {finished : List UInt64} {feed : List Delivery}
    {s : Sub} {epoch : UInt64} (h : Serving opened finished feed s) (hover : epoch ∉ finished) :
    Serving opened finished feed (openReference epoch s) := by
  obtain ⟨hnodup, olds, starts, old, cs, hopened, hfeed, hold, hfollows⟩ := h
  refine ⟨streams_openReference epoch s ▸ hnodup, olds, starts, old, cs, hopened, hfeed, hold, ?_⟩
  rcases cursors_openReference epoch hnodup with hsame | ⟨pre, post, hs, hnew, hcursors⟩
  · rw [hsame]
    exact hfollows
  · rw [hs] at hfollows hnew
    rw [hcursors]
    exact hfollows.refer hover hnew

namespace Feeds

variable {opened : SubscriptionId → List Starts} {finished : List UInt64} {before : List Delivery}
  {queue : List Delivery} {subs : List Sub}

theorem mono {finished' : List UInt64} (hover : finished ⊆ finished') {d : Desk}
    (h : Feeds opened finished before d) : Feeds opened finished' before d where
  distinct := h.distinct
  live := by
    intro s hs
    obtain ⟨hnodup, olds, starts, old, cs, hopened, hfeed, hold, hfollows⟩ := h.live s hs
    exact ⟨hnodup, olds, starts, old, cs, hopened, hfeed, hold, hfollows.mono hover⟩
  closed := h.closed

/-- A subscription begins under an ID no live one has. -/
theorem begins {capture : UInt64} {starts : Starts} {sub : Sub}
    (h : Feeds opened finished before ⟨subs, queue⟩) (hsub : Begins capture starts sub)
    (hfresh : sub.id ∉ subs.map Sub.id) {opened' : SubscriptionId → List Starts}
    (hopened : opened' sub.id = opened sub.id ++ [starts])
    (hothers : ∀ id, id ≠ sub.id → opened' id = opened id) :
    Feeds opened' finished before ⟨subs ++ [sub], queue⟩ where
  distinct := by
    rw [List.map_append, List.map_singleton, List.nodup_append]
    exact ⟨h.distinct, List.nodup_singleton _, fun id hid id' hid' heq =>
      hfresh (List.mem_singleton.mp hid' ▸ heq ▸ hid)⟩
  live := by
    intro s hs
    rcases List.mem_append.mp hs with hs | hs
    · rw [hothers s.id fun heq => hfresh (heq ▸ List.mem_map_of_mem hs)]
      exact h.live s hs
    · rw [List.mem_singleton] at hs
      subst hs
      exact ⟨hsub.nodup, _, starts, _, [], hopened, (List.append_nil _).symm, h.closed s.id hfresh,
        Follows.begins hsub finished⟩
  closed := by
    intro id hid
    rw [List.map_append, List.map_singleton, List.mem_append, List.mem_singleton, not_or] at hid
    rw [hothers id hid.2]
    exact h.closed id hid.1

/-- A reference epoch begins that is not over. -/
theorem refers {epoch : UInt64} (h : Feeds opened finished before ⟨subs, queue⟩)
    (hover : epoch ∉ finished) :
    Feeds opened finished before ⟨subs.map (openReference epoch), queue⟩ := by
  have hids : (subs.map (openReference epoch)).map Sub.id = subs.map Sub.id := by
    rw [List.map_map]
    exact List.map_congr_left fun s _ => id_openReference epoch s
  refine ⟨hids ▸ h.distinct, fun s hs => ?_, fun id hid => h.closed id (hids ▸ hid)⟩
  obtain ⟨s', hs', rfl⟩ := List.mem_map.mp hs
  rw [id_openReference]
  exact (h.live s' hs').openReference hover

end Feeds

/-! ### Over a run -/

/-- The starts an operation opened a subscription with under one ID. -/
def begun (terms : SessionTerms) (id : SubscriptionId) (op : Op) : Answer → List Starts
  | .opened (.ok _) => (((op.opening terms).filter (·.1 = id)).map Prod.snd).toList
  | _ => []

/-- The starts of everything opened under one ID, in order. -/
def openings (terms : SessionTerms) (id : SubscriptionId) (ops : List Op) (answers : List Answer) :
    List Starts :=
  (List.zipWith (begun terms id) ops answers).flatten

/-- What the operations rely on: an ID drawn for a subscription is no live subscription's, and
no `stream.open` names a reference epoch that has ended (`over` ended before). -/
def Admissible (u : Uplink) (finished : List UInt64) : List Op → Prop
  | [] => True
  | op :: ops =>
    (∀ id, op.generated u.terms = some id → id ∉ u.subs.map Sub.id) ∧
      (∀ o, op = .streamOpened o → o.streamId = .reference → o.epoch ∉ finished) ∧
      Admissible (u.apply op).1 (op.over.toList ++ finished) ops

theorem Op.generated_of_opening {terms : SessionTerms} {op : Op} {id : SubscriptionId}
    {starts : Starts} (h : op.opening terms = some (id, starts)) :
    op.generated terms = none ∨ op.generated terms = some id := by
  rw [Op.generated.eq_def]
  split
  · exact Or.inl rfl
  · exact Or.inr (by rw [h]; rfl)

/-- The feeds over one operation. -/
theorem Feeds.apply {u : Uplink} (hu : u.Sound) {opened : SubscriptionId → List Starts}
    {finished : List UInt64} {before : List Delivery} (h : Feeds opened finished before (desk u))
    (op : Op)
    (hfresh : ∀ id, op.generated u.terms = some id → id ∉ u.subs.map Sub.id)
    (hrefers : ∀ o, op = .streamOpened o → o.streamId = .reference → o.epoch ∉ finished) :
    Feeds (fun id => opened id ++ begun u.terms id op (u.apply op).2)
      (op.over.toList ++ finished) (before ++ (u.apply op).2.deliveries) (desk (u.apply op).1) := by
  have hover : finished ⊆ op.over.toList ++ finished := List.subset_append_right _ _
  rcases apply_step hu op with ⟨hmoves, hopened, hanswer⟩ |
    ⟨id, starts, hop, hopens, hnew, grants, hanswer⟩ | ⟨o, rfl, hstream, hdesk, hanswer⟩ |
    ⟨rfl, hdesk, hanswer⟩
  · have hnone : ∀ id, begun u.terms id op (u.apply op).2 = [] := by
      intro id
      unfold begun
      split
      · rename_i heq
        exact absurd heq (hopened _)
      · rfl
    simp only [hnone, hanswer, List.append_nil]
    refine (h.mono hover).moves (hmoves _ fun e he => ?_)
    rw [he]
    exact List.mem_append_left _ (List.mem_singleton_self e)
  · obtain ⟨capture, sub, -, rfl, hbegins, hdesk⟩ := hopens.opened
    rw [hdesk, hanswer, show (Answer.opened (.ok grants)).deliveries = [] from rfl,
      List.append_nil]
    refine (h.mono hover).begins hbegins ?_ ?_ fun id hne => ?_
    · rcases Op.generated_of_opening hop with hnone | hsome
      · exact hnew hnone
      · exact hfresh _ hsome
    · simp [begun, hop]
    · simp [begun, hop, Ne.symm hne]
  · have hrefer := h.refers (hrefers o rfl hstream)
    rw [hdesk, hanswer]
    simpa only [begun, Answer.deliveries, Op.over, Option.toList_none, List.nil_append,
      List.append_nil] using hrefer
  · rw [hdesk, hanswer]
    simp only [begun, Answer.deliveries, Op.over, Option.toList_none, List.nil_append,
      List.append_nil]
    refine ⟨h.distinct, fun s hs => ?_, fun id hid => ?_⟩
    · rw [List.append_nil]
      exact h.live s hs
    · rw [List.append_nil]
      exact h.closed id hid

/-- **The feeds over a whole run.** -/
theorem Feeds.run {u : Uplink} (hu : u.Sound) {opened : SubscriptionId → List Starts}
    {finished : List UInt64} {before : List Delivery} (h : Feeds opened finished before (desk u))
    {ops : List Op} (hops : Admissible u finished ops) :
    ∃ finished', Feeds (fun id => opened id ++ openings u.terms id ops (u.run ops).2) finished'
      (before ++ delivered (u.run ops).2) (desk (u.run ops).1) := by
  induction ops generalizing u opened finished before with
  | nil =>
      refine ⟨finished, ?_⟩
      simpa [openings, Uplink.run, delivered] using h
  | cons op ops ih =>
      obtain ⟨hfresh, hrefers, hrest⟩ := hops
      obtain ⟨finished', hfeeds⟩ := ih (hu.apply op) (h.apply hu op hfresh hrefers) hrest
      refine ⟨finished', ?_⟩
      rw [terms_apply] at hfeeds
      simpa [openings, Uplink.run, delivered] using hfeeds

theorem Feeds.new (config : UplinkConfig) (terms : SessionTerms) (muted : Bool) :
    Feeds (fun _ => []) [] [] (desk (Uplink.new config terms muted)) :=
  ⟨List.nodup_nil, fun _ h => (nomatch h), fun _ _ => Closed.nil⟩

theorem Feeds.served {opened : SubscriptionId → List Starts} {finished : List UInt64}
    {before : List Delivery} {d : Desk} (h : Feeds opened finished before d) (id : SubscriptionId) :
    Served (opened id) (feedOf id (before ++ d.queue)) := by
  by_cases hid : id ∈ d.subs.map Sub.id
  · obtain ⟨s, hs, rfl⟩ := List.mem_map.mp hid
    obtain ⟨-, olds, starts, old, cs, hopened, hfeed, hold, hfollows⟩ := h.live s hs
    exact Or.inr ⟨olds, starts, old, cs, hopened, hfeed, hold, hfollows.inOrder⟩
  · exact Or.inl (h.closed id hid)

/-- Moves that discard nothing only add to the queue. -/
theorem Moves.queue_grows {Q : Chunk → Prop} {E : List UInt64} {D : Prop} {d d' : Desk}
    (h : Moves Q E D d d') (hD : ¬ D) : ∃ new, d'.queue = d.queue ++ new := by
  induction h with
  | refl => exact ⟨[], (List.append_nil _).symm⟩
  | tail _ hmove ih =>
      obtain ⟨new, hnew⟩ := ih
      cases hmove with
      | cursor pre post sub wpre wpost w cs ds queue hserves =>
          exact ⟨new ++ _, by rw [← List.append_assoc, ← hnew]⟩
      | retire pre post sub wpre wpost w cs ds c queue _ _ => exact ⟨new, hnew⟩
      | note pre post queue _ _ => exact ⟨new, hnew⟩
      | finish pre post sub e queue _ =>
          exact ⟨new ++ _, by rw [← List.append_assoc, ← hnew]⟩
      | drop pre post sub e queue hdrops _ => exact absurd hdrops hD
      | discard queue hdrops => exact absurd hdrops hD

/-- Only the operations that discard take something from the queue unread. -/
theorem queue_apply {u : Uplink} (hu : u.Sound) {op : Op} (hop : op.discards = false) :
    ∃ new, (u.apply op).2.deliveries ++ (u.apply op).1.outbox.queue =
      u.outbox.queue ++ new := by
  rcases apply_step hu op with ⟨hmoves, -, hanswer⟩ | ⟨id, starts, -, hopens, -, grants, hanswer⟩ |
    ⟨o, -, -, hdesk, hanswer⟩ | ⟨-, hdesk, hanswer⟩
  · rw [hanswer]
    refine Moves.queue_grows (hmoves op.over.toList fun e he => ?_) ?_
    · rw [he]
      exact List.mem_singleton_self e
    · rw [hop]
      exact Bool.false_ne_true
  · obtain ⟨capture, sub, -, -, -, hdesk⟩ := hopens.opened
    rw [hanswer]
    exact ⟨[], (congrArg Desk.queue hdesk).trans (List.append_nil _).symm⟩
  · rw [hanswer]
    exact ⟨[], (congrArg Desk.queue hdesk).trans (List.append_nil _).symm⟩
  · rw [hanswer, show (u.apply op).1.outbox.queue = [] from congrArg Desk.queue hdesk]
    exact ⟨[], rfl⟩

/-- **Gapless ordered delivery.** Over every run whose references are not opened again after
their end, the deliveries of every ID, drained or queued, are its activations one after the
other, each with its chunks in order and at most one end notice behind them; and every
operation but a mute, a device's mute report and the end of the session leaves the queue
drained or extended. -/
theorem gapless_delivery (config : UplinkConfig) (terms : SessionTerms) (muted : Bool)
    {ops : List Op} (hops : Admissible (.new config terms muted) [] ops) :
    let r := (Uplink.new config terms muted).run ops
    (∀ id, Served (openings terms id ops r.2) (feedOf id (delivered r.2 ++ r.1.outbox.queue))) ∧
      ∀ op : Op, op.discards = false → ∃ new,
        (r.1.apply op).2.deliveries ++ (r.1.apply op).1.outbox.queue =
          r.1.outbox.queue ++ new := by
  intro r
  have hsound : (Uplink.new config terms muted).Sound := Sound.new config terms muted
  obtain ⟨finished, hfeeds⟩ := (Feeds.new config terms muted).run hsound hops
  exact ⟨fun id => hfeeds.served id, fun op hop => queue_apply (hsound.run ops) hop⟩

/-- A packet of reference epoch 7 with one sample. -/
def referencePacket (sequence firstSample : UInt64) (h : firstSample.toNat + 1 < 2 ^ 64) :
    Packet where
  header :=
    { kind := .reference, flags := .NONE, epoch := 7, sequence := sequence,
      firstSample := firstSample, monoNs := 0, uncertaintyUs := none, frameCount := 1,
      generation := 0, sourceMask := .NONE }
  endSample := UInt64.ofNat (firstSample.toNat + 1)
  payload := [0, 0]
  length_lt := sample_length_lt
  header_ok := by
    simp [Header.check, Header.raw, RawHeader.check, Flags.fromBits, Flags.NONE,
      Flags.contains, Flags.DIGITAL_SILENCE, Kind.maxFrames, SourceMask.NONE,
      SourceMask.fromBits, Kind.payloadBytes]
  end_ok := if_pos h
  records_ok := rfl

/-- Bounds that keep one frame of each stream. -/
def oneFrame : UplinkConfig :=
  { UplinkConfig.default with retention := ⟨1, 1, 1, 1⟩ }

theorem one_ne_zero : (1 : UInt64) ≠ 0 := by decide

/-- A subscription of the reference over an epoch that ends and is opened again. -/
def reopened : List Op :=
  [.streamOpened ⟨.mic, 1, one_ne_zero⟩, .streamOpened ⟨.reference, 7, by decide⟩,
   .open ⟨"a"⟩ .diagnostic ⟨"mode"⟩ (fun s => if s = .reference then some .live else none) 0,
   .ingest (referencePacket 0 2560 (by decide)) 0, .streamEnded ⟨.reference, 7, 2561⟩ 0,
   .streamOpened ⟨.reference, 7, by decide⟩, .ingest (referencePacket 1 5120 (by decide)) 0]

theorem gapless_delivery_reopened :
    Served (openings ⟨false, false⟩ ⟨"a"⟩ (reopened.take 5)
        ((Uplink.new oneFrame ⟨false, false⟩ false).run (reopened.take 5)).2)
      (feedOf ⟨"a"⟩ (delivered ((Uplink.new oneFrame ⟨false, false⟩ false).run (reopened.take 5)).2 ++
        ((Uplink.new oneFrame ⟨false, false⟩ false).run (reopened.take 5)).1.outbox.queue)) := by
  have hops : Admissible (Uplink.new oneFrame ⟨false, false⟩ false) [] (reopened.take 5) := by
    refine ⟨nofun, fun _ _ _ => List.not_mem_nil, nofun, fun _ _ _ => List.not_mem_nil,
      fun _ _ => List.not_mem_nil, nofun, nofun, nofun, nofun, nofun, trivial⟩
  exact (gapless_delivery oneFrame ⟨false, false⟩ false hops).1 ⟨"a"⟩

/-- The chunk of a delivery, unless it is an end notice. -/
def Delivery.toChunk : Delivery → Option Chunk
  | .chunk c => some c
  | .ended _ => none

/-- A feed without end notices is one activation's, in order. -/
theorem Served.inOrder_of_chunks {opened : List Starts} {feed : List Delivery}
    (h : Served opened feed) (hchunks : feed.all (!·.isEnded) = true) :
    ∃ starts, InOrder starts (feed.filterMap Delivery.toChunk) := by
  have hclosed : ∀ {olds old}, Closed olds old → old ⊆ feed → old = [] := by
    intro olds old hold hsub
    cases hold with
    | nil => rfl
    | snoc e _ _ =>
        have hmem := List.all_eq_true.mp hchunks (.ended e)
          (hsub (List.mem_append_right _ (List.mem_singleton_self _)))
        cases hmem
  rcases h with h | ⟨olds, starts, old, cs, -, rfl, hold, horder⟩
  · rw [hclosed h (List.Subset.refl _)]
    refine ⟨fun _ => none, fun _ => ⟨none, none, Chain.nil none⟩, ?_⟩
    intro _ _ _ h
    cases h
  · rw [hclosed hold (List.subset_append_left _ _), List.nil_append, List.filterMap_map]
    refine ⟨starts, ?_⟩
    rw [show (Delivery.toChunk ∘ Delivery.chunk) = some from rfl, List.filterMap_some]
    exact horder

/-- The chunk a one-sample reference packet gives. -/
def frameChunk (first : ℕ) : Chunk :=
  ⟨⟨"a"⟩, .FIRST, .reference, 7, ⟨first, first + 1⟩,
    .data ⟨.NONE, 0, none, .NONE⟩ false (.pcm [0, 0])⟩

/-- The reopened epoch's packets leave a gap after those before its end. -/
theorem reopened_not_served :
    ¬ Served (openings ⟨false, false⟩ ⟨"a"⟩ reopened
        ((Uplink.new oneFrame ⟨false, false⟩ false).run reopened).2)
      (feedOf ⟨"a"⟩ (delivered ((Uplink.new oneFrame ⟨false, false⟩ false).run reopened).2 ++
        ((Uplink.new oneFrame ⟨false, false⟩ false).run reopened).1.outbox.queue)) := by
  intro h
  obtain ⟨starts, horder⟩ := h.inOrder_of_chunks (by decide +kernel)
  obtain ⟨p, q, hchain⟩ := horder.contiguous (.reference, 7)
  have hchunks : onKey (.reference, 7) ((feedOf ⟨"a"⟩
      (delivered ((Uplink.new oneFrame ⟨false, false⟩ false).run reopened).2 ++
        ((Uplink.new oneFrame ⟨false, false⟩ false).run reopened).1.outbox.queue)).filterMap
          Delivery.toChunk) = [frameChunk 2560, frameChunk 5120] := by
    decide +kernel
  rw [hchunks] at hchain
  have hnext : 5120 = 2560 + 1 := hchain.next
  omega

end EchoMuse.Uplink
