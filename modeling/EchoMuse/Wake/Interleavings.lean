import EchoMuse.Wake.Stretches
import Mathlib.Data.List.Perm.Subperm

/-!
# Interleavings of the Detector

Over every interleaving of the capture side with the wake goroutine: the pending queue stays within
its bound and its slots apart, and the scores of a mean come from one stretch.

Both hold while two things do not happen. A gap that arrives at three gap items with one hop behind
them drops that hop and leaves four gap items. And a wake goroutine that found no control waiting
takes a hop that was queued behind a control since.

## Main results

* `Detector.Safe.step`: the queue under one step;
* `Detector.Lined.step`: the hops in line under one step;
* `Detector.scores_contiguous`: the queue and the scores over every run without these two;
* `gaps_crowd`: the run in which gap items crowd out every hop.
-/

namespace EchoMuse.Wake

/-! ### Drops -/

/-- The slots the queue holds. -/
def slotsOf (queue : List Item) : List Slot := queue.flatMap Item.slots

theorem dropHop_sublist (queue : List Item) : (dropHop queue).Sublist queue := by
  induction queue with
  | nil => exact .slnil
  | cons item rest ih =>
      cases item with
      | gap => exact ih.cons_cons .gap
      | hop it slot place => exact .cons _ (.refl rest)

/-- The oldest hop gives up its slot. -/
theorem find_isHop {queue : List Item} {item : Item} (h : queue.find? Item.isHop = some item) :
    ∃ it slot place, item = .hop it slot place ∧ item ∈ queue ∧
      (dropHop queue).length + 1 = queue.length ∧
      (slotsOf queue).Perm (slot :: slotsOf (dropHop queue)) := by
  induction queue with
  | nil => cases h
  | cons head rest ih =>
      cases head with
      | gap =>
          obtain ⟨it, slot, place, rfl, hmem, hlen, hperm⟩ := ih h
          exact ⟨it, slot, place, rfl, List.mem_cons_of_mem _ hmem, congrArg (· + 1) hlen, hperm⟩
      | hop it slot place =>
          obtain rfl : Item.hop it slot place = item := Option.some.inj h
          exact ⟨it, slot, place, rfl, List.mem_cons_self, rfl, .refl _⟩

theorem find_isHop_of_mem {queue : List Item} (h : ∃ item ∈ queue, item.isHop = true) :
    ∃ item, queue.find? Item.isHop = some item := by
  obtain ⟨item, hmem, hhop⟩ := h
  exact Option.isSome_iff_exists.mp (List.find?_isSome.mpr ⟨item, hmem, hhop⟩)

/-! ### Slots -/

/-- The slot the wake goroutine holds. -/
def Phase.slots : Phase → List Slot
  | .holding (.hop _ slot _) => [slot]
  | .scored slot => [slot]
  | _ => []

theorem slotsOf_append (queue queue' : List Item) :
    slotsOf (queue ++ queue') = slotsOf queue ++ slotsOf queue' := List.flatMap_append

theorem length_slotsOf_le (queue : List Item) : (slotsOf queue).length ≤ queue.length := by
  induction queue with
  | nil => exact le_rfl
  | cons item rest ih =>
      cases item with
      | gap => exact ih.trans (Nat.le_succ _)
      | hop it slot place => exact Nat.succ_le_succ ih

/-- With fewer slots held than there are, one is free. -/
theorem exists_allocSlot {used : Slot → Bool} {held : List Slot}
    (hused : ∀ i, used i = true ↔ i ∈ held) (hlen : held.length ≤ queueDepth) :
    ∃ slot, allocSlot used = some slot ∧ slot ∉ held := by
  cases ha : allocSlot used with
  | none =>
      have hall : List.finRange (queueDepth + 1) ⊆ held := by
        intro i hi
        have hnot := List.find?_eq_none.mp ha i hi
        rw [Bool.not_eq_true, Bool.not_eq_false'] at hnot
        exact (hused i).mp hnot
      have hle := ((List.nodup_finRange (queueDepth + 1)).subperm hall).length_le
      rw [List.length_finRange] at hle
      omega
  | some slot =>
      refine ⟨slot, rfl, fun hmem => ?_⟩
      have hfree := List.find?_some ha
      rw [(hused slot).mpr hmem] at hfree
      cases hfree

theorem freeSlot_iff {used : Slot → Bool} {slot i : Slot} :
    freeSlot used slot i = true ↔ i ≠ slot ∧ used i = true := by
  unfold freeSlot
  by_cases h : i = slot
  · rw [if_pos h]
    exact ⟨fun hf => absurd hf Bool.false_ne_true, fun hne => absurd h hne.1⟩
  · rw [if_neg h]
    exact ⟨fun hu => ⟨h, hu⟩, fun hu => hu.2⟩

theorem takeSlot_iff {used : Slot → Bool} {slot i : Slot} :
    takeSlot used slot i = true ↔ i = slot ∨ used i = true := by
  unfold takeSlot
  by_cases h : i = slot
  · rw [if_pos h]
    exact ⟨fun _ => .inl h, fun _ => rfl⟩
  · rw [if_neg h]
    exact ⟨.inr, fun hu => hu.resolve_left h⟩

/-- Clearing frees every slot of the queue. -/
theorem freeSlots_iff {used : Slot → Bool} {queue : List Item} {i : Slot} :
    queue.foldl (fun used item => item.slots.foldl freeSlot used) used i = true ↔
      i ∉ slotsOf queue ∧ used i = true := by
  induction queue generalizing used with
  | nil => exact ⟨fun h => ⟨List.not_mem_nil, h⟩, fun h => h.2⟩
  | cons item rest ih =>
      rw [List.foldl_cons, ih]
      cases item with
      | gap => exact Iff.rfl
      | hop it slot place =>
          change i ∉ slotsOf rest ∧ freeSlot used slot i = true ↔ i ∉ slot :: slotsOf rest ∧ _
          rw [freeSlot_iff, List.mem_cons, not_or]
          exact ⟨fun h => ⟨⟨h.2.1, h.1⟩, h.2.2⟩, fun h => ⟨h.1.2, h.1.1, h.2⟩⟩

/-- The control a piece posts. -/
def Piece.control? : Piece → Option Control
  | .post c => some c
  | _ => none

namespace Detector

/-! ### The two steps that go wrong -/

/-- A full queue of three gap items and one hop behind them. -/
def crowded (queue : List Item) : Bool := queue.map Item.isHop = [false, false, false, true]

/-- A gap arrives at a crowded queue. -/
def crowds (d : Detector) : Action → Bool
  | .piece _ =>
    (match d.todo with
      | .missing _ :: _ => d.ingest.listens
      | _ => false) && crowded d.queue
  | _ => false

/-- The controls posted, about to be posted by the caller inside the lock, or owed. -/
def awaited (d : Detector) : List Control :=
  d.controls ++ d.owed ++ d.todo.filterMap Piece.control?

/-- The wake goroutine takes a hop on top of scores that a control behind it is to clear. -/
def overtakes (d : Detector) : Action → Bool
  | .wake _ _ _ =>
    d.phase = .items && d.overruns = 0 && d.queue.head?.any Item.isHop && d.core.scores ≠ [] &&
      d.awaited.any Control.clears
  | _ => false

/-! ### The queue -/

/-- The queue is within its bound and has a hop to drop when it is full; no two hops in it or in
inference share a slot. -/
structure Safe (d : Detector) : Prop where
  alive : d.panic = none
  bounded : d.queue.length ≤ queueDepth
  hasHop : d.queue.length = queueDepth → ∃ item ∈ d.queue, item.isHop = true
  slots : (slotsOf d.queue ++ d.phase.slots).Nodup
  used : ∀ i, d.used i = true ↔ i ∈ slotsOf d.queue ++ d.phase.slots

variable {d d' : Detector}

theorem Safe.init : Safe {} where
  alive := rfl
  bounded := Nat.zero_le _
  hasHop := fun h => by cases h
  slots := .nil
  used := fun i => ⟨fun h => absurd h Bool.false_ne_true, fun h => absurd h List.not_mem_nil⟩

/-- The rest of the state has no part in it. -/
theorem Safe.same (h : d.Safe) (hpanic : d'.panic = d.panic) (hqueue : d'.queue = d.queue)
    (hslots : d'.phase.slots = d.phase.slots) (hused : d'.used = d.used) : d'.Safe where
  alive := hpanic.trans h.alive
  bounded := hqueue ▸ h.bounded
  hasHop := hqueue ▸ h.hasHop
  slots := by
    rw [hqueue, hslots]
    exact h.slots
  used := by
    rw [hqueue, hslots, hused]
    exact h.used

/-- Room is made by dropping the oldest hop of a full queue. -/
theorem makeRoom_cases (hhop : d.queue.length = queueDepth → ∃ item ∈ d.queue, item.isHop = true) :
    (d.queue.length ≠ queueDepth ∧ d.makeRoom = d) ∨
      ∃ it slot place, d.queue.length = queueDepth ∧ .hop it slot place ∈ d.queue ∧
        (dropHop d.queue).length + 1 = d.queue.length ∧
        (slotsOf d.queue).Perm (slot :: slotsOf (dropHop d.queue)) ∧
        d.makeRoom = { d with queue := dropHop d.queue, used := freeSlot d.used slot
                              overruns := d.overruns + 1 } := by
  unfold makeRoom
  by_cases hfull : d.queue.length = queueDepth
  · rw [if_pos hfull]
    obtain ⟨item, hfind⟩ := find_isHop_of_mem (hhop hfull)
    obtain ⟨it, slot, place, rfl, hmem, hlen, hperm⟩ := find_isHop hfind
    refine .inr ⟨it, slot, place, hfull, hmem, hlen, hperm, ?_⟩
    unfold dropOldestHop
    rw [hfind]
  · rw [if_neg hfull]
    exact .inl ⟨hfull, rfl⟩

theorem Safe.makeRoom (h : d.Safe) : d.makeRoom.Safe ∧ d.makeRoom.queue.length < queueDepth := by
  have hbound := h.bounded
  rcases makeRoom_cases h.hasHop with ⟨hlen, heq⟩ | ⟨it, slot, place, hfull, -, hlen, hperm, heq⟩
  · rw [heq]
    exact ⟨h, by omega⟩
  · have hall := hperm.append_right d.phase.slots
    have hnodup := hall.nodup_iff.mp h.slots
    rw [heq]
    refine ⟨⟨h.alive, ?_, ?_, (List.nodup_cons.mp hnodup).2, fun i => ?_⟩, ?_⟩
    · dsimp only
      omega
    · dsimp only
      omega
    · dsimp only
      rw [freeSlot_iff, h.used, hall.mem_iff, List.cons_append, List.mem_cons]
      constructor
      · exact fun hi => hi.2.resolve_left hi.1
      · intro hi
        refine ⟨?_, .inr hi⟩
        rintro rfl
        exact (List.nodup_cons.mp hnodup).1 hi
    · dsimp only
      omega

theorem put_eq (h : d.queue.length < queueDepth) (item : Item) :
    d.put item = { d with queue := d.queue ++ [item] } := if_pos h

/-- A gap behind a hop at the end leaves a hop to drop, unless the queue is crowded. -/
theorem dropHop_hasHop {queue : List Item} (hlen : queue.length = queueDepth)
    (hlast : queue.getLast? ≠ some .gap) (hcrowded : crowded queue = false) :
    ∃ item ∈ dropHop queue, item.isHop = true := by
  have hdepth : queueDepth = 4 := rfl
  obtain ⟨a, queue, rfl⟩ := List.exists_cons_of_length_pos (l := queue) (by omega)
  obtain ⟨b, queue, rfl⟩ := List.exists_cons_of_length_pos (l := queue) (by
    rw [List.length_cons] at hlen
    omega)
  obtain ⟨c, queue, rfl⟩ := List.exists_cons_of_length_pos (l := queue) (by
    rw [List.length_cons, List.length_cons] at hlen
    omega)
  obtain ⟨d, queue, rfl⟩ := List.exists_cons_of_length_pos (l := queue) (by
    rw [List.length_cons, List.length_cons, List.length_cons] at hlen
    omega)
  obtain rfl : queue = [] := by
    rw [← List.length_eq_zero_iff]
    rw [List.length_cons, List.length_cons, List.length_cons, List.length_cons] at hlen
    omega
  cases d with
  | gap => exact absurd rfl hlast
  | hop it slot place =>
      have hin : ∀ rest : List Item, Item.hop it slot place ∈ rest →
          ∃ item ∈ rest, item.isHop = true := fun rest h => ⟨_, h, rfl⟩
      cases a with
      | hop _ _ _ => exact hin _ (by simp [dropHop])
      | gap =>
          cases b with
          | hop _ _ _ => exact hin _ (by simp [dropHop])
          | gap =>
              cases c with
              | hop _ _ _ => exact hin _ (by simp [dropHop])
              | gap => cases hcrowded

theorem Safe.enqueueGap (h : d.Safe) (hcrowded : crowded d.queue = false) : d.enqueueGap.Safe := by
  unfold Detector.enqueueGap
  by_cases hgap : d.queue.getLast? = some .gap
  · rw [if_pos hgap]
    exact h
  · obtain ⟨hsafe, hroom⟩ := h.makeRoom
    have hslots : slotsOf (d.makeRoom.queue ++ [.gap]) = slotsOf d.makeRoom.queue := by
      rw [slotsOf_append]
      exact List.append_nil _
    rw [if_neg hgap, put_eq hroom]
    refine ⟨hsafe.alive, ?_, fun hfull => ?_, ?_, ?_⟩
    · dsimp only
      rw [List.length_append, List.length_singleton]
      omega
    · -- A hop is left: the last item, or another one when the queue was full.
      have hmem : ∃ item ∈ d.makeRoom.queue, item.isHop = true := by
        rcases makeRoom_cases h.hasHop with ⟨-, heq⟩ | ⟨it, slot, place, hfull, -, -, -, heq⟩
        · dsimp only at hfull
          rw [heq, List.length_append, List.length_singleton] at hfull
          rw [heq]
          rcases List.eq_nil_or_concat d.queue with hnil | ⟨pre, item, hconcat⟩
          · rw [hnil] at hfull
            cases hfull
          · rw [List.concat_eq_append] at hconcat
            rw [hconcat]
            refine ⟨item, List.mem_append_right _ (List.mem_singleton_self item), ?_⟩
            cases item with
            | hop _ _ _ => rfl
            | gap =>
                rw [hconcat, List.getLast?_append] at hgap
                exact absurd rfl hgap
        · rw [heq]
          exact dropHop_hasHop hfull hgap hcrowded
      obtain ⟨item, hitem, hhop⟩ := hmem
      exact ⟨item, List.mem_append_left _ hitem, hhop⟩
    · dsimp only
      rw [hslots]
      exact hsafe.slots
    · dsimp only
      rw [hslots]
      exact hsafe.used

theorem Phase.length_slots_le (p : Phase) : p.slots.length ≤ 1 := by
  cases p with
  | holding t => cases t <;> first | exact Nat.zero_le _ | exact le_rfl
  | scored slot => exact le_rfl
  | _ => exact Nat.zero_le _

/-- A hop finds room and a free slot. -/
theorem enqueueHop_eq (h : d.Safe) (it : HopItem) :
    ∃ slot, slot ∉ slotsOf d.makeRoom.queue ++ d.makeRoom.phase.slots ∧
      d.enqueueHop it =
        { d.makeRoom with
          used := takeSlot d.makeRoom.used slot
          queue := d.makeRoom.queue ++ [.hop it slot d.makeRoom.tape.length]
          tape := d.makeRoom.tape ++ [.hop it] } := by
  obtain ⟨hsafe, hroom⟩ := h.makeRoom
  have hdepth : queueDepth = 4 := rfl
  have hheld : (slotsOf d.makeRoom.queue ++ d.makeRoom.phase.slots).length ≤ queueDepth := by
    have hqueue := length_slotsOf_le d.makeRoom.queue
    have hphase := Phase.length_slots_le d.makeRoom.phase
    rw [List.length_append]
    omega
  obtain ⟨slot, halloc, hfree⟩ := exists_allocSlot hsafe.used hheld
  refine ⟨slot, hfree, ?_⟩
  unfold Detector.enqueueHop
  dsimp only
  rw [halloc]
  exact if_pos hroom

/-- A hop takes a free slot, and is one to drop. -/
theorem Safe.enqueueHop (h : d.Safe) (it : HopItem) : (d.enqueueHop it).Safe := by
  obtain ⟨hsafe, hroom⟩ := h.makeRoom
  obtain ⟨slot, hfree, heq⟩ := enqueueHop_eq h it
  have hslots : (slotsOf (d.makeRoom.queue ++ [.hop it slot d.makeRoom.tape.length]) ++
      d.makeRoom.phase.slots).Perm (slot :: (slotsOf d.makeRoom.queue ++ d.makeRoom.phase.slots)) := by
    rw [slotsOf_append]
    exact List.perm_append_comm.append_right _
  rw [heq]
  refine ⟨hsafe.alive, ?_, fun _ => ?_, ?_, fun i => ?_⟩
  · dsimp only
    rw [List.length_append, List.length_singleton]
    omega
  · exact ⟨_, List.mem_append_right _ (List.mem_singleton_self _), rfl⟩
  · exact hslots.nodup_iff.mpr (List.nodup_cons.mpr ⟨hfree, hsafe.slots⟩)
  · dsimp only
    rw [takeSlot_iff, hsafe.used, hslots.mem_iff, List.mem_cons]

theorem Safe.clearQueue (h : d.Safe) : d.clearQueue.Safe where
  alive := h.alive
  bounded := Nat.zero_le _
  hasHop := fun h => by cases h
  slots := (List.nodup_append.mp h.slots).2.1
  used := fun i => by
    change _ = true ↔ i ∈ [] ++ d.phase.slots
    unfold Detector.clearQueue
    dsimp only
    rw [freeSlots_iff, h.used, List.mem_append, List.nil_append]
    constructor
    · exact fun hi => hi.2.resolve_left hi.1
    · exact fun hi => ⟨fun hq => (List.nodup_append.mp h.slots).2.2 i hq i hi rfl, .inr hi⟩

theorem Safe.restart (h : d.Safe) (g : Ingest) (c : Control) : (d.restart g c).Safe := by
  have hset : { d with ingest := g }.Safe := h.same rfl rfl rfl rfl
  exact hset.clearQueue.same rfl rfl rfl rfl

theorem Safe.call (h : d.Safe) (c : Call) : (d.call c).Safe := by
  cases c with
  | setEpoch epoch =>
      change Safe (if d.ingest.haveEpoch ∧ d.ingest.epoch = epoch then d else _)
      by_cases hsame : d.ingest.haveEpoch ∧ d.ingest.epoch = epoch
      · rw [if_pos hsame]
        exact h
      · rw [if_neg hsame]
        exact h.restart _ _
  | reset => exact h.restart _ _
  | setMuted muted =>
      change Safe (if d.ingest.muted = muted then d else _)
      by_cases hsame : d.ingest.muted = muted
      · rw [if_pos hsame]
        exact h
      · rw [if_neg hsame]
        exact h.restart _ _
  | setModel m => exact h.restart _ _
  | setUnavailable => exact h.restart _ _
  | setPolicy p => exact h.same rfl rfl rfl rfl
  | onBlock first len gap =>
      unfold Detector.call
      dsimp only
      by_cases hidle : len = 0 ∨ d.ingest.haveEpoch = false
      · rw [if_pos hidle]
        exact h
      · rw [if_neg hidle]
        by_cases hback : first < d.ingest.expected
        · rw [if_pos hback]
          have hreset : { d with ingest := { d.ingest with expected := first }.reset }.Safe :=
            h.same rfl rfl rfl rfl
          exact hreset.clearQueue.same rfl rfl rfl rfl
        · rw [if_neg hback]
          by_cases hjump : d.ingest.expected < first
          · rw [if_pos hjump]
            exact h.same rfl rfl rfl rfl
          · rw [if_neg hjump]
            exact h.same rfl rfl rfl rfl

theorem Safe.piece (h : d.Safe) (profile : Profile)
    (hcrowds : d.crowds (.piece profile) = false) : (d.piece profile).Safe := by
  unfold Detector.piece
  cases ht : d.todo with
  | nil => exact h
  | cons p rest =>
      cases p with
      | post c => exact h.same rfl rfl rfl rfl
      | missing to_ =>
          dsimp only
          unfold Detector.missing
          dsimp only
          by_cases hlistens : (d.ingest.missing to_).listens = true
          · rw [if_pos hlistens]
            have hcrowded : crowded d.queue = false := by
              unfold Detector.crowds at hcrowds
              rw [ht] at hcrowds
              have hl : d.ingest.listens = true := hlistens
              dsimp only at hcrowds
              rw [hl, Bool.true_and] at hcrowds
              exact hcrowds
            refine Safe.enqueueGap ?_ hcrowded
            exact h.same rfl rfl rfl rfl
          · rw [if_neg hlistens]
            exact h.same rfl rfl rfl rfl
      | samples end_ =>
          dsimp only
          by_cases hhop : d.ingest.nextHop ≤ end_
          · rw [if_pos hhop]
            by_cases hqueues : d.ingest.queues d.ingest.nextHop = true
            · rw [if_pos hqueues]
              refine Safe.enqueueHop ?_ _
              exact h.same rfl rfl rfl rfl
            · rw [if_neg hqueues]
              exact h.same rfl rfl rfl rfl
          · rw [if_neg hhop]
            exact h.same rfl rfl rfl rfl

theorem Safe.post (h : d.Safe) (index : ℕ) : (d.post index).Safe := by
  unfold Detector.post
  cases d.owed[index]? with
  | none => exact h
  | some c => exact h.same rfl rfl rfl rfl

/-- An item taken from the front keeps its slot while the wake goroutine holds it. -/
theorem Safe.take (h : d.Safe) (hidle : d.phase = .items) {item : Item} {rest : List Item}
    (hqueue : d.queue = item :: rest) {t : Taken} (hslots : (Phase.holding t).slots = item.slots) :
    { d with queue := rest, phase := .holding t }.Safe := by
  have hperm : (slotsOf d.queue ++ d.phase.slots).Perm
      (slotsOf rest ++ (Phase.holding t).slots) := by
    rw [hqueue, hidle, hslots]
    change (item.slots ++ slotsOf rest ++ []).Perm _
    rw [List.append_nil]
    exact List.perm_append_comm
  have hlen := h.bounded
  rw [hqueue, List.length_cons] at hlen
  refine ⟨h.alive, (Nat.le_succ _).trans hlen, fun hfull => ?_, hperm.nodup_iff.mp h.slots,
    fun i => ?_⟩
  · dsimp only at hfull
    omega
  · exact (h.used i).trans hperm.mem_iff

theorem Safe.nextItem (h : d.Safe) (hphase : d.phase = .items) : d.nextItem.Safe := by
  unfold Detector.nextItem
  have hslots : d.phase.slots = [] := by rw [hphase]; rfl
  by_cases hover : d.overruns ≠ 0
  · rw [if_pos hover]
    exact h.same rfl rfl hslots.symm rfl
  · rw [if_neg hover]
    cases hq : d.queue with
    | nil => exact h.same rfl hq.symm hslots.symm rfl
    | cons item rest =>
        cases item with
        | gap => exact h.take hphase hq rfl
        | hop it slot place => exact h.take hphase hq rfl

/-- The slot of a scored hop is free again. -/
theorem Safe.release (h : d.Safe) {slot : Slot} (hphase : d.phase = .scored slot) :
    { d with used := freeSlot d.used slot, phase := .control }.Safe := by
  have hnodup := h.slots
  have hused := h.used
  rw [hphase] at hnodup hused
  obtain ⟨hqueue, -, hapart⟩ := List.nodup_append.mp hnodup
  refine ⟨h.alive, h.bounded, h.hasHop, ?_, fun i => ?_⟩
  · change (slotsOf d.queue ++ []).Nodup
    rw [List.append_nil]
    exact hqueue
  · change freeSlot d.used slot i = true ↔ i ∈ slotsOf d.queue ++ []
    rw [freeSlot_iff, hused, List.append_nil, List.mem_append]
    constructor
    · rintro ⟨hne, hi⟩
      exact hi.resolve_right fun hmem => hne (List.mem_singleton.mp hmem)
    · intro hi
      exact ⟨fun heq => hapart i hi slot (List.mem_singleton_self slot) heq, .inl hi⟩

theorem Safe.wake (h : d.Safe) (result : ScoreResult) (now : ℤ) (sound : Bool) :
    (d.wake result now sound).Safe := by
  unfold Detector.wake
  cases hphase : d.phase with
  | control =>
      have hslots : d.phase.slots = [] := by rw [hphase]; rfl
      dsimp only
      unfold Detector.nextControl
      cases d.controls with
      | nil => exact h.same rfl rfl hslots.symm rfl
      | cons c rest => exact h.same rfl rfl rfl rfl
  | items => exact h.nextItem hphase
  | holding t =>
      have hslots : d.phase.slots = (Phase.holding t).slots := by rw [hphase]
      cases t with
      | overrun => exact h.same rfl rfl hslots.symm rfl
      | gap => exact h.same rfl rfl hslots.symm rfl
      | hop it slot place => exact h.same rfl rfl hslots.symm rfl
  | scored slot => exact h.release hphase

/-- One step keeps the queue within its bound, unless a gap arrives at a crowded queue. -/
theorem Safe.step (h : d.Safe) {a : Action} (hcrowds : d.crowds a = false) : (d.step a).Safe := by
  unfold Detector.step
  have hpanic : ¬ (d.panic.isSome = true) := by
    rw [h.alive]
    exact Bool.false_ne_true
  rw [if_neg hpanic]
  cases a with
  | call c =>
      dsimp only
      by_cases hfree : d.todo = []
      · rw [if_pos hfree]
        exact h.call c
      · rw [if_neg hfree]
        exact h
  | piece profile => exact h.piece profile hcrowds
  | post index => exact h.post index
  | wake result now sound => exact h.wake result now sound

/-! ### Hops in line -/

/-- Something the wake goroutine will take first clears its history. -/
def broken (d : Detector) : Bool := d.overruns ≠ 0 || d.awaited.any Control.clears

/-- The place of the hop before the queue's first: the one being scored, or the last scored one
while there are scores. -/
def current (d : Detector) : Option ℕ :=
  match d.phase with
  | .holding (.hop _ _ place) => some place
  | .holding _ => none
  | _ => lastPlace d.seen d.core

/-- The queued hops follow the scored ones on the tape, wherever nothing clears the history. -/
structure Lined (d : Detector) : Prop where
  grid : d.ingest.haveEpoch = true → firstWindowEnd ≤ d.ingest.nextHop
  inside : d.todo ≠ [] → d.ingest.haveEpoch = true
  quiet : ∀ end_, .samples end_ ∈ d.todo → d.ingest.muted = false
  tape : Taped d.ingest d.tape
  queued : ∀ it slot place, .hop it slot place ∈ d.queue → d.tape[place]? = some (.hop it)
  held : ∀ it slot place, d.phase = .holding (.hop it slot place) →
    d.tape[place]? = some (.hop it) ∧ ∀ x ∈ lastPlace d.seen d.core, place = x + 1
  linked : Linked (fun x => x + 1 = d.tape.length ∧ d.ingest.listens = true)
    (if d.broken then none else d.current) d.queue
  model : d.core.model = none → d.core.scores = []
  history : History d.tape d.seen d.core

theorem Lined.init : Lined {} where
  grid := fun h => by cases h
  inside := fun h => absurd rfl h
  quiet := fun end_ h => absurd h List.not_mem_nil
  tape := by
    refine ⟨rfl, fun it h => ?_, fun i x y h => ?_, fun i x h => ?_⟩
    · cases h
    · cases h
    · cases h
  queued := fun it slot place h => absurd h List.not_mem_nil
  held := fun it slot place h => by cases h
  linked := fun x h => absurd h (Option.not_mem_none x)
  model := fun _ => rfl
  history := .cleared [] [] rfl

/-- The tape of a longer run has the same hops at the same places. -/
theorem getElem?_grow {tape : List Mark} {place : ℕ} {it : HopItem} (m : Mark)
    (h : tape[place]? = some (.hop it)) : (tape ++ [m])[place]? = some (.hop it) := by
  obtain ⟨hlt, -⟩ := List.getElem?_eq_some_iff.mp h
  rw [List.getElem?_append_left hlt]
  exact h

theorem Lined.makeRoom (h : d.Lined) (hsafe : d.Safe) : d.makeRoom.Lined := by
  rcases makeRoom_cases hsafe.hasHop with ⟨-, heq⟩ | ⟨it, slot, place, -, -, -, -, heq⟩
  · rw [heq]
    exact h
  · rw [heq]
    refine ⟨h.grid, h.inside, h.quiet, h.tape, fun it slot place hmem => ?_, h.held, ?_, h.model,
      h.history⟩
    · exact h.queued it slot place ((dropHop_sublist d.queue).subset hmem)
    · have hbroken : { d with queue := dropHop d.queue, used := freeSlot d.used slot
                              overruns := d.overruns + 1 }.broken = true := by
        unfold Detector.broken
        rw [decide_eq_true (Nat.succ_ne_zero d.overruns)]
        rfl
      rw [hbroken, if_pos rfl]
      exact h.linked.anew.dropHop

/-- Making room neither looks at nor changes the history for capture and the tape. -/
theorem makeRoom_frame (d : Detector) : ∃ queue used overruns,
    d.makeRoom = { d with queue, used, overruns } ∧
      ∀ g tape, { d with ingest := g, tape }.makeRoom =
        { d with ingest := g, tape, queue, used, overruns } := by
  unfold Detector.makeRoom
  by_cases hfull : d.queue.length = queueDepth
  · rw [if_pos hfull]
    unfold dropOldestHop
    dsimp only
    cases hfind : d.queue.find? Item.isHop with
    | none =>
        refine ⟨d.queue, d.used, d.overruns, rfl, fun g tape => ?_⟩
        rw [if_pos hfull]
    | some item =>
        cases item with
        | gap =>
            refine ⟨d.queue, d.used, d.overruns, rfl, fun g tape => ?_⟩
            rw [if_pos hfull]
        | hop it slot place =>
            refine ⟨_, _, _, rfl, fun g tape => ?_⟩
            rw [if_pos hfull]
  · rw [if_neg hfull]
    refine ⟨d.queue, d.used, d.overruns, rfl, fun g tape => ?_⟩
    rw [if_neg hfull]

/-- Samples are missing, and the queue's hops stay in line. -/
theorem Lined.gone (h : d.Lined) (to_ : ℕ) {queue : List Item}
    (hmem : ∀ it slot place, .hop it slot place ∈ queue → Item.hop it slot place ∈ d.queue)
    (hlinked : Linked
      (fun x => x + 1 = (d.tape ++ [Mark.missing to_]).length ∧ d.ingest.listens = true)
      (if d.broken then none else d.current) queue) :
    { d with ingest := d.ingest.missing to_, tape := d.tape ++ [Mark.missing to_], queue }.Lined where
  grid := fun he => (h.grid he).trans (Ingest.le_gridPast _ _)
  inside := h.inside
  quiet := h.quiet
  tape := h.tape.broken (fun it hit => by cases hit) (Taped.startOf_concat d.tape (.missing to_)).symm
  queued := fun it slot place hq => getElem?_grow _ (h.queued it slot place (hmem it slot place hq))
  held := fun it slot place hp =>
    ⟨getElem?_grow _ (h.held it slot place hp).1, (h.held it slot place hp).2⟩
  linked := hlinked
  model := h.model
  history := h.history.grow _

/-- Missing samples put a gap item behind the queue, unless nothing is in line. -/
theorem Lined.missing (h : d.Lined) (hsafe : d.Safe) (to_ : ℕ) : (d.missing to_).Lined := by
  unfold Detector.missing
  dsimp only
  by_cases hlistens : (d.ingest.missing to_).listens = true
  · rw [if_pos hlistens]
    unfold Detector.enqueueGap
    dsimp only
    by_cases hgap : d.queue.getLast? = some .gap
    · rw [if_pos hgap]
      exact h.gone to_ (fun it slot place hq => hq) (h.linked.of_gap hgap)
    · have hroom := h.makeRoom hsafe
      have hlen := hsafe.makeRoom.2
      obtain ⟨queue, used, overruns, heq, hmark⟩ := makeRoom_frame d
      rw [heq] at hroom hlen
      rw [if_neg hgap, hmark]
      unfold Detector.put
      rw [if_pos hlen]
      refine hroom.gone to_ (fun it slot place hq => ?_) hroom.linked.gap
      exact (List.mem_append.mp hq).resolve_right fun hq => by cases List.mem_singleton.mp hq
  · rw [if_neg hlistens]
    refine h.gone to_ (fun it slot place hq => hq) (h.linked.mono fun x hx => ?_)
    exact absurd hx.2 hlistens

/-- A hop is queued right behind the last one, at the end of the tape. -/
theorem Lined.enqueueHop (h : d.Lined) (hsafe : d.Safe) (hepoch : d.ingest.haveEpoch = true)
    (hmuted : d.ingest.muted = false) (hqueues : d.ingest.queues d.ingest.nextHop = true)
    (profile : Profile) :
    ({ d with ingest := { d.ingest with nextHop := d.ingest.nextHop + hopSamples } }.enqueueHop
      { end_ := d.ingest.nextHop, epoch := d.ingest.epoch, profile }).Lined := by
  let g : Ingest := { d.ingest with nextHop := d.ingest.nextHop + hopSamples }
  have hset : { d with ingest := g }.Safe := hsafe.same rfl rfl rfl rfl
  obtain ⟨slot, -, heq⟩ := enqueueHop_eq hset
    { end_ := d.ingest.nextHop, epoch := d.ingest.epoch, profile }
  have hroom := h.makeRoom hsafe
  have htaped := h.tape.hop hmuted (h.grid hepoch) hqueues profile
  have hlistens : d.ingest.listens = true := by
    rw [Ingest.listens, hmuted, ((Bool.and_eq_true _ _).mp hqueues).1]
    rfl
  obtain ⟨queue, used, overruns, hframe, hmark⟩ := makeRoom_frame d
  have hmade : { d with ingest := g }.makeRoom = { d with ingest := g, queue, used, overruns } :=
    hmark g d.tape
  rw [hframe] at hroom
  rw [heq, hmade]
  refine ⟨fun he => (h.grid he).trans (Nat.le_add_right _ _), hroom.inside, fun _ _ => hmuted,
    htaped, fun it slot' place hq => ?_, fun it slot' place hp => ?_, ?_, hroom.model,
    hroom.history.grow _⟩
  · rcases List.mem_append.mp hq with hq | hq
    · exact getElem?_grow _ (hroom.queued it slot' place hq)
    · cases List.mem_singleton.mp hq
      exact List.getElem?_concat_length
  · exact ⟨getElem?_grow _ (hroom.held it slot' place hp).1, (hroom.held it slot' place hp).2⟩
  · refine hroom.linked.hop (fun x hx => hx.1.symm) ⟨?_, hlistens⟩
    dsimp only
    rw [List.length_append, List.length_singleton]

/-! ### One step -/

/-- A restart empties the queue; its control is on the way. -/
theorem Lined.restarted (h : d.Lined) {g : Ingest} {owed : List Control} {todo : List Piece}
    (hgrid : g.haveEpoch = true → firstWindowEnd ≤ g.nextHop)
    (hinside : todo ≠ [] → g.haveEpoch = true)
    (hquiet : ∀ end_, .samples end_ ∈ todo → g.muted = false)
    (hawaited : { { d with ingest := g }.clearQueue with owed, todo }.broken = true) :
    { { d with ingest := g }.clearQueue with owed, todo }.Lined where
  grid := hgrid
  inside := hinside
  quiet := hquiet
  tape := h.tape.broken (fun it hit => by cases hit)
    (Taped.startOf_concat d.tape (.restart g.validFrom)).symm
  queued := fun it slot place hq => absurd hq List.not_mem_nil
  held := fun it slot place hp =>
    ⟨getElem?_grow _ (h.held it slot place hp).1, (h.held it slot place hp).2⟩
  linked := by
    rw [hawaited, if_pos rfl]
    exact fun x hx => absurd hx (Option.not_mem_none x)
  model := h.model
  history := h.history.grow _

theorem broken_of_awaited {c : Control} (h : c ∈ d.awaited) (hc : c.clears = true) :
    d.broken = true := by
  unfold Detector.broken
  rw [List.any_eq_true.mpr ⟨c, h, hc⟩, Bool.or_true]

theorem le_reset (g : Ingest) : firstWindowEnd ≤ g.reset.nextHop :=
  (le_max_right _ _).trans (Ingest.le_gridPast _ _)

theorem Lined.restart (h : d.Lined) (hidle : d.todo = []) {g : Ingest} {c : Control}
    (hgrid : firstWindowEnd ≤ g.nextHop) (hc : c.clears = true) : (d.restart g c).Lined := by
  have hmem : c ∈ (d.restart g c).awaited :=
    List.mem_append_left _ (List.mem_append_right _ (List.mem_append_right _
      (List.mem_singleton_self c)))
  refine h.restarted (fun _ => hgrid) (fun hne => absurd hidle hne) (fun end_ hend => ?_)
    (broken_of_awaited hmem hc)
  change .samples end_ ∈ d.todo at hend
  rw [hidle] at hend
  exact absurd hend List.not_mem_nil

/-- Work to do and controls that clear nothing leave the line alone. -/
theorem Lined.work (h : d.Lined) {owed : List Control} {todo : List Piece}
    (hinside : todo ≠ [] → d.ingest.haveEpoch = true)
    (hquiet : ∀ end_, .samples end_ ∈ todo → d.ingest.muted = false)
    (hbroken : { d with owed, todo }.broken = d.broken) : { d with owed, todo }.Lined where
  grid := h.grid
  inside := hinside
  quiet := hquiet
  tape := h.tape
  queued := h.queued
  held := h.held
  linked := by
    rw [hbroken]
    exact h.linked
  model := h.model
  history := h.history

theorem Lined.call (h : d.Lined) (hidle : d.todo = []) (c : Call) : (d.call c).Lined := by
  cases c with
  | setEpoch epoch =>
      change Lined (if d.ingest.haveEpoch ∧ d.ingest.epoch = epoch then d else _)
      by_cases hsame : d.ingest.haveEpoch ∧ d.ingest.epoch = epoch
      · rw [if_pos hsame]
        exact h
      · rw [if_neg hsame]
        exact h.restart hidle le_rfl rfl
  | reset => exact h.restart hidle (le_reset _) rfl
  | setMuted muted =>
      change Lined (if d.ingest.muted = muted then d else _)
      by_cases hsame : d.ingest.muted = muted
      · rw [if_pos hsame]
        exact h
      · rw [if_neg hsame]
        refine h.restart hidle (le_reset _) ?_
        cases muted with
        | true => rfl
        | false => rfl
  | setModel m => exact h.restart hidle (le_reset _) rfl
  | setUnavailable => exact h.restart hidle (le_reset _) rfl
  | setPolicy p =>
      refine h.work h.inside h.quiet ?_
      unfold Detector.broken awaited
      dsimp only
      rw [List.any_append, List.any_append, List.any_append, List.any_append, List.any_append]
      simp only [List.any_cons, List.any_nil, Control.clears, Bool.or_false]
  | onBlock first len gap =>
      unfold Detector.call
      dsimp only
      by_cases hnone : len = 0 ∨ d.ingest.haveEpoch = false
      · rw [if_pos hnone]
        exact h
      · rw [if_neg hnone]
        have hepoch : d.ingest.haveEpoch = true := by
          rw [not_or, Bool.not_eq_false] at hnone
          exact hnone.2
        have hbody : ∀ end_, Piece.samples end_ ∈
            (if gap ∨ d.ingest.muted then [Piece.missing (first + len)]
              else [.samples (first + len)]) → d.ingest.muted = false := by
          intro end_ hend
          by_cases hgone : gap ∨ d.ingest.muted
          · rw [if_pos hgone] at hend
            cases List.mem_singleton.mp hend
          · rw [not_or, Bool.not_eq_true, Bool.not_eq_true] at hgone
            exact hgone.2
        have hbodyPost : (if gap ∨ d.ingest.muted then [Piece.missing (first + len)]
            else [.samples (first + len)]).filterMap Piece.control? = [] := by
          by_cases hgone : gap ∨ d.ingest.muted
          · rw [if_pos hgone]
            rfl
          · rw [if_neg hgone]
            rfl
        by_cases hback : first < d.ingest.expected
        · rw [if_pos hback]
          refine h.restarted (fun _ => le_reset _) (fun _ => hepoch) (fun end_ hend => ?_) ?_
          · exact hbody end_ ((List.mem_cons.mp hend).resolve_left fun heq => by cases heq)
          · refine broken_of_awaited (c := .reset) (List.mem_append_right _ ?_) rfl
            exact List.mem_cons_self
        · rw [if_neg hback]
          by_cases hjump : d.ingest.expected < first
          · rw [if_pos hjump]
            refine h.work (fun _ => hepoch) (fun end_ hend => ?_) ?_
            · exact hbody end_ ((List.mem_cons.mp hend).resolve_left fun heq => by cases heq)
            · unfold Detector.broken awaited
              dsimp only
              rw [List.filterMap_cons_none rfl, hbodyPost, hidle]
              rfl
          · rw [if_neg hjump]
            refine h.work (fun _ => hepoch) hbody ?_
            unfold Detector.broken awaited
            dsimp only
            rw [hbodyPost, hidle]
            rfl

/-- A piece that posts nothing is done. -/
theorem Lined.done (h : d.Lined) {p : Piece} {rest : List Piece} (htodo : d.todo = p :: rest)
    (hp : p.control? = none) : { d with todo := rest }.Lined := by
  refine h.work (fun _ => h.inside ?_) (fun end_ hend => h.quiet end_ ?_) ?_
  · rw [htodo]
    exact List.cons_ne_nil p rest
  · rw [htodo]
    exact List.mem_cons_of_mem p hend
  · unfold Detector.broken awaited
    dsimp only
    rw [htodo, List.filterMap_cons_none hp]

/-- A control that is posted is awaited as before. -/
theorem Lined.posted (h : d.Lined) {controls owed : List Control} {todo : List Piece}
    (htodo : ∀ p ∈ todo, p ∈ d.todo)
    (hperm : (controls ++ owed ++ todo.filterMap Piece.control?).Perm d.awaited) :
    { d with controls, owed, todo }.Lined where
  grid := h.grid
  inside := fun hne => h.inside fun hnil => hne (List.eq_nil_iff_forall_not_mem.mpr fun p hp => by
    have hmem := htodo p hp
    rw [hnil] at hmem
    exact absurd hmem List.not_mem_nil)
  quiet := fun end_ hend => h.quiet end_ (htodo _ hend)
  tape := h.tape
  queued := h.queued
  held := h.held
  linked := by
    have hbroken : { d with controls, owed, todo }.broken = d.broken := by
      unfold Detector.broken
      congr 1
      exact hperm.any_eq
    rw [hbroken]
    exact h.linked
  model := h.model
  history := h.history

theorem Lined.piece (h : d.Lined) (hsafe : d.Safe) (profile : Profile) :
    (d.piece profile).Lined := by
  unfold Detector.piece
  cases ht : d.todo with
  | nil => exact h
  | cons p rest =>
      cases p with
      | post c =>
          refine h.posted (fun p hp => ?_) ?_
          · rw [ht]
            exact List.mem_cons_of_mem _ hp
          · unfold awaited
            have hpost : (Piece.post c :: rest).filterMap Piece.control? =
                c :: rest.filterMap Piece.control? := rfl
            rw [ht, hpost, List.append_assoc, List.append_assoc, List.append_assoc]
            refine List.Perm.append_left _ ?_
            rw [List.singleton_append]
            exact List.perm_middle.symm
      | missing to_ =>
          have hdone : { d with todo := rest }.Safe := hsafe.same rfl rfl rfl rfl
          exact (h.done ht rfl).missing hdone to_
      | samples end_ =>
          have hmuted := h.quiet end_ (ht ▸ List.mem_cons_self)
          have hepoch := h.inside (ht ▸ List.cons_ne_nil _ rest)
          dsimp only
          by_cases hhop : d.ingest.nextHop ≤ end_
          · rw [if_pos hhop, ← ht]
            by_cases hqueues : d.ingest.queues d.ingest.nextHop = true
            · rw [if_pos hqueues]
              exact h.enqueueHop hsafe hepoch hmuted hqueues profile
            · rw [if_neg hqueues]
              rw [Bool.not_eq_true] at hqueues
              exact ⟨fun he => (h.grid he).trans (Nat.le_add_right _ _), h.inside, h.quiet,
                h.tape.skip hqueues, h.queued, h.held, h.linked, h.model, h.history⟩
          · rw [if_neg hhop]
            have hdone := h.done ht rfl
            exact ⟨h.grid, hdone.inside, hdone.quiet,
              ⟨h.tape.start, h.tape.last, h.tape.next, h.tape.valid⟩, h.queued, h.held,
              hdone.linked, h.model, h.history⟩

theorem Lined.post (h : d.Lined) (index : ℕ) : (d.post index).Lined := by
  unfold Detector.post
  cases hc : d.owed[index]? with
  | none => exact h
  | some c =>
      obtain ⟨hlt, rfl⟩ := List.getElem?_eq_some_iff.mp hc
      refine h.posted (fun p hp => hp) ?_
      unfold awaited
      refine List.Perm.append_right _ ?_
      rw [List.append_assoc]
      exact List.Perm.append_left _ (List.getElem_cons_eraseIdx_perm hlt)

/-- The policy machine takes something else than a hop, and holds no item. -/
theorem Lined.cored (h : d.Lined) {controls : List Control} {phase : Phase} {core : Core}
    (hphase : ∀ t, phase ≠ .holding t)
    (hcore : core.scores = [] ∨ Core.SameHistory d.core core ∧
      { d with controls, phase, core }.broken = d.broken ∧ d.current = lastPlace d.seen d.core) :
    { d with controls, phase, core }.Lined := by
  have hcurrent : { d with controls, phase, core }.current = lastPlace d.seen core := by
    unfold Detector.current
    cases phase with
    | holding t => exact absurd rfl (hphase t)
    | _ => rfl
  refine ⟨h.grid, h.inside, h.quiet, h.tape, h.queued, fun it slot place hp => ?_, ?_, ?_, ?_⟩
  · exact absurd hp (hphase _)
  · rw [hcurrent]
    rcases hcore with hnil | ⟨hsame, hbroken, hlast⟩
    · have hnone : lastPlace d.seen core = none := if_pos hnil
      rw [hnone, ite_self]
      exact h.linked.anew
    · have hlinked := h.linked
      rw [hlast] at hlinked
      rw [hbroken, lastPlace, hsame.scores]
      exact hlinked
  · rcases hcore with hnil | ⟨hsame, -⟩
    · exact fun _ => hnil
    · intro hnone
      refine hsame.scores.trans (h.model ?_)
      have hmodel := hsame.model
      change core.model = none at hnone
      rw [hnone, Option.isSome_none] at hmodel
      exact Option.isSome_eq_false_iff.mp hmodel.symm |> Option.isNone_iff_eq_none.mp
  · rcases hcore with hnil | ⟨hsame, -⟩
    · exact .cleared _ _ hnil
    · exact h.history.same hsame

theorem Lined.nextControl (h : d.Lined) (hphase : d.phase = .control) : d.nextControl.Lined := by
  have hlast : d.current = lastPlace d.seen d.core := by rw [current, hphase]
  unfold Detector.nextControl
  cases hc : d.controls with
  | nil =>
      dsimp only
      rw [← hc]
      exact h.cored (fun t ht => by cases ht) (.inr ⟨.refl _, rfl, hlast⟩)
  | cons c rest =>
      have hnot : ∀ t, d.phase ≠ .holding t := by
        intro t ht
        rw [hphase] at ht
        cases ht
      obtain ⟨hclears, hkeeps⟩ := d.core.step_control_history c
      refine h.cored hnot ?_
      cases hclear : c.clears with
      | true => exact .inl (hclears hclear)
      | false =>
          refine .inr ⟨hkeeps hclear, ?_, hlast⟩
          unfold broken awaited
          dsimp only
          rw [hc, List.cons_append, List.cons_append, List.any_cons, hclear, Bool.false_or]

/-- An item is taken from the front. -/
theorem Lined.take (h : d.Lined) {queue : List Item} {overruns : ℕ} {t : Taken}
    (hmem : ∀ item ∈ queue, item ∈ d.queue)
    (hheld : ∀ it slot place, t = .hop it slot place →
      d.tape[place]? = some (.hop it) ∧ ∀ x ∈ lastPlace d.seen d.core, place = x + 1)
    (hlinked : Linked (fun x => x + 1 = d.tape.length ∧ d.ingest.listens = true)
      (if { d with queue, overruns, phase := .holding t }.broken then none
        else { d with queue, overruns, phase := .holding t }.current) queue) :
    { d with queue, overruns, phase := .holding t }.Lined where
  grid := h.grid
  inside := h.inside
  quiet := h.quiet
  tape := h.tape
  queued := fun it slot place hq => h.queued it slot place (hmem _ hq)
  held := fun it slot place hp => hheld it slot place (Phase.holding.inj hp)
  linked := hlinked
  model := h.model
  history := h.history

theorem Lined.nextItem (h : d.Lined) (hphase : d.phase = .items)
    (hovertakes : (d.overruns = 0 ∧ ∃ it slot place rest, d.queue = .hop it slot place :: rest) →
      d.core.scores = [] ∨ d.awaited.any Control.clears = false) : d.nextItem.Lined := by
  have hlast : d.current = lastPlace d.seen d.core := by rw [current, hphase]
  unfold Detector.nextItem
  by_cases hover : d.overruns ≠ 0
  · rw [if_pos hover]
    have hbroken : d.broken = true := by
      unfold broken
      rw [decide_eq_true hover, Bool.true_or]
    have hlinked := h.linked
    rw [hbroken, if_pos rfl] at hlinked
    refine h.take (fun item hq => hq) (fun it slot place ht => by cases ht) ?_
    change Linked _ (if _ then none else none) d.queue
    rw [ite_self]
    exact hlinked
  · rw [if_neg hover]
    have hzero : d.overruns = 0 := not_not.mp hover
    cases hq : d.queue with
    | nil =>
        dsimp only
        rw [← hq]
        exact h.cored (fun t ht => by cases ht) (.inr ⟨.refl _, rfl, hlast⟩)
    | cons item rest =>
        have hlinked := h.linked
        rw [hq] at hlinked
        have hmem : ∀ item ∈ rest, item ∈ d.queue := fun item hr =>
          hq ▸ List.mem_cons_of_mem _ hr
        cases item with
        | gap =>
            refine h.take hmem (fun it slot place ht => by cases ht) ?_
            change Linked _ (if _ then none else none) rest
            rw [ite_self]
            exact hlinked
        | hop it slot place =>
            refine h.take hmem (fun it' slot' place' ht => ?_) ?_
            · cases ht
              refine ⟨h.queued it slot place (hq ▸ List.mem_cons_self), fun x hx => ?_⟩
              rcases hovertakes ⟨hzero, it, slot, place, rest, hq⟩ with hnil | hclear
              · rw [lastPlace, if_pos hnil] at hx
                cases hx
              · have hbroken : d.broken = false := by
                  unfold broken
                  rw [hclear, decide_eq_false hover]
                  rfl
                rw [hbroken, if_neg Bool.false_ne_true, hlast] at hlinked
                exact hlinked.1 x hx
            · change Linked _ (if _ then none else some place) rest
              split_ifs with hb
              · exact hlinked.2.anew
              · exact hlinked.2

theorem Lined.handle (h : d.Lined) {t : Taken} (hphase : d.phase = .holding t)
    (result : ScoreResult) (now : ℤ) (sound : Bool) : (d.handle result now sound t).Lined := by
  cases t with
  | overrun => exact h.cored (fun t ht => by cases ht) (.inl rfl)
  | gap => exact h.cored (fun t ht => by cases ht) (.inl rfl)
  | hop it slot place =>
      obtain ⟨htaped, hnext⟩ := h.held it slot place hphase
      obtain ⟨hhistory, hmodel, hplace⟩ := h.history.hop h.tape h.model
        (s := ⟨place, it, result⟩) hnext htaped now sound rfl rfl
      have hnot : ∀ it' slot' place', Phase.scored slot ≠ .holding (.hop it' slot' place') :=
        fun _ _ _ hp => by cases hp
      refine ⟨h.grid, h.inside, h.quiet, h.tape, h.queued,
        fun it' slot' place' hp => absurd hp (hnot it' slot' place'), ?_, hmodel, hhistory⟩
      have hlinked := h.linked
      have hcurrent : d.current = some place := by rw [current, hphase]
      rw [hcurrent] at hlinked
      change Linked _ (if d.broken then none else lastPlace
        (if d.core.model.isSome then d.seen ++ [⟨place, it, result⟩] else d.seen)
        (d.core.step (.hop it result now sound))) d.queue
      cases hl : lastPlace
          (if d.core.model.isSome then d.seen ++ [⟨place, it, result⟩] else d.seen)
          (d.core.step (.hop it result now sound)) with
      | none =>
          rw [ite_self]
          exact hlinked.anew
      | some x =>
          rw [hplace x hl]
          exact hlinked

theorem Lined.wake (h : d.Lined) (result : ScoreResult) (now : ℤ) (sound : Bool)
    (hovertakes : d.overtakes (.wake result now sound) = false) :
    (d.wake result now sound).Lined := by
  unfold Detector.wake
  cases hphase : d.phase with
  | control => exact h.nextControl hphase
  | items =>
      refine h.nextItem hphase ?_
      rintro ⟨hzero, it, slot, place, rest, hq⟩
      unfold overtakes at hovertakes
      rw [hphase, hzero, hq] at hovertakes
      by_cases hnil : d.core.scores = []
      · exact .inl hnil
      · rw [decide_eq_true hnil] at hovertakes
        exact .inr hovertakes
  | holding t => exact h.handle hphase result now sound
  | scored slot =>
      have hlast : d.current = lastPlace d.seen d.core := by rw [current, hphase]
      have hcored : { d with phase := .control }.Lined :=
        h.cored (fun t ht => by cases ht) (.inr ⟨.refl _, rfl, hlast⟩)
      exact ⟨hcored.grid, hcored.inside, hcored.quiet, hcored.tape, hcored.queued, hcored.held,
        hcored.linked, hcored.model, hcored.history⟩

/-- One step keeps the hops in line, unless a hop is taken ahead of a control that clears. -/
theorem Lined.step (h : d.Lined) (hsafe : d.Safe) {a : Action} (hovertakes : d.overtakes a = false) :
    (d.step a).Lined := by
  unfold Detector.step
  have hpanic : ¬ (d.panic.isSome = true) := by
    rw [hsafe.alive]
    exact Bool.false_ne_true
  rw [if_neg hpanic]
  cases a with
  | call c =>
      dsimp only
      by_cases hfree : d.todo = []
      · rw [if_pos hfree]
        exact h.call hfree c
      · rw [if_neg hfree]
        exact h
  | piece profile => exact h.piece hsafe profile
  | post index => exact h.post index
  | wake result now sound => exact h.wake result now sound hovertakes

/-! ### Runs -/

/-- In every run in which no gap arrives at a crowded queue and no hop is taken ahead of a control
that clears the scores under it, the queue is safe and the scores are in one stretch. -/
theorem scores_contiguous
    (h : Monitors.Reaches step (fun d a => d.crowds a = false ∧ d.overtakes a = false) {} d) :
    d.Safe ∧ Contiguous d.tape d.seen d.core.scores := by
  have hboth := h.invariant (R := fun d => d.Safe ∧ d.Lined) ⟨.init, .init⟩
    fun d a hd ha => ⟨hd.1.step ha.1, hd.2.step hd.1 ha.2⟩
  exact ⟨hboth.1, hboth.2.history.contiguous⟩

/-- A scorer is loaded and an epoch starts; the wake goroutine takes both controls. -/
def started : List Action :=
  [.call (.setModel { graphSHA256 := "", policy := halfPolicy }), .post 0, .call (.setEpoch 1),
    .post 0, .wake .error 0 false, .wake .error 0 false]

/-- A block and the pieces it is worked off in. -/
def blockOf (first len : ℕ) (gap : Bool) (pieces : ℕ) : List Action :=
  .call (.onBlock first len gap) :: List.replicate pieces (.piece .idle)

/-- The wake goroutine takes a hop, scores it and gives its slot back. -/
def scoreOf (raw : ℚ) : List Action := List.replicate 4 (.wake (.scored raw) 0 false)

/-- Two hops one after the other, each scored. -/
def twoHops : List Action :=
  started ++ blockOf 0 23040 false 2 ++ scoreOf (1 / 2) ++ blockOf 23040 2560 false 2 ++
    scoreOf (1 / 4)

/-- The scores of the two hops are in one stretch. -/
theorem scores_contiguous_twoHops :
    Contiguous (twoHops.foldl step {}).tape
      [⟨2, ⟨23040, 1, .idle⟩, .scored (1 / 2)⟩, ⟨3, ⟨25600, 1, .idle⟩, .scored (1 / 4)⟩]
      [⟨23040, 1 / 2⟩, ⟨25600, 1 / 4⟩] := by
  have hrun : Monitors.Follows step (fun d a => d.crowds a = false ∧ d.overtakes a = false) {}
      twoHops := by
    decide +kernel
  have h := (scores_contiguous (Monitors.reaches_of_follows hrun)).2
  have hseen : (twoHops.foldl step {}).seen =
      [⟨2, ⟨23040, 1, .idle⟩, .scored (1 / 2)⟩, ⟨3, ⟨25600, 1, .idle⟩, .scored (1 / 4)⟩] := by
    decide +kernel
  have hscores : (twoHops.foldl step {}).core.scores =
      [(⟨23040, 1 / 2⟩ : ScoreEntry), ⟨25600, 1 / 4⟩] := by
    decide +kernel
  rw [hseen, hscores] at h
  exact h

/-- The wake goroutine stands still while hops and gaps of 1280 samples alternate. -/
def crowding : List Action :=
  [.call (.setModel { graphSHA256 := "", policy := halfPolicy }), .post 0, .call (.setEpoch 1),
    .post 0] ++ blockOf 0 23040 false 2 ++
    blockOf 23040 1280 true 1 ++ blockOf 24320 24320 false 11 ++
    blockOf 48640 1280 true 1 ++ blockOf 49920 24320 false 11 ++
    blockOf 74240 1280 true 1 ++ blockOf 75520 24320 false 11 ++
    blockOf 99840 1280 true 1 ++ blockOf 101120 24320 false 11

/-- Gap items crowd out every hop of a full queue, and the next hop is put past its end. -/
theorem gaps_crowd :
    ¬ ∀ d, Monitors.Reaches step (fun _ _ => True) {} d →
      d.Safe ∧ Contiguous d.tape d.seen d.core.scores := by
  intro h
  have hreached : Monitors.Reaches step (fun _ _ => True) {} (crowding.foldl step {}) :=
    Monitors.reaches_of_forall (fun _ _ => trivial) _ crowding
  have halive := (h _ hreached).1.alive
  have hpanic : (crowding.foldl step {}).panic = some .indexOutOfRange := by decide +kernel
  rw [hpanic] at halive
  cases halive

/-- The wake goroutine finds no control, stands still over a reset and the next hop, and takes the
hop. -/
def overtaking : List Action :=
  started ++ blockOf 0 23040 false 2 ++ scoreOf (1 / 2) ++ [.wake .error 0 false] ++
    [.call .reset, .post 0] ++ blockOf 23040 23040 false 10 ++
    List.replicate 2 (.wake (.scored (1 / 4)) 0 false)

/-- Its mean then spans the reset. -/
theorem reset_overtaken :
    (overtaking.foldl step {}).core.scores =
        [(⟨23040, 1 / 2⟩ : ScoreEntry), ⟨46080, 1 / 4⟩] ∧
      ¬ Contiguous (overtaking.foldl step {}).tape (overtaking.foldl step {}).seen
        (overtaking.foldl step {}).core.scores := by
  have hscores : (overtaking.foldl step {}).core.scores =
      [(⟨23040, 1 / 2⟩ : ScoreEntry), ⟨46080, 1 / 4⟩] := by
    decide +kernel
  have hseen : (overtaking.foldl step {}).seen =
      [(⟨2, ⟨23040, 1, .idle⟩, .scored (1 / 2)⟩ : Seen),
        ⟨4, ⟨46080, 1, .idle⟩, .scored (1 / 4)⟩] := by
    decide +kernel
  refine ⟨hscores, ?_⟩
  rw [hseen, hscores]
  rintro ⟨before, hops, hsplit, hentries, hstretch⟩
  have htwo : 2 ≤ hops.length := by
    have hle := List.length_filterMap_le Seen.entry hops
    rw [hentries] at hle
    exact hle
  have hlen := congrArg List.length hsplit
  rw [List.length_append] at hlen
  change 2 = _ at hlen
  obtain rfl : before = [] := List.length_eq_zero_iff.mp (by omega)
  obtain rfl := hsplit
  have hplace := (List.isChain_cons_cons.mp hstretch.next).1.1
  cases hplace

end Detector

end EchoMuse.Wake
