import EchoMuse.Wake.Episodes
import EchoMuse.Monitors

/-!
# The Pending Hops

The device's detector between its two sides. The capture side enters under one lock, keeps the hop
grid and the start of the valid history, and queues hops and gaps under a second lock; the controls
of a call are posted after it has left the first lock. The wake goroutine takes controls, dropped
hops and items one at a time, and scores outside the locks.

A block is worked off in pieces, one queue operation each, so that the wake goroutine can come in
between. Sample contents are left out: a slot stands for its window.

The tape is every hop, missing range and restart in capture order, and the scored hops are listed
with their place on the tape; the code reads neither.

## Main results

* `Ingest.samples_short`, `Ingest.samples_hop`: the loop over a block's samples goes from hop to hop.
-/

namespace EchoMuse.Wake

/-- Pending hops. -/
def queueDepth : ℕ := 4

/-- The window slots: the pending ones and one in inference. -/
abbrev Slot := Fin (queueDepth + 1)

/-! ### The capture side's history -/

/-- The state for capture. -/
structure Ingest where
  epoch : ℕ := 0
  haveEpoch : Bool := false
  /-- The next sample index the history expects. -/
  expected : ℕ := 0
  /-- The first sample of the current contiguous valid history. -/
  validFrom : ℕ := 0
  /-- The end sample of the next hop-grid window. -/
  nextHop : ℕ := 0
  muted : Bool := false
  /-- A model is loaded. -/
  enabled : Bool := false
deriving DecidableEq

namespace Ingest

/-- Where `for n <= to_ { n += HopSamples }` ends. -/
def gridPast (n to_ : ℕ) : ℕ :=
  if n ≤ to_ then n + ((to_ - n) / hopSamples + 1) * hopSamples else n

/-- The history restarts at the expected sample. -/
def reset (g : Ingest) : Ingest :=
  { g with
    validFrom := g.expected
    nextHop := gridPast (max g.nextHop firstWindowEnd) g.expected }

/-- The samples before `to_` are missing. -/
def missing (g : Ingest) (to_ : ℕ) : Ingest :=
  { g with nextHop := gridPast g.nextHop to_, expected := to_, validFrom := to_ }

/-- A gap is worth an item. -/
def listens (g : Ingest) : Bool := g.enabled && !g.muted

/-- The window that ends at `end_` is queued. -/
def queues (g : Ingest) (end_ : ℕ) : Bool := g.enabled && !(end_ - windowSamples < g.validFrom)

/-- The loop over a block's samples: `n` samples from `pos` on, with the ends it queues. -/
def samples (g : Ingest) (pos : ℕ) : ℕ → Ingest × List ℕ
  | 0 => (g, [])
  | n + 1 =>
    if pos + 1 = g.nextHop then
      let r := samples { g with nextHop := g.nextHop + hopSamples } (pos + 1) n
      (r.1, if g.queues (pos + 1) then (pos + 1) :: r.2 else r.2)
    else samples g (pos + 1) n

/-- The loop's body moves one point on. -/
theorem gridPast_loop {n to_ : ℕ} (h : n ≤ to_) :
    gridPast n to_ = gridPast (n + hopSamples) to_ := by
  have hpos : 0 < hopSamples := Nat.zero_lt_succ _
  unfold gridPast
  rw [if_pos h]
  by_cases hnext : n + hopSamples ≤ to_
  · have hdiv : (to_ - n) / hopSamples = (to_ - (n + hopSamples)) / hopSamples + 1 := by
      rw [← Nat.add_div_right _ hpos]
      congr 1
      omega
    rw [if_pos hnext, hdiv, Nat.add_mul _ 1 hopSamples, Nat.one_mul]
    omega
  · rw [if_neg hnext, Nat.div_eq_of_lt (by omega), Nat.zero_add, Nat.one_mul]

theorem lt_gridPast (n to_ : ℕ) : to_ < gridPast n to_ := by
  have hpos : 0 < hopSamples := Nat.zero_lt_succ _
  unfold gridPast
  by_cases h : n ≤ to_
  · have hdiv := Nat.lt_div_mul_add (a := to_ - n) hpos
    rw [if_pos h, Nat.add_mul, Nat.one_mul]
    omega
  · rw [if_neg h]
    omega

theorem le_gridPast (n to_ : ℕ) : n ≤ gridPast n to_ := by
  unfold gridPast
  by_cases h : n ≤ to_
  · rw [if_pos h]
    exact Nat.le_add_right _ _
  · rw [if_neg h]

/-- Short of the next grid point the sample loop queues nothing. -/
theorem samples_short {g : Ingest} {pos n : ℕ} (h : pos + n < g.nextHop) :
    g.samples pos n = (g, []) := by
  induction n generalizing pos with
  | zero => rfl
  | succ n ih =>
      rw [samples, if_neg (by omega)]
      exact ih (by omega)

/-- The sample loop runs to the next grid point, queues the window there, and goes on behind it. -/
theorem samples_hop {g : Ingest} {pos n : ℕ} (hpos : pos < g.nextHop) (h : g.nextHop ≤ pos + n) :
    g.samples pos n =
      let r := { g with nextHop := g.nextHop + hopSamples }.samples g.nextHop
        (pos + n - g.nextHop)
      (r.1, if g.queues g.nextHop then g.nextHop :: r.2 else r.2) := by
  induction n generalizing pos with
  | zero => omega
  | succ n ih =>
      rw [samples]
      by_cases hhop : pos + 1 = g.nextHop
      · have hrest : pos + (n + 1) - g.nextHop = n := by omega
        rw [if_pos hhop, hrest, hhop]
      · have hsum : pos + (n + 1) = pos + 1 + n := by omega
        rw [if_neg hhop, ih (by omega) (by omega), hsum]

end Ingest

/-! ### The queue -/

/-- A pending item. A hop has its slot, and its place on the tape. -/
inductive Item
  | hop (it : HopItem) (slot : Slot) (place : ℕ)
  | gap
deriving DecidableEq

namespace Item

def isHop : Item → Bool
  | .hop _ _ _ => true
  | .gap => false

/-- The slots an item holds. -/
def slots : Item → List Slot
  | .hop _ slot _ => [slot]
  | .gap => []

end Item

/-- What the capture side asks of the wake goroutine. -/
inductive Control
  | reset
  | mute
  | model (m : Model)
  | unavailable
  | policy (p : Policy)
deriving DecidableEq

namespace Control

/-- The control makes the wake goroutine forget its history. -/
def clears : Control → Bool
  | .policy _ => false
  | _ => true

/-- What the policy machine makes of it. -/
def input : Control → Input
  | .reset => .reset
  | .mute => .mute
  | .model m => .model m
  | .unavailable => .unavailable
  | .policy p => .policy p

end Control

/-- A piece of a block still to do. -/
inductive Piece
  | post (c : Control)
  /-- The samples up to here are missing. -/
  | missing (to_ : ℕ)
  /-- The valid samples up to here. -/
  | samples (end_ : ℕ)
deriving DecidableEq

/-- What the wake goroutine takes from the queue. -/
inductive Taken
  | overrun
  | gap
  | hop (it : HopItem) (slot : Slot) (place : ℕ)
deriving DecidableEq

/-- Where the wake goroutine stands. -/
inductive Phase
  /-- It looks for a control. -/
  | control
  /-- It found no control, and looks for an item. -/
  | items
  /-- It has taken an item. -/
  | holding (t : Taken)
  /-- It has scored a hop. -/
  | scored (slot : Slot)
deriving DecidableEq

/-- Why the process dies. -/
inductive Panic
  | indexOutOfRange | slotsExhausted
deriving DecidableEq, Repr

/-- What happened, in capture order. -/
inductive Mark
  | hop (it : HopItem)
  /-- The samples before this one are missing. -/
  | missing (to_ : ℕ)
  /-- The history restarts at this sample. -/
  | restart (at_ : ℕ)
deriving DecidableEq

/-- A scored hop. -/
structure Seen where
  place : ℕ
  item : HopItem
  result : ScoreResult
deriving DecidableEq

/-- The detector with its callers and its wake goroutine. -/
structure Detector where
  ingest : Ingest := {}
  queue : List Item := []
  used : Slot → Bool := fun _ => false
  /-- Dropped hops not yet reported to the wake goroutine. -/
  overruns : ℕ := 0
  controls : List Control := []
  /-- What the caller inside the lock still has to do. -/
  todo : List Piece := []
  /-- The controls of callers that have left the lock. -/
  owed : List Control := []
  phase : Phase := .control
  core : Core := {}
  panic : Option Panic := none
  tape : List Mark := []
  seen : List Seen := []

/-- A call of the capture side; a block is its first sample and its length. -/
inductive Call
  | setEpoch (epoch : ℕ)
  | reset
  | setMuted (muted : Bool)
  | setModel (m : Model)
  | setUnavailable
  | setPolicy (p : Policy)
  | onBlock (first len : ℕ) (gap : Bool)

/-- One step of one of the parties. -/
inductive Action
  /-- A caller enters the lock. -/
  | call (c : Call)
  /-- The caller inside the lock goes on; a hop it queues has this profile. -/
  | piece (profile : Profile)
  /-- A caller that has left the lock posts its control. -/
  | post (index : ℕ)
  /-- The wake goroutine goes on; a window it scores has this result. -/
  | wake (result : ScoreResult) (now : ℤ) (producingSound : Bool)

/-- Removes the oldest pending hop. -/
def dropHop : List Item → List Item
  | [] => []
  | .hop _ _ _ :: rest => rest
  | .gap :: rest => .gap :: dropHop rest

/-- A slot is free again. -/
def freeSlot (used : Slot → Bool) (slot : Slot) : Slot → Bool :=
  fun i => if i = slot then false else used i

def takeSlot (used : Slot → Bool) (slot : Slot) : Slot → Bool :=
  fun i => if i = slot then true else used i

/-- The first free slot. -/
def allocSlot (used : Slot → Bool) : Option Slot :=
  (List.finRange (queueDepth + 1)).find? fun i => !used i

namespace Detector

/-- Drops the oldest pending hop, if there is one. -/
def dropOldestHop (d : Detector) : Detector :=
  match (d.queue.find? Item.isHop) with
  | some (.hop _ slot _) =>
    { d with queue := dropHop d.queue, used := freeSlot d.used slot, overruns := d.overruns + 1 }
  | _ => d

/-- Makes room in a full queue. -/
def makeRoom (d : Detector) : Detector :=
  if d.queue.length = queueDepth then d.dropOldestHop else d

/-- Puts an item behind the last one, in the array of `queueDepth` items. -/
def put (d : Detector) (item : Item) : Detector :=
  if d.queue.length < queueDepth then { d with queue := d.queue ++ [item] }
  else { d with panic := some .indexOutOfRange }

/-- Queues a gap, unless the last item is one. -/
def enqueueGap (d : Detector) : Detector :=
  if d.queue.getLast? = some .gap then d else d.makeRoom.put .gap

/-- Queues the hop. -/
def enqueueHop (d : Detector) (it : HopItem) : Detector :=
  let d := d.makeRoom
  match allocSlot d.used with
  | none => { d with panic := some .slotsExhausted }
  | some slot =>
    { d with used := takeSlot d.used slot, tape := d.tape ++ [Mark.hop it] }.put
      (.hop it slot d.tape.length)

/-- Discards the pending items; the restart is put on the tape. -/
def clearQueue (d : Detector) : Detector :=
  { d with
    queue := []
    used := d.queue.foldl (fun used item => item.slots.foldl freeSlot used) d.used
    tape := d.tape ++ [.restart d.ingest.validFrom] }

/-- A call that restarts the history with `g` and owes a control. -/
def restart (d : Detector) (g : Ingest) (c : Control) : Detector :=
  { { d with ingest := g }.clearQueue with owed := d.owed ++ [c] }

/-- A caller enters the lock. -/
def call (d : Detector) : Call → Detector
  | .setEpoch epoch =>
    if d.ingest.haveEpoch ∧ d.ingest.epoch = epoch then d
    else
      d.restart { d.ingest with epoch, haveEpoch := true, expected := 0, validFrom := 0
                                nextHop := firstWindowEnd } .reset
  | .reset => d.restart d.ingest.reset .reset
  | .setMuted muted =>
    if d.ingest.muted = muted then d
    else d.restart { d.ingest with muted }.reset (if muted then .mute else .reset)
  | .setModel m => d.restart { d.ingest with enabled := true }.reset (.model m)
  | .setUnavailable => d.restart { d.ingest with enabled := false }.reset .unavailable
  | .setPolicy p => { d with owed := d.owed ++ [.policy p] }
  | .onBlock first len gap =>
    if len = 0 ∨ d.ingest.haveEpoch = false then d
    else
      let body := if gap ∨ d.ingest.muted then [Piece.missing (first + len)]
        else [.samples (first + len)]
      if first < d.ingest.expected then
        { { d with ingest := { d.ingest with expected := first }.reset }.clearQueue with
          todo := .post .reset :: body }
      else if d.ingest.expected < first then { d with todo := .missing first :: body }
      else { d with todo := body }

/-- The samples up to `to_` are missing: one gap item invalidates the history here. -/
def missing (d : Detector) (to_ : ℕ) : Detector :=
  let d := { d with ingest := d.ingest.missing to_, tape := d.tape ++ [Mark.missing to_] }
  if d.ingest.listens then d.enqueueGap else d

/-- The caller inside the lock goes on. -/
def piece (d : Detector) (profile : Profile) : Detector :=
  match d.todo with
  | [] => d
  | .post c :: rest => { d with controls := d.controls ++ [c], todo := rest }
  | .missing to_ :: rest => { d with todo := rest }.missing to_
  | .samples end_ :: rest =>
    if d.ingest.nextHop ≤ end_ then
      let it : HopItem := { end_ := d.ingest.nextHop, epoch := d.ingest.epoch, profile }
      let queues := d.ingest.queues d.ingest.nextHop
      let d := { d with ingest := { d.ingest with nextHop := d.ingest.nextHop + hopSamples } }
      if queues then d.enqueueHop it else d
    else { d with ingest := { d.ingest with expected := end_ }, todo := rest }

/-- A caller that has left the lock posts its control. -/
def post (d : Detector) (index : ℕ) : Detector :=
  match d.owed[index]? with
  | none => d
  | some c => { d with controls := d.controls ++ [c], owed := d.owed.eraseIdx index }

/-- Takes dropped hops first, then the oldest item. -/
def nextItem (d : Detector) : Detector :=
  if d.overruns ≠ 0 then { d with overruns := 0, phase := .holding .overrun }
  else
    match d.queue with
    | [] => { d with phase := .control }
    | .gap :: rest => { d with queue := rest, phase := .holding .gap }
    | .hop it slot place :: rest =>
      { d with queue := rest, phase := .holding (.hop it slot place) }

/-- Takes the oldest control, or finds none. -/
def nextControl (d : Detector) : Detector :=
  match d.controls with
  | [] => { d with phase := .items }
  | c :: rest => { d with controls := rest, core := d.core.step c.input }

/-- The policy machine takes what was taken from the queue. -/
def handle (d : Detector) (result : ScoreResult) (now : ℤ) (sound : Bool) : Taken → Detector
  | .overrun => { d with core := d.core.step .overrun, phase := .control }
  | .gap => { d with core := d.core.step .gap, phase := .control }
  | .hop it slot place =>
    { d with
      core := d.core.step (.hop it result now sound)
      phase := .scored slot
      seen := if d.core.model.isSome then d.seen ++ [⟨place, it, result⟩] else d.seen }

/-- The wake goroutine goes on. -/
def wake (d : Detector) (result : ScoreResult) (now : ℤ) (sound : Bool) : Detector :=
  match d.phase with
  | .control => d.nextControl
  | .items => d.nextItem
  | .holding t => d.handle result now sound t
  | .scored slot => { d with used := freeSlot d.used slot, phase := .control }

/-- One step; a call waits until no caller is inside the lock, and a process that died takes
none. -/
def step (d : Detector) (a : Action) : Detector :=
  if d.panic.isSome then d
  else
    match a with
    | .call c => if d.todo = [] then d.call c else d
    | .piece profile => d.piece profile
    | .post index => d.post index
    | .wake result now sound => d.wake result now sound

end Detector

end EchoMuse.Wake
