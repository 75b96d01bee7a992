import EchoMuse.Wake.Queue
import Mathlib.Data.List.OfFn

/-!
# The Windows That Are Queued

The capture side of the detector with its ring of samples: what it queues for which calls, in
capture order. The queue itself, the controls and the profile a hop is queued with are in `Queue`;
here a hop is its window, and `restart` is every reset that discards what is pending.

Sample indices are unbounded, as in `Queue`.
-/

namespace EchoMuse.Wake

instance : NeZero windowSamples := ⟨Nat.succ_ne_zero _⟩

/-- A window copied into a slot. -/
structure Window where
  end_ : ℕ
  epoch : ℕ
  pcm : List Int16
deriving DecidableEq

/-- What the capture side does to the queue. -/
inductive Event
  | hop (w : Window)
  | restart
deriving DecidableEq

/-- A call to the detector. An invalid model or an unknown reason is refused. -/
inductive CaptureCall
  | setModel (valid : Bool)
  | setUnavailable (known : Bool)
  | setEpoch (epoch : ℕ)
  | reset
  | setMuted (muted : Bool)
  | onBlock (first : ℕ) (pcm : List Int16) (gap : Bool)

/-- The capture side. -/
structure Capture where
  ingest : Ingest := {}
  ring : Fin windowSamples → Int16 := fun _ => 0

namespace Capture

/-- `d.ring[pos%WindowSamples] = v`. -/
def write (c : Capture) (pos : ℕ) (v : Int16) : Capture :=
  { c with ring := Function.update c.ring (Fin.ofNat windowSamples pos) v }

/-- The ring from a window's first sample on. -/
def window (c : Capture) (end_ : ℕ) : List Int16 :=
  let i := (end_ - windowSamples) % windowSamples
  (List.ofFn c.ring).drop i ++ (List.ofFn c.ring).take i

/-- Queues the window ending at `end_` if it lies wholly inside valid history. -/
def hopLocked (c : Capture) (end_ : ℕ) : List Event :=
  if c.ingest.queues end_ then [.hop ⟨end_, c.ingest.epoch, c.window end_⟩] else []

/-- The hop mark moves on. -/
def passHop (c : Capture) : Capture :=
  { c with ingest := { c.ingest with nextHop := c.ingest.nextHop + hopSamples } }

/-- The loop over a block's samples. -/
def samples (c : Capture) (pos : ℕ) : List Int16 → Capture × List Event
  | [] => (c, [])
  | v :: pcm =>
    if pos + 1 = c.ingest.nextHop then
      let rest := samples (c.write pos v).passHop (pos + 1) pcm
      (rest.1, (c.write pos v).hopLocked (pos + 1) ++ rest.2)
    else samples (c.write pos v) (pos + 1) pcm

/-- The start of a block is not the sample expected: a backward jump, then a forward one. -/
def jump (c : Capture) (first : ℕ) : Capture :=
  let g := if first < c.ingest.expected then { c.ingest with expected := first }.reset
    else c.ingest
  { c with ingest := if g.expected < first then g.missing first else g }

/-- Ingests one capture block. -/
def onBlock (c : Capture) (first : ℕ) (pcm : List Int16) (gap : Bool) : Capture × List Event :=
  if pcm = [] ∨ c.ingest.haveEpoch = false then (c, [])
  else
    let restarts := if first < c.ingest.expected then [Event.restart] else []
    let c := c.jump first
    let end_ := first + pcm.length
    if gap = true ∨ c.ingest.muted = true then
      ({ c with ingest := c.ingest.missing end_ }, restarts)
    else
      let taken := c.samples first pcm
      ({ taken.1 with ingest := { taken.1.ingest with expected := end_ } }, restarts ++ taken.2)

/-- One call. -/
def step (c : Capture) : CaptureCall → Capture × List Event
  | .setModel valid =>
    if valid then ({ c with ingest := { c.ingest with enabled := true }.reset }, [.restart])
    else (c, [])
  | .setUnavailable known =>
    if known then ({ c with ingest := { c.ingest with enabled := false }.reset }, [.restart])
    else (c, [])
  | .setEpoch epoch =>
    if c.ingest.haveEpoch = true ∧ c.ingest.epoch = epoch then (c, [])
    else
      ({ c with ingest :=
          { c.ingest with
            epoch, haveEpoch := true, expected := 0, validFrom := 0, nextHop := firstWindowEnd } },
        [.restart])
  | .reset => ({ c with ingest := c.ingest.reset }, [.restart])
  | .setMuted muted =>
    if c.ingest.muted = muted then (c, [])
    else ({ c with ingest := { c.ingest with muted }.reset }, [.restart])
  | .onBlock first pcm gap => c.onBlock first pcm gap

/-- Calls one after the other, with what they do to the queue. -/
def run (c : Capture) : List CaptureCall → Capture × List Event
  | [] => (c, [])
  | x :: xs =>
    let rest := run (c.step x).1 xs
    (rest.1, (c.step x).2 ++ rest.2)

end Capture

/-! ### What should be queued -/

/-- What has been heard since the last gap, jump, reset, mute change or epoch change. -/
structure Heard where
  epoch : ℕ := 0
  haveEpoch : Bool := false
  muted : Bool := false
  enabled : Bool := false
  start : ℕ := 0
  line : List Int16 := []

namespace Heard

/-- The ingested position. -/
def pos (h : Heard) : ℕ := h.start + h.line.length

/-- Nothing before `at_` counts. -/
def restartAt (h : Heard) (at_ : ℕ) : Heard := { h with start := at_, line := [] }

/-- The position is a grid point at the end of a window that was heard in full. -/
def Due (h : Heard) : Prop :=
  hopSamples ∣ h.pos ∧ firstWindowEnd ≤ h.pos ∧ h.enabled = true ∧ h.muted = false ∧
    windowSamples ≤ h.line.length

instance (h : Heard) : Decidable h.Due :=
  inferInstanceAs (Decidable (_ ∧ _ ∧ _ ∧ _ ∧ _))

/-- The last samples that were heard. -/
def window (h : Heard) : Window :=
  ⟨h.pos, h.epoch, h.line.drop (h.line.length - windowSamples)⟩

/-- Samples are heard one by one; where a window is due it is queued. -/
def hear (h : Heard) : List Int16 → Heard × List Event
  | [] => (h, [])
  | v :: pcm =>
    let next := { h with line := h.line ++ [v] }
    let rest := hear next pcm
    (rest.1, (if next.Due then [.hop next.window] else []) ++ rest.2)

/-- A jump is a discontinuity. -/
def jump (h : Heard) (first : ℕ) : Heard := if first = h.pos then h else h.restartAt first

/-- A block: a jump, then missing samples or heard ones. -/
def onBlock (h : Heard) (first : ℕ) (pcm : List Int16) (gap : Bool) : Heard × List Event :=
  if pcm = [] ∨ h.haveEpoch = false then (h, [])
  else
    let restarts := if first < h.pos then [Event.restart] else []
    let h := h.jump first
    if gap = true ∨ h.muted = true then (h.restartAt (first + pcm.length), restarts)
    else ((h.hear pcm).1, restarts ++ (h.hear pcm).2)

/-- One call. -/
def step (h : Heard) : CaptureCall → Heard × List Event
  | .setModel valid =>
    if valid then ({ h with enabled := true }.restartAt h.pos, [.restart]) else (h, [])
  | .setUnavailable known =>
    if known then ({ h with enabled := false }.restartAt h.pos, [.restart]) else (h, [])
  | .setEpoch epoch =>
    if h.haveEpoch = true ∧ h.epoch = epoch then (h, [])
    else ({ h with epoch, haveEpoch := true }.restartAt 0, [.restart])
  | .reset => (h.restartAt h.pos, [.restart])
  | .setMuted muted =>
    if h.muted = muted then (h, []) else ({ h with muted }.restartAt h.pos, [.restart])
  | .onBlock first pcm gap => h.onBlock first pcm gap

/-- Calls one after the other, with what they should do to the queue. -/
def run (h : Heard) : List CaptureCall → Heard × List Event
  | [] => (h, [])
  | x :: xs =>
    let rest := run (h.step x).1 xs
    (rest.1, (h.step x).2 ++ rest.2)

end Heard

end EchoMuse.Wake
