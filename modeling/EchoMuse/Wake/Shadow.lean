import EchoMuse.Wake.Core

/-!
# Shadow Rules

The part of `core` that judges shadow rules: next to the live rules each of them is tried at every
scored hop, and its would-be candidates are compared with the live ones. A closed episode that no
live candidate overlapped waits for one that opens late.

Each rule's log notes what happened to it, and follows its counters; the code reads neither the log
nor the events.
-/

namespace EchoMuse.Wake

/-- How long a shadow episode that no live candidate overlapped waits, from its open. -/
def shadowHoldSamples : ℕ := 10 * 16000

/-- The events of a rule in a stats window. -/
def shadowEventsPerWindow : ℕ := 16

/-- The lead histogram: -3 to 3 hops. -/
def leadBuckets : ℕ := 7

/-- A matched episode's lead is bounded. -/
def leadClamp : ℤ := (leadBuckets - 1) / 2

/-- The closed, unoverlapped episodes that wait. -/
def maxShadowHeld : ℕ := shadowHoldSamples / (closeAfterBelow + 1) / hopSamples + 1

/-- One shadow rule's would-be candidate. -/
structure ShadowEpisode where
  epoch : ℕ
  openSample : ℕ
  monoNS : ℤ
  peak : ℚ
  raws : List ℚ
deriving DecidableEq

/-- How an episode that no live candidate overlapped resolves. -/
inductive ShadowEventKind
  | unmatched | retried
deriving DecidableEq

structure ShadowEvent where
  kind : ShadowEventKind
  ep : ShadowEpisode
deriving DecidableEq

/-- One shadow rule's counters for the stats window. -/
structure ShadowCounts where
  hops : ℕ := 0
  opens : ℕ := 0
  matched : ℕ := 0
  lead : List ℕ := List.replicate leadBuckets 0
  unmatched : ℕ := 0
  retried : ℕ := 0
  liveOnly : ℕ := 0
  events : List ShadowEvent := []
  eventsDropped : ℕ := 0
deriving DecidableEq

/-- Where an episode opened. -/
structure Opening where
  epoch : ℕ
  sample : ℕ
deriving DecidableEq

def ShadowEpisode.opening (ep : ShadowEpisode) : Opening := ⟨ep.epoch, ep.openSample⟩

/-- What happened to a rule. -/
inductive RuleNote
  /-- A hop came by whose score was no error. -/
  | reached (it : HopItem)
  /-- A live candidate opened at this hop. -/
  | live (it : HopItem)
  /-- An episode opened. -/
  | opened (o : Opening)
  /-- The episode was open at a scored hop together with a live candidate. -/
  | both (o : Opening) (candidate : ℕ)
  /-- It closed. -/
  | closed (o : Opening)
  /-- An invalidation ended it, matched or not. -/
  | abandoned (o : Opening) (matched : Bool)
  /-- It was waiting when the rules were set up anew. -/
  | dropped (o : Opening)
  /-- A live candidate closed. -/
  | ended (candidate : ℕ) (profile : Profile)
  /-- It was counted. -/
  | matched (o : Opening)
  | unmatched (o : Opening)
  | retried (o : Opening)
  | liveOnly (candidate : ℕ)
  /-- There was no room for one more to wait. -/
  | overflow
  /-- A stats window ended. -/
  | window (counts : ShadowCounts)
deriving DecidableEq

/-- The open episode. -/
structure OpenEpisode where
  ep : ShadowEpisode
  below : ℕ
  matched : Bool
deriving DecidableEq

/-- One shadow rule's state. -/
structure ShadowRule where
  rule : OpenRule
  current : Option OpenEpisode := none
  /-- Closed episodes no live candidate overlapped, oldest first. -/
  held : List ShadowEpisode := []
  /-- The rule's bit of the open candidate's `overlap`. -/
  overlapped : Bool := false
  counts : ShadowCounts := {}
  log : List RuleNote := []

namespace ShadowRule

def note (s : ShadowRule) (n : RuleNote) : ShadowRule := { s with log := s.log ++ [n] }

/-- An event, while there is room. -/
def event (c : ShadowCounts) (e : ShadowEvent) : ShadowCounts :=
  if c.events.length = shadowEventsPerWindow then { c with eventsDropped := c.eventsDropped + 1 }
  else { c with events := c.events ++ [e] }

def resolveOldest (s : ShadowRule) (kind : ShadowEventKind) : ShadowRule :=
  match s.held with
  | [] => s
  | ep :: held =>
    match kind with
    | .retried =>
      { s with
        held
        counts := event { s.counts with retried := s.counts.retried + 1 } ⟨kind, ep⟩ }.note
          (.retried ep.opening)
    | .unmatched =>
      { s with
        held
        counts := event { s.counts with unmatched := s.counts.unmatched + 1 } ⟨kind, ep⟩ }.note
          (.unmatched ep.opening)

/-- Queues a closed unmatched episode. A full queue resolves its oldest first. -/
def hold (s : ShadowRule) (ep : ShadowEpisode) : ShadowRule :=
  let s := if s.held.length = maxShadowHeld then (s.note .overflow).resolveOldest .unmatched else s
  { s with held := s.held ++ [ep] }

/-- The hold of an episode has run out. -/
def expired (it : HopItem) (ep : ShadowEpisode) : Bool :=
  ep.epoch ≠ it.epoch || shadowHoldSamples ≤ it.end_ - ep.openSample

/-- The loop over those that wait: the oldest is resolved as long as its hold has run out. -/
def expireLoop (it : HopItem) : List ShadowEpisode → ShadowRule → ShadowRule
  | [], s => s
  | ep :: held, s =>
    if expired it ep then expireLoop it held (s.resolveOldest .unmatched) else s

/-- Resolves those whose hold has run out as unmatched. -/
def expireHeld (s : ShadowRule) (it : HopItem) : ShadowRule :=
  expireLoop it s.held (s.note (.reached it))

/-- The loop over all that wait. -/
def retryLoop : List ShadowEpisode → ShadowRule → ShadowRule
  | [], s => s
  | _ :: held, s => retryLoop held (s.resolveOldest .retried)

/-- A live candidate opens: every episode that waits is resolved as retried. -/
def retryHeld (s : ShadowRule) (it : HopItem) : ShadowRule :=
  retryLoop s.held ({ s with overlapped := false }.note (.live it))

/-- The bucket of a matched episode's lead. -/
def bucket (live ep : ℕ) : ℕ :=
  (min (max (((live : ℤ) - ep).tdiv hopSamples) (-leadClamp)) leadClamp + leadClamp).toNat

/-- The open episode and the live candidate, if there is one, at a scored hop. -/
def meet (s : ShadowRule) (cur : OpenEpisode) (live : Option CandidateState) :
    ShadowRule × OpenEpisode :=
  match live with
  | none => (s, cur)
  | some cs =>
    let s :=
      if cur.matched then s
      else
        { s with
          counts :=
            { s.counts with
              matched := s.counts.matched + 1
              lead := s.counts.lead.modify (bucket cs.openSample cur.ep.openSample) (· + 1) } }.note
          (.matched cur.ep.opening)
    ({ s with overlapped := true }.note (.both cur.ep.opening cs.id), { cur with matched := true })

/-- The end of a scored hop with an open episode. -/
def settle (s : ShadowRule) (cur : OpenEpisode) (closing : Bool) (live : Option CandidateState) :
    ShadowRule :=
  let met := s.meet cur live
  if closing then
    let s := { met.1 with current := none }.note (.closed cur.ep.opening)
    if met.2.matched then s else s.hold cur.ep
  else { met.1 with current := some met.2 }

/-- One more scored hop of an open episode, and whether it closes there. -/
def extend (s : ShadowRule) (cur : OpenEpisode) (raw smoothed : ℚ) : OpenEpisode × Bool :=
  let cur := { cur with ep := { cur.ep with peak := max cur.ep.peak raw } }
  if s.rule.threshold * extendFraction ≤ smoothed then ({ cur with below := 0 }, false)
  else ({ cur with below := cur.below + 1 }, cur.below + 1 = closeAfterBelow)

/-- One scored hop. -/
def shadowHop (s : ShadowRule) (it : HopItem) (raw smoothed : ℚ) (now : ℤ)
    (scores : List ScoreEntry) (live : Option CandidateState) : ShadowRule :=
  let s :=
    if s.rule.profile = it.profile then
      { s with counts := { s.counts with hops := s.counts.hops + 1 } }
    else s
  match s.current with
  | some cur =>
    let next := s.extend cur raw smoothed
    s.settle next.1 next.2 live
  | none =>
    if s.rule.profile = it.profile then
      match s.rule.fires scores with
      | none => s
      | some _ =>
        let ep : ShadowEpisode :=
          { epoch := it.epoch, openSample := it.end_, monoNS := now, peak := raw
            raws := scores.map (·.raw) }
        let s :=
          { s with counts := { s.counts with opens := s.counts.opens + 1 } }.note (.opened ep.opening)
        s.settle ⟨ep, 0, false⟩ false live
    else s

/-- A live candidate closes. -/
def closeCandidate (s : ShadowRule) (cs : CandidateState) : ShadowRule :=
  let s := s.note (.ended cs.id cs.profile)
  if s.rule.profile = cs.profile ∧ s.overlapped = false then
    { s with counts := { s.counts with liveOnly := s.counts.liveOnly + 1 } }.note (.liveOnly cs.id)
  else s

/-- Ends the open episode without counting it. -/
def abandon (s : ShadowRule) : ShadowRule :=
  match s.current with
  | none => s
  | some cur => { s with current := none }.note (.abandoned cur.ep.opening cur.matched)

/-- The rule set up anew, with its counters. -/
def renew (s : ShadowRule) : ShadowRule where
  rule := s.rule
  counts := s.counts
  log := s.abandon.log ++ s.held.map fun ep => .dropped ep.opening

/-- The next stats window. -/
def nextWindow (s : ShadowRule) : ShadowRule :=
  { s with counts := {} }.note (.window s.counts)

end ShadowRule

/-! ### The machine with its shadow rules -/

/-- A rule's state after `usePolicy`: the counters of a rule that is still configured stay. -/
def renewed (old : List ShadowRule) (r : OpenRule) : ShadowRule :=
  match old.find? fun s => s.rule = r with
  | none => { rule := r }
  | some s => s.renew

/-- What reaches the wake goroutine, with the stats timer. -/
inductive WatchInput
  | input (i : Input)
  | window

/-- `core` with its shadow rules. -/
structure Watch where
  core : Core := {}
  shadow : List ShadowRule := []

namespace Watch

/-- Sizes the shadow rule state from the current model's policy. -/
def usePolicy (w : Watch) : Watch :=
  match w.core.model with
  | some m => { w with shadow := m.policy.rules.shadowRules.map (renewed w.shadow) }
  | none => w

/-- The policy changed, or it did not. -/
def adopt (w : Watch) (core : Core) : Watch :=
  if core.model = w.core.model then { w with core } else { w with core }.usePolicy

/-- Closes the open candidate and counts it for the rules that never overlapped it. -/
def closeCandidate (w : Watch) (reason : CloseReason) : Watch :=
  match w.core.candidate with
  | none => w
  | some cs =>
    { w with shadow := w.shadow.map fun s : ShadowRule => s.closeCandidate cs }.adopt
      (w.core.closeCandidate reason)

/-- An invalid window, reset or mute. -/
def invalid (w : Watch) (reason : CloseReason) : Watch :=
  let w := w.closeCandidate reason
  { core := (w.core.endNearMiss reason).clear, shadow := w.shadow.map (·.abandon) }

/-- The candidate rules for one scored hop; a candidate that opens resolves those that wait. -/
def candidateHop (w : Watch) (it : HopItem) (raw smoothed : ℚ) (now : ℤ) (producingSound : Bool)
    (m : Model) : Watch :=
  let core := w.core.candidateHop it raw smoothed now producingSound m
  if w.core.candidate.isNone && core.candidate.isSome then
    { core, shadow := w.shadow.map (·.retryHeld it) }
  else { w with core }

/-- Closes a candidate that stayed below its extend level. -/
def closeBelow (w : Watch) : Watch :=
  match w.core.candidate with
  | some cs => if cs.below = closeAfterBelow then w.closeCandidate .below else w
  | none => w

/-- A scored hop. -/
def scoredHop (w : Watch) (it : HopItem) (raw : ℚ) (now : ℤ) (producingSound : Bool) (m : Model) :
    Watch :=
  let scores := Core.push w.core.scores { end_ := it.end_, raw }
  let smoothed := meanOf scores
  let core := { w.core with unscored := 0, scores }.appendRecord
    { end_ := it.end_, raw, smoothed, scored := true, profile := it.profile }
  let w := { w with core }.candidateHop it raw smoothed now producingSound m
  let live := w.core.candidate
  let w :=
    { w with
      shadow := w.shadow.map fun s : ShadowRule =>
        s.shadowHop it raw smoothed now w.core.scores live }.closeBelow
  { w with core := w.core.nearHop it smoothed now }

/-- Scores one hop. -/
def score (w : Watch) (it : HopItem) (result : ScoreResult) (now : ℤ) (producingSound : Bool) :
    Watch :=
  match w.core.model with
  | none => w
  | some m =>
    match result with
    | .error => w.invalid .gap
    | .unscored =>
      { core := w.core.unscoredHop it, shadow := w.shadow.map (·.expireHeld it) }
    | .scored raw =>
      { w with shadow := w.shadow.map fun s : ShadowRule => s.expireHeld it }.scoredHop it raw now
        producingSound m

/-- One control, item or tick. -/
def step (w : Watch) : WatchInput → Watch
  | .window => { w with shadow := w.shadow.map (·.nextWindow) }
  | .input .reset => w.invalid .reset
  | .input .mute => w.invalid .mute
  | .input (.model m) =>
    let w := { w with core := { w.core with pending := none } }.invalid .reset
    { w with
      core := { w.core with model := some m, revision := w.core.revision + 1 }.usePolicy }.usePolicy
  | .input .unavailable =>
    let w := { w with core := { w.core with pending := none } }.invalid .reset
    { w with core := { w.core with model := none } }
  | .input (.policy p) =>
    if w.core.candidate.isSome then { w with core := { w.core with pending := some p } }
    else w.adopt (w.core.applyPolicy p)
  | .input .overrun => w.invalid .overrun
  | .input .gap => w.invalid .gap
  | .input (.hop it result now producingSound) => w.score it result now producingSound

/-- The state after some inputs. -/
def run (inputs : List WatchInput) : Watch := inputs.foldl step {}

end Watch

end EchoMuse.Wake
