import EchoMuse.Wake.Rules

/-!
# The Wake Policy Machine

`core`, the state machine of the device's detector that only the wake goroutine touches: it takes
hops with their scores, gaps, overruns and controls, keeps the smoothing history, and opens and
closes wake candidates and near-miss episodes.

What it reports is a trace, which also notes every hop slot and every clearing of the history; the
code reads neither. Identifiers are the numbers of the calls that drew them.
-/

namespace EchoMuse.Wake

/-- The hop slots an opening mean can span: three scored windows with at most five unscored slots
between consecutive ones. -/
def maxRecords : ℕ := smoothingWindows + (smoothingWindows - 1) * (clearAfterUnscored - 1)

/-- The fraction of the latched threshold that keeps a candidate open. -/
def extendFraction : ℚ := 1 / 2

/-- The consecutive scored values below the extend level that close a candidate. -/
def closeAfterBelow : ℕ := 2

/-! ### What is reported -/

/-- A hop slot of the history. -/
structure HopRecord where
  end_ : ℕ
  raw : ℚ
  smoothed : ℚ
  scored : Bool
  profile : Profile
deriving DecidableEq

/-- One hop of a reported candidate; an unscored window has no scores. -/
structure Hop where
  endSample : ℕ
  raw : Option ℚ
  smoothed : Option ℚ
  profile : Profile
deriving DecidableEq

/-- A slot as it is reported. -/
def HopRecord.hop (r : HopRecord) : Hop where
  endSample := r.end_
  raw := if r.scored then some r.raw else none
  smoothed := if r.scored then some r.smoothed else none
  profile := r.profile

/-- The `wake.candidate` of the detector. -/
structure Candidate where
  candidateId : ℕ
  leaseId : ℕ
  captureEpoch : ℕ
  graphSHA256 : String
  scorerRevision : ℕ
  profile : Profile
  threshold : ℚ
  producingSound : Bool
  firstCrossingEnd : ℕ
  supportStart : ℕ
  monoNS : ℤ
  hops : List Hop
  rule : OpenRule
deriving DecidableEq

/-- Why a candidate or a near-miss episode closes. -/
inductive CloseReason
  | below | gap | reset | mute | overrun
deriving DecidableEq, Repr

structure CandidateEnd where
  candidateId : ℕ
  supportEnd : ℕ
  peakSmoothed : ℚ
  reason : CloseReason
deriving DecidableEq

structure NearMissEvent where
  nearMissId : ℕ
  captureEpoch : ℕ
  graphSHA256 : String
  profile : Profile
  floor : ℚ
  peak : ℚ
  supportStart : ℕ
  supportEnd : ℕ
  monoNS : ℤ
  reason : CloseReason
deriving DecidableEq

/-- An entry of the trace. -/
inductive Note
  /-- A hop slot joined the history. -/
  | slot (r : HopRecord)
  /-- The history was cleared. -/
  | cleared
  | candidate (k : Candidate)
  | candidateEnd (e : CandidateEnd)
  | nearMiss (e : NearMissEvent)
deriving DecidableEq

/-! ### The state -/

/-- The open candidate. -/
structure CandidateState where
  id : ℕ
  threshold : ℚ
  supportEnd : ℕ
  peak : ℚ
  below : ℕ
  profile : Profile
  openSample : ℕ
deriving DecidableEq

/-- The open near-miss episode. -/
structure NearState where
  floor : ℚ
  profile : Profile
  epoch : ℕ
  graphSHA256 : String
  supportStart : ℕ
  supportEnd : ℕ
  monoNS : ℤ
  peak : ℚ
  below : ℕ
  candidateSeen : Bool
deriving DecidableEq

/-- A candidate opened during the episode. -/
def NearState.seen (n : NearState) : NearState := { n with candidateSeen := true }

/-- A loaded scorer with its policy. -/
structure Model where
  graphSHA256 : String
  policy : Policy
deriving DecidableEq

/-- The policy state machine. -/
structure Core where
  model : Option Model := none
  revision : ℕ := 0
  /-- Scored windows in the mean, oldest first. -/
  scores : List ScoreEntry := []
  /-- Hop slots since the oldest score in the mean. -/
  records : List HopRecord := []
  /-- Consecutive unscored hop slots. -/
  unscored : ℕ := 0
  candidate : Option CandidateState := none
  near : Option NearState := none
  /-- Live open rules, in evaluation order. -/
  live : List OpenRule := []
  /-- A policy deferred while a candidate is open. -/
  pending : Option Policy := none
  /-- The identifiers drawn so far. -/
  drawn : ℕ := 0
  trace : List Note := []

/-- A pending hop. -/
structure HopItem where
  end_ : ℕ
  epoch : ℕ
  profile : Profile
deriving DecidableEq

/-- What the scorer returns for a window. -/
inductive ScoreResult
  /-- An error, or a score that is no number. -/
  | error
  /-- Below the model's floor: smoothing is left unchanged. -/
  | unscored
  | scored (raw : ℚ)
deriving DecidableEq

/-- What reaches the wake goroutine. -/
inductive Input
  | reset
  | mute
  | model (m : Model)
  | unavailable
  | policy (p : Policy)
  | overrun
  | gap
  /-- A hop with its score, and the time and the sound of the moment. -/
  | hop (it : HopItem) (result : ScoreResult) (now : ℤ) (producingSound : Bool)

/-- One more scored hop of an open candidate. -/
def CandidateState.extend (cs : CandidateState) (it : HopItem) (raw smoothed : ℚ) :
    CandidateState :=
  { cs with
    peak := max cs.peak smoothed
    supportEnd := if cs.threshold ≤ raw then it.end_ else cs.supportEnd
    below := if cs.threshold * extendFraction ≤ smoothed then 0 else cs.below + 1 }

namespace Core

def note (c : Core) (n : Note) : Core := { c with trace := c.trace ++ [n] }

/-- Forgets the smoothing history. -/
def clear (c : Core) : Core :=
  { c with scores := [], records := [], unscored := 0 }.note .cleared

/-- Derives the live rules from the current model's policy. -/
def usePolicy (c : Core) : Core :=
  match c.model with
  | some m => { c with live := m.policy.live }
  | none => c

/-- Switches to a new policy between candidates; the same policy again changes nothing. -/
def applyPolicy (c : Core) (p : Policy) : Core :=
  let c := { c with pending := none }
  match c.model with
  | none => c
  | some m => if m.policy = p then c else { c with model := some { m with policy := p } }.usePolicy

/-- Closes the open candidate and applies a policy that was deferred while it was open. -/
def closeCandidate (c : Core) (reason : CloseReason) : Core :=
  match c.candidate with
  | none => c
  | some cs =>
    let c := { c with candidate := none }.note (.candidateEnd
      { candidateId := cs.id, supportEnd := cs.supportEnd, peakSmoothed := cs.peak, reason })
    match c.pending with
    | some p => c.applyPolicy p
    | none => c

/-- Closes the open episode, reporting it when no candidate opened during it. -/
def endNearMiss (c : Core) (reason : CloseReason) : Core :=
  match c.near with
  | none => c
  | some n =>
    let c := { c with near := none }
    if n.candidateSeen then c
    else
      { c with drawn := c.drawn + 1 }.note (.nearMiss
        { nearMissId := c.drawn, captureEpoch := n.epoch, graphSHA256 := n.graphSHA256
          profile := n.profile, floor := n.floor, peak := n.peak, supportStart := n.supportStart
          supportEnd := n.supportEnd, monoNS := n.monoNS, reason })

/-- An invalid window, reset or mute. -/
def invalid (c : Core) (reason : CloseReason) : Core :=
  ((c.closeCandidate reason).endNearMiss reason).clear

/-- Keeps the hop slots from the oldest score in the mean onward. -/
def appendRecord (c : Core) (r : HopRecord) : Core :=
  let records := match c.scores with
    | [] => c.records
    | oldest :: _ => c.records.dropWhile fun old => old.end_ < oldest.end_
  let records := if records.length = maxRecords then records.tail else records
  { c with records := records ++ [r] }.note (.slot r)

/-- The end of the latest score at or above the threshold. -/
def latestSupport (scores : List ScoreEntry) (threshold : ℚ) : ℕ :=
  scores.foldl (fun supportEnd s => if threshold ≤ s.raw then s.end_ else supportEnd) 0

/-- Opens a candidate credited to `rule`, whose oldest window ends at `oldestEnd`. -/
def openCandidate (c : Core) (it : HopItem) (rule : OpenRule) (oldestEnd : ℕ) (smoothed : ℚ)
    (now : ℤ) (producingSound : Bool) (m : Model) : Core :=
  let cs : CandidateState :=
    { id := c.drawn, threshold := rule.threshold
      supportEnd := latestSupport c.scores rule.threshold, peak := smoothed, below := 0
      profile := it.profile, openSample := it.end_ }
  { c with
    candidate := some cs
    near := c.near.map NearState.seen
    drawn := c.drawn + 2 }.note (.candidate
      { candidateId := c.drawn, leaseId := c.drawn + 1, captureEpoch := it.epoch
        graphSHA256 := m.graphSHA256, scorerRevision := c.revision, profile := it.profile
        threshold := rule.threshold, producingSound, firstCrossingEnd := it.end_
        supportStart := oldestEnd - windowSamples, monoNS := now
        hops := c.records.map HopRecord.hop, rule })

/-- The first rule of the hop's profile that fires, with the end of its oldest window. -/
def firing (c : Core) (it : HopItem) : Option (OpenRule × ℕ) :=
  c.live.findSome? fun r =>
    if r.profile = it.profile then (r.fires c.scores).map (r, ·) else none

/-- The candidate rules for one scored hop: an open candidate extends, otherwise the first rule
that fires opens one. -/
def candidateHop (c : Core) (it : HopItem) (raw smoothed : ℚ) (now : ℤ) (producingSound : Bool)
    (m : Model) : Core :=
  match c.candidate with
  | some cs => { c with candidate := some (cs.extend it raw smoothed) }
  | none =>
    match c.firing it with
    | some (rule, oldestEnd) => c.openCandidate it rule oldestEnd smoothed now producingSound m
    | none => c

/-- Near-miss episodes for one scored hop; the floor is latched at the opening hop. -/
def nearHop (c : Core) (it : HopItem) (smoothed : ℚ) (now : ℤ) : Core :=
  match c.near with
  | none =>
    match c.model, c.scores with
    | some m, oldest :: _ =>
      if m.policy.thresholds.nearMiss ≤ smoothed then
        { c with
          near := some
            { floor := m.policy.thresholds.nearMiss, profile := it.profile, epoch := it.epoch
              graphSHA256 := m.graphSHA256, supportStart := oldest.end_ - windowSamples
              supportEnd := it.end_, monoNS := now, peak := smoothed, below := 0
              candidateSeen := c.candidate.isSome } }
      else c
    | _, _ => c
  | some n =>
    let n := { n with peak := max n.peak smoothed }
    if n.floor ≤ smoothed then
      { c with near := some { n with below := 0, supportEnd := it.end_ } }
    else
      let n := { n with below := n.below + 1 }
      let c := { c with near := some n }
      if n.below = closeAfterBelow then c.endNearMiss .below else c

/-- Closes a candidate that stayed below its extend level. -/
def closeBelow (c : Core) : Core :=
  match c.candidate with
  | some cs => if cs.below = closeAfterBelow then c.closeCandidate .below else c
  | none => c

/-- The history with one more score. -/
def push (scores : List ScoreEntry) (s : ScoreEntry) : List ScoreEntry :=
  (if scores.length = smoothingWindows then scores.tail else scores) ++ [s]

/-- A hop below the model's floor. -/
def unscoredHop (c : Core) (it : HopItem) : Core :=
  let c := { c with unscored := c.unscored + 1 }
  if clearAfterUnscored ≤ c.unscored then c.clear
  else if c.scores ≠ [] then
    c.appendRecord { end_ := it.end_, raw := 0, smoothed := 0, scored := false, profile := it.profile }
  else c

/-- A scored hop. -/
def scoredHop (c : Core) (it : HopItem) (raw : ℚ) (now : ℤ) (producingSound : Bool) (m : Model) :
    Core :=
  let c := { c with unscored := 0, scores := push c.scores { end_ := it.end_, raw } }
  let smoothed := meanOf c.scores
  let c := c.appendRecord { end_ := it.end_, raw, smoothed, scored := true, profile := it.profile }
  ((c.candidateHop it raw smoothed now producingSound m).closeBelow).nearHop it smoothed now

/-- Scores one hop. -/
def score (c : Core) (it : HopItem) (result : ScoreResult) (now : ℤ) (producingSound : Bool) :
    Core :=
  match c.model with
  | none => c
  | some m =>
    match result with
    | .error => c.invalid .gap
    | .unscored => c.unscoredHop it
    | .scored raw => c.scoredHop it raw now producingSound m

/-- One control or item. -/
def step (c : Core) : Input → Core
  | .reset => c.invalid .reset
  | .mute => c.invalid .mute
  | .model m =>
    let c := { c with pending := none }.invalid .reset
    { c with model := some m, revision := c.revision + 1 }.usePolicy
  | .unavailable =>
    let c := { c with pending := none }.invalid .reset
    { c with model := none }
  | .policy p => if c.candidate.isSome then { c with pending := some p } else c.applyPolicy p
  | .overrun => c.invalid .overrun
  | .gap => c.invalid .gap
  | .hop it result now producingSound => c.score it result now producingSound

/-- The state after some inputs. -/
def run (inputs : List Input) : Core := inputs.foldl step {}

end Core

end EchoMuse.Wake
