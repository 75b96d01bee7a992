import EchoMuse.Wake.History
import Mathlib.Data.List.Induction
import Mathlib.Order.Bounds.Basic

/-!
# Wake Candidates

What the device reports of wake candidates, read off its trace, and what the controller makes of a
reported candidate: its trigger, and whether it is malformed.

A reader of the trace keeps the hop slots since the history was last cleared and, while a candidate
is open, the slots of the mean that opened it and the scored slots after them. A trace is sound
when every candidate opens with none open and can be judged, and every end is that of the open
candidate, with the latest support and the greatest smoothed value of its episode.

## Main results

* `judged`: a candidate a valid rule opens is one the controller can judge;
* `Core.Reported.candidateHop`: a scored hop keeps the reports sound.
-/

namespace EchoMuse.Wake

/-! ### The controller's side -/

/-- One scored hop of a candidate, as the controller reads it. -/
structure WakeHop where
  end_ : ℕ
  raw : Option ℚ
  smoothed : Option ℚ
deriving DecidableEq

/-- A `wake.candidate` as the device reports it. -/
structure WakeCandidate where
  candidateId : String
  profile : Profile
  threshold : ℚ
  producingSound : Bool
  firstCrossingEnd : ℕ
  supportStart : ℕ
  hops : List WakeHop
deriving DecidableEq

namespace WakeCandidate

/-- The end of the last reported hop. -/
def open? (k : WakeCandidate) : Option ℕ := k.hops.getLast?.map (·.end_)

/-- The end of the last hop whose raw probability reaches the threshold. -/
def trigger (k : WakeCandidate) : Option ℕ :=
  (k.hops.reverse.find? fun h => h.raw.any (k.threshold ≤ ·)).map (·.end_)

/-- Each hop ends before the next. -/
def ordered : List WakeHop → Bool
  | a :: b :: rest => a.end_ < b.end_ && ordered (b :: rest)
  | _ => true

/-- What is wrong with the candidate, if anything. -/
def malformed (k : WakeCandidate) : Option String :=
  match k.open? with
  | none => some "no hops"
  | some opened =>
    if k.candidateId.isEmpty then some "empty candidate id"
    else if ¬ (0 < k.threshold ∧ k.threshold ≤ 1) then some "threshold outside (0, 1]"
    else if ¬ ordered k.hops then some "hops out of order"
    else if k.firstCrossingEnd < k.supportStart ∨ opened < k.firstCrossingEnd then
      some "support, first crossing and open out of order"
    else if k.trigger.isNone then some "no hop reaches the threshold"
    else none

end WakeCandidate

/-- A hop on the wire. -/
def Hop.wire (h : Hop) : WakeHop where
  end_ := h.endSample
  raw := h.raw
  smoothed := h.smoothed

/-- A candidate on the wire, its identifier the one `newID` drew. -/
def Candidate.wire (newID : ℕ → String) (k : Candidate) : WakeCandidate where
  candidateId := newID k.candidateId
  profile := k.profile
  threshold := k.threshold
  producingSound := k.producingSound
  firstCrossingEnd := k.firstCrossingEnd
  supportStart := k.supportStart
  hops := k.hops.map Hop.wire

/-! ### Reading the trace -/

/-- An open candidate with the slots of the mean that opened it and the scored slots since. -/
structure Episode where
  candidate : Candidate
  mean : List HopRecord
  later : List HopRecord

/-- What a reader of the trace knows. -/
structure Reading where
  /-- The hop slots since the history was last cleared. -/
  slots : List HopRecord := []
  opened : Option Episode := none

/-- A scored slot belongs to the open episode. -/
def Episode.add (ep : Episode) (r : HopRecord) : Episode :=
  if r.scored then { ep with later := ep.later ++ [r] } else ep

def Reading.step (s : Reading) : Note → Reading
  | .slot r => { slots := s.slots ++ [r], opened := s.opened.map (·.add r) }
  | .cleared => { s with slots := [] }
  | .candidate k => { s with opened := some ⟨k, meanSlots s.slots, []⟩ }
  | .candidateEnd _ => { s with opened := none }
  | .nearMiss _ => s

/-- What a trace says. -/
def read (trace : List Note) : Reading := trace.foldl Reading.step {}

theorem read_concat (trace : List Note) (n : Note) : read (trace ++ [n]) = (read trace).step n :=
  List.foldl_append

theorem read_slots (trace : List Note) : (read trace).slots = recent trace := by
  induction trace using List.reverseRecOn with
  | nil => rfl
  | append_singleton trace n ih =>
      rw [read_concat, recent_concat, ← ih]
      cases n <;> rfl

/-- The end of the latest slot of the episode at or above the threshold. -/
def Episode.support (ep : Episode) : Option ℕ :=
  ((ep.mean ++ ep.later).reverse.find? fun r => ep.candidate.threshold ≤ r.raw).map (·.end_)

/-- The smoothed values from the opening slot on. -/
def Episode.peaks (ep : Episode) : List ℚ :=
  (ep.mean.getLast?.toList ++ ep.later).map (·.smoothed)

/-- A reported candidate the controller can judge, given the slots before it. -/
structure Candidate.Judged (newID : ℕ → String) (slots : List HopRecord) (k : Candidate) : Prop where
  /-- The hops are the slots from the oldest score of the mean on. -/
  hops : ∃ oldest rest, meanSlots slots = oldest :: rest ∧
    k.hops = (slots.dropWhile fun r => r.end_ < oldest.end_).map HopRecord.hop
  wellFormed : (k.wire newID).malformed = none
  /-- The controller's trigger is the device's latest score at or above the threshold. -/
  trigger : (k.wire newID).trigger =
    ((meanSlots slots).reverse.find? fun r => k.threshold ≤ r.raw).map (·.end_)

/-- An entry of a sound trace, given what the entries before it say. -/
def Sound (newID : ℕ → String) (s : Reading) : Note → Prop
  | .candidate k => s.opened = none ∧ k.Judged newID s.slots
  | .candidateEnd e => ∃ ep, s.opened = some ep ∧ e.candidateId = ep.candidate.candidateId ∧
      ep.support = some e.supportEnd ∧ IsGreatest { v | v ∈ ep.peaks } e.peakSmoothed
  | _ => True

/-- Every entry of the trace is sound. -/
def SoundTrace (newID : ℕ → String) (trace : List Note) : Prop :=
  ∀ pre n post, trace = pre ++ n :: post → Sound newID (read pre) n

theorem SoundTrace.concat {newID : ℕ → String} {trace : List Note} {n : Note}
    (h : SoundTrace newID trace) (hn : Sound newID (read trace) n) :
    SoundTrace newID (trace ++ [n]) := by
  intro pre m post heq
  rcases List.eq_nil_or_concat post with rfl | ⟨post, m', rfl⟩
  · obtain ⟨rfl, hm⟩ := List.append_inj' heq rfl
    cases hm
    exact hn
  · rw [List.concat_eq_append, ← List.cons_append, ← List.append_assoc] at heq
    exact h pre m post (List.append_inj' heq rfl).1

/-! ### The open candidate -/

/-- The state's open candidate is the trace's. -/
def Core.Tracks (c : Core) : Prop :=
  match c.candidate with
  | none => (read c.trace).opened = none
  | some cs => ∃ ep, (read c.trace).opened = some ep ∧ cs.id = ep.candidate.candidateId ∧
      cs.threshold = ep.candidate.threshold ∧ ep.support = some cs.supportEnd ∧
      IsGreatest { v | v ∈ ep.peaks } cs.peak

/-- What holds of the reports between inputs. -/
structure Core.Reported (newID : ℕ → String) (c : Core) : Prop where
  sound : SoundTrace newID c.trace
  tracks : c.Tracks
  live : ∀ m, c.model = some m → ∀ r ∈ c.live, r.validate = true

namespace Core

variable {newID : ℕ → String} {c : Core}

theorem Reported.init : Reported newID {} where
  sound := fun pre n post h =>
    absurd h.symm (List.append_ne_nil_of_right_ne_nil pre (List.cons_ne_nil n post))
  tracks := rfl
  live := fun m h => by cases h

/-- Entries about no candidate change nothing about it. -/
theorem Reported.note (h : c.Reported newID) {n : Note} (hn : Sound newID (read c.trace) n)
    (hread : ((read c.trace).step n).opened = (read c.trace).opened) :
    (c.note n).Reported newID where
  sound := h.sound.concat hn
  tracks := by
    have ht := h.tracks
    unfold Tracks at ht ⊢
    change match c.candidate with
      | none => (read (c.trace ++ [n])).opened = none
      | some cs => ∃ ep, (read (c.trace ++ [n])).opened = some ep ∧ _
    rw [read_concat, hread]
    exact ht
  live := h.live

theorem Reported.usePolicy (h : c.Reported newID) : c.usePolicy.Reported newID := by
  unfold Core.usePolicy
  cases hm : c.model with
  | none => exact h
  | some m =>
      refine ⟨h.sound, h.tracks, fun m' _ r hr => ?_⟩
      exact m.policy.live_accepted hr

theorem Reported.applyPolicy (h : c.Reported newID) (p : Policy) :
    (c.applyPolicy p).Reported newID := by
  unfold Core.applyPolicy
  dsimp only
  cases hm : c.model with
  | none =>
      refine ⟨h.sound, h.tracks, fun m hm' => ?_⟩
      dsimp only at hm'
      cases hm'
  | some m =>
      dsimp only
      by_cases hp : m.policy = p
      · rw [if_pos hp]
        exact ⟨h.sound, h.tracks, fun m' hm' => h.live m' (hm.trans hm')⟩
      · rw [if_neg hp]
        refine ⟨h.sound, h.tracks, fun _ _ r hr => ?_⟩
        exact Policy.live_accepted p hr

/-- Closing reports the open candidate as the trace has it. -/
theorem Reported.closeCandidate (h : c.Reported newID) (reason : CloseReason) :
    (c.closeCandidate reason).Reported newID := by
  unfold Core.closeCandidate
  have ht := h.tracks
  unfold Tracks at ht
  cases hc : c.candidate with
  | none => exact h
  | some cs =>
      rw [hc] at ht
      obtain ⟨ep, hopen, hid, -, hsupport, hpeak⟩ := ht
      have hclosed : ({ c with candidate := none }.note (.candidateEnd
          { candidateId := cs.id, supportEnd := cs.supportEnd, peakSmoothed := cs.peak
            reason })).Reported newID := by
        refine ⟨h.sound.concat ⟨ep, hopen, hid, hsupport, hpeak⟩, ?_, h.live⟩
        change (read (c.trace ++ [_])).opened = none
        rw [read_concat]
        rfl
      dsimp only
      cases hp : ({ c with candidate := none }.note (.candidateEnd
          { candidateId := cs.id, supportEnd := cs.supportEnd, peakSmoothed := cs.peak
            reason })).pending with
      | none => exact hclosed
      | some p => exact hclosed.applyPolicy p

theorem Reported.endNearMiss (h : c.Reported newID) (reason : CloseReason) :
    (c.endNearMiss reason).Reported newID := by
  unfold Core.endNearMiss
  cases hn : c.near with
  | none => exact h
  | some n =>
      have hdone : { c with near := none }.Reported newID := ⟨h.sound, h.tracks, h.live⟩
      dsimp only
      by_cases hseen : n.candidateSeen = true
      · rw [if_pos hseen]
        exact hdone
      · rw [if_neg hseen]
        refine Reported.note ?_ trivial rfl
        exact ⟨h.sound, h.tracks, h.live⟩

theorem Reported.clear (h : c.Reported newID) : c.clear.Reported newID := by
  refine Reported.note ?_ trivial rfl
  exact ⟨h.sound, h.tracks, h.live⟩

theorem Reported.invalid (h : c.Reported newID) (reason : CloseReason) :
    (c.invalid reason).Reported newID :=
  ((h.closeCandidate reason).endNearMiss reason).clear

theorem Reported.closeBelow (h : c.Reported newID) : c.closeBelow.Reported newID := by
  unfold Core.closeBelow
  cases hc : c.candidate with
  | none => exact h
  | some cs =>
      dsimp only
      by_cases hb : cs.below = closeAfterBelow
      · rw [if_pos hb]
        exact h.closeCandidate .below
      · rw [if_neg hb]
        exact h

theorem Reported.nearHop (h : c.Reported newID) (it : HopItem) (smoothed : ℚ) (now : ℤ) :
    (c.nearHop it smoothed now).Reported newID := by
  have hset : ∀ n : Option NearState, { c with near := n }.Reported newID :=
    fun n => ⟨h.sound, h.tracks, h.live⟩
  unfold Core.nearHop
  cases hn : c.near with
  | none =>
      cases hm : c.model with
      | none => exact h
      | some m =>
          cases hs : c.scores with
          | nil => exact h
          | cons oldest rest =>
              dsimp only
              by_cases hf : m.policy.thresholds.nearMiss ≤ smoothed
              · rw [if_pos hf, ← hm, ← hs]
                exact hset _
              · rw [if_neg hf]
                exact h
  | some n =>
      dsimp only
      by_cases hf : n.floor ≤ smoothed
      · rw [if_pos hf]
        exact hset _
      · rw [if_neg hf]
        by_cases hb : n.below + 1 = closeAfterBelow
        · rw [if_pos hb]
          exact (hset _).endNearMiss .below
        · rw [if_neg hb]
          exact hset _

/-! ### The history under the operations -/

/-- The smoothing history and the slots read off the trace are the same, and whether there is a
model. -/
structure SameHistory (c c' : Core) : Prop where
  scores : c'.scores = c.scores
  records : c'.records = c.records
  unscored : c'.unscored = c.unscored
  slots : (read c'.trace).slots = (read c.trace).slots
  model : c'.model.isSome = c.model.isSome

namespace SameHistory

theorem refl (c : Core) : SameHistory c c := ⟨rfl, rfl, rfl, rfl, rfl⟩

theorem trans {c c' c'' : Core} (h : SameHistory c c') (h' : SameHistory c' c'') :
    SameHistory c c'' :=
  ⟨h'.scores.trans h.scores, h'.records.trans h.records, h'.unscored.trans h.unscored,
    h'.slots.trans h.slots, h'.model.trans h.model⟩

/-- An entry that is no slot and no clearing. -/
theorem note (c : Core) {n : Note} (h : ∀ s : Reading, (s.step n).slots = s.slots) :
    SameHistory c (c.note n) := by
  refine ⟨rfl, rfl, rfl, ?_, rfl⟩
  change (read (c.trace ++ [n])).slots = _
  rw [read_concat, h]

theorem applyPolicy (c : Core) (p : Policy) : SameHistory c (c.applyPolicy p) := by
  unfold Core.applyPolicy
  dsimp only
  cases hm : c.model with
  | none => exact ⟨rfl, rfl, rfl, rfl, congrArg Option.isSome hm.symm⟩
  | some m =>
      dsimp only
      by_cases hp : m.policy = p
      · rw [if_pos hp]
        exact ⟨rfl, rfl, rfl, rfl, congrArg Option.isSome hm.symm⟩
      · rw [if_neg hp]
        refine ⟨rfl, rfl, rfl, rfl, ?_⟩
        rw [hm]
        rfl

theorem closeCandidate (c : Core) (reason : CloseReason) :
    SameHistory c (c.closeCandidate reason) := by
  unfold Core.closeCandidate
  cases c.candidate with
  | none => exact refl c
  | some cs =>
      have hclosed : SameHistory c ({ c with candidate := none }.note (.candidateEnd
          { candidateId := cs.id, supportEnd := cs.supportEnd, peakSmoothed := cs.peak
            reason })) := by
        have hnone : SameHistory c { c with candidate := none } := ⟨rfl, rfl, rfl, rfl, rfl⟩
        exact hnone.trans (note (n := .candidateEnd _) _ fun _ => rfl)
      dsimp only
      cases ({ c with candidate := none }.note (.candidateEnd
          { candidateId := cs.id, supportEnd := cs.supportEnd, peakSmoothed := cs.peak
            reason })).pending with
      | none => exact hclosed
      | some p => exact hclosed.trans (applyPolicy _ p)

theorem endNearMiss (c : Core) (reason : CloseReason) : SameHistory c (c.endNearMiss reason) := by
  unfold Core.endNearMiss
  cases c.near with
  | none => exact refl c
  | some n =>
      dsimp only
      by_cases hseen : n.candidateSeen = true
      · rw [if_pos hseen]
        exact ⟨rfl, rfl, rfl, rfl, rfl⟩
      · rw [if_neg hseen]
        have hnone : SameHistory c { c with near := none, drawn := c.drawn + 1 } :=
          ⟨rfl, rfl, rfl, rfl, rfl⟩
        exact hnone.trans (note (n := .nearMiss _) _ fun _ => rfl)

theorem closeBelow (c : Core) : SameHistory c c.closeBelow := by
  unfold Core.closeBelow
  cases c.candidate with
  | none => exact refl c
  | some cs =>
      dsimp only
      by_cases hb : cs.below = closeAfterBelow
      · rw [if_pos hb]
        exact closeCandidate c .below
      · rw [if_neg hb]
        exact refl c

theorem nearHop (c : Core) (it : HopItem) (smoothed : ℚ) (now : ℤ) :
    SameHistory c (c.nearHop it smoothed now) := by
  have hset : ∀ n : Option NearState, SameHistory c { c with near := n } :=
    fun n => ⟨rfl, rfl, rfl, rfl, rfl⟩
  unfold Core.nearHop
  cases c.near with
  | none =>
      cases hm : c.model with
      | none => exact refl c
      | some m =>
          cases hs : c.scores with
          | nil => exact refl c
          | cons oldest rest =>
              dsimp only
              by_cases hf : m.policy.thresholds.nearMiss ≤ smoothed
              · rw [if_pos hf, ← hm, ← hs]
                exact hset _
              · rw [if_neg hf]
                exact refl c
  | some n =>
      dsimp only
      by_cases hf : n.floor ≤ smoothed
      · rw [if_pos hf]
        exact hset _
      · rw [if_neg hf]
        by_cases hb : n.below + 1 = closeAfterBelow
        · rw [if_pos hb]
          exact (hset _).trans (endNearMiss _ .below)
        · rw [if_neg hb]
          exact hset _

theorem candidateHop (c : Core) (it : HopItem) (raw smoothed : ℚ) (now : ℤ) (sound : Bool)
    (m : Model) : SameHistory c (c.candidateHop it raw smoothed now sound m) := by
  unfold Core.candidateHop
  cases c.candidate with
  | some cs => exact ⟨rfl, rfl, rfl, rfl, rfl⟩
  | none =>
      dsimp only
      cases c.firing it with
      | none => exact refl c
      | some fired =>
          obtain ⟨rule, oldestEnd⟩ := fired
          dsimp only
          unfold Core.openCandidate
          refine trans ?_ (note (n := .candidate _) _ fun _ => rfl)
          exact ⟨rfl, rfl, rfl, rfl, rfl⟩

end SameHistory

end Core

/-! ### Opening a candidate -/

/-- The latest support is found from the end. -/
theorem find_latestSupport {scores : List ScoreEntry} {v : ℚ} (h : ∃ s ∈ scores, v ≤ s.raw) :
    (scores.reverse.find? fun s => v ≤ s.raw).map (·.end_) =
      some (Core.latestSupport scores v) := by
  induction scores using List.reverseRecOn with
  | nil =>
      obtain ⟨s, hs, -⟩ := h
      cases hs
  | append_singleton scores s ih =>
      unfold Core.latestSupport
      rw [List.reverse_append, List.reverse_singleton, List.singleton_append, List.foldl_append]
      change _ = some (if v ≤ s.raw then s.end_ else Core.latestSupport scores v)
      by_cases hs : v ≤ s.raw
      · rw [if_pos hs, List.find?_cons, decide_eq_true hs]
        rfl
      · rw [if_neg hs, List.find?_cons, decide_eq_false hs]
        refine ih ?_
        obtain ⟨t, ht, hv⟩ := h
        rcases List.mem_append.mp ht with ht | ht
        · exact ⟨t, ht, hv⟩
        · exact absurd (List.mem_singleton.mp ht ▸ hv) hs

/-- The same over the slots of the scores. -/
theorem find_entries (slots : List HopRecord) (v : ℚ) :
    (slots.reverse.find? fun r => v ≤ r.raw).map (·.end_) =
      (((slots.map HopRecord.entry).reverse).find? fun s => v ≤ s.raw).map (·.end_) := by
  rw [← List.map_reverse, List.find?_map, Option.map_map]
  rfl

/-- The controller's trigger over reported slots. -/
theorem trigger_slots (slots : List HopRecord) (v : ℚ) :
    (((slots.map HopRecord.hop).map Hop.wire).reverse.find? fun h => h.raw.any (v ≤ ·)).map
        (·.end_) =
      ((slots.filter (·.scored)).reverse.find? fun r => v ≤ r.raw).map (·.end_) := by
  rw [List.map_map, ← List.map_reverse, List.find?_map, Option.map_map, ← List.filter_reverse,
    List.find?_filter]
  have hpred : ((fun h : WakeHop => h.raw.any (v ≤ ·)) ∘ (Hop.wire ∘ HopRecord.hop)) =
      fun r : HopRecord => decide (r.scored = true ∧ decide (v ≤ r.raw) = true) := by
    funext r
    change (if r.scored then some r.raw else none).any (v ≤ ·) = _
    cases hr : r.scored with
    | false => rfl
    | true => simp
  rw [hpred]
  rfl

/-- Slots with increasing ends are in order on the wire. -/
theorem ordered_slots {slots : List HopRecord}
    (h : slots.Pairwise fun a b => a.end_ < b.end_) :
    WakeCandidate.ordered ((slots.map HopRecord.hop).map Hop.wire) = true := by
  induction slots with
  | nil => rfl
  | cons a slots ih =>
      cases slots with
      | nil => rfl
      | cons b slots =>
          have hab : a.end_ < b.end_ := List.rel_of_pairwise_cons h List.mem_cons_self
          have hrest := ih (List.Pairwise.of_cons h)
          change (decide (a.end_ < b.end_) && WakeCandidate.ordered _) = true
          rw [decide_eq_true hab, Bool.true_and]
          exact hrest

/-- The score entries a rule used are among the scores. -/
theorem OpenRule.mem_of_mem_used {r : OpenRule} {scores : List ScoreEntry} {s : ScoreEntry}
    (h : s ∈ r.used scores) : s ∈ scores := List.mem_of_mem_drop h

section

variable {newID : ℕ → String} {scores : List ScoreEntry} {records slots before : List HopRecord}
  {segs : List Segment} {n : ℕ} {r : HopRecord}

/-- Every score ends no later than the newest slot. -/
theorem Held.score_le (h : Held scores records n slots before (segs ++ [(r, [])]))
    (hsorted : slots.Pairwise fun a b => a.end_ < b.end_) {s : ScoreEntry} (hs : s ∈ scores) :
    s.end_ ≤ r.end_ := by
  rw [h.scores_eq, List.map_append] at hs
  rcases List.mem_append.mp hs with hs | hs
  · obtain ⟨t, ht, rfl⟩ := List.mem_map.mp hs
    rw [h.slots_eq, flat_append] at hsorted
    have hflat := (List.pairwise_append.mp (List.pairwise_append.mp hsorted).2.1).2.2
    have hmem : t.1 ∈ flat segs := List.mem_flatMap.mpr ⟨t, ht, List.mem_cons_self⟩
    exact (hflat t.1 hmem r List.mem_cons_self).le
  · rw [List.mem_singleton.mp hs]
    exact le_rfl

/-- A candidate that a valid rule opens on the newest slot can be judged. -/
theorem judged (h : Held scores records n slots before (segs ++ [(r, [])]))
    (hsorted : slots.Pairwise fun a b => a.end_ < b.end_) (hrecords : records = flat (segs ++ [(r, [])]))
    (hid : ∀ n, newID n ≠ "") {rule : OpenRule} (hvalid : rule.validate = true) {oldestEnd : ℕ}
    (hfires : rule.fires scores = some oldestEnd) {k : Candidate}
    (hthreshold : k.threshold = rule.threshold) (hhops : k.hops = records.map HopRecord.hop)
    (hfirst : k.firstCrossingEnd = r.end_) (hsupport : k.supportStart = oldestEnd - windowSamples) :
    k.Judged newID slots := by
  obtain ⟨s, rest, hused, hend, s', hs', hreach⟩ := OpenRule.fires_spec hfires
  have hmem : ∀ t ∈ s :: rest, t ∈ scores := fun t ht =>
    OpenRule.mem_of_mem_used (hused ▸ ht)
  have hflat : (flat (segs ++ [(r, [])])).Pairwise fun a b => a.end_ < b.end_ := by
    rw [h.slots_eq] at hsorted
    exact (List.pairwise_append.mp hsorted).2.1
  have hmean : meanSlots slots = (flat (segs ++ [(r, [])])).filter (·.scored) := by
    rw [h.meanSlots_eq, filter_flat h.first fun s hs => (h.rest s hs).2]
  have htrigger : (k.wire newID).trigger =
      ((meanSlots slots).reverse.find? fun r => k.threshold ≤ r.raw).map (·.end_) := by
    change ((k.hops.map Hop.wire).reverse.find? fun h => h.raw.any (k.threshold ≤ ·)).map _ = _
    rw [hhops, hrecords, trigger_slots, hmean]
  have hentries : (meanSlots slots).map HopRecord.entry = scores := by
    rw [h.meanSlots_eq, h.scores_eq, List.map_map]
    rfl
  refine ⟨?_, ?_, htrigger⟩
  · -- The oldest score starts the segments, and everything before them ended earlier.
    obtain ⟨t, more, hcons⟩ := List.exists_cons_of_ne_nil
      (List.append_ne_nil_of_right_ne_nil segs (List.cons_ne_nil (r, []) []))
    refine ⟨t.1, more.map (·.1), by rw [h.meanSlots_eq, hcons]; rfl, ?_⟩
    rw [hhops, hrecords, h.slots_eq]
    congr 1
    rw [h.slots_eq, hcons] at hsorted
    obtain ⟨-, hsegs, hacross⟩ := List.pairwise_append.mp hsorted
    rw [hcons, List.dropWhile_append_of_pos]
    · exact (not_before_oldest hsegs fun u hu => hu).symm
    · exact fun u hu => decide_eq_true (hacross u hu t.1 List.mem_cons_self)
  · have hopen : (k.wire newID).open? = some r.end_ := by
      change ((k.hops.map Hop.wire).getLast?).map _ = _
      rw [hhops, hrecords, flat_append, List.map_append, List.map_append, List.getLast?_append]
      rfl
    have hnonempty : ¬ ((k.wire newID).candidateId.isEmpty = true) := by
      rw [String.isEmpty_iff]
      exact hid k.candidateId
    obtain ⟨-, hpos, hle⟩ := OpenRule.validate_iff.mp hvalid
    have hrange : 0 < (k.wire newID).threshold ∧ (k.wire newID).threshold ≤ 1 := by
      change 0 < k.threshold ∧ k.threshold ≤ 1
      rw [hthreshold]
      exact ⟨hpos, hle⟩
    have hordered : WakeCandidate.ordered (k.wire newID).hops = true := by
      change WakeCandidate.ordered (k.hops.map Hop.wire) = true
      rw [hhops, hrecords]
      exact ordered_slots hflat
    have hspan : ¬ ((k.wire newID).firstCrossingEnd < (k.wire newID).supportStart ∨
        r.end_ < (k.wire newID).firstCrossingEnd) := by
      change ¬ (k.firstCrossingEnd < k.supportStart ∨ r.end_ < k.firstCrossingEnd)
      have hsle := h.score_le hsorted (hmem s List.mem_cons_self)
      rw [hfirst, hsupport]
      omega
    have hfound : (k.wire newID).trigger.isNone = false := by
      rw [htrigger, find_entries, hentries, hthreshold,
        find_latestSupport ⟨s', hmem s' hs', hreach⟩]
      rfl
    unfold WakeCandidate.malformed
    rw [hopen]
    dsimp only
    rw [if_neg hnonempty, if_neg (not_not_intro hrange), if_neg (not_not_intro hordered),
      if_neg hspan, hfound]
    rfl

end

/-! ### One scored hop -/

/-- One more scored slot of the episode, at or above the threshold or not. -/
theorem Episode.support_add (ep : Episode) {r : HopRecord} (hr : r.scored = true) :
    (ep.add r).support =
      if ep.candidate.threshold ≤ r.raw then some r.end_ else ep.support := by
  unfold Episode.add
  rw [if_pos hr]
  unfold Episode.support
  dsimp only
  rw [← List.append_assoc, List.reverse_append, List.reverse_singleton, List.singleton_append,
    List.find?_cons]
  by_cases hreach : ep.candidate.threshold ≤ r.raw
  · rw [if_pos hreach, decide_eq_true hreach]
    rfl
  · rw [if_neg hreach, decide_eq_false hreach]

theorem Episode.peaks_add (ep : Episode) {r : HopRecord} (hr : r.scored = true) :
    (ep.add r).peaks = ep.peaks ++ [r.smoothed] := by
  unfold Episode.add
  rw [if_pos hr]
  unfold Episode.peaks
  dsimp only
  rw [← List.append_assoc, List.map_append]
  rfl

/-- The greatest of some values and one more. -/
theorem isGreatest_concat {l : List ℚ} {p v : ℚ} (h : IsGreatest { u | u ∈ l } p) :
    IsGreatest { u | u ∈ l ++ [v] } (max p v) := by
  have hset : { u | u ∈ l ++ [v] } = insert v { u | u ∈ l } := by
    ext u
    rw [Set.mem_ofPred_eq, List.mem_append, List.mem_singleton, or_comm]
    rfl
  rw [hset, max_comm]
  exact h.insert v

namespace Core

variable {newID : ℕ → String} {c : Core}

/-- A rule that fires is among the live ones. -/
theorem firing_spec {it : HopItem} {rule : OpenRule} {oldestEnd : ℕ}
    (h : c.firing it = some (rule, oldestEnd)) :
    rule ∈ c.live ∧ rule.fires c.scores = some oldestEnd := by
  obtain ⟨rule', hlive, hfire⟩ := List.exists_of_findSome?_eq_some h
  by_cases hp : rule'.profile = it.profile
  · rw [if_pos hp] at hfire
    obtain ⟨e, hfires, heq⟩ := Option.map_eq_some_iff.mp hfire
    cases heq
    exact ⟨hlive, hfires⟩
  · rw [if_neg hp] at hfire
    cases hfire

/-- The open candidate of the state and of the trace agree. -/
theorem tracks_of_open {cs : CandidateState} {e : Episode} (hc : c.candidate = some cs)
    (hopen : (read c.trace).opened = some e) (hcid : cs.id = e.candidate.candidateId)
    (hthreshold : cs.threshold = e.candidate.threshold) (hsupport : e.support = some cs.supportEnd)
    (hpeak : IsGreatest { v | v ∈ e.peaks } cs.peak) : c.Tracks := by
  unfold Tracks
  rw [hc]
  exact ⟨e, hopen, hcid, hthreshold, hsupport, hpeak⟩

/-- A candidate that opens on the newest slot can be judged, and is the one that is open. -/
theorem Reported.openCandidate (h : c.Reported newID) (hid : ∀ n, newID n ≠ "")
    (hnone : c.candidate = none) {m : Model} (hm : c.model = some m) {it : HopItem}
    {rule : OpenRule} {oldestEnd : ℕ} (hfiring : c.firing it = some (rule, oldestEnd))
    {before : List HopRecord} {segs : List Segment} {r : HopRecord}
    (hheld : Held c.scores c.records 0 (read c.trace).slots before (segs ++ [(r, [])]))
    (hrecords : c.records = flat (segs ++ [(r, [])])) (hend : r.end_ = it.end_)
    (hsorted : (read c.trace).slots.Pairwise fun a b => a.end_ < b.end_)
    (now : ℤ) (sound : Bool) :
    (c.openCandidate it rule oldestEnd r.smoothed now sound m).Reported newID := by
  obtain ⟨hlive, hfires⟩ := firing_spec hfiring
  have hvalid := h.live m hm rule hlive
  have hmean : meanSlots (read c.trace).slots = segs.map (·.1) ++ [r] := by
    rw [hheld.meanSlots_eq, List.map_append]
    rfl
  have hentries : (meanSlots (read c.trace).slots).map HopRecord.entry = c.scores := by
    rw [hheld.meanSlots_eq, hheld.scores_eq, List.map_map]
    rfl
  have hopened : (read c.trace).opened = none := by
    have ht := h.tracks
    unfold Tracks at ht
    rw [hnone] at ht
    exact ht
  obtain ⟨s, rest, hused, -, s', hs', hreach⟩ := OpenRule.fires_spec hfires
  have hmem : s' ∈ c.scores := OpenRule.mem_of_mem_used (hused ▸ hs')
  unfold Core.openCandidate
  refine ⟨h.sound.concat ⟨hopened, ?_⟩, ?_, h.live⟩
  · exact judged hheld hsorted hrecords hid hvalid hfires rfl (hrecords ▸ rfl) hend.symm rfl
  · refine tracks_of_open rfl (congrArg Reading.opened (read_concat _ _)) rfl rfl ?_ ?_
    · change ((meanSlots (read c.trace).slots ++ []).reverse.find? _).map _ = _
      rw [List.append_nil, find_entries, hentries]
      exact find_latestSupport ⟨s', hmem, hreach⟩
    · change IsGreatest { v : ℚ |
        v ∈ ((meanSlots (read c.trace).slots).getLast?.toList ++ []).map HopRecord.smoothed } _
      rw [List.append_nil, hmean, List.getLast?_append]
      change IsGreatest { v | v ∈ [r.smoothed] } r.smoothed
      have hset : { v | v ∈ [r.smoothed] } = {r.smoothed} := by
        ext v
        exact List.mem_singleton
      rw [hset]
      exact isGreatest_singleton

/-- One more scored slot extends the open candidate. -/
theorem Reported.extend (h : c.Reported newID) {cs : CandidateState} (hc : c.candidate = some cs)
    {it : HopItem} {r : HopRecord} (hr : r.scored = true) (hend : r.end_ = it.end_) {c' : Core}
    (hmodel : c'.model = c.model) (hlive : c'.live = c.live)
    (htrace : c'.trace = c.trace ++ [.slot r])
    (hcandidate : c'.candidate = some (cs.extend it r.raw r.smoothed)) : c'.Reported newID := by
  have ht := h.tracks
  unfold Tracks at ht
  rw [hc] at ht
  obtain ⟨ep, hopen, hcid, hthreshold, hsupport, hpeak⟩ := ht
  have hadd : (ep.add r).candidate = ep.candidate := by
    rw [Episode.add, if_pos hr]
  refine ⟨?_, ?_, fun m hm rule hrule => ?_⟩
  · rw [htrace]
    exact h.sound.concat trivial
  · refine tracks_of_open (e := ep.add r) hcandidate ?_ ?_ ?_ ?_ ?_
    · rw [htrace, read_concat]
      change (read c.trace).opened.map (·.add r) = _
      rw [hopen]
      rfl
    · rw [hadd]
      exact hcid
    · rw [hadd]
      exact hthreshold
    · rw [ep.support_add hr, hsupport, ← hthreshold, hend]
      exact (apply_ite some _ _ _).symm
    · rw [ep.peaks_add hr]
      exact isGreatest_concat hpeak
  · rw [hmodel] at hm
    rw [hlive] at hrule
    exact h.live m hm rule hrule

/-- A scored hop extends the open candidate, or opens one that can be judged. -/
theorem Reported.candidateHop (h : c.Reported newID) (hid : ∀ n, newID n ≠ "") {m : Model}
    (hm : c.model = some m) {it : HopItem} {r : HopRecord} (hr : r.scored = true)
    (hend : r.end_ = it.end_) (c' : Core) (hmodel : c'.model = c.model)
    (hlive : c'.live = c.live) (htrace : c'.trace = c.trace ++ [.slot r])
    (hcandidate : c'.candidate = c.candidate) {before : List HopRecord} {segs : List Segment}
    (hheld : Held c'.scores c'.records 0 (read c'.trace).slots before (segs ++ [(r, [])]))
    (hrecords : c'.records = flat (segs ++ [(r, [])]))
    (hsorted : (read c'.trace).slots.Pairwise fun a b => a.end_ < b.end_)
    (now : ℤ) (sound : Bool) :
    (c'.candidateHop it r.raw r.smoothed now sound m).Reported newID := by
  unfold Core.candidateHop
  cases hc : c.candidate with
  | some cs =>
      rw [hcandidate, hc]
      exact h.extend hc hr hend hmodel hlive htrace rfl
  | none =>
      rw [hcandidate, hc]
      have happended : c'.Reported newID := by
        refine ⟨htrace ▸ h.sound.concat trivial, ?_, ?_⟩
        · have ht := h.tracks
          unfold Tracks at ht ⊢
          rw [hc] at ht
          rw [hcandidate, hc, htrace, read_concat]
          change (read c.trace).opened.map (·.add r) = none
          rw [ht]
          rfl
        · intro m' hm' rule hrule
          rw [hmodel] at hm'
          rw [hlive] at hrule
          exact h.live m' hm' rule hrule
      cases hf : c'.firing it with
      | none => exact happended
      | some fired =>
          obtain ⟨rule, oldestEnd⟩ := fired
          exact happended.openCandidate hid (hcandidate.trans hc) (hmodel.trans hm) hf hheld
            hrecords hend hsorted now sound

/-! ### The open candidate under the operations -/

@[simp] theorem applyPolicy_candidate (c : Core) (p : Policy) :
    (c.applyPolicy p).candidate = c.candidate := by
  unfold applyPolicy
  dsimp only
  cases c.model with
  | none => rfl
  | some m =>
      dsimp only
      by_cases hp : m.policy = p
      · rw [if_pos hp]
      · rw [if_neg hp]
        rfl

@[simp] theorem closeCandidate_candidate (c : Core) (reason : CloseReason) :
    (c.closeCandidate reason).candidate = none := by
  unfold closeCandidate
  cases hc : c.candidate with
  | none => exact hc
  | some cs =>
      dsimp only
      cases ({ c with candidate := none }.note (.candidateEnd
          { candidateId := cs.id, supportEnd := cs.supportEnd, peakSmoothed := cs.peak
            reason })).pending with
      | none => rfl
      | some p => exact applyPolicy_candidate _ p

@[simp] theorem endNearMiss_candidate (c : Core) (reason : CloseReason) :
    (c.endNearMiss reason).candidate = c.candidate := by
  unfold endNearMiss
  cases c.near with
  | none => rfl
  | some n =>
      dsimp only
      by_cases hseen : n.candidateSeen = true
      · rw [if_pos hseen]
      · rw [if_neg hseen]
        rfl

theorem invalid_candidate (c : Core) (reason : CloseReason) :
    (c.invalid reason).candidate = none := by
  change ((c.closeCandidate reason).endNearMiss reason).candidate = none
  rw [endNearMiss_candidate, closeCandidate_candidate]

theorem nearHop_candidate (c : Core) (it : HopItem) (smoothed : ℚ) (now : ℤ) :
    (c.nearHop it smoothed now).candidate = c.candidate := by
  unfold nearHop
  cases c.near with
  | none =>
      cases hm : c.model with
      | none => rfl
      | some m =>
          cases hs : c.scores with
          | nil => rfl
          | cons oldest rest =>
              dsimp only
              by_cases hf : m.policy.thresholds.nearMiss ≤ smoothed
              · rw [if_pos hf]
              · rw [if_neg hf]
  | some n =>
      dsimp only
      by_cases hf : n.floor ≤ smoothed
      · rw [if_pos hf]
      · rw [if_neg hf]
        by_cases hb : n.below + 1 = closeAfterBelow
        · rw [if_pos hb]
          exact endNearMiss_candidate _ .below
        · rw [if_neg hb]

/-- A candidate that is open after the check for two low values was open before it. -/
theorem closeBelow_candidate {cs : CandidateState} (h : c.closeBelow.candidate = some cs) :
    c.candidate = some cs := by
  unfold closeBelow at h
  cases hc : c.candidate with
  | none =>
      rw [hc] at h
      exact absurd (hc.symm.trans h) (Option.some_ne_none cs).symm
  | some old =>
      rw [hc] at h
      dsimp only at h
      by_cases hb : old.below = closeAfterBelow
      · rw [if_pos hb, closeCandidate_candidate] at h
        cases h
      · rw [if_neg hb, hc] at h
        exact h

/-- The latest support is one of the ends. -/
theorem latestSupport_le {scores : List ScoreEntry} {v : ℚ} {bound : ℕ}
    (h : ∀ s ∈ scores, s.end_ ≤ bound) : latestSupport scores v ≤ bound := by
  induction scores using List.reverseRecOn with
  | nil => exact Nat.zero_le bound
  | append_singleton scores s ih =>
      unfold latestSupport
      rw [List.foldl_append]
      change (if v ≤ s.raw then s.end_ else latestSupport scores v) ≤ bound
      by_cases hs : v ≤ s.raw
      · rw [if_pos hs]
        exact h s (List.mem_append_right _ (List.mem_singleton_self s))
      · rw [if_neg hs]
        exact ih fun t ht => h t (List.mem_append_left _ ht)

/-- The candidate after a scored hop is the old one extended, or a new one. -/
theorem candidateHop_candidate {it : HopItem} {raw smoothed : ℚ} {now : ℤ} {sound : Bool}
    {m : Model} {cs : CandidateState}
    (h : (c.candidateHop it raw smoothed now sound m).candidate = some cs) :
    (∃ old, c.candidate = some old ∧ cs = old.extend it raw smoothed) ∨
      c.candidate = none ∧ ∃ v, cs.supportEnd = latestSupport c.scores v := by
  unfold Core.candidateHop at h
  cases hc : c.candidate with
  | some old =>
      rw [hc] at h
      exact .inl ⟨old, rfl, (Option.some.inj h).symm⟩
  | none =>
      rw [hc] at h
      dsimp only at h
      cases hf : c.firing it with
      | none =>
          rw [hf] at h
          exact absurd (hc.symm.trans h) (Option.some_ne_none cs).symm
      | some fired =>
          rw [hf] at h
          have hcs : _ = cs := Option.some.inj h
          exact .inr ⟨rfl, fired.1.threshold, hcs ▸ rfl⟩

/-- The support of an extended candidate does not decrease. -/
theorem extend_supportEnd {cs : CandidateState} {it : HopItem} {raw smoothed : ℚ}
    (h : cs.supportEnd ≤ it.end_) :
    cs.supportEnd ≤ (cs.extend it raw smoothed).supportEnd ∧
      (cs.extend it raw smoothed).supportEnd ≤ it.end_ := by
  change cs.supportEnd ≤ (if cs.threshold ≤ raw then it.end_ else cs.supportEnd) ∧
    (if cs.threshold ≤ raw then it.end_ else cs.supportEnd) ≤ it.end_
  by_cases hreach : cs.threshold ≤ raw
  · rw [if_pos hreach]
    exact ⟨h, le_rfl⟩
  · rw [if_neg hreach]
    exact ⟨le_rfl, h⟩

end Core

end EchoMuse.Wake
