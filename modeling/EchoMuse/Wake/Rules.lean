import Mathlib.Algebra.Order.BigOperators.Group.List
import Mathlib.Algebra.Order.Field.Rat
import Mathlib.Tactic.Linarith

/-!
# Wake Rules

The device's detector opens a wake candidate when one of its open rules fires: over the last scores
of the history, their mean or every one of them reaches the rule's threshold. Scores are rationals.

## Main results

* `Policy.live_accepted`: every rule an accepted policy can open a candidate with is itself valid;
* `OpenRule.fires_spec`: what a rule that fires says of the scores it used.
-/

namespace EchoMuse.Wake

/-- The 1.4 s window at 16 kHz. -/
def windowSamples : ℕ := 22400

/-- Two 80 ms capture blocks. -/
def hopSamples : ℕ := 2560

/-- The first hop-grid point with a full window. -/
def firstWindowEnd : ℕ := 23040

/-- The scored probabilities in the mean. -/
def smoothingWindows : ℕ := 3

/-- 960 ms of unscored hop slots. -/
def clearAfterUnscored : ℕ := 6

def maxOpenRules : ℕ := 6
def maxShadowRules : ℕ := 8

/-! ### Policies -/

/-- The threshold profile sampled at each hop. -/
inductive Profile
  | idle | playback
deriving DecidableEq, Repr

structure Thresholds where
  idle : ℚ
  playback : ℚ
  nearMiss : ℚ
deriving DecidableEq

/-- A threshold lies in (0, 1]. -/
def inRange (v : ℚ) : Bool := 0 < v && v ≤ 1

def Thresholds.validate (t : Thresholds) : Bool :=
  inRange t.idle && inRange t.playback && inRange t.nearMiss

/-- How an open rule combines its windows. -/
inductive RuleCombine
  /-- The mean of the windows reaches the threshold. -/
  | mean
  /-- Every one of the windows reaches it. -/
  | all
deriving DecidableEq, Repr

/-- One condition for opening a candidate. -/
structure OpenRule where
  profile : Profile
  windows : ℕ
  combine : RuleCombine
  threshold : ℚ
deriving DecidableEq

def OpenRule.validate (r : OpenRule) : Bool :=
  (1 ≤ r.windows && r.windows ≤ smoothingWindows) && inRange r.threshold

/-- The rules of a session; without open rules the baseline applies. -/
structure Rules where
  openRules : Option (List OpenRule)
  shadowRules : List OpenRule
deriving DecidableEq

/-- The mean of three windows at each profile's threshold. -/
def baseline (th : Thresholds) : List OpenRule :=
  [{ profile := .idle, windows := smoothingWindows, combine := .mean, threshold := th.idle },
    { profile := .playback, windows := smoothingWindows, combine := .mean, threshold := th.playback }]

/-- The live rules in effect under the thresholds. -/
def Rules.live (r : Rules) (th : Thresholds) : List OpenRule := r.openRules.getD (baseline th)

/-- The rule sets the detector can apply. -/
def checkRules (r : Rules) : Bool :=
  (match r.openRules with
    | none => true
    | some rules =>
      rules.length ≤ maxOpenRules && rules.all OpenRule.validate &&
        rules.any (·.profile = .idle) && rules.any (·.profile = .playback)) &&
    r.shadowRules.length ≤ maxShadowRules && r.shadowRules.all OpenRule.validate

/-- Thresholds and rules the detector accepts. -/
structure Policy where
  thresholds : Thresholds
  rules : Rules
  accepted : (thresholds.validate && checkRules rules) = true

instance : DecidableEq Policy := fun p q =>
  if h : p.thresholds = q.thresholds ∧ p.rules = q.rules then
    isTrue (by cases p; cases q; obtain ⟨rfl, rfl⟩ := h; rfl)
  else isFalse (by rintro rfl; exact h ⟨rfl, rfl⟩)

/-- The live rules of an accepted policy. -/
def Policy.live (p : Policy) : List OpenRule := p.rules.live p.thresholds

theorem inRange_iff {v : ℚ} : inRange v = true ↔ 0 < v ∧ v ≤ 1 := by
  rw [inRange, Bool.and_eq_true, decide_eq_true_eq, decide_eq_true_eq]

theorem OpenRule.validate_iff {r : OpenRule} : r.validate = true ↔
    (1 ≤ r.windows ∧ r.windows ≤ smoothingWindows) ∧ 0 < r.threshold ∧ r.threshold ≤ 1 := by
  rw [validate, Bool.and_eq_true, Bool.and_eq_true, decide_eq_true_eq, decide_eq_true_eq,
    inRange_iff]

/-- Every rule a policy can open a candidate with is valid. -/
theorem Policy.live_accepted (p : Policy) {r : OpenRule} (h : r ∈ p.live) : r.validate = true := by
  have hacc := p.accepted
  rw [Bool.and_eq_true] at hacc
  obtain ⟨hth, hrules⟩ := hacc
  unfold live Rules.live at h
  cases ho : p.rules.openRules with
  | none =>
      rw [ho] at h
      rw [Thresholds.validate, Bool.and_eq_true, Bool.and_eq_true, inRange_iff, inRange_iff] at hth
      rw [OpenRule.validate_iff]
      rw [Option.getD_none, baseline, List.mem_cons, List.mem_singleton] at h
      have hwindows : 1 ≤ smoothingWindows ∧ smoothingWindows ≤ smoothingWindows := by decide
      rcases h with rfl | rfl
      · exact ⟨hwindows, hth.1.1⟩
      · exact ⟨hwindows, hth.1.2⟩
  | some rules =>
      rw [ho] at h
      unfold checkRules at hrules
      rw [ho] at hrules
      simp only [Bool.and_eq_true, List.all_eq_true] at hrules
      exact hrules.1.1.1.1.2 r h

/-! ### Firing -/

/-- A scored window in the mean. -/
structure ScoreEntry where
  end_ : ℕ
  raw : ℚ
deriving DecidableEq, Repr

/-- The mean of some scores. -/
def meanOf (scores : List ScoreEntry) : ℚ := (scores.map (·.raw)).sum / scores.length

/-- The scores a rule looks at: the last ones. -/
def OpenRule.used (r : OpenRule) (scores : List ScoreEntry) : List ScoreEntry :=
  scores.drop (scores.length - r.windows)

/-- The end of the oldest window used, when the rule fires over the scores. -/
def OpenRule.fires (r : OpenRule) (scores : List ScoreEntry) : Option ℕ :=
  match r.used scores with
  | [] => none
  | s :: rest =>
    match r.combine with
    | .all => if (s :: rest).all fun s => r.threshold ≤ s.raw then some s.end_ else none
    | .mean => if r.threshold ≤ meanOf (s :: rest) then some s.end_ else none

/-- A mean that reaches a threshold has a score that does. -/
theorem exists_le_of_le_meanOf {scores : List ScoreEntry} {v : ℚ} (hne : scores ≠ [])
    (h : v ≤ meanOf scores) : ∃ s ∈ scores, v ≤ s.raw := by
  by_contra hnone
  push Not at hnone
  have hlt : (scores.map (·.raw)).sum < scores.length * v := by
    have hsum := List.sum_lt_sum_of_ne_nil hne (·.raw) (fun _ => v) hnone
    rw [List.map_const', List.sum_replicate, nsmul_eq_mul] at hsum
    exact hsum
  have hpos : (0 : ℚ) < scores.length := by
    exact_mod_cast List.length_pos_iff.mpr hne
  rw [meanOf, le_div_iff₀ hpos] at h
  linarith

/-- A rule that fires looked at the last scores, the oldest of which it returns, and one of them
reaches its threshold. -/
theorem OpenRule.fires_spec {r : OpenRule} {scores : List ScoreEntry} {oldest : ℕ}
    (h : r.fires scores = some oldest) :
    ∃ s rest, r.used scores = s :: rest ∧ s.end_ = oldest ∧
      ∃ s' ∈ s :: rest, r.threshold ≤ s'.raw := by
  unfold fires at h
  cases hu : r.used scores with
  | nil =>
      rw [hu] at h
      cases h
  | cons s rest =>
      rw [hu] at h
      refine ⟨s, rest, rfl, ?_⟩
      cases hc : r.combine with
      | all =>
          rw [hc] at h
          dsimp only at h
          by_cases hall : (s :: rest).all fun s => r.threshold ≤ s.raw
          · rw [if_pos hall] at h
            refine ⟨Option.some.inj h, s, List.mem_cons_self, ?_⟩
            exact of_decide_eq_true (List.all_eq_true.mp hall s List.mem_cons_self)
          · rw [if_neg hall] at h
            cases h
      | mean =>
          rw [hc] at h
          dsimp only at h
          by_cases hmean : r.threshold ≤ meanOf (s :: rest)
          · rw [if_pos hmean] at h
            exact ⟨Option.some.inj h, exists_le_of_le_meanOf (List.cons_ne_nil s rest) hmean⟩
          · rw [if_neg hmean] at h
            cases h

end EchoMuse.Wake
