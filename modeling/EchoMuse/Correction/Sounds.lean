import EchoMuse.Edits
import Mathlib.Data.Finset.Basic
import Mathlib.Data.Nat.Dist
import Mathlib.Data.Rat.Defs
import Mathlib.Algebra.Order.Ring.Rat
import Mathlib.Tactic.Linarith
import Mathlib.Tactic.Positivity
import Mathlib.Tactic.Ring

/-!
# Speech Sounds

Segments, what substituting, deleting and inserting one costs, and how alike two pronunciations
sound. The costs and the edit distance are exact fractions.

## Main results

* `similarity_eq_some`: the early stop discards no pair that reaches the minimum;
* `similarity_of_eq_some`: what a comparison returns;
* `gap_le_of_reaches`: how far the lengths of two pronunciations that are alike lie apart.
-/

namespace EchoMuse.Correction

open Edits

/-- One speech sound. -/
inductive Segment
  | AA | AE | AH | AO | EH | ER | IH | IY | UH | UW
  | B | CH | D | DH | F | G | HH | JH | K | L | M | N | NG | P | R | S | SH | T | TH | V | W | Y | Z
  | ZH
deriving DecidableEq

def Segment.isVowel (s : Segment) : Bool := s.ctorIdx ≤ Segment.UW.ctorIdx

inductive Manner
  | stop | affricate | fricative | nasal | liquid | glide
deriving DecidableEq

inductive Description
  /-- Height 0 (close) to 3 (open); frontness 0 (front) to 2 (back). -/
  | vowel (height back : ℕ) (round rhotic : Bool)
  /-- Place 0 (both lips) to 7 (glottis). -/
  | consonant (place : ℕ) (manner : Manner) (voiced : Bool)

def describe : Segment → Description
  | .IY => .vowel 0 0 false false
  | .IH => .vowel 1 0 false false
  | .EH => .vowel 2 0 false false
  | .AE => .vowel 3 0 false false
  | .AH => .vowel 2 1 false false
  | .ER => .vowel 2 1 false true
  | .AA => .vowel 3 2 false false
  | .AO => .vowel 2 2 true false
  | .UH => .vowel 1 2 true false
  | .UW => .vowel 0 2 true false
  | .P => .consonant 0 .stop false
  | .B => .consonant 0 .stop true
  | .M => .consonant 0 .nasal true
  | .W => .consonant 0 .glide true
  | .F => .consonant 1 .fricative false
  | .V => .consonant 1 .fricative true
  | .TH => .consonant 2 .fricative false
  | .DH => .consonant 2 .fricative true
  | .T => .consonant 3 .stop false
  | .D => .consonant 3 .stop true
  | .N => .consonant 3 .nasal true
  | .S => .consonant 3 .fricative false
  | .Z => .consonant 3 .fricative true
  | .L => .consonant 3 .liquid true
  | .R => .consonant 4 .liquid true
  | .CH => .consonant 4 .affricate false
  | .JH => .consonant 4 .affricate true
  | .SH => .consonant 4 .fricative false
  | .ZH => .consonant 4 .fricative true
  | .Y => .consonant 5 .glide true
  | .K => .consonant 6 .stop false
  | .G => .consonant 6 .stop true
  | .NG => .consonant 6 .nasal true
  | .HH => .consonant 7 .fricative false

def mannerCost : Manner → Manner → ℚ
  | .stop, .stop | .affricate, .affricate | .fricative, .fricative | .nasal, .nasal
  | .liquid, .liquid | .glide, .glide => 0
  | .stop, .affricate | .affricate, .stop => 3 / 10
  | .affricate, .fricative | .fricative, .affricate => 3 / 10
  | .stop, .fricative | .fricative, .stop => 5 / 10
  | .liquid, .glide | .glide, .liquid => 4 / 10
  | .nasal, .stop | .stop, .nasal => 6 / 10
  | .nasal, .liquid | .liquid, .nasal => 7 / 10
  | _, _ => 1

/-- The cost of deleting or inserting one segment. -/
def fullIndel : ℚ := 1

/-- The cost of deleting or inserting a weak sound. -/
def weakIndel : ℚ := 6 / 10

/-- The most a substitution costs. -/
def maxSubstitution : ℚ := 2

/-- A vowel for a consonant. -/
def mixedCost : Segment → Segment → ℚ
  | .ER, .R | .IY, .Y | .UW, .W => 5 / 10
  | _, .L => 13 / 10
  | _, .HH => 12 / 10
  | _, _ => 16 / 10

def substitution (a b : Segment) : ℚ :=
  if a = b then 0
  else
    let cost :=
      match describe a, describe b with
      | .vowel h1 b1 r1 x1, .vowel h2 b2 r2 x2 =>
        (Nat.dist h1 h2 : ℚ) / 3 * (8 / 10) + (Nat.dist b1 b2 : ℚ) / 2 * (6 / 10) +
          (if r1 ≠ r2 then 2 / 10 else 0) + (if x1 ≠ x2 then 6 / 10 else 0)
      | .consonant p1 m1 v1, .consonant p2 m2 v2 =>
        (Nat.dist p1 p2 : ℚ) / 7 * (12 / 10) + mannerCost m1 m2 + (if v1 ≠ v2 then 3 / 10 else 0)
      | _, _ => if a.isVowel then mixedCost a b else mixedCost b a
    min cost maxSubstitution

/-- Recognizers drop and add these. -/
def Segment.isWeak : Segment → Bool
  | .AH | .HH => true
  | _ => false

def indel (s : Segment) : ℚ := if s.isWeak then weakIndel else fullIndel

/-- The costs of edits, in the library's form. -/
def editCosts : Costs Segment ℚ := ⟨substitution, indel⟩

/-! ### Pronunciations -/

/-- The most segments a pronunciation may have. -/
def maxSegments : ℕ := 96

/-- A pronunciation: a sequence of segments, not empty and not too long. -/
structure Sounds where
  segments : List Segment
  ne_nil : segments ≠ []
  length_le : segments.length ≤ maxSegments
deriving DecidableEq

namespace Sounds

/-- A pronunciation from its segments. -/
def new (segments : List Segment) : Option Sounds :=
  if h : segments ≠ [] ∧ segments.length ≤ maxSegments then some ⟨segments, h.1, h.2⟩ else none

def len (s : Sounds) : ℕ := s.segments.length

/-- The adjacent segment pairs, as a set. -/
def bigrams (s : Sounds) : Finset (Segment × Segment) :=
  (s.segments.zip s.segments.tail).toFinset

theorem len_pos (s : Sounds) : 0 < s.len := List.length_pos_iff.mpr s.ne_nil

end Sounds

/-! ### Comparing two -/

/-- Counts the work a comparison did. -/
structure Work where
  /-- Edit-distance cells computed. -/
  cells : ℕ := 0
  /-- Table rows considered. -/
  rows : ℕ := 0
deriving DecidableEq

/-- The costs of inserting ever more of `b`. -/
def firstRow (previous : ℚ) : List Segment → List ℚ
  | [] => [previous]
  | sb :: b => previous :: firstRow (previous + indel sb) b

/-- The inner loop: the cells right of `left`. -/
def rowCells (sa : Segment) : List Segment → List ℚ → ℚ → List ℚ
  | sb :: b, diagonal :: up :: previous, left =>
    let value := min (min (diagonal + substitution sa sb) (up + indel sa)) (left + indel sb)
    value :: rowCells sa b (up :: previous) value
  | _, _, _ => []

/-- The next row. -/
def nextRow (sa : Segment) (b : List Segment) (previous : List ℚ) : List ℚ :=
  let left := previous.headD 0 + indel sa
  left :: rowCells sa b previous left

/-- The least cell of a row. -/
def rowMin (row : List ℚ) : ℚ := row.tail.foldl min (row.headD 0)

/-- The loop over the rows, which stops at a row beyond the limit. -/
def distanceWithin (limit : ℚ) (b : List Segment) :
    List Segment → List ℚ → Work → Option ℚ × Work
  | [], previous, work => (some (previous.getD b.length 0), work)
  | sa :: a, previous, work =>
    let current := nextRow sa b previous
    let work := { work with cells := work.cells + b.length }
    if limit + 1 / 10 ^ 6 < rowMin current then (none, work)
    else distanceWithin limit b a current work

/-- The similarity at a distance. -/
def scoreAt (distance : ℚ) (longer : ℕ) : ℚ := max (1 - distance / longer) 0

/-- How alike two pronunciations sound, 0 to 1; nothing when it is certainly below `min_`. -/
def similarity (a b : Sounds) (min_ : ℚ) (work : Work) : Option ℚ × Work :=
  let longer := max a.len b.len
  let found := distanceWithin ((1 - min_) * longer) b.segments a.segments
    (firstRow 0 b.segments) work
  (found.1.bind fun distance =>
    if min_ ≤ scoreAt distance longer + 1 / 10 ^ 6 then some (scoreAt distance longer) else none,
    found.2)

/-- The loop never cut short. -/
def distance (a b : List Segment) : ℚ :=
  (a.foldl (fun previous sa => nextRow sa b previous) (firstRow 0 b)).getD b.length 0

/-- The similarity of two pronunciations, never cut short. -/
def fullSimilarity (a b : Sounds) : ℚ :=
  scoreAt (distance a.segments b.segments) (max a.len b.len)

/-! ### The costs -/

theorem mannerCost_nonneg (m n : Manner) : 0 ≤ mannerCost m n := by
  rw [mannerCost.eq_def]
  split <;> positivity

theorem mixedCost_nonneg (vowel consonant : Segment) : 0 ≤ mixedCost vowel consonant := by
  rw [mixedCost.eq_def]
  split <;> positivity

theorem substitution_nonneg (a b : Segment) : 0 ≤ substitution a b := by
  rw [substitution]
  by_cases hsame : a = b
  · rw [if_pos hsame]
  · rw [if_neg hsame]
    dsimp only
    refine le_min ?_ (by rw [maxSubstitution]; positivity)
    split
    · positivity
    · refine add_nonneg (add_nonneg ?_ (mannerCost_nonneg _ _)) ?_
      · positivity
      · positivity
    · split_ifs
      · exact mixedCost_nonneg a b
      · exact mixedCost_nonneg b a

theorem indel_nonneg (s : Segment) : 0 ≤ indel s := by
  rw [indel, weakIndel, fullIndel]
  positivity

theorem indel_le (s : Segment) : indel s ≤ 1 := by
  rw [indel, weakIndel, fullIndel]
  split_ifs <;> norm_num

theorem editCosts_nonneg : editCosts.Nonneg := ⟨substitution_nonneg, indel_nonneg⟩

/-! ### The rows -/

theorem row_firstRow {ys b : List Segment} {d : ℚ} (h : IsLeast (costs editCosts [] ys) d) :
    Row editCosts [] ys b (firstRow d b) := by
  induction b generalizing ys d with
  | nil => exact .last h
  | cons sb b ih => exact .cons h (ih (isLeast_insert h))

theorem row_rowCells {sa : Segment} {xs ys b : List Segment} {previous : List ℚ} {left : ℚ}
    (h : Row editCosts xs ys b previous) (hleft : IsLeast (costs editCosts (xs ++ [sa]) ys) left) :
    Row editCosts (xs ++ [sa]) ys b (left :: rowCells sa b previous left) := by
  induction h generalizing left with
  | last hd => exact .last hleft
  | @cons ys sb b diagonal row hd hrow ih =>
      cases hrow with
      | last hup => exact .cons hleft (ih (isLeast_snoc hd hup hleft))
      | cons hup hrest => exact .cons hleft (ih (isLeast_snoc hd hup hleft))

theorem row_nextRow (sa : Segment) {xs b : List Segment} {previous : List ℚ}
    (h : Row editCosts xs [] b previous) :
    Row editCosts (xs ++ [sa]) [] b (nextRow sa b previous) := by
  refine row_rowCells h (isLeast_delete ?_)
  cases h with
  | last hd => exact hd
  | cons hd hrow => exact hd

theorem foldl_min_le (d : ℚ) (row : List ℚ) :
    row.foldl min d ≤ d ∧ ∀ e ∈ row, row.foldl min d ≤ e := by
  induction row generalizing d with
  | nil => exact ⟨le_rfl, fun e he => absurd he List.not_mem_nil⟩
  | cons e row ih =>
      obtain ⟨hfirst, hrest⟩ := ih (min d e)
      refine ⟨hfirst.trans (min_le_left d e), fun e' he' => ?_⟩
      rcases List.mem_cons.mp he' with rfl | hmem
      · exact hfirst.trans (min_le_right d e')
      · exact hrest e' hmem

theorem rowMin_le {row : List ℚ} {e : ℚ} (he : e ∈ row) : rowMin row ≤ e := by
  cases row with
  | nil => exact absurd he List.not_mem_nil
  | cons d row =>
      rcases List.mem_cons.mp he with rfl | hmem
      · exact (foldl_min_le e row).1
      · exact (foldl_min_le d row).2 e hmem

/-- **The loop never cut short finds the least cost of turning one into the other.** -/
theorem isLeast_distance (a b : List Segment) : IsLeast (costs editCosts a b) (distance a b) := by
  have hloop : ∀ rest xs previous, Row editCosts xs [] b previous →
      Row editCosts (xs ++ rest) [] b
        (rest.foldl (fun previous sa => nextRow sa b previous) previous) := by
    intro rest
    induction rest with
    | nil =>
        intro xs previous h
        rwa [List.append_nil]
    | cons sa rest ih =>
        intro xs previous h
        have hnext := ih _ _ (row_nextRow sa h)
        rw [List.append_assoc] at hnext
        exact hnext
  have hrow := hloop a [] _ (row_firstRow isLeast_nil)
  exact hrow.isLeast_last 0

/-- **The early stop comes only where the distance is beyond the limit.** -/
theorem distanceWithin_eq (limit : ℚ) {d : ℚ} {xs a b : List Segment} {previous : List ℚ}
    (work : Work) (h : Row editCosts xs [] b previous)
    (hd : IsLeast (costs editCosts (xs ++ a) b) d) :
    (distanceWithin limit b a previous work).1 = some d ∨
      (distanceWithin limit b a previous work).1 = none ∧ limit + 1 / 10 ^ 6 < d := by
  induction a generalizing xs previous work with
  | nil =>
      rw [List.append_nil] at hd
      exact .inl (congrArg some ((h.isLeast_last 0).unique hd))
  | cons sa a ih =>
      have hnext := row_nextRow sa h
      rw [List.append_cons] at hd
      rw [distanceWithin]
      split_ifs with hcut
      · obtain ⟨e, he, hle⟩ := hnext.exists_mem_le editCosts_nonneg hd.1
        exact .inr ⟨rfl, hcut.trans_le ((rowMin_le he).trans hle)⟩
      · exact ih _ hnext hd

/-! ### What a comparison returns -/

theorem longer_pos (a b : Sounds) : (0 : ℚ) < (max a.len b.len : ℕ) :=
  Nat.cast_pos.mpr (a.len_pos.trans_le (le_max_left _ _))

/-- A pair reaches the minimum just when its distance is within the limit. -/
theorem le_fullSimilarity_iff {a b : Sounds} {min_ : ℚ} (hmin : 0 < min_) :
    min_ ≤ fullSimilarity a b ↔
      distance a.segments b.segments ≤ (1 - min_) * (max a.len b.len : ℕ) := by
  have hpos := longer_pos a b
  rw [fullSimilarity, scoreAt, le_max_iff, or_iff_left (not_le.mpr hmin), le_sub_comm,
    div_le_iff₀ hpos]

theorem similarity_cases (a b : Sounds) (min_ : ℚ) (work : Work) :
    (similarity a b min_ work).1 =
        (if min_ ≤ fullSimilarity a b + 1 / 10 ^ 6 then some (fullSimilarity a b) else none) ∨
      (similarity a b min_ work).1 = none ∧
        (1 - min_) * (max a.len b.len : ℕ) + 1 / 10 ^ 6 < distance a.segments b.segments := by
  have hleast : IsLeast (costs editCosts ([] ++ a.segments) b.segments)
      (distance a.segments b.segments) := isLeast_distance a.segments b.segments
  rcases distanceWithin_eq ((1 - min_) * (max a.len b.len : ℕ)) work
    (row_firstRow isLeast_nil) hleast with hfound | ⟨hnone, hlt⟩
  · left
    rw [similarity]
    dsimp only
    rw [hfound]
    rfl
  · right
    rw [similarity]
    dsimp only
    rw [hnone]
    exact ⟨rfl, hlt⟩

/-- **The early stop discards no pair that reaches the minimum.** -/
theorem similarity_eq_some {a b : Sounds} {min_ : ℚ} (hmin : 0 < min_)
    (h : min_ ≤ fullSimilarity a b) (work : Work) :
    (similarity a b min_ work).1 = some (fullSimilarity a b) := by
  rcases similarity_cases a b min_ work with hfound | ⟨-, hlt⟩
  · rw [hfound, if_pos (by linarith)]
  · have hwithin := (le_fullSimilarity_iff hmin).mp h
    linarith

/-- **What is returned is the full similarity**, which is not much below the minimum. -/
theorem similarity_of_eq_some {a b : Sounds} {min_ s : ℚ} {work : Work}
    (h : (similarity a b min_ work).1 = some s) :
    s = fullSimilarity a b ∧ min_ - 1 / 10 ^ 6 ≤ s := by
  rcases similarity_cases a b min_ work with hfound | ⟨hnone, -⟩
  · rw [hfound] at h
    split_ifs at h with hle
    obtain rfl := Option.some.inj h
    exact ⟨rfl, by linarith⟩
  · rw [hnone] at h
    exact absurd h (Option.some_ne_none s).symm

/-! ### Lengths -/

/-- How many weak sounds there are. -/
def weakSounds (s : Sounds) : ℕ := s.segments.countP Segment.isWeak

theorem sum_indel (l : List Segment) :
    (l.map indel).sum = l.length - 4 / 10 * l.countP Segment.isWeak := by
  induction l with
  | nil => norm_num
  | cons s l ih =>
      rw [List.map_cons, List.sum_cons, ih, indel, List.length_cons, List.countP_cons]
      cases s.isWeak
      · simp [fullIndel]
        ring
      · simp [weakIndel]
        ring

/-- **Pronunciations that are alike differ in length by little more than their weak sounds.** -/
theorem gap_le_of_reaches {a b : Sounds} {min_ : ℚ} (hmin : 0 < min_)
    (h : min_ ≤ fullSimilarity a b) :
    (a.len : ℚ) - b.len ≤ (1 - min_) * (max a.len b.len : ℕ) + 4 / 10 * weakSounds a ∧
      (b.len : ℚ) - a.len ≤ (1 - min_) * (max a.len b.len : ℕ) + 4 / 10 * weakSounds b := by
  have hdistance := (le_fullSimilarity_iff hmin).mp h
  obtain ⟨hdeleted, hinserted⟩ := sum_indel_le editCosts_nonneg indel_le
    (isLeast_distance a.segments b.segments).1
  rw [nsmul_eq_mul, mul_one] at hdeleted hinserted
  have ha := sum_indel a.segments
  have hb := sum_indel b.segments
  rw [weakSounds, weakSounds, Sounds.len, Sounds.len] at *
  have hcosts : editCosts.indel = indel := rfl
  rw [hcosts] at hdeleted hinserted
  exact ⟨by linarith, by linarith⟩

end EchoMuse.Correction
