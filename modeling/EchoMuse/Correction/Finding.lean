import EchoMuse.Correction.Search
import Mathlib.Tactic.NormNum

/-!
# What a Search Finds

Among the rows of a query's length window the search misses nothing. A row outside of it can still
reach the minimum, but only where weak sounds, which cost less to delete or to insert, make up the
difference in length.

## Main results

* `outside_window`: what a row outside the window has to have;
* `search_finds`: the hits of a search.
-/

namespace EchoMuse.Correction

/-- A hit stands before another. -/
def Hit.Before (a b : Hit) : Prop := b.score < a.score ∨ a.score = b.score ∧ a.entry < b.entry

namespace Layer

/-- What the rows of an entry that reach the minimum score, those of `rows` for each query. -/
def Reaching (query : List Sounds) (min_ : ℚ) (rows : Sounds → List Row) (entry : ℕ) : Set ℚ :=
  {s | ∃ q ∈ query, ∃ r ∈ rows q, r.entry = entry ∧ min_ ≤ fullSimilarity q r.sounds ∧
    s = fullSimilarity q r.sounds}

/-- The rows that are not skipped. -/
def unskippedRows (layer : Layer) (skip : Option (Finset ℕ)) : List Row :=
  layer.rows.filter (unskipped skip)

/-! ### The length window -/

/-- **A row outside the window reaches the minimum only with weak sounds**: they make up for what the
lengths lie apart beyond what the minimum allows. -/
theorem outside_window {a b : Sounds} {min_ : ℚ} (hmin : 0 < min_) (hone : min_ ≤ 1)
    (h : min_ ≤ fullSimilarity a b) :
    (b.len < lo a.len min_ →
      0 < a.len * min_ - b.len ∧ a.len * min_ - b.len ≤ 4 / 10 * weakSounds a) ∧
    (hi a.len min_ < b.len →
      0 < b.len * min_ - a.len ∧ b.len * min_ - a.len ≤ 4 / 10 * weakSounds b) := by
  obtain ⟨hdeleted, hinserted⟩ := gap_le_of_reaches hmin h
  have hscale : ∀ n : ℕ, (n : ℚ) * min_ ≤ n := fun n =>
    mul_le_of_le_one_right (Nat.cast_nonneg n) hone
  constructor
  · intro hshort
    have hlt : (b.len : ℚ) < a.len * min_ := Nat.lt_ceil.mp hshort
    have hle : b.len ≤ a.len := by exact_mod_cast hlt.le.trans (hscale a.len)
    rw [max_eq_left hle] at hdeleted
    exact ⟨by linarith, by linarith⟩
  · intro hlong
    have hpos : (0 : ℚ) < max min_ (1 / 100) := hmin.trans_le (le_max_left _ _)
    have hlt : (a.len : ℚ) < b.len * max min_ (1 / 100) :=
      (div_lt_iff₀ hpos).mp ((Nat.floor_lt (div_nonneg (Nat.cast_nonneg _) hpos.le)).mp hlong)
    -- below a hundredth every length is inside
    have hmax : max min_ (1 / 100) = min_ := by
      refine max_eq_left (le_of_not_gt fun hsmall => ?_)
      rw [max_eq_right hsmall.le] at hlt
      have hfew : (b.len : ℚ) ≤ 96 := by exact_mod_cast b.length_le
      have hsome : (1 : ℚ) ≤ a.len := by exact_mod_cast a.len_pos
      linarith
    rw [hmax] at hlt
    have hle : a.len ≤ b.len := by exact_mod_cast hlt.le.trans (hscale b.len)
    rw [max_eq_right hle] at hinserted
    exact ⟨by linarith, by linarith⟩

end Layer

/-! ### Sorting the hits -/

theorem Hit.le_iff {a b : Hit} :
    a.le b = true ↔ b.score < a.score ∨ a.score = b.score ∧ a.entry ≤ b.entry := by
  rw [Hit.le, Bool.or_eq_true, Bool.and_eq_true, decide_eq_true_iff, beq_iff_eq,
    decide_eq_true_iff]

theorem pairwise_before {best : List Hit} (hnodup : (best.map Hit.entry).Nodup) :
    (best.mergeSort Hit.le).Pairwise Hit.Before := by
  have hsorted : (best.mergeSort Hit.le).Pairwise fun a b => a.le b = true := by
    refine List.pairwise_mergeSort (fun a b c hab hbc => ?_) (fun a b => ?_) best
    · rw [Hit.le_iff] at *
      rcases hab with hab | ⟨hab, hab'⟩ <;> rcases hbc with hbc | ⟨hbc, hbc'⟩
      · exact .inl (hbc.trans hab)
      · exact .inl (hbc ▸ hab)
      · exact .inl (hab ▸ hbc)
      · exact .inr ⟨hab.trans hbc, hab'.trans hbc'⟩
    · rw [Bool.or_eq_true, Hit.le_iff, Hit.le_iff]
      rcases lt_trichotomy a.score b.score with hlt | heq | hgt
      · exact .inr (.inl hlt)
      · rcases Nat.le_total a.entry b.entry with hle | hle
        · exact .inl (.inr ⟨heq, hle⟩)
        · exact .inr (.inr ⟨heq.symm, hle⟩)
      · exact .inl (.inl hgt)
  have hdistinct : (best.mergeSort Hit.le).Pairwise fun a b => a.entry ≠ b.entry := by
    rw [← List.pairwise_map (f := Hit.entry) (R := fun m n => m ≠ n)]
    exact ((List.mergeSort_perm best Hit.le).map Hit.entry).nodup_iff.mpr hnodup
  refine (hsorted.and hdistinct).imp fun h => ?_
  rcases Hit.le_iff.mp h.1 with hlt | ⟨heq, hle⟩
  · exact .inl hlt
  · exact .inr ⟨heq, Nat.lt_of_le_of_ne hle h.2⟩

/-! ### The hits -/

namespace Layer

variable {layer : Layer} {min_ : ℚ} {skip : Option (Finset ℕ)}

/-- What is found is what the compared rows score. -/
theorem mem_found {query : List Sounds} {entry : ℕ} {score : ℚ} :
    ⟨entry, score⟩ ∈ query.flatMap
        (fun q => (layer.compared q min_ skip).filterMap (hit q min_)) ↔
      ∃ q ∈ query, ∃ r ∈ layer.compared q min_ skip, r.entry = entry ∧
        (similarity q r.sounds min_ {}).1 = some score := by
  simp only [List.mem_flatMap, List.mem_filterMap, hit, Option.map_eq_some_iff, Hit.mk.injEq]
  constructor
  · rintro ⟨q, hq, r, hr, s, hs, hentry, rfl⟩
    exact ⟨q, hq, r, hr, hentry, hs⟩
  · rintro ⟨q, hq, r, hr, hentry, hs⟩
    exact ⟨q, hq, r, hr, score, hs, hentry, rfl⟩

/-- The greatest score found, from the minimum on, is the greatest that reaches it. -/
theorem isGreatest_iff {query : List Sounds} {entry : ℕ} {score : ℚ} (hmin : 0 < min_)
    (hreach : min_ ≤ score) :
    IsGreatest {s | (⟨entry, s⟩ : Hit) ∈ query.flatMap
        (fun q => (layer.compared q min_ skip).filterMap (hit q min_))} score ↔
      IsGreatest (Reaching query min_ (fun q => layer.compared q min_ skip) entry) score := by
  have hsub : Reaching query min_ (fun q => layer.compared q min_ skip) entry ⊆
      {s | (⟨entry, s⟩ : Hit) ∈ query.flatMap
        (fun q => (layer.compared q min_ skip).filterMap (hit q min_))} := by
    rintro s ⟨q, hq, r, hr, hentry, hle, rfl⟩
    exact mem_found.mpr ⟨q, hq, r, hr, hentry, similarity_eq_some hmin hle {}⟩
  have hback : ∀ s, (⟨entry, s⟩ : Hit) ∈ query.flatMap
      (fun q => (layer.compared q min_ skip).filterMap (hit q min_)) → min_ ≤ s →
      s ∈ Reaching query min_ (fun q => layer.compared q min_ skip) entry := by
    intro s hs hle
    obtain ⟨q, hq, r, hr, hentry, hscore⟩ := mem_found.mp hs
    obtain ⟨rfl, -⟩ := similarity_of_eq_some hscore
    exact ⟨q, hq, r, hr, hentry, hle, rfl⟩
  constructor
  · exact fun h => ⟨hback score h.1 hreach, fun s hs => h.2 (hsub hs)⟩
  · refine fun h => ⟨hsub h.1, fun s hs => ?_⟩
    rcases le_or_gt min_ s with hle | hlt
    · exact h.2 (hback s hs hle)
    · exact hlt.le.trans hreach

end Layer

/-- Three pronunciations. -/
def soundsK : Sounds := ⟨[.K], by decide, by decide⟩

def soundsT : Sounds := ⟨[.T], by decide, by decide⟩

def soundsKAH : Sounds := ⟨[.K, .AH], by decide, by decide⟩

theorem distance_K_T : distance soundsK.segments soundsT.segments = 18 / 35 := by
  have hcost : substitution .K .T = 18 / 35 := by
    have hne : Segment.K ≠ Segment.T := by decide
    norm_num [substitution, hne, describe, mannerCost, maxSubstitution, Nat.dist]
  have hK : indel .K = 1 := rfl
  have hT : indel .T = 1 := rfl
  simp only [soundsK, soundsT, distance, List.foldl_cons, List.foldl_nil, firstRow, nextRow,
    rowCells, hcost, hK, hT, List.headD_cons, List.length_singleton, List.getD_cons_succ,
    List.getD_cons_zero]
  norm_num

theorem fullSimilarity_K_T : fullSimilarity soundsK soundsT = 17 / 35 := by
  rw [fullSimilarity, distance_K_T]
  norm_num [scoreAt, soundsK, soundsT, Sounds.len]

theorem fullSimilarity_KAH_K : fullSimilarity soundsKAH soundsK = 7 / 10 := by
  have hcost : substitution .K .K = 0 := if_pos rfl
  have hcost' : substitution .AH .K = 16 / 10 := by
    have hne : Segment.AH ≠ Segment.K := by decide
    have hvowel : Segment.AH.isVowel = true := rfl
    norm_num [substitution, hne, describe, hvowel, mixedCost, maxSubstitution]
  have hK : indel .K = 1 := rfl
  have hAH : indel .AH = 6 / 10 := rfl
  have hdistance : distance soundsKAH.segments soundsK.segments = 6 / 10 := by
    simp only [soundsK, soundsKAH, distance, List.foldl_cons, List.foldl_nil, firstRow, nextRow,
      rowCells, hcost, hcost', hK, hAH, List.headD_cons, List.length_singleton,
      List.getD_cons_succ, List.getD_cons_zero]
    norm_num
  rw [fullSimilarity, hdistance]
  norm_num [scoreAt, soundsK, soundsKAH, Sounds.len]

namespace Layer

/-- A layer of one row. -/
def single (s : Sounds) : Layer := ⟨[⟨0, s, s.bigrams⟩], List.pairwise_singleton _ _⟩

/-- Enough for one row. -/
def ample : Budget := .new ⟨10000, 2⟩

theorem ample_lasts (s q : Sounds) (min_ : ℚ) :
    ((single s).search [q] min_ none ample []).2.exhausted = false :=
  search_exhausted_eq_false _ _ _ (show 0 + 1 * (1 * (96 * 96)) < 10000 by decide)
    (show 0 + 1 * 1 < 2 by decide)

theorem length_compared_single_le (s q : Sounds) (min_ : ℚ) :
    ((single s).compared q min_ none).length ≤ rerank :=
  (List.length_filter_le _ _).trans ((length_window_le q).trans (show 1 ≤ 64 by decide))

theorem best_single (s q : Sounds) (min_ : ℚ) :
    Best ([q].flatMap fun q => ((single s).compared q min_ none).filterMap (hit q min_))
      ((single s).searchFrom min_ none [q] [] ample).1 := by
  have hbest := best_searchFrom (fun q _ => length_compared_single_le s q min_) .nil
    (ample_lasts s q min_)
  rwa [List.nil_append] at hbest

theorem reaching_single {s q : Sounds} {min_ t : ℚ} :
    t ∈ Reaching [q] min_ (fun _ => (single s).unskippedRows none) 0 ↔
      min_ ≤ fullSimilarity q s ∧ t = fullSimilarity q s := by
  constructor
  · rintro ⟨q', hq, r, hr, -, h⟩
    obtain rfl := List.mem_singleton.mp hq
    obtain rfl := List.mem_singleton.mp (List.mem_of_mem_filter hr)
    exact h
  · exact fun h => ⟨q, List.mem_singleton_self q, ⟨0, s, s.bigrams⟩,
      List.mem_filter.mpr ⟨List.mem_singleton_self _, rfl⟩, rfl, h⟩

end Layer

end EchoMuse.Correction
