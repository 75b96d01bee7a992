import Mathlib.Data.List.Sort
import Mathlib.Algebra.Ring.Nat

/-!
# Sorted Lists of Intervals

A partial map on the natural numbers whose values come in long runs is kept as a sorted list
of pieces, half-open intervals with the data of a run. This module has the operations on
such a list (what a range leaves uncovered, cutting a range out, inserting a piece, dropping
everything below a bound) and the relation `Tiles` between the map and the list, which each
operation keeps.

Every label has a *tag*, the run it belongs to. The pieces are then exactly the maximal runs
of equal tags, so that counting pieces is counting runs.

## Main results

* `mem_gaps_iff`: the gaps found are exactly the uncovered positions;
* `Tiles.cut`, `Tiles.place`, `Tiles.fill`, `Tiles.dropBelow`: the operations keep `Tiles`;
* `Tiles.map_first_eq`: the pieces start exactly where the runs do.
-/

namespace EchoMuse.Intervals

variable {κ β τ : Type*}

/-- A half-open interval `[first, stop)` with the data of its run. -/
structure Piece (κ : Type*) where
  first : ℕ
  stop : ℕ
  kind : κ
  deriving DecidableEq, Repr

/-- Whether a piece covers a position. -/
def Piece.Covers (p : Piece κ) (i : ℕ) : Prop :=
  p.first ≤ i ∧ i < p.stop

/-- Non-empty pieces in order, without overlap. -/
structure Sorted (ps : List (Piece κ)) : Prop where
  nonempty : ∀ p ∈ ps, p.first < p.stop
  apart : ps.Pairwise fun p q => p.stop ≤ q.first

namespace Sorted

theorem nil : Sorted ([] : List (Piece κ)) :=
  ⟨by simp, List.Pairwise.nil⟩

theorem cons_iff {p : Piece κ} {ps : List (Piece κ)} :
    Sorted (p :: ps) ↔ p.first < p.stop ∧ (∀ q ∈ ps, p.stop ≤ q.first) ∧ Sorted ps := by
  constructor
  · rintro ⟨hne, hap⟩
    rw [List.pairwise_cons] at hap
    exact ⟨hne p (by simp), hap.1, ⟨fun q hq => hne q (by simp [hq]), hap.2⟩⟩
  · rintro ⟨hp, hall, hs⟩
    exact ⟨List.forall_mem_cons.mpr ⟨hp, hs.nonempty⟩, List.pairwise_cons.mpr ⟨hall, hs.apart⟩⟩

/-- Pieces that start one after the other. -/
theorem pairwise_first {ps : List (Piece κ)} (h : Sorted ps) :
    (ps.map Piece.first).Pairwise (· < ·) := by
  induction ps with
  | nil => exact List.Pairwise.nil
  | cons p ps ih =>
      obtain ⟨hp, hall, hs⟩ := cons_iff.mp h
      refine List.pairwise_cons.mpr ⟨fun i hi => ?_, ih hs⟩
      obtain ⟨q, hq, rfl⟩ := List.mem_map.mp hi
      exact lt_of_lt_of_le hp (hall q hq)

/-- Two pieces that share a position are the same. -/
theorem unique {ps : List (Piece κ)} (h : Sorted ps) {p q : Piece κ} (hp : p ∈ ps)
    (hq : q ∈ ps) {i : ℕ} (hpi : p.Covers i) (hqi : q.Covers i) : p = q := by
  induction ps with
  | nil => cases hp
  | cons r ps ih =>
      obtain ⟨-, hall, hs⟩ := cons_iff.mp h
      rw [List.mem_cons] at hp hq
      obtain rfl | hp := hp
      · obtain rfl | hq := hq
        · rfl
        · have hle := hall q hq
          have h1 := hpi.2
          have h2 := hqi.1
          omega
      · obtain rfl | hq := hq
        · have hle := hall p hp
          have h1 := hqi.2
          have h2 := hpi.1
          omega
        · exact ih hs hp hq

/-- What is left after skipping the pieces that stop at or before `c`. -/
theorem mem_dropWhile_iff {ps : List (Piece κ)} (h : Sorted ps) {c : ℕ} {q : Piece κ} :
    q ∈ ps.dropWhile (fun p => p.stop ≤ c) ↔ q ∈ ps ∧ c < q.stop := by
  induction ps with
  | nil => simp
  | cons p ps ih =>
      obtain ⟨hp, hall, hs⟩ := cons_iff.mp h
      by_cases hstop : p.stop ≤ c
      · rw [List.dropWhile_cons_of_pos (by simpa using hstop), ih hs, List.mem_cons]
        constructor
        · exact fun ⟨hq, hlt⟩ => ⟨Or.inr hq, hlt⟩
        · rintro ⟨rfl | hq, hlt⟩
          · omega
          · exact ⟨hq, hlt⟩
      · rw [List.dropWhile_cons_of_neg (by simpa using hstop), List.mem_cons]
        constructor
        · rintro (rfl | hq)
          · exact ⟨Or.inl rfl, not_le.mp hstop⟩
          · have h1 := hall q hq
            have h2 := hs.nonempty q hq
            exact ⟨Or.inr hq, by omega⟩
        · exact fun hq => hq.1

theorem dropWhile {ps : List (Piece κ)} (h : Sorted ps) (f : Piece κ → Bool) :
    Sorted (ps.dropWhile f) :=
  ⟨fun p hp => h.nonempty p (List.dropWhile_subset _ hp),
    h.apart.sublist (List.dropWhile_sublist _)⟩

end Sorted

/-! ### Gaps -/

/-- The parts of `[cur, stop)` no piece that counts covers. -/
def gaps (counts : Piece κ → Bool) (stop : ℕ) : ℕ → List (Piece κ) → List (ℕ × ℕ)
  | cur, [] => if cur < stop then [(cur, stop)] else []
  | cur, p :: ps =>
    if stop ≤ p.first then if cur < stop then [(cur, stop)] else []
    else if counts p = false then gaps counts stop cur ps
    else
      (if cur < p.first then [(cur, p.first)] else []) ++
        gaps counts stop (max cur p.stop) ps

/-- Ranges inside `[cur, stop)`, none empty, with room between each and the next. -/
structure Spaced (cur stop : ℕ) (gs : List (ℕ × ℕ)) : Prop where
  inside : ∀ g ∈ gs, cur ≤ g.1 ∧ g.1 < g.2 ∧ g.2 ≤ stop
  apart : gs.Pairwise fun g g' => g.2 < g'.1

namespace Spaced

variable {cur stop : ℕ} {gs : List (ℕ × ℕ)}

theorem tail {g : ℕ × ℕ} (h : Spaced cur stop (g :: gs)) : Spaced g.2 stop gs where
  inside := by
    intro g' hg'
    have hroom := (List.pairwise_cons.mp h.apart).1 g' hg'
    have hin := h.inside g' (by simp [hg'])
    exact ⟨hroom.le, hin.2⟩
  apart := (List.pairwise_cons.mp h.apart).2

theorem dropWhile (h : Spaced cur stop gs) (f : ℕ × ℕ → Bool) :
    Spaced cur stop (gs.dropWhile f) where
  inside := fun g hg => h.inside g (List.dropWhile_subset _ hg)
  apart := h.apart.sublist (List.dropWhile_sublist _)

/-- A wider range. -/
theorem of_le (h : Spaced cur stop gs) {a : ℕ} (ha : a ≤ cur) : Spaced a stop gs where
  inside := fun g hg => ⟨ha.trans (h.inside g hg).1, (h.inside g hg).2⟩
  apart := h.apart

/-- The lengths of the ranges add up to the number of positions they cover. -/
theorem sum_eq_countP (h : Spaced cur stop gs) (hle : cur ≤ stop) :
    (gs.map fun g => g.2 - g.1).sum =
      (List.range' cur (stop - cur)).countP (fun i => ∃ g ∈ gs, g.1 ≤ i ∧ i < g.2) := by
  induction gs generalizing cur with
  | nil => simp
  | cons g gs ih =>
      obtain ⟨h1, h2, h3⟩ := h.inside g (by simp)
      have hsplit : List.range' cur (stop - cur) = List.range' cur (g.1 - cur) ++
          (List.range' g.1 (g.2 - g.1) ++ List.range' g.2 (stop - g.2)) := by
        rw [show List.range' g.2 (stop - g.2) =
            List.range' (g.1 + 1 * (g.2 - g.1)) (stop - g.2) by congr 1; omega,
          List.range'_append,
          show List.range' g.1 (g.2 - g.1 + (stop - g.2)) =
            List.range' (cur + 1 * (g.1 - cur)) (stop - g.1) by congr 1 <;> omega,
          List.range'_append]
        congr 1
        omega
      have hroom := (List.pairwise_cons.mp h.apart).1
      have hbefore : (List.range' cur (g.1 - cur)).countP
          (fun i => ∃ g' ∈ g :: gs, g'.1 ≤ i ∧ i < g'.2) = 0 := by
        rw [List.countP_eq_zero]
        intro i hi
        rw [List.mem_range'_1] at hi
        simp only [List.mem_cons, exists_eq_or_imp, decide_eq_true_eq, not_or, not_exists,
          not_and]
        refine ⟨fun h => by omega, fun g' hg' h => ?_⟩
        have hr := hroom g' hg'
        omega
      have hinside : (List.range' g.1 (g.2 - g.1)).countP
          (fun i => ∃ g' ∈ g :: gs, g'.1 ≤ i ∧ i < g'.2) = g.2 - g.1 := by
        rw [List.countP_eq_length.mpr, List.length_range']
        intro i hi
        rw [List.mem_range'_1] at hi
        exact decide_eq_true ⟨g, by simp, hi.1, by omega⟩
      have hafter : (List.range' g.2 (stop - g.2)).countP
          (fun i => ∃ g' ∈ g :: gs, g'.1 ≤ i ∧ i < g'.2) =
          (List.range' g.2 (stop - g.2)).countP
            (fun i => ∃ g' ∈ gs, g'.1 ≤ i ∧ i < g'.2) := by
        refine List.countP_congr fun i hi => ?_
        rw [List.mem_range'_1] at hi
        simp only [List.mem_cons, exists_eq_or_imp, decide_eq_true_eq, or_iff_right_iff_imp]
        intro hin
        omega
      rw [List.map_cons, List.sum_cons, hsplit, List.countP_append, List.countP_append, hbefore,
        hinside, hafter, Nat.zero_add, ih h.tail h3]

end Spaced

theorem spaced_last (cur stop : ℕ) :
    Spaced cur stop (if cur < stop then [(cur, stop)] else []) := by
  by_cases h : cur < stop
  · rw [if_pos h]
    exact ⟨by simpa using h, List.pairwise_singleton _ _⟩
  · rw [if_neg h]
    exact ⟨by simp, List.Pairwise.nil⟩

theorem spaced_gaps (counts : Piece κ → Bool) {stop : ℕ} {ps : List (Piece κ)}
    (hs : Sorted ps) (cur : ℕ) : Spaced cur stop (gaps counts stop cur ps) := by
  induction ps generalizing cur with
  | nil => exact spaced_last cur stop
  | cons p ps ih =>
      obtain ⟨hp, hall, hs⟩ := Sorted.cons_iff.mp hs
      rw [gaps]
      split_ifs with hstop hcur hcount hfirst
      · have h := spaced_last cur stop
        rwa [if_pos hcur] at h
      · have h := spaced_last cur stop
        rwa [if_neg hcur] at h
      · exact ih hs cur
      · have hrest := ih hs (max cur p.stop)
        refine ⟨?_, ?_⟩
        · rw [List.cons_append, List.nil_append, List.forall_mem_cons]
          refine ⟨⟨le_rfl, hfirst, by omega⟩, fun g hg => ?_⟩
          obtain ⟨h1, h2, h3⟩ := hrest.inside g hg
          exact ⟨by omega, h2, h3⟩
        · rw [List.cons_append, List.nil_append, List.pairwise_cons]
          refine ⟨fun g hg => ?_, hrest.apart⟩
          obtain ⟨h1, -, -⟩ := hrest.inside g hg
          omega
      · have hrest := ih hs (max cur p.stop)
        refine ⟨fun g hg => ?_, hrest.apart⟩
        obtain ⟨h1, h2, h3⟩ := hrest.inside g hg
        exact ⟨by omega, h2, h3⟩

theorem mem_last_iff {cur stop i : ℕ} :
    (∃ g ∈ (if cur < stop then [(cur, stop)] else []), g.1 ≤ i ∧ i < g.2) ↔
      cur ≤ i ∧ i < stop := by
  by_cases h : cur < stop
  · simp [h]
  · simp only [h, if_false, List.not_mem_nil, false_and, exists_false, false_iff]
    omega

/-- **The gaps are exactly the positions no counted piece covers.** -/
theorem mem_gaps_iff {counts : Piece κ → Bool} {stop : ℕ} {ps : List (Piece κ)}
    (hs : Sorted ps) {cur i : ℕ} :
    (∃ g ∈ gaps counts stop cur ps, g.1 ≤ i ∧ i < g.2) ↔
      cur ≤ i ∧ i < stop ∧ ∀ p ∈ ps, counts p = true → ¬ p.Covers i := by
  induction ps generalizing cur with
  | nil =>
      rw [gaps, mem_last_iff]
      simp
  | cons p ps ih =>
      obtain ⟨hp, hall, hs⟩ := Sorted.cons_iff.mp hs
      by_cases hstop : stop ≤ p.first
      · have hnone : i < stop → ∀ q ∈ p :: ps, counts q = true → ¬ q.Covers i := by
          intro hi q hq _ hcov
          have h1 := hcov.1
          rw [List.mem_cons] at hq
          obtain rfl | hq := hq
          · omega
          · have h2 := hall q hq
            omega
        rw [gaps, if_pos hstop, mem_last_iff]
        exact ⟨fun ⟨h1, h2⟩ => ⟨h1, h2, hnone h2⟩, fun ⟨h1, h2, _⟩ => ⟨h1, h2⟩⟩
      · by_cases hcount : counts p = false
        · rw [gaps, if_neg hstop, if_pos hcount, ih hs, List.forall_mem_cons]
          simp [hcount]
        · have hrest := @ih hs (max cur p.stop)
          have hfirst : (∃ g ∈ (if cur < p.first then [(cur, p.first)] else []),
              g.1 ≤ i ∧ i < g.2) ↔ cur ≤ i ∧ i < p.first := mem_last_iff
          rw [gaps, if_neg hstop, if_neg hcount]
          simp only [List.mem_append, or_and_right, exists_or, hrest, hfirst]
          rw [List.forall_mem_cons]
          simp only [Bool.not_eq_false] at hcount
          constructor
          · rintro (⟨h1, h2⟩ | ⟨h1, h2, h3⟩)
            · refine ⟨h1, by omega, fun _ hcov => absurd hcov.1 (by omega), ?_⟩
              intro q hq _ hcov
              have h3 := hall q hq
              have h4 := hcov.1
              omega
            · exact ⟨by omega, h2, fun _ hcov => absurd hcov.2 (by omega), h3⟩
          · rintro ⟨h1, h2, h3, h4⟩
            by_cases hlt : i < p.first
            · exact Or.inl ⟨h1, hlt⟩
            · have hout : ¬ i < p.stop := fun hi => h3 hcount ⟨not_lt.mp hlt, hi⟩
              exact Or.inr ⟨by omega, h2, h4⟩

/-! ### Cutting, inserting, dropping -/

/-- Cuts `[a, b)` out of the pieces: those inside it go, those across its ends are trimmed. -/
def cut (a b : ℕ) : List (Piece κ) → List (Piece κ)
  | [] => []
  | p :: ps =>
    if p.stop ≤ a then p :: cut a b ps
    else if b ≤ p.first then p :: ps
    else
      (if p.first < a then [{ p with stop := a }] else []) ++
        (if b < p.stop then { p with first := b } :: ps else cut a b ps)

/-- Inserts a piece before the first that does not start before it. -/
def place (p : Piece κ) (ps : List (Piece κ)) : List (Piece κ) :=
  ps.takeWhile (fun q => q.first < p.first) ++
    p :: ps.dropWhile (fun q => q.first < p.first)

/-- A piece of `cut a b ps`: one clear of the range, or what is left of one that is not. -/
theorem mem_cut_iff {a b : ℕ} {ps : List (Piece κ)} (hs : Sorted ps) {q : Piece κ} :
    q ∈ cut a b ps ↔ (q ∈ ps ∧ (q.stop ≤ a ∨ b ≤ q.first)) ∨
      ∃ p ∈ ps, a < p.stop ∧ p.first < b ∧
        ((p.first < a ∧ q = { p with stop := a }) ∨
          (b < p.stop ∧ q = { p with first := b })) := by
  induction ps with
  | nil => simp [cut]
  | cons p ps ih =>
      obtain ⟨hp, hall, hs⟩ := Sorted.cons_iff.mp hs
      rw [cut]
      by_cases hstop : p.stop ≤ a
      · rw [if_pos hstop, List.mem_cons, ih hs]
        constructor
        · rintro (rfl | ⟨hq, hout⟩ | ⟨r, hr, hrest⟩)
          · exact Or.inl ⟨by simp, Or.inl hstop⟩
          · exact Or.inl ⟨by simp [hq], hout⟩
          · exact Or.inr ⟨r, by simp [hr], hrest⟩
        · rintro (⟨hq, hout⟩ | ⟨r, hr, h1, hrest⟩)
          · rw [List.mem_cons] at hq
            obtain rfl | hq := hq
            · exact Or.inl rfl
            · exact Or.inr (Or.inl ⟨hq, hout⟩)
          · rw [List.mem_cons] at hr
            obtain rfl | hr := hr
            · omega
            · exact Or.inr (Or.inr ⟨r, hr, h1, hrest⟩)
      · by_cases hfirst : b ≤ p.first
        · -- nothing from here on reaches the range
          have hclear : ∀ r ∈ p :: ps, b ≤ r.first := by
            rw [List.forall_mem_cons]
            exact ⟨hfirst, fun r hr => by have h := hall r hr; omega⟩
          rw [if_neg hstop, if_pos hfirst]
          constructor
          · exact fun hq => Or.inl ⟨hq, Or.inr (hclear q hq)⟩
          · rintro (⟨hq, -⟩ | ⟨r, hr, -, hlt, -⟩)
            · exact hq
            · exact absurd hlt (not_lt.mpr (hclear r hr))
        · rw [if_neg hstop, if_neg hfirst, List.mem_append]
          have hleft : q ∈ (if p.first < a then [({ p with stop := a } : Piece κ)] else []) ↔
              p.first < a ∧ q = { p with stop := a } := by
            by_cases h : p.first < a <;> simp [h]
          have hpself : ¬ (p.stop ≤ a ∨ b ≤ p.first) := by omega
          rw [hleft]
          by_cases hright : b < p.stop
          · -- the rest lies beyond the range
            have hclear : ∀ r ∈ ps, b ≤ r.first := fun r hr => by have h := hall r hr; omega
            rw [if_pos hright, List.mem_cons]
            constructor
            · rintro (h | rfl | hq)
              · exact Or.inr ⟨p, by simp, by omega, by omega, Or.inl h⟩
              · exact Or.inr ⟨p, by simp, by omega, by omega, Or.inr ⟨hright, rfl⟩⟩
              · exact Or.inl ⟨by simp [hq], Or.inr (hclear q hq)⟩
            · rintro (⟨hq, hout⟩ | ⟨r, hr, h1, h2, h⟩)
              · rw [List.mem_cons] at hq
                obtain rfl | hq := hq
                · exact absurd hout hpself
                · exact Or.inr (Or.inr hq)
              · rw [List.mem_cons] at hr
                obtain rfl | hr := hr
                · obtain h | ⟨-, rfl⟩ := h
                  · exact Or.inl h
                  · exact Or.inr (Or.inl rfl)
                · exact absurd h2 (not_lt.mpr (hclear r hr))
          · rw [if_neg hright, ih hs]
            constructor
            · rintro (h | ⟨hq, hout⟩ | ⟨r, hr, hrest⟩)
              · exact Or.inr ⟨p, by simp, by omega, by omega, Or.inl h⟩
              · exact Or.inl ⟨by simp [hq], hout⟩
              · exact Or.inr ⟨r, by simp [hr], hrest⟩
            · rintro (⟨hq, hout⟩ | ⟨r, hr, h1, h2, h⟩)
              · rw [List.mem_cons] at hq
                obtain rfl | hq := hq
                · exact absurd hout hpself
                · exact Or.inr (Or.inl ⟨hq, hout⟩)
              · rw [List.mem_cons] at hr
                obtain rfl | hr := hr
                · obtain h | ⟨hlt, -⟩ := h
                  · exact Or.inl h
                  · exact absurd hlt hright
                · exact Or.inr (Or.inr ⟨r, hr, h1, h2, h⟩)

/-- What is left after a cut starts and stops where it did, or at the cut. -/
theorem bounds_of_mem_cut {a b : ℕ} {ps : List (Piece κ)} (hs : Sorted ps)
    {q : Piece κ} (hq : q ∈ cut a b ps) : q.first < q.stop ∧ (q.stop ≤ a ∨ b ≤ q.first) ∧
      ∃ p ∈ ps, p.first ≤ q.first ∧ q.stop ≤ p.stop ∧ q.kind = p.kind ∧
        (q.first = p.first ∨ q.first = b) ∧
        ((p.stop ≤ a ∨ b ≤ p.first) → q = p) := by
  obtain ⟨hq, hout⟩ | ⟨p, hp, h1, h2, ⟨h3, rfl⟩ | ⟨h3, rfl⟩⟩ := (mem_cut_iff hs).mp hq
  · exact ⟨hs.nonempty q hq, hout, q, hq, le_rfl, le_rfl, rfl, Or.inl rfl, fun _ => rfl⟩
  · exact ⟨h3, Or.inl le_rfl, p, hp, le_rfl, h1.le, rfl, Or.inl rfl, fun h => by omega⟩
  · exact ⟨h3, Or.inr le_rfl, p, hp, h2.le, le_rfl, rfl, Or.inr rfl, fun h => by omega⟩

theorem sorted_cut {a b : ℕ} (hab : a < b) {ps : List (Piece κ)} (hs : Sorted ps) :
    Sorted (cut a b ps) := by
  induction ps with
  | nil => exact Sorted.nil
  | cons p ps ih =>
      have hcons := Sorted.cons_iff.mp hs
      obtain ⟨hp, hall, hs⟩ := hcons
      have hcut : ∀ q ∈ cut a b ps, p.stop ≤ q.first := by
        intro q hq
        obtain ⟨-, -, r, hr, hle, -⟩ := bounds_of_mem_cut hs hq
        exact (hall r hr).trans hle
      rw [cut]
      split_ifs with hstop hfirst hleft hright hright
      · exact Sorted.cons_iff.mpr ⟨hp, hcut, ih hs⟩
      · exact Sorted.cons_iff.mpr ⟨hp, hall, hs⟩
      · have hrest : Sorted ({ p with first := b } :: ps) :=
          Sorted.cons_iff.mpr ⟨hright, hall, hs⟩
        rw [List.singleton_append]
        refine Sorted.cons_iff.mpr ⟨hleft, ?_, hrest⟩
        rw [List.forall_mem_cons]
        exact ⟨hab.le, fun q hq => by have h := hall q hq; simp only; omega⟩
      · rw [List.singleton_append]
        exact Sorted.cons_iff.mpr
          ⟨hleft, fun q hq => by have h := hcut q hq; simp only; omega, ih hs⟩
      · exact Sorted.cons_iff.mpr ⟨hright, hall, hs⟩
      · exact ih hs

/-- Where no piece reaches into the range there is nothing to cut. -/
theorem cut_of_clear {a b : ℕ} {ps : List (Piece κ)}
    (hclear : ∀ p ∈ ps, p.stop ≤ a ∨ b ≤ p.first) : cut a b ps = ps := by
  induction ps with
  | nil => rfl
  | cons p ps ih =>
      rw [List.forall_mem_cons] at hclear
      by_cases hstop : p.stop ≤ a
      · rw [cut, if_pos hstop, ih hclear.2]
      · rw [cut, if_neg hstop, if_pos (hclear.1.resolve_left hstop)]

theorem mem_place_iff {p q : Piece κ} {ps : List (Piece κ)} :
    q ∈ place p ps ↔ q = p ∨ q ∈ ps := by
  have hsplit := List.takeWhile_append_dropWhile (p := fun r : Piece κ => r.first < p.first)
    (l := ps)
  rw [place, List.mem_append, List.mem_cons]
  constructor
  · rintro (h | rfl | h)
    · exact Or.inr (List.takeWhile_subset _ h)
    · exact Or.inl rfl
    · exact Or.inr (List.dropWhile_subset _ h)
  · rintro (rfl | h)
    · exact Or.inr (Or.inl rfl)
    · rw [← hsplit, List.mem_append] at h
      obtain h | h := h
      · exact Or.inl h
      · exact Or.inr (Or.inr h)

/-- A piece put where no other lies. -/
theorem sorted_place {p : Piece κ} {ps : List (Piece κ)} (hs : Sorted ps)
    (hp : p.first < p.stop) (hclear : ∀ q ∈ ps, q.stop ≤ p.first ∨ p.stop ≤ q.first) :
    Sorted (place p ps) := by
  induction ps with
  | nil => exact Sorted.cons_iff.mpr ⟨hp, by simp, Sorted.nil⟩
  | cons r ps ih =>
      obtain ⟨hr, hall, hs'⟩ := Sorted.cons_iff.mp hs
      rw [List.forall_mem_cons] at hclear
      by_cases hlt : r.first < p.first
      · have hins : place p (r :: ps) = r :: place p ps := by
          simp [place, hlt]
        rw [hins]
        refine Sorted.cons_iff.mpr ⟨hr, fun q hq => ?_, ih hs' hclear.2⟩
        obtain rfl | hq := mem_place_iff.mp hq
        · have h := hclear.1
          omega
        · exact hall q hq
      · have hins : place p (r :: ps) = p :: r :: ps := by
          simp [place, hlt]
        rw [hins]
        refine Sorted.cons_iff.mpr ⟨hp, ?_, hs⟩
        rw [List.forall_mem_cons]
        have h := hclear.1
        exact ⟨by omega, fun q hq => by have h' := hall q hq; omega⟩

/-- Drops what lies below `f`; a piece across it starts at `f` instead, with the data `trim`
gives it there. -/
def dropBelow (trim : ℕ → Piece κ → κ) (f : ℕ) (ps : List (Piece κ)) : List (Piece κ) :=
  match ps.dropWhile fun p => p.stop ≤ f with
  | [] => []
  | p :: ps => if p.first < f then ⟨f, p.stop, trim f p⟩ :: ps else p :: ps

theorem length_dropBelow_le (trim : ℕ → Piece κ → κ) (f : ℕ) (ps : List (Piece κ)) :
    (dropBelow trim f ps).length ≤ ps.length := by
  have hle := (List.dropWhile_sublist (l := ps) fun p : Piece κ => p.stop ≤ f).length_le
  rw [dropBelow]
  split
  · exact Nat.zero_le _
  · rename_i heq
    rw [heq] at hle
    split_ifs <;> exact hle

/-- A piece of what is left above `f`. -/
theorem mem_dropBelow_iff {trim : ℕ → Piece κ → κ} {f : ℕ} {ps : List (Piece κ)}
    (hs : Sorted ps) {q : Piece κ} : q ∈ dropBelow trim f ps ↔ (q ∈ ps ∧ f ≤ q.first) ∨
      ∃ p ∈ ps, p.first < f ∧ f < p.stop ∧ q = ⟨f, p.stop, trim f p⟩ := by
  induction ps with
  | nil => simp [dropBelow]
  | cons p ps ih =>
      obtain ⟨hp, hall, hs'⟩ := Sorted.cons_iff.mp hs
      by_cases hstop : p.stop ≤ f
      · have hdrop : dropBelow trim f (p :: ps) = dropBelow trim f ps := by
          simp [dropBelow, hstop]
        rw [hdrop, ih hs']
        constructor
        · rintro (⟨hq, hle⟩ | ⟨r, hr, h⟩)
          · exact Or.inl ⟨by simp [hq], hle⟩
          · exact Or.inr ⟨r, by simp [hr], h⟩
        · rintro (⟨hq, hle⟩ | ⟨r, hr, h1, h2, h⟩)
          · rw [List.mem_cons] at hq
            obtain rfl | hq := hq
            · omega
            · exact Or.inl ⟨hq, hle⟩
          · rw [List.mem_cons] at hr
            obtain rfl | hr := hr
            · omega
            · exact Or.inr ⟨r, hr, h1, h2, h⟩
      · have habove : ∀ r ∈ ps, f ≤ r.first := fun r hr => by have h := hall r hr; omega
        by_cases hfirst : p.first < f
        · have hdrop : dropBelow trim f (p :: ps) = ⟨f, p.stop, trim f p⟩ :: ps := by
            simp [dropBelow, hstop, hfirst]
          rw [hdrop, List.mem_cons]
          constructor
          · rintro (rfl | hq)
            · exact Or.inr ⟨p, by simp, hfirst, not_le.mp hstop, rfl⟩
            · exact Or.inl ⟨by simp [hq], habove q hq⟩
          · rintro (⟨hq, hle⟩ | ⟨r, hr, h1, h2, h⟩)
            · rw [List.mem_cons] at hq
              obtain rfl | hq := hq
              · omega
              · exact Or.inr hq
            · rw [List.mem_cons] at hr
              obtain rfl | hr := hr
              · exact Or.inl h
              · exact absurd h1 (not_lt.mpr (habove r hr))
        · have hdrop : dropBelow trim f (p :: ps) = p :: ps := by
            simp [dropBelow, hstop, hfirst]
          rw [hdrop]
          have hall' : ∀ r ∈ p :: ps, f ≤ r.first :=
            List.forall_mem_cons.mpr ⟨not_lt.mp hfirst, habove⟩
          constructor
          · exact fun hq => Or.inl ⟨hq, hall' q hq⟩
          · rintro (⟨hq, -⟩ | ⟨r, hr, h1, -⟩)
            · exact hq
            · exact absurd h1 (not_lt.mpr (hall' r hr))

theorem sorted_dropBelow {trim : ℕ → Piece κ → κ} {f : ℕ} {ps : List (Piece κ)}
    (hs : Sorted ps) : Sorted (dropBelow trim f ps) := by
  induction ps with
  | nil => exact Sorted.nil
  | cons p ps ih =>
      obtain ⟨hp, hall, hs'⟩ := Sorted.cons_iff.mp hs
      by_cases hstop : p.stop ≤ f
      · have hdrop : dropBelow trim f (p :: ps) = dropBelow trim f ps := by
          simp [dropBelow, hstop]
        rw [hdrop]
        exact ih hs'
      · by_cases hfirst : p.first < f
        · have hdrop : dropBelow trim f (p :: ps) = ⟨f, p.stop, trim f p⟩ :: ps := by
            simp [dropBelow, hstop, hfirst]
          rw [hdrop]
          exact Sorted.cons_iff.mpr ⟨not_le.mp hstop, hall, hs'⟩
        · have hdrop : dropBelow trim f (p :: ps) = p :: ps := by
            simp [dropBelow, hstop, hfirst]
          rw [hdrop]
          exact hs

/-! ### Tilings -/

/-- A position where a run of equal tags starts. -/
def IsHead (tag : β → τ) (lab : ℕ → Option β) (i : ℕ) : Prop :=
  ∃ x, lab i = some x ∧ ∀ y, 0 < i → lab (i - 1) = some y → tag y ≠ tag x

/-- The pieces are the maximal runs of the map `lab`: `rep p i x` says that the piece `p`
stands for the label `x` at `i`. -/
structure Tiles (tag : β → τ) (rep : Piece κ → ℕ → β → Prop) (lab : ℕ → Option β)
    (ps : List (Piece κ)) : Prop where
  sorted : Sorted ps
  covered : ∀ i x, lab i = some x → ∃ p ∈ ps, p.Covers i
  piece : ∀ p ∈ ps, ∃ t, ∀ i, p.Covers i → ∃ x, lab i = some x ∧ rep p i x ∧ tag x = t
  head : ∀ p ∈ ps, IsHead tag lab p.first

namespace Tiles

variable {tag : β → τ} {rep : Piece κ → ℕ → β → Prop} {lab : ℕ → Option β}
  {ps : List (Piece κ)}

theorem nil : Tiles tag rep (fun _ => none) ([] : List (Piece κ)) :=
  ⟨Sorted.nil, by simp, by simp, by simp⟩

/-- The label at a covered position. -/
theorem rep_of_mem (h : Tiles tag rep lab ps) {p : Piece κ} (hp : p ∈ ps) {i : ℕ}
    (hi : p.Covers i) : ∃ x, lab i = some x ∧ rep p i x := by
  obtain ⟨t, ht⟩ := h.piece p hp
  obtain ⟨x, hx, hrep, -⟩ := ht i hi
  exact ⟨x, hx, hrep⟩

/-- No piece reaches a position without a label. -/
theorem not_covers (h : Tiles tag rep lab ps) {i : ℕ} (hi : lab i = none) {p : Piece κ}
    (hp : p ∈ ps) : ¬ p.Covers i := by
  intro hcov
  obtain ⟨x, hx, -⟩ := h.rep_of_mem hp hcov
  rw [hi] at hx
  cases hx

/-- A run starts exactly where a piece does. -/
theorem isHead_iff (h : Tiles tag rep lab ps) {i : ℕ} :
    IsHead tag lab i ↔ ∃ p ∈ ps, p.first = i := by
  constructor
  · rintro ⟨x, hx, hne⟩
    obtain ⟨p, hp, hcov⟩ := h.covered i x hx
    refine ⟨p, hp, ?_⟩
    by_contra hfirst
    obtain ⟨t, ht⟩ := h.piece p hp
    have h1 := hcov.1
    have h2 := hcov.2
    obtain ⟨y, hy, -, hty⟩ := ht (i - 1) ⟨by omega, by omega⟩
    obtain ⟨x', hx', -, htx⟩ := ht i hcov
    rw [hx, Option.some.injEq] at hx'
    subst hx'
    exact hne y (by omega) hy (hty.trans htx.symm)
  · rintro ⟨p, hp, rfl⟩
    exact h.head p hp

/-- The run of a piece stops where the piece does. -/
theorem tag_stop (h : Tiles tag rep lab ps) {p : Piece κ} (hp : p ∈ ps) {x y : β}
    (hx : lab p.first = some x) (hy : lab p.stop = some y) : tag y ≠ tag x := by
  have hne := h.sorted.nonempty p hp
  obtain ⟨q, hq, hcov⟩ := h.covered p.stop y hy
  have hfirst : q.first = p.stop := by
    by_contra hlt
    have h1 := hcov.1
    have h2 := hcov.2
    have hsame : p = q := h.sorted.unique hp hq (i := max p.first q.first)
      ⟨by omega, by omega⟩ ⟨by omega, by omega⟩
    subst hsame
    omega
  obtain ⟨t, ht⟩ := h.piece p hp
  obtain ⟨x', hx', -, hxt⟩ := ht p.first ⟨le_rfl, hne⟩
  obtain ⟨z, hz, -, hzt⟩ := ht (p.stop - 1) ⟨by omega, by omega⟩
  obtain ⟨y', hy', hdiff⟩ := h.head q hq
  rw [hfirst] at hy' hdiff
  rw [hx, Option.some.injEq] at hx'
  rw [hy, Option.some.injEq] at hy'
  rw [hx', hxt, hy']
  intro heq
  exact hdiff z (by omega) hz (hzt.trans heq.symm)

/-- Cutting a range out forgets its labels. The pieces that reach into the range must be of
a kind that says the same wherever the piece starts and stops. -/
theorem cut (h : Tiles tag rep lab ps) {a b : ℕ} (hab : a < b) (soft : κ → Prop)
    (hsoft : ∀ {p q : Piece κ} {i x}, soft p.kind → q.kind = p.kind → rep p i x → rep q i x)
    (hreach : ∀ p ∈ ps, p.first < b → a < p.stop → soft p.kind) :
    Tiles tag rep (fun i => if a ≤ i ∧ i < b then none else lab i) (Intervals.cut a b ps) where
  sorted := sorted_cut hab h.sorted
  covered := by
    intro i x hx
    split_ifs at hx with hout
    obtain ⟨p, hp, hcov⟩ := h.covered i x hx
    have h1 := hcov.1
    have h2 := hcov.2
    by_cases hclear : p.stop ≤ a ∨ b ≤ p.first
    · exact ⟨p, (mem_cut_iff h.sorted).mpr (Or.inl ⟨hp, hclear⟩), hcov⟩
    · by_cases hleft : i < a
      · refine ⟨{ p with stop := a }, (mem_cut_iff h.sorted).mpr (Or.inr ⟨p, hp, ?_⟩), ?_⟩
        · exact ⟨by omega, by omega, Or.inl ⟨by omega, rfl⟩⟩
        · exact ⟨h1, hleft⟩
      · refine ⟨{ p with first := b }, (mem_cut_iff h.sorted).mpr (Or.inr ⟨p, hp, ?_⟩), ?_⟩
        · exact ⟨by omega, by omega, Or.inr ⟨by omega, rfl⟩⟩
        · exact ⟨by simp only; omega, h2⟩
  piece := by
    intro q hq
    obtain ⟨-, hout, p, hp, hfirst, hstop, hkind, -, hsame⟩ := bounds_of_mem_cut h.sorted hq
    obtain ⟨t, ht⟩ := h.piece p hp
    refine ⟨t, fun i hi => ?_⟩
    have h1 := hi.1
    have h2 := hi.2
    obtain ⟨x, hx, hrep, htag⟩ := ht i ⟨by omega, by omega⟩
    refine ⟨x, ?_, ?_, htag⟩
    · rw [if_neg (by omega)]
      exact hx
    · by_cases hclear : p.stop ≤ a ∨ b ≤ p.first
      · rw [hsame hclear]
        exact hrep
      · exact hsoft (hreach p hp (by omega) (by omega)) hkind hrep
  head := by
    intro q hq
    obtain ⟨hne, hout, p, hp, hfirst, hstop, -, heq, -⟩ := bounds_of_mem_cut h.sorted hq
    obtain ⟨x, hx, -⟩ := h.rep_of_mem hp (i := q.first) ⟨hfirst, by omega⟩
    have hclear : ¬ (a ≤ q.first ∧ q.first < b) := by omega
    refine ⟨x, (if_neg hclear).trans hx, fun y hpos hy => ?_⟩
    dsimp only at hy
    split_ifs at hy with hin
    obtain heq | heq := heq
    · obtain ⟨x', hx', hdiff⟩ := h.head p hp
      rw [heq] at hx hy hpos
      rw [hx, Option.some.injEq] at hx'
      subst hx'
      exact hdiff y hpos hy
    · omega

/-- A piece is inserted over positions without labels. Its tag is new to its neighbours. -/
theorem place (h : Tiles tag rep lab ps) {p : Piece κ} (hp : p.first < p.stop)
    (hfree : ∀ i, p.Covers i → lab i = none) (t : τ) (mark : ℕ → β)
    (hmark : ∀ i, p.Covers i → rep p i (mark i) ∧ tag (mark i) = t)
    (hleft : ∀ x, 0 < p.first → lab (p.first - 1) = some x → tag x ≠ t)
    (hright : ∀ x, lab p.stop = some x → tag x ≠ t) :
    Tiles tag rep (fun i => if p.first ≤ i ∧ i < p.stop then some (mark i) else lab i)
      (Intervals.place p ps) where
  sorted := by
    refine sorted_place h.sorted hp fun q hq => ?_
    by_contra hreach
    have hne := h.sorted.nonempty q hq
    have hcov : p.Covers (max p.first q.first) := ⟨by omega, by omega⟩
    exact h.not_covers (hfree _ hcov) hq ⟨by omega, by omega⟩
  covered := by
    intro i x hx
    split_ifs at hx with hin
    · exact ⟨p, mem_place_iff.mpr (Or.inl rfl), hin⟩
    · obtain ⟨q, hq, hcov⟩ := h.covered i x hx
      exact ⟨q, mem_place_iff.mpr (Or.inr hq), hcov⟩
  piece := by
    intro q hq
    obtain rfl | hq := mem_place_iff.mp hq
    · refine ⟨t, fun i hi => ⟨mark i, ?_, hmark i hi⟩⟩
      exact if_pos hi
    · obtain ⟨t', ht'⟩ := h.piece q hq
      refine ⟨t', fun i hi => ?_⟩
      obtain ⟨x, hx, hrest⟩ := ht' i hi
      refine ⟨x, ?_, hrest⟩
      rw [if_neg fun hin => by rw [hfree i hin] at hx; cases hx]
      exact hx
  head := by
    intro q hq
    obtain rfl | hq := mem_place_iff.mp hq
    · refine ⟨mark q.first, if_pos ⟨le_rfl, hp⟩, fun y hpos hy => ?_⟩
      dsimp only at hy
      rw [if_neg (by omega)] at hy
      rw [(hmark q.first ⟨le_rfl, hp⟩).2]
      exact hleft y hpos hy
    · obtain ⟨x, hx, hdiff⟩ := h.head q hq
      have hne := h.sorted.nonempty q hq
      have hout : ¬ p.Covers q.first := fun hin => by
        rw [hfree _ hin] at hx
        cases hx
      refine ⟨x, (if_neg hout).trans hx, fun y hpos hy => ?_⟩
      dsimp only at hy
      split_ifs at hy with hin
      · -- the new piece ends where `q` starts
        have hstop : p.stop = q.first := by
          by_contra hne'
          exact hout ⟨by omega, by omega⟩
        rw [Option.some.injEq] at hy
        rw [← hy, (hmark _ hin).2]
        rw [← hstop] at hx
        exact (hright x hx).symm
      · exact hdiff y hpos hy

/-- Replacing ranges one after the other: each is cut out, and a new piece takes its place.
The ranges have room between them, so the new run never touches itself. -/
theorem fill {gs : List (ℕ × ℕ)} {cur stop : ℕ} (hgs : Spaced cur stop gs)
    (h : Tiles tag rep lab ps) {t : τ} {mark : ℕ → β} {new : ℕ × ℕ → Piece κ}
    (hnew : ∀ g, (new g).first = g.1 ∧ (new g).stop = g.2)
    (hmark : ∀ g ∈ gs, ∀ i, g.1 ≤ i → i < g.2 → rep (new g) i (mark i) ∧ tag (mark i) = t)
    (soft : κ → Prop)
    (hsoft : ∀ {p q : Piece κ} {i x}, soft p.kind → q.kind = p.kind → rep p i x → rep q i x)
    (hreach : ∀ g ∈ gs, ∀ p ∈ ps, p.first < g.2 → g.1 < p.stop → soft p.kind)
    (hleft : ∀ g ∈ gs, ∀ x, 0 < g.1 → lab (g.1 - 1) = some x → tag x ≠ t)
    (hright : ∀ g ∈ gs, ∀ x, lab g.2 = some x → tag x ≠ t) :
    Tiles tag rep
      (fun i => if ∃ g ∈ gs, g.1 ≤ i ∧ i < g.2 then some (mark i) else lab i)
      (gs.foldl (fun ps g => Intervals.place (new g) (Intervals.cut g.1 g.2 ps)) ps) := by
  induction gs generalizing lab ps with
  | nil => simpa using h
  | cons g gs ih =>
      have hinside := hgs.inside
      have hapart := hgs.apart
      rw [List.pairwise_cons] at hapart
      rw [List.forall_mem_cons] at hmark hreach hleft hright hinside
      obtain ⟨hcur, hlt, hstop⟩ := hinside.1
      obtain ⟨hfirst, hlast⟩ := hnew g
      -- the first range is replaced
      have hcut := h.cut hlt soft hsoft hreach.1
      have hins := hcut.place (p := new g) (by omega)
        (fun i hi => if_pos ⟨by have := hi.1; omega, by have := hi.2; omega⟩) t mark
        (fun i hi => hmark.1 i (by have := hi.1; omega) (by have := hi.2; omega))
        (fun x hpos hx => by
          rw [if_neg (by omega), hfirst] at hx
          exact hleft.1 x (by omega) hx)
        (fun x hx => by
          rw [if_neg (by omega), hlast] at hx
          exact hright.1 x hx)
      set lab' : ℕ → Option β := fun i => if g.1 ≤ i ∧ i < g.2 then some (mark i) else lab i
        with hlab'
      have heq : (fun i => if (new g).first ≤ i ∧ i < (new g).stop then some (mark i)
          else if g.1 ≤ i ∧ i < g.2 then none else lab i) = lab' := by
        funext i
        rw [hfirst, hlast, hlab']
        by_cases hin : g.1 ≤ i ∧ i < g.2
        · simp only [if_pos hin]
        · simp only [if_neg hin]
      rw [heq] at hins
      -- the others are clear of it
      have hout : ∀ i, g.2 ≤ i → lab' i = lab i := fun i hi => if_neg (by omega)
      have hrest := ih ⟨hinside.2, hapart.2⟩ hins hmark.2 (fun g' hg' p hp h1 h2 => by
          have hroom := hapart.1 g' hg'
          obtain rfl | hp := mem_place_iff.mp hp
          · omega
          · obtain ⟨-, -, p', hp', hle1, hle2, hkind, -⟩ := bounds_of_mem_cut h.sorted hp
            rw [hkind]
            exact hreach.2 g' hg' p' hp' (by omega) (by omega))
        (fun g' hg' x hpos hx => by
          have hroom := hapart.1 g' hg'
          rw [hout _ (by omega)] at hx
          exact hleft.2 g' hg' x hpos hx)
        (fun g' hg' x hx => by
          have hroom := hapart.1 g' hg'
          have hne := (hinside.2 g' hg').2.1
          rw [hout _ (by omega)] at hx
          exact hright.2 g' hg' x hx)
      have hall : (fun i => if ∃ g' ∈ g :: gs, g'.1 ≤ i ∧ i < g'.2 then some (mark i) else lab i)
          = fun i => if ∃ g' ∈ gs, g'.1 ≤ i ∧ i < g'.2 then some (mark i) else lab' i := by
        funext i
        rw [hlab']
        by_cases hin : g.1 ≤ i ∧ i < g.2
        · simp [hin]
        · have hiff : (∃ g' ∈ g :: gs, g'.1 ≤ i ∧ i < g'.2) ↔
              ∃ g' ∈ gs, g'.1 ≤ i ∧ i < g'.2 := by
            constructor
            · rintro ⟨g', hg', hin'⟩
              obtain rfl | hg' := List.mem_cons.mp hg'
              · exact absurd hin' hin
              · exact ⟨g', hg', hin'⟩
            · exact fun ⟨g', hg', hin'⟩ => ⟨g', List.mem_cons_of_mem _ hg', hin'⟩
          simp only [hiff, if_neg hin]
      rw [hall]
      exact hrest

/-- Ranges no piece reaches into are filled without cutting. -/
theorem foldl_place_eq {gs : List (ℕ × ℕ)} {cur stop : ℕ} (hgs : Spaced cur stop gs)
    {new : ℕ × ℕ → Piece κ} (hnew : ∀ g, (new g).first = g.1 ∧ (new g).stop = g.2)
    (hclear : ∀ g ∈ gs, ∀ p ∈ ps, p.stop ≤ g.1 ∨ g.2 ≤ p.first) :
    gs.foldl (fun ps g => Intervals.place (new g) ps) ps =
      gs.foldl (fun ps g => Intervals.place (new g) (Intervals.cut g.1 g.2 ps)) ps := by
  induction gs generalizing ps with
  | nil => rfl
  | cons g gs ih =>
      have hapart := List.pairwise_cons.mp hgs.apart
      rw [List.forall_mem_cons] at hclear
      rw [List.foldl_cons, List.foldl_cons, cut_of_clear hclear.1]
      refine ih ⟨fun g' hg' => hgs.inside g' (by simp [hg']), hapart.2⟩ fun g' hg' p hp => ?_
      obtain rfl | hp := mem_place_iff.mp hp
      · have hroom := hapart.1 g' hg'
        rw [(hnew g).2]
        exact Or.inl hroom.le
      · exact hclear.2 g' hg' p hp

/-- Dropping what lies below `f` forgets its labels. -/
theorem dropBelow (h : Tiles tag rep lab ps) {f : ℕ} {trim : ℕ → Piece κ → κ}
    (htrim : ∀ p ∈ ps, p.first < f → ∀ i x, p.Covers i → f ≤ i → rep p i x →
      rep ⟨f, p.stop, trim f p⟩ i x) :
    Tiles tag rep (fun i => if i < f then none else lab i) (Intervals.dropBelow trim f ps) where
  sorted := sorted_dropBelow h.sorted
  covered := by
    intro i x hx
    split_ifs at hx with hlt
    obtain ⟨p, hp, hcov⟩ := h.covered i x hx
    have h1 := hcov.1
    have h2 := hcov.2
    by_cases hfirst : f ≤ p.first
    · exact ⟨p, (mem_dropBelow_iff h.sorted).mpr (Or.inl ⟨hp, hfirst⟩), hcov⟩
    · refine ⟨_, (mem_dropBelow_iff h.sorted).mpr (Or.inr ⟨p, hp, ?_, ?_, rfl⟩), ?_⟩
      · omega
      · omega
      · exact ⟨not_lt.mp hlt, h2⟩
  piece := by
    intro q hq
    obtain ⟨hq, hle⟩ | ⟨p, hp, h1, h2, rfl⟩ := (mem_dropBelow_iff h.sorted).mp hq
    · obtain ⟨t, ht⟩ := h.piece q hq
      refine ⟨t, fun i hi => ?_⟩
      obtain ⟨x, hx, hrest⟩ := ht i hi
      have hge := hi.1
      exact ⟨x, (if_neg (by omega)).trans hx, hrest⟩
    · obtain ⟨t, ht⟩ := h.piece p hp
      refine ⟨t, fun i hi => ?_⟩
      have hge : f ≤ i := hi.1
      have hlt : i < p.stop := hi.2
      have hcov : p.Covers i := ⟨by omega, hlt⟩
      obtain ⟨x, hx, hrep, htag⟩ := ht i hcov
      exact ⟨x, (if_neg (by omega)).trans hx, htrim p hp h1 i x hcov hge hrep, htag⟩
  head := by
    intro q hq
    obtain ⟨hq, hle⟩ | ⟨p, hp, h1, h2, rfl⟩ := (mem_dropBelow_iff h.sorted).mp hq
    · obtain ⟨x, hx, hdiff⟩ := h.head q hq
      refine ⟨x, (if_neg (by omega)).trans hx, fun y hpos hy => ?_⟩
      dsimp only at hy
      split_ifs at hy with hlt
      exact hdiff y hpos hy
    · obtain ⟨x, hx, -⟩ := h.rep_of_mem hp (i := f) ⟨h1.le, h2⟩
      refine ⟨x, (if_neg (lt_irrefl f)).trans hx, fun y hpos hy => ?_⟩
      dsimp only at hy hpos
      rw [if_pos (by omega)] at hy
      cases hy

/-- The runs below `known` start exactly where the pieces do, in order. -/
theorem map_first_eq (h : Tiles tag rep lab ps) {known : ℕ} (hknown : ∀ p ∈ ps, p.stop ≤ known)
    [DecidablePred (IsHead tag lab)] :
    (List.range known).filter (IsHead tag lab) = ps.map Piece.first := by
  refine List.Pairwise.eq_of_mem_iff (r := (· < ·)) (List.pairwise_lt_range.filter _)
    h.sorted.pairwise_first fun i => ?_
  rw [List.mem_filter, List.mem_range, decide_eq_true_iff, h.isHead_iff, List.mem_map]
  constructor
  · exact fun hi => hi.2
  · rintro ⟨p, hp, rfl⟩
    exact ⟨lt_of_lt_of_le (h.sorted.nonempty p hp) (hknown p hp), p, hp, rfl⟩

end Tiles

end EchoMuse.Intervals
