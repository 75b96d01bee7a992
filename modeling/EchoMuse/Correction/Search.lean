import EchoMuse.Correction.Sounds
import Mathlib.Algebra.Order.Floor.Semiring
import Mathlib.Data.Rat.Floor
import Mathlib.Data.Finset.Lattice.Basic
import Mathlib.Order.Bounds.Basic

/-!
# Searching by Sound

A layer's rows, sorted by length, and the search that compares a query only with the rows whose
length allows the similarity it needs. An entry is its index; its text is not looked at.

## Main results

* `mem_window`: the rows of a window;
* `best_searchFrom`: what the search keeps for each entry.
-/

namespace EchoMuse.Correction

/-- Rows compared in full per query at most. -/
def rerank : ℕ := 64

structure Row where
  entry : ℕ
  sounds : Sounds
  bigrams : Finset (Segment × Segment)

/-- The rows of one kind of entry, sorted by length. -/
structure Layer where
  rows : List Row
  sorted : rows.Pairwise fun r r' => r.sounds.len ≤ r'.sounds.len

/-- One search result. -/
structure Hit where
  entry : ℕ
  score : ℚ
deriving DecidableEq

/-- A turn's allowance of work. -/
structure Budget where
  work : Work
  limit : Work

namespace Budget

def new (limit : Work) : Budget := ⟨{}, limit⟩

def exhausted (b : Budget) : Bool :=
  b.limit.cells ≤ b.work.cells || b.limit.rows ≤ b.work.rows

end Budget

/-- `HashSet::contains` of a set that may be missing. -/
def unskipped (skip : Option (Finset ℕ)) (r : Row) : Bool :=
  match skip with
  | none => true
  | some s => decide (r.entry ∉ s)

/-- A score for an entry: the greatest is kept. -/
def keep (entry : ℕ) (score : ℚ) : List Hit → List Hit
  | [] => [⟨entry, max 0 score⟩]
  | h :: best =>
    if h.entry = entry then ⟨entry, max h.score score⟩ :: best else h :: keep entry score best

/-- Best first, then by entry. -/
def Hit.le (a b : Hit) : Bool := b.score < a.score || a.score == b.score && a.entry ≤ b.entry

namespace Layer

/-- Sorts the rows. -/
def finish (rows : List Row) : Layer where
  rows := rows.mergeSort fun r r' => r.sounds.len ≤ r'.sounds.len
  sorted := by
    refine (List.pairwise_mergeSort (fun a b c hab hbc => ?_) (fun a b => ?_) rows).imp ?_
    · rw [decide_eq_true_iff] at *
      exact hab.trans hbc
    · rw [Bool.or_eq_true, decide_eq_true_iff, decide_eq_true_iff]
      exact Nat.le_total _ _
    · exact fun h => of_decide_eq_true h

variable (layer : Layer)

/-- `len * min`, up. -/
def lo (len : ℕ) (min_ : ℚ) : ℕ := ⌈(len : ℚ) * min_⌉₊

/-- `len / min`, down. -/
def hi (len : ℕ) (min_ : ℚ) : ℕ := ⌊(len : ℚ) / max min_ (1 / 100)⌋₊

/-- `partition_point`: how many rows, from the first on, are within the length. -/
def partitionPoint (p : Row → Bool) : ℕ := (layer.rows.takeWhile p).length

/-- The rows whose length allows the similarity. -/
def window (q : Sounds) (min_ : ℚ) : List Row :=
  let start := layer.partitionPoint fun r => r.sounds.len < lo q.len min_
  let end_ := layer.partitionPoint fun r => r.sounds.len ≤ hi q.len min_
  (layer.rows.take (max end_ start)).drop start

/-- The rows of a window that are compared: those that share the most adjacent pairs if there are
too many. -/
def chosen (q : Sounds) (rows : List Row) : List Row :=
  if rerank < rows.length then
    let qb := q.bigrams
    let score (r : Row) : ℚ := ((qb ∩ r.bigrams).card : ℚ) / (max r.sounds.len q.len : ℕ)
    (rows.mergeSort fun a b =>
      score b < score a || score a == score b && a.entry ≤ b.entry).take rerank
  else rows

/-- The loop over the rows. -/
def compareRows (q : Sounds) (min_ : ℚ) : List Row → List Hit → Budget → List Hit × Budget
  | [], best, budget => (best, budget)
  | row :: rows, best, budget =>
    if budget.exhausted then (best, budget)
    else
      let found := similarity q row.sounds min_ budget.work
      let budget := { budget with work := found.2 }
      match found.1 with
      | some score => compareRows q min_ rows (keep row.entry score best) budget
      | none => compareRows q min_ rows best budget

/-- The loop over the query. -/
def searchFrom (min_ : ℚ) (skip : Option (Finset ℕ)) :
    List Sounds → List Hit → Budget → List Hit × Budget
  | [], best, budget => (best, budget)
  | q :: query, best, budget =>
    if budget.exhausted then (best, budget)
    else
      let window := layer.window q min_
      let remaining := budget.limit.rows - budget.work.rows
      let window := window.take (min window.length remaining)
      let budget :=
        { budget with work := { budget.work with rows := budget.work.rows + window.length } }
      let found := compareRows q min_ (chosen q (window.filter (unskipped skip))) best budget
      searchFrom min_ skip query found.1 found.2

/-- The entries whose pronunciation is alike to one of `query`'s, best first, after what is in `out`
already. -/
def search (query : List Sounds) (min_ : ℚ) (skip : Option (Finset ℕ)) (budget : Budget)
    (out : List Hit) : List Hit × Budget :=
  let found := layer.searchFrom min_ skip query [] budget
  (out ++ found.1.mergeSort Hit.le, found.2)

end Layer

/-! ### The window -/

section Slice

variable {α : Type*} {l : List α} {p₁ p₂ : α → Bool} {a : α}

theorem mem_takeWhile_iff (hmono : l.Pairwise fun x y => p₁ y = true → p₁ x = true) :
    a ∈ l.takeWhile p₁ ↔ a ∈ l ∧ p₁ a = true := by
  induction l with
  | nil => simp
  | cons x l ih =>
      obtain ⟨hx, hl⟩ := List.pairwise_cons.mp hmono
      by_cases hp : p₁ x = true
      · rw [List.takeWhile_cons_of_pos hp, List.mem_cons, List.mem_cons, ih hl]
        constructor
        · rintro (rfl | h)
          · exact ⟨.inl rfl, hp⟩
          · exact ⟨.inr h.1, h.2⟩
        · rintro ⟨rfl | hmem, ha⟩
          · exact .inl rfl
          · exact .inr ⟨hmem, ha⟩
      · rw [List.takeWhile_cons_of_neg hp]
        refine ⟨fun h => absurd h List.not_mem_nil, fun h => absurd h.2 ?_⟩
        rcases List.mem_cons.mp h.1 with rfl | hmem
        · exact hp
        · exact fun ha => hp (hx a hmem ha)

theorem length_takeWhile_le (h₁₂ : ∀ x, p₁ x = true → p₂ x = true) :
    (l.takeWhile p₁).length ≤ (l.takeWhile p₂).length := by
  induction l with
  | nil => exact le_rfl
  | cons x l ih =>
      by_cases hp : p₁ x = true
      · rw [List.takeWhile_cons_of_pos hp, List.takeWhile_cons_of_pos (h₁₂ x hp)]
        exact Nat.succ_le_succ ih
      · rw [List.takeWhile_cons_of_neg hp]
        exact Nat.zero_le _

/-- In a sorted list the elements between two bounds are a slice. -/
theorem mem_slice (h₁ : l.Pairwise fun x y => p₁ y = true → p₁ x = true)
    (h₂ : l.Pairwise fun x y => p₂ y = true → p₂ x = true)
    (h₁₂ : ∀ x, p₁ x = true → p₂ x = true) :
    a ∈ (l.take (l.takeWhile p₂).length).drop (l.takeWhile p₁).length ↔
      a ∈ l ∧ p₂ a = true ∧ p₁ a = false := by
  induction l with
  | nil => simp
  | cons x l ih =>
      obtain ⟨hx, hl⟩ := List.pairwise_cons.mp h₁
      by_cases hp : p₁ x = true
      · rw [List.takeWhile_cons_of_pos hp, List.takeWhile_cons_of_pos (h₁₂ x hp),
          List.length_cons, List.length_cons, List.take_succ_cons, List.drop_succ_cons,
          ih hl h₂.of_cons, List.mem_cons]
        constructor
        · exact fun h => ⟨.inr h.1, h.2⟩
        · rintro ⟨rfl | hmem, h⟩
          · exact absurd (hp.symm.trans h.2) Bool.noConfusion
          · exact ⟨hmem, h⟩
      · rw [List.takeWhile_cons_of_neg hp, List.length_nil, List.drop_zero,
          ← List.prefix_iff_eq_take.mp (List.takeWhile_prefix p₂), mem_takeWhile_iff h₂]
        refine ⟨fun h => ⟨h.1, h.2, ?_⟩, fun h => ⟨h.1, h.2.1⟩⟩
        rw [← Bool.not_eq_true]
        rcases List.mem_cons.mp h.1 with rfl | hmem
        · exact hp
        · exact fun ha => hp (hx a hmem ha)

end Slice

namespace Layer

variable {layer : Layer} {q : Sounds} {min_ : ℚ}

theorem lo_le_len (hmin : min_ ≤ 1) (len : ℕ) : lo len min_ ≤ len :=
  Nat.ceil_le.mpr (mul_le_of_le_one_right (Nat.cast_nonneg len) hmin)

theorem len_le_hi (hmin : min_ ≤ 1) (len : ℕ) : len ≤ hi len min_ := by
  have hpos : (0 : ℚ) < max min_ (1 / 100) := lt_max_of_lt_right (by norm_num)
  have hone : max min_ (1 / 100) ≤ 1 := max_le hmin (by norm_num)
  exact Nat.le_floor (le_div_self (Nat.cast_nonneg len) hpos hone)

/-- **The rows of the window** are those of its lengths. -/
theorem mem_window (hmin : min_ ≤ 1) {r : Row} :
    r ∈ layer.window q min_ ↔
      r ∈ layer.rows ∧ lo q.len min_ ≤ r.sounds.len ∧ r.sounds.len ≤ hi q.len min_ := by
  have hbounds : lo q.len min_ ≤ hi q.len min_ :=
    (lo_le_len hmin q.len).trans (len_le_hi hmin q.len)
  have hweaker : ∀ r : Row, decide (r.sounds.len < lo q.len min_) = true →
      decide (r.sounds.len ≤ hi q.len min_) = true := by
    intro r h
    rw [decide_eq_true_iff] at *
    omega
  rw [window, partitionPoint, partitionPoint, max_eq_left (length_takeWhile_le hweaker), mem_slice]
  · simp only [decide_eq_true_eq, decide_eq_false_iff_not, Nat.not_lt]
    exact ⟨fun h => ⟨h.1, h.2.2, h.2.1⟩, fun h => ⟨h.1, h.2.2, h.2.1⟩⟩
  · refine layer.sorted.imp fun hle h => ?_
    rw [decide_eq_true_iff] at *
    exact Nat.lt_of_le_of_lt hle h
  · refine layer.sorted.imp fun hle h => ?_
    rw [decide_eq_true_iff] at *
    exact hle.trans h
  · exact hweaker

end Layer

/-! ### The budget -/

namespace Budget

/-- Work is only added. -/
structure Before (b b' : Budget) : Prop where
  limit : b'.limit = b.limit
  cells : b.work.cells ≤ b'.work.cells
  rows : b.work.rows ≤ b'.work.rows

theorem Before.refl (b : Budget) : Before b b := ⟨rfl, le_rfl, le_rfl⟩

theorem Before.trans {b b' b'' : Budget} (h : Before b b') (h' : Before b' b'') : Before b b'' :=
  ⟨h'.limit.trans h.limit, h.cells.trans h'.cells, h.rows.trans h'.rows⟩

theorem exhausted_eq_false {b : Budget} :
    b.exhausted = false ↔ b.work.cells < b.limit.cells ∧ b.work.rows < b.limit.rows := by
  rw [exhausted, Bool.or_eq_false_iff, decide_eq_false_iff_not, decide_eq_false_iff_not,
    Nat.not_le, Nat.not_le]

/-- What is not exhausted in the end never was. -/
theorem Before.exhausted {b b' : Budget} (h : Before b b') (hend : b'.exhausted = false) :
    b.exhausted = false := by
  rw [exhausted_eq_false, h.limit] at *
  exact ⟨h.cells.trans_lt hend.1, h.rows.trans_lt hend.2⟩

end Budget

theorem distanceWithin_work (limit : ℚ) (b a : List Segment) (previous : List ℚ)
    (work work' : Work) :
    (distanceWithin limit b a previous work).1 = (distanceWithin limit b a previous work').1 ∧
      work.cells ≤ (distanceWithin limit b a previous work).2.cells ∧
      (distanceWithin limit b a previous work).2.rows = work.rows := by
  induction a generalizing previous work work' with
  | nil => exact ⟨rfl, le_rfl, rfl⟩
  | cons sa a ih =>
      rw [distanceWithin, distanceWithin]
      split_ifs
      · exact ⟨rfl, Nat.le_add_right _ _, rfl⟩
      · obtain ⟨hsame, hcells, hrows⟩ := ih (nextRow sa b previous)
          { work with cells := work.cells + b.length } { work' with cells := work'.cells + b.length }
        exact ⟨hsame, (Nat.le_add_right _ _).trans hcells, hrows⟩

theorem distanceWithin_cells_le (limit : ℚ) (b a : List Segment) (previous : List ℚ)
    (work : Work) :
    (distanceWithin limit b a previous work).2.cells ≤ work.cells + a.length * b.length := by
  induction a generalizing previous work with
  | nil => exact Nat.le_add_right _ _
  | cons sa a ih =>
      rw [distanceWithin, List.length_cons, Nat.succ_mul]
      split_ifs
      · dsimp only
        omega
      · refine (ih _ _).trans_eq ?_
        dsimp only
        omega

/-- The result of a comparison does not depend on the work done before. -/
theorem similarity_work (a b : Sounds) (min_ : ℚ) (work work' : Work) :
    (similarity a b min_ work).1 = (similarity a b min_ work').1 ∧
      work.cells ≤ (similarity a b min_ work).2.cells ∧
      (similarity a b min_ work).2.rows = work.rows := by
  obtain ⟨hsame, hcells, hrows⟩ := distanceWithin_work ((1 - min_) * (max a.len b.len : ℕ))
    b.segments a.segments (firstRow 0 b.segments) work work'
  rw [similarity, similarity]
  dsimp only
  rw [hsame]
  exact ⟨rfl, hcells, hrows⟩

/-! ### What is kept -/

/-- The greatest score found for each entry, once. -/
structure Best (found best : List Hit) : Prop where
  nodup : (best.map Hit.entry).Nodup
  greatest : ∀ h ∈ best, IsGreatest {s | (⟨h.entry, s⟩ : Hit) ∈ found} h.score
  exists_mem : ∀ h ∈ found, h.entry ∈ best.map Hit.entry

theorem Best.nil : Best [] [] :=
  ⟨List.nodup_nil, fun _ h => absurd h List.not_mem_nil, fun _ h => absurd h List.not_mem_nil⟩

theorem Best.mem_iff {found best : List Hit} (h : Best found best) {entry : ℕ} {score : ℚ} :
    ⟨entry, score⟩ ∈ best ↔ IsGreatest {s | (⟨entry, s⟩ : Hit) ∈ found} score := by
  constructor
  · exact fun hmem => h.greatest _ hmem
  · intro hgreatest
    obtain ⟨⟨entry', score'⟩, hmem, heq⟩ := List.mem_map.mp (h.exists_mem _ hgreatest.1)
    obtain rfl : entry' = entry := heq
    obtain rfl := (h.greatest _ hmem).unique hgreatest
    exact hmem

theorem entries_keep (entry : ℕ) (score : ℚ) (best : List Hit) :
    (keep entry score best).map Hit.entry =
      if entry ∈ best.map Hit.entry then best.map Hit.entry else best.map Hit.entry ++ [entry] := by
  induction best with
  | nil => rfl
  | cons h best ih =>
      rw [keep]
      by_cases heq : h.entry = entry
      · rw [if_pos heq, List.map_cons, List.map_cons, heq, if_pos List.mem_cons_self]
      · rw [if_neg heq, List.map_cons, List.map_cons, ih]
        by_cases hmem : entry ∈ best.map Hit.entry
        · rw [if_pos hmem, if_pos (List.mem_cons_of_mem _ hmem)]
        · rw [if_neg hmem, if_neg (List.not_mem_cons_of_ne_of_not_mem (Ne.symm heq) hmem)]
          rfl

theorem mem_of_mem_keep {entry : ℕ} {score : ℚ} {best : List Hit} {h : Hit}
    (hnodup : (best.map Hit.entry).Nodup) (hmem : h ∈ keep entry score best) :
    h ∈ best ∧ h.entry ≠ entry ∨ (∃ s, ⟨entry, s⟩ ∈ best ∧ h = ⟨entry, max s score⟩) ∨
      entry ∉ best.map Hit.entry ∧ h = ⟨entry, max 0 score⟩ := by
  induction best with
  | nil => exact .inr (.inr ⟨List.not_mem_nil, List.mem_singleton.mp hmem⟩)
  | cons h' best ih =>
      rw [List.map_cons, List.nodup_cons] at hnodup
      rw [keep] at hmem
      by_cases heq : h'.entry = entry
      · rw [if_pos heq] at hmem
        rcases List.mem_cons.mp hmem with rfl | hrest
        · exact .inr (.inl ⟨h'.score, by rw [← heq]; exact List.mem_cons_self, rfl⟩)
        · refine .inl ⟨List.mem_cons_of_mem _ hrest, fun heq' => hnodup.1 ?_⟩
          rw [heq, ← heq']
          exact List.mem_map_of_mem hrest
      · rw [if_neg heq] at hmem
        rcases List.mem_cons.mp hmem with rfl | hrest
        · exact .inl ⟨List.mem_cons_self, heq⟩
        · rcases ih hnodup.2 hrest with ⟨hold, hne⟩ | ⟨s, hold, rfl⟩ | ⟨hnew, rfl⟩
          · exact .inl ⟨List.mem_cons_of_mem _ hold, hne⟩
          · exact .inr (.inl ⟨s, List.mem_cons_of_mem _ hold, rfl⟩)
          · exact .inr (.inr
              ⟨List.not_mem_cons_of_ne_of_not_mem (Ne.symm heq) hnew, rfl⟩)

/-- **One more score.** -/
theorem Best.keep {found best : List Hit} (h : Best found best) (entry : ℕ) {score : ℚ}
    (hpos : 0 ≤ score) : Best (found ++ [⟨entry, score⟩]) (keep entry score best) where
  nodup := by
    rw [entries_keep]
    split_ifs with hmem
    · exact h.nodup
    · rw [List.nodup_append]
      refine ⟨h.nodup, List.nodup_singleton entry, fun a ha b hb heq => hmem ?_⟩
      rwa [← List.mem_singleton.mp hb, ← heq]
  greatest h' hmem := by
    have hfound : ∀ s, (⟨h'.entry, s⟩ : Hit) ∈ found ++ [⟨entry, score⟩] ↔
        (⟨h'.entry, s⟩ : Hit) ∈ found ∨ h'.entry = entry ∧ s = score := by
      intro s
      rw [List.mem_append, List.mem_singleton, Hit.mk.injEq]
    rcases mem_of_mem_keep h.nodup hmem with ⟨hold, hne⟩ | ⟨s, hold, rfl⟩ | ⟨hnew, rfl⟩
    · have hgreatest := h.greatest h' hold
      refine ⟨(hfound _).mpr (.inl hgreatest.1), fun s hs => ?_⟩
      rcases (hfound s).mp hs with hs | hs
      · exact hgreatest.2 hs
      · exact absurd hs.1 hne
    · have hgreatest := h.greatest _ hold
      refine ⟨(hfound _).mpr ?_, fun t ht => ?_⟩
      · rcases max_choice s score with hmax | hmax
        · exact .inl (by rw [hmax]; exact hgreatest.1)
        · exact .inr ⟨rfl, hmax⟩
      · rcases (hfound t).mp ht with ht | ht
        · exact le_max_of_le_left (hgreatest.2 ht)
        · exact ht.2.trans_le (le_max_right s score)
    · rw [max_eq_right hpos] at *
      refine ⟨(hfound _).mpr (.inr ⟨rfl, rfl⟩), fun t ht => ?_⟩
      rcases (hfound t).mp ht with ht | ht
      · exact absurd (h.exists_mem _ ht) hnew
      · exact ht.2.le
  exists_mem h' hmem := by
    rw [entries_keep]
    rcases List.mem_append.mp hmem with hold | hnew
    · have hentry := h.exists_mem h' hold
      split_ifs
      · exact hentry
      · exact List.mem_append_left _ hentry
    · obtain rfl := List.mem_singleton.mp hnew
      split_ifs with hentry
      · exact hentry
      · exact List.mem_append_right _ (List.mem_singleton_self _)

/-! ### The loops -/

/-- The hit that a row makes. -/
def hit (q : Sounds) (min_ : ℚ) (r : Row) : Option Hit :=
  (similarity q r.sounds min_ {}).1.map fun score => ⟨r.entry, score⟩

theorem compareRows_before (q : Sounds) (min_ : ℚ) (rows : List Row) (best : List Hit)
    (budget : Budget) : budget.Before (Layer.compareRows q min_ rows best budget).2 := by
  induction rows generalizing best budget with
  | nil => exact .refl _
  | cons r rows ih =>
      rw [Layer.compareRows]
      split_ifs
      · exact .refl _
      · obtain ⟨-, hcells, hrows⟩ := similarity_work q r.sounds min_ budget.work {}
        have hstep : budget.Before
            { budget with work := (similarity q r.sounds min_ budget.work).2 } :=
          ⟨rfl, hcells, hrows.ge⟩
        dsimp only
        split
        · exact hstep.trans (ih _ _)
        · exact hstep.trans (ih _ _)

/-- **While the budget lasts every row is compared.** -/
theorem best_compareRows {q : Sounds} {min_ : ℚ} {rows : List Row} {found best : List Hit}
    {budget : Budget} (h : Best found best)
    (hend : (Layer.compareRows q min_ rows best budget).2.exhausted = false) :
    Best (found ++ rows.filterMap (hit q min_)) (Layer.compareRows q min_ rows best budget).1 := by
  induction rows generalizing found best budget with
  | nil =>
      rw [List.filterMap_nil, List.append_nil]
      exact h
  | cons r rows ih =>
      have hnow := (compareRows_before q min_ (r :: rows) best budget).exhausted hend
      rw [Layer.compareRows, hnow, if_neg Bool.false_ne_true] at hend ⊢
      have hsame := (similarity_work q r.sounds min_ budget.work {}).1
      dsimp only at hend ⊢
      rw [hsame] at hend ⊢
      cases hscore : (similarity q r.sounds min_ {}).1 with
      | none =>
          have hnone : hit q min_ r = none := by rw [hit, hscore]; rfl
          rw [hscore] at hend
          rw [List.filterMap_cons_none hnone]
          exact ih h hend
      | some score =>
          have hsome : hit q min_ r = some ⟨r.entry, score⟩ := by rw [hit, hscore]; rfl
          rw [hscore] at hend
          rw [List.filterMap_cons_some hsome, List.append_cons]
          refine ih (h.keep r.entry ?_) hend
          rw [(similarity_of_eq_some hscore).1]
          exact le_max_right _ _

/-- The most cells that a comparison computes. -/
def maxCells : ℕ := maxSegments * maxSegments

theorem compareRows_work_le (q : Sounds) (min_ : ℚ) (rows : List Row) (best : List Hit)
    (budget : Budget) :
    (Layer.compareRows q min_ rows best budget).2.work.cells ≤
        budget.work.cells + rows.length * maxCells ∧
      (Layer.compareRows q min_ rows best budget).2.work.rows = budget.work.rows := by
  induction rows generalizing best budget with
  | nil => exact ⟨Nat.le_add_right _ _, rfl⟩
  | cons r rows ih =>
      rw [Layer.compareRows, List.length_cons, Nat.succ_mul]
      split_ifs
      · exact ⟨Nat.le_add_right _ _, rfl⟩
      · have hrows := (similarity_work q r.sounds min_ budget.work {}).2.2
        have hcells : (similarity q r.sounds min_ budget.work).2.cells ≤
            budget.work.cells + maxCells :=
          (distanceWithin_cells_le _ _ _ _ _).trans
            (Nat.add_le_add_left (Nat.mul_le_mul q.length_le r.sounds.length_le) _)
        have hrest : ∀ kept,
            (Layer.compareRows q min_ rows kept
                { budget with work := (similarity q r.sounds min_ budget.work).2 }).2.work.cells ≤
              budget.work.cells + (rows.length * maxCells + maxCells) ∧
            (Layer.compareRows q min_ rows kept
                { budget with work := (similarity q r.sounds min_ budget.work).2 }).2.work.rows =
              budget.work.rows := by
          intro kept
          obtain ⟨hmore, hsame⟩ :=
            ih kept { budget with work := (similarity q r.sounds min_ budget.work).2 }
          exact ⟨hmore.trans (by dsimp only; omega), hsame.trans hrows⟩
        dsimp only
        split
        · exact hrest _
        · exact hrest _

namespace Layer

variable {layer : Layer} {min_ : ℚ} {skip : Option (Finset ℕ)}

theorem length_window_le (q : Sounds) : (layer.window q min_).length ≤ layer.rows.length := by
  rw [window, List.length_drop, List.length_take]
  omega

theorem length_chosen_le (q : Sounds) (rows : List Row) :
    (chosen q rows).length ≤ rows.length := by
  rw [chosen]
  split_ifs
  · rw [List.length_take, List.length_mergeSort]
    exact min_le_right _ _
  · exact le_rfl

theorem searchFrom_before (query : List Sounds) (best : List Hit) (budget : Budget) :
    budget.Before (layer.searchFrom min_ skip query best budget).2 := by
  induction query generalizing best budget with
  | nil => exact .refl _
  | cons q query ih =>
      rw [searchFrom]
      split_ifs
      · exact .refl _
      · refine Budget.Before.trans ?_ ((compareRows_before _ _ _ _ _).trans (ih _ _))
        exact ⟨rfl, le_rfl, Nat.le_add_right _ _⟩

theorem searchFrom_work_le (query : List Sounds) (best : List Hit) (budget : Budget) :
    (layer.searchFrom min_ skip query best budget).2.work.cells ≤
        budget.work.cells + query.length * (layer.rows.length * maxCells) ∧
      (layer.searchFrom min_ skip query best budget).2.work.rows ≤
        budget.work.rows + query.length * layer.rows.length := by
  induction query generalizing best budget with
  | nil => exact ⟨Nat.le_add_right _ _, Nat.le_add_right _ _⟩
  | cons q query ih =>
      rw [searchFrom, List.length_cons, Nat.succ_mul, Nat.succ_mul]
      split_ifs
      · exact ⟨Nat.le_add_right _ _, Nat.le_add_right _ _⟩
      · dsimp only
        set read := (layer.window q min_).take (min (layer.window q min_).length
          (budget.limit.rows - budget.work.rows)) with hread
        have hfew : read.length ≤ layer.rows.length :=
          (List.length_take_le' _ _).trans (length_window_le q)
        have hchosen : (chosen q (read.filter (unskipped skip))).length ≤ layer.rows.length :=
          (length_chosen_le q _).trans ((List.length_filter_le _ _).trans hfew)
        have hcells := Nat.mul_le_mul_right maxCells hchosen
        obtain ⟨hcompared, hsame⟩ := compareRows_work_le q min_
          (chosen q (read.filter (unskipped skip))) best
          { budget with work := { budget.work with rows := budget.work.rows + read.length } }
        obtain ⟨hmore, hrows⟩ := ih
          (compareRows q min_ (chosen q (read.filter (unskipped skip))) best
            { budget with work := { budget.work with rows := budget.work.rows + read.length } }).1
          (compareRows q min_ (chosen q (read.filter (unskipped skip))) best
            { budget with work := { budget.work with rows := budget.work.rows + read.length } }).2
        dsimp only at hcompared hsame hmore hrows
        exact ⟨hmore.trans (by omega), hrows.trans (by omega)⟩

/-- **A budget that is enough.** -/
theorem search_exhausted_eq_false (query : List Sounds) (budget : Budget) (out : List Hit)
    (hcells : budget.work.cells + query.length * (layer.rows.length * maxCells) <
      budget.limit.cells)
    (hrows : budget.work.rows + query.length * layer.rows.length < budget.limit.rows) :
    (layer.search query min_ skip budget out).2.exhausted = false := by
  have hlimit : (layer.search query min_ skip budget out).2.limit = budget.limit :=
    (searchFrom_before query [] budget).limit
  obtain ⟨hcells', hrows'⟩ := searchFrom_work_le query [] budget
  rw [Budget.exhausted_eq_false, hlimit]
  exact ⟨hcells'.trans_lt hcells, hrows'.trans_lt hrows⟩

/-- The rows that a query is compared with. -/
def compared (layer : Layer) (q : Sounds) (min_ : ℚ) (skip : Option (Finset ℕ)) : List Row :=
  (layer.window q min_).filter (unskipped skip)

/-- **While the budget lasts every row that is to be compared is.** -/
theorem best_searchFrom {query : List Sounds} {found best : List Hit} {budget : Budget}
    (hrerank : ∀ q ∈ query, (layer.compared q min_ skip).length ≤ rerank) (h : Best found best)
    (hend : (layer.searchFrom min_ skip query best budget).2.exhausted = false) :
    Best (found ++ query.flatMap fun q => (layer.compared q min_ skip).filterMap (hit q min_))
      (layer.searchFrom min_ skip query best budget).1 := by
  induction query generalizing found best budget with
  | nil =>
      rw [List.flatMap_nil, List.append_nil]
      exact h
  | cons q query ih =>
      have hnow := (searchFrom_before (q :: query) best budget).exhausted hend
      rw [searchFrom, hnow, if_neg Bool.false_ne_true] at hend ⊢
      dsimp only at hend ⊢
      have hread := ((compareRows_before _ _ _ _ _).trans (searchFrom_before query _ _)).exhausted
        hend
      rw [Budget.exhausted_eq_false] at hread
      dsimp only at hread
      rw [List.length_take, min_eq_left (min_le_left _ _)] at hread
      -- what the budget has left is no bound
      have hall : min (layer.window q min_).length (budget.limit.rows - budget.work.rows) =
          (layer.window q min_).length := by omega
      rw [hall, List.take_length] at hend ⊢
      have hchosen : chosen q ((layer.window q min_).filter (unskipped skip)) =
          layer.compared q min_ skip :=
        if_neg (Nat.not_lt.mpr (hrerank q List.mem_cons_self))
      rw [hchosen] at hend ⊢
      rw [List.flatMap_cons, ← List.append_assoc]
      refine ih (fun q' hq' => hrerank q' (List.mem_cons_of_mem q hq')) ?_ hend
      exact best_compareRows h ((searchFrom_before query _ _).exhausted hend)

end Layer

end EchoMuse.Correction
