import EchoMuse.Histories.Log

/-!
# Reading a Window of a Log

What `Read`, `Copy` and `OldestValid` answer on a ring that shows a window of a log, read off
the records as a list.

## Main results

* `Refines.read`: the segments of a read are the range's own pieces, with the blocks' timing;
* `copies_iff`: exactly which copies answer as the log does;
* `Refines.oldest`: the oldest valid index.
-/

namespace EchoMuse.Histories

variable {T : Type} {r : Ring T} {l : Log T}

/-! ### The records as a list -/

theorem record?_eq (h : Recorded r l) {i : ℕ} (hi : i < r.recs.count) :
    r.record? i = r.recs.entries[i]? :=
  Circular.get_eq h.count hi

/-- A list from the first element that a test rejects on. -/
theorem dropWhile_eq_drop {α : Type} {p : α → Bool} {xs : List α} {k : ℕ} (hk : k ≤ xs.length)
    (hbelow : ∀ i < k, ∀ x, xs[i]? = some x → p x = true)
    (hat : ∀ x, xs[k]? = some x → p x = false) : xs.dropWhile p = xs.drop k := by
  induction xs generalizing k with
  | nil => simp
  | cons x xs ih =>
      cases k with
      | zero =>
          rw [List.dropWhile_cons_of_neg (by rw [hat x rfl]; exact Bool.false_ne_true)]
          rfl
      | succ k =>
          rw [List.dropWhile_cons_of_pos (hbelow 0 (Nat.succ_pos k) x rfl), List.drop_succ_cons]
          exact ih (Nat.le_of_succ_le_succ hk)
            (fun i hi y hy => hbelow (i + 1) (Nat.succ_lt_succ hi) y hy) fun y hy => hat y hy

/-- The records from the found one on are those that end after the index. -/
theorem drop_find (h : Recorded r l) (index : UInt64) :
    r.find index ≤ r.recs.count ∧ r.recs.entries.drop (r.find index) =
      r.recs.entries.dropWhile fun rec => rec.end.toNat ≤ index.toNat := by
  have hlength := Circular.length_entries h.count
  obtain ⟨a, -, hjoined⟩ := h.joined
  have hp : ∀ i rec, r.recs.entries[i]? = some rec →
      (r.record? i).any (·.end ≤ index) = decide (rec.end.toNat ≤ index.toNat) := by
    intro i rec hrec
    have hi := (List.getElem?_eq_some_iff.mp hrec).1
    rw [record?_eq h (by omega), hrec, Option.any_some]
    exact decide_eq_decide.mpr UInt64.le_iff_toNat_le
  have hmono : ∀ i j, 0 ≤ i → i ≤ j → j < r.recs.count →
      (r.record? j).any (·.end ≤ index) = true → (r.record? i).any (·.end ≤ index) = true := by
    intro i j _ hij hj hpj
    have hjlt : j < r.recs.entries.length := by omega
    have hilt : i < r.recs.entries.length := by omega
    rw [hp j _ (List.getElem?_eq_getElem hjlt), decide_eq_true_eq] at hpj
    rw [hp i _ (List.getElem?_eq_getElem hilt), decide_eq_true_eq]
    rcases Nat.lt_or_eq_of_le hij with hlt | rfl
    · have hbefore := List.pairwise_iff_getElem.mp hjoined.pairwise i j hilt hjlt hlt
      have hbounds := hjoined.bounds (List.getElem_mem hjlt)
      omega
    · exact hpj
  obtain ⟨-, hle, hbelow, habove⟩ := bisect_spec r.recs.count _ _ hmono (by omega)
    (Nat.zero_le _)
  refine ⟨hle, (dropWhile_eq_drop (by rw [hlength]; exact hle) (fun i hi rec hrec => ?_)
    fun rec hrec => ?_).symm⟩
  · rw [← hp i rec hrec]
    exact hbelow i (Nat.zero_le _) hi
  · have hlt := (List.getElem?_eq_some_iff.mp hrec).1
    rw [← hp _ rec hrec]
    exact habove _ le_rfl (by omega)

theorem segmentsFrom_eq (h : Recorded r l) («from» «to» : UInt64) {i : ℕ}
    (hi : i ≤ r.recs.count) (segs : List Segment) :
    r.segmentsFrom «from» «to» (r.recs.count - i) i segs =
      segs ++ ((r.recs.entries.drop i).takeWhile fun rec =>
        rec.first.toNat < «to».toNat).map (r.segment «from» «to») := by
  have hlength := Circular.length_entries h.count
  obtain ⟨fuel, hfuel⟩ : ∃ fuel, r.recs.count - i = fuel := ⟨_, rfl⟩
  rw [hfuel]
  induction fuel generalizing i segs with
  | zero =>
      rw [Ring.segmentsFrom, List.drop_eq_nil_of_le (by omega)]
      simp
  | succ fuel ih =>
      have hlt : i < r.recs.entries.length := by omega
      rw [Ring.segmentsFrom, record?_eq h (by omega), List.getElem?_eq_getElem hlt,
        List.drop_eq_getElem_cons hlt]
      dsimp only
      split_ifs with hstop
      · rw [UInt64.le_iff_toNat_le] at hstop
        rw [List.takeWhile_cons_of_neg (by simpa using hstop), List.map_nil, List.append_nil]
      · rw [UInt64.le_iff_toNat_le, not_le] at hstop
        rw [List.takeWhile_cons_of_pos (by simpa using hstop), ih (by omega) _ (by omega),
          List.append_assoc]
        rfl

theorem gapFrom_eq (h : Recorded r l) (last : UInt64) {i : ℕ} (hi : i ≤ r.recs.count) :
    r.gapFrom last (r.recs.count - i) i = ((r.recs.entries.drop i).takeWhile fun rec =>
      rec.first.toNat < last.toNat).any Record.gap := by
  have hlength := Circular.length_entries h.count
  obtain ⟨fuel, hfuel⟩ : ∃ fuel, r.recs.count - i = fuel := ⟨_, rfl⟩
  rw [hfuel]
  induction fuel generalizing i with
  | zero =>
      rw [Ring.gapFrom, List.drop_eq_nil_of_le (by omega)]
      rfl
  | succ fuel ih =>
      have hlt : i < r.recs.entries.length := by omega
      rw [Ring.gapFrom, record?_eq h (by omega), List.getElem?_eq_getElem hlt,
        List.drop_eq_getElem_cons hlt]
      dsimp only
      split_ifs with hstop
      · rw [UInt64.le_iff_toNat_le] at hstop
        rw [List.takeWhile_cons_of_neg (by simpa using hstop)]
        rfl
      · rw [UInt64.le_iff_toNat_le, not_le] at hstop
        rw [List.takeWhile_cons_of_pos (by simpa using hstop), ih (by omega) (by omega),
          List.any_cons]

/-- Whether a gap meets a range. -/
theorem gapFrom_find_iff (h : Recorded r l) (first last : UInt64) :
    r.gapFrom last (r.recs.count - r.find first) (r.find first) = true ↔
      ∃ rec ∈ r.recs.entries, rec.gap = true ∧ first < rec.end ∧ rec.first < last := by
  obtain ⟨hle, hdrop⟩ := drop_find h first
  obtain ⟨a, -, hjoined⟩ := h.joined
  rw [gapFrom_eq h last hle, hdrop, List.any_eq_true]
  refine exists_congr fun rec => ?_
  rw [hjoined.mem_clip_iff, UInt64.lt_iff_toNat_lt, UInt64.lt_iff_toNat_lt]
  exact ⟨fun ⟨⟨hmem, hend, hfirst⟩, hgap⟩ => ⟨hmem, hgap, hend, hfirst⟩,
    fun ⟨hmem, hgap, hend, hfirst⟩ => ⟨⟨hmem, hend, hfirst⟩, hgap⟩⟩

/-! ### Reads -/

/-- A segment shows what the log holds between its ends: a gap, or part of a block with the
timing of its first index. -/
structure Segment.Shows (s : Segment) (unitNs : Int64) (l : Log T) : Prop where
  gap : s.gap = true → s.timing = .zero ∧
    ∀ i, s.first.toNat ≤ i → i < s.end.toNat → l.at i = none
  block : s.gap = false → ∃ block timing, block ≤ s.first.toNat ∧
    s.timing = { timing with
      monoNs := timing.monoNs + Int64.ofNat (s.first.toNat - block) * unitNs } ∧
    ∀ i, s.first.toNat ≤ i → i < s.end.toNat → ∃ x, l.at i = some ⟨x, block, timing⟩

theorem toInt64_sub {a b : UInt64} (h : b ≤ a) :
    (a - b).toInt64 = Int64.ofNat (a.toNat - b.toNat) := by
  rw [← UInt64.toNat_sub_of_le _ _ h, ← UInt64.toInt64_ofNat', UInt64.ofNat_toNat]

/-- The piece of a record between two indices. -/
theorem Segment.shows_segment {rec : Record} (hrec : rec.Describes l) («from» «to» : UInt64) :
    (r.segment «from» «to» rec).Shows r.unitNs l := by
  have hfirst : rec.first.toNat ≤ (max rec.first «from»).toNat := by
    rw [toNat_max]
    exact le_max_left _ _
  have hin : ∀ i, (max rec.first «from»).toNat ≤ i → i < (min rec.end «to»).toNat →
      rec.first.toNat ≤ i ∧ i < rec.end.toNat := by
    intro i hlow hhigh
    rw [toNat_max] at hlow
    rw [toNat_min] at hhigh
    omega
  constructor
  · intro hgap
    refine ⟨if_pos hgap, fun i hlow hhigh => ?_⟩
    have hdescribed := hrec i (hin i hlow hhigh).1 (hin i hlow hhigh).2
    rw [show rec.gap = true from hgap, if_pos rfl] at hdescribed
    exact hdescribed
  · intro hgap
    change rec.gap = false at hgap
    refine ⟨rec.first.toNat, rec.timing, hfirst, ?_, fun i hlow hhigh => ?_⟩
    · rw [Ring.segment, hgap, if_neg Bool.false_ne_true, toInt64_sub (UInt64.le_iff_toNat_le.mpr
        hfirst)]
    · have hdescribed := hrec i (hin i hlow hhigh).1 (hin i hlow hhigh).2
      rw [hgap, if_neg Bool.false_ne_true] at hdescribed
      exact hdescribed

/-- The segments go from one index to another, each from where the one before it stops. -/
abbrev Tiles : ℕ → List Segment → ℕ → Prop := Abut (·.first.toNat) (·.end.toNat)

/-- **A read gives the pieces of the range that is retained**, in order and without a gap between
them. -/
theorem Refines.read (h : Refines r l) («from» «to» : UInt64) (dst : List Segment) :
    ∃ segs, r.read «from» «to» dst = (max «from» r.start, dst ++ segs) ∧
      (∀ s ∈ segs, s.Shows r.unitNs l) ∧
      ((max «from» r.start).toNat < (min «to» r.end).toNat →
        Tiles (max «from» r.start).toNat segs (min «to» r.end).toNat) ∧
      ((min «to» r.end).toNat ≤ (max «from» r.start).toNat → segs = []) := by
  rw [Ring.read]
  set lo := max «from» r.start with hlo
  set hi := min «to» r.end with hhi
  split_ifs with hempty
  · refine ⟨[], by rw [List.append_nil], fun _ hs => (List.not_mem_nil hs).elim, fun hlt => ?_,
      fun _ => rfl⟩
    exact absurd (UInt64.le_iff_toNat_le.mp hempty) (not_le.mpr hlt)
  · rw [UInt64.le_iff_toNat_le, not_le] at hempty
    obtain ⟨hle, hdrop⟩ := drop_find h.toRecorded lo
    obtain ⟨a, ha, hjoined⟩ := h.joined
    have hstart : r.start.toNat ≤ lo.toNat := by
      rw [hlo, toNat_max]
      exact le_max_right _ _
    have hstop : hi.toNat ≤ l.end := by
      rw [hhi, toNat_min, ← h.ends]
      exact min_le_right _ _
    rw [segmentsFrom_eq h.toRecorded lo hi hle, hdrop]
    refine ⟨_, rfl, ?_, fun _ => ?_, fun hle => absurd hle (not_le.mpr hempty)⟩
    · rw [List.forall_mem_map]
      exact fun rec hrec =>
        Segment.shows_segment (h.describes rec ((hjoined.mem_clip_iff).mp hrec).1) lo hi
    · exact hjoined.clip (fun rec _ => toNat_max _ _) (fun rec _ => toNat_min _ _) (by omega) hempty
        hstop

/-! ### The oldest sample -/

theorem oldestFrom_eq (h : Recorded r l) {i : ℕ} (hi : i ≤ r.recs.count) :
    r.oldestFrom (r.recs.count - i) i =
      ((r.recs.entries.drop i).find? fun rec => !rec.gap).map fun rec =>
        max rec.first r.start := by
  have hlength := Circular.length_entries h.count
  obtain ⟨fuel, hfuel⟩ : ∃ fuel, r.recs.count - i = fuel := ⟨_, rfl⟩
  rw [hfuel]
  induction fuel generalizing i with
  | zero =>
      rw [Ring.oldestFrom, List.drop_eq_nil_of_le (by omega)]
      rfl
  | succ fuel ih =>
      have hlt : i < r.recs.entries.length := by omega
      rw [Ring.oldestFrom, record?_eq h (by omega), List.getElem?_eq_getElem hlt,
        List.drop_eq_getElem_cons hlt]
      dsimp only
      split_ifs with hgap
      · rw [List.find?_cons_of_neg (by simpa using hgap), ih (by omega) (by omega)]
      · rw [List.find?_cons_of_pos (by simpa using hgap), Option.map_some]

/-- The oldest valid index is the least retained index that holds a sample. -/
def Oldest (r : Ring T) (l : Log T) : Prop :=
  match r.oldestValid with
  | some i => r.start ≤ i ∧ i.toNat < l.end ∧ (l.at i.toNat).isSome = true ∧
      ∀ j, r.start.toNat ≤ j → j < i.toNat → l.at j = none
  | none => ∀ j, r.start.toNat ≤ j → j < l.end → l.at j = none

theorem Refines.oldest (h : Refines r l) : Oldest r l := by
  obtain ⟨a, ha, hjoined⟩ := h.joined
  have holdest := oldestFrom_eq h.toRecorded (Nat.zero_le _)
  rw [Nat.sub_zero, List.drop_zero] at holdest
  rw [Oldest, Ring.oldestValid, holdest]
  cases hfind : r.recs.entries.find? fun rec => !rec.gap with
  | none =>
      rw [List.find?_eq_none] at hfind
      intro j hlow hhigh
      obtain ⟨rec, hrec, hfirst, hend⟩ := hjoined.exists_mem (ha.trans hlow) hhigh
      have hdescribed := h.describes rec hrec j hfirst hend
      rw [if_pos (by simpa using hfind rec hrec)] at hdescribed
      exact hdescribed
  | some rec =>
      obtain ⟨hgap, front, back, hsplit, hgaps⟩ := List.find?_eq_some_iff_append.mp hfind
      have hmem : rec ∈ r.recs.entries := List.mem_of_find?_eq_some hfind
      have hlive := UInt64.lt_iff_toNat_lt.mp (h.live rec hmem)
      have hbounds := hjoined.bounds hmem
      rw [Bool.not_eq_true'] at hgap
      dsimp only [Option.map_some]
      have hmax := toNat_max rec.first r.start
      refine ⟨?_, by omega, ?_, fun j hlow hhigh => ?_⟩
      · rw [UInt64.le_iff_toNat_le, hmax]
        exact le_max_right _ _
      · have hdescribed := h.describes rec hmem (max rec.first r.start).toNat (by omega)
          (by omega)
        rw [hgap, if_neg Bool.false_ne_true] at hdescribed
        obtain ⟨x, hx⟩ := hdescribed
        rw [hx]
        rfl
      · -- what lies before the block is in the gaps before it
        rw [hsplit] at hjoined
        obtain ⟨c, hfront, hrest, -, -⟩ := Abut.append_iff.mp hjoined
        have hc : rec.first.toNat = c := hrest
        obtain ⟨old, hold, hfirst, hend⟩ := hfront.exists_mem (ha.trans hlow) (by omega)
        have hdescribed := h.describes old (by
          rw [hsplit]
          exact List.mem_append_left _ hold) j hfirst hend
        rw [if_pos (by simpa using hgaps old hold)] at hdescribed
        exact hdescribed

/-! ### Copies -/

/-- The indices are retained and hold samples. -/
def Valid (r : Ring T) (l : Log T) (first n : ℕ) : Prop :=
  ∀ i, first ≤ i → i < first + n → r.start.toNat ≤ i ∧ i < l.end ∧ (l.at i).isSome = true

/-- A copy succeeds exactly when every index of its range is retained and valid, and then gives
the samples of the log. -/
structure Copies (r : Ring T) (l : Log T) (dst : List T) (first : UInt64) : Prop where
  valid : Valid r l first.toNat dst.length → ∃ out, r.copy dst first = some (.ok out) ∧
    out.map some =
      (List.range dst.length).map fun j => (l.at (first.toNat + j)).map Held.sample
  invalid : ¬ Valid r l first.toNat dst.length → r.copy dst first = some (.error .notRetained)

/-- The range ends below `2 ^ 64`, or its wrapped end is refused; a range without an index lies
in a ring with slots, between its ends and not inside a gap. -/
def CopyFits (r : Ring T) (dst : List T) (first : UInt64) : Prop :=
  if dst = [] then
    r.capacity ≠ 0 ∧ r.start ≤ first ∧ first ≤ r.end ∧
      ∀ rec ∈ r.recs.entries, rec.gap = true → ¬ (rec.first < first ∧ first < rec.end)
  else
    first.toNat + dst.length < 2 ^ 64 ∨ first < r.start ∨
      r.end < first + UInt64.ofNat dst.length ∨
      ∃ rec ∈ r.recs.entries, rec.gap = true ∧ first < rec.end ∧
        rec.first < first + UInt64.ofNat dst.length

/-- What a copy refuses. -/
def Refuses (r : Ring T) (dst : List T) (first : UInt64) : Prop :=
  (first < r.start ∨ r.end < first + UInt64.ofNat dst.length) ∨
    ∃ rec ∈ r.recs.entries, rec.gap = true ∧ first < rec.end ∧
      rec.first < first + UInt64.ofNat dst.length

theorem copy_of_refuses (h : Recorded r l) {dst : List T} {first : UInt64}
    (href : Refuses r dst first) : r.copy dst first = some (.error .notRetained) := by
  rw [Ring.copy]
  split_ifs with hbounds hgap
  · rfl
  · rfl
  all_goals
    rw [gapFrom_find_iff h] at hgap
    rcases href with hbounds' | hgap'
    · exact absurd hbounds' hbounds
    · exact absurd hgap' hgap

theorem copy_of_not_refuses (h : Recorded r l) {dst : List T} {first : UInt64}
    (href : ¬ Refuses r dst first) :
    r.copy dst first =
      if r.capacity = 0 then none else some (.ok (ringRead r.data first.toNat dst)) := by
  rw [Refuses, not_or] at href
  rw [Ring.copy]
  rw [if_neg href.1, if_neg (by rw [gapFrom_find_iff h]; exact href.2)]

/-- Below `2 ^ 64`, a range with an index is refused exactly when one of its indices is not
retained or not valid. -/
theorem Refines.refuses_iff (h : Refines r l) {dst : List T} {first : UInt64} (hne : dst ≠ [])
    (hfits : first.toNat + dst.length < 2 ^ 64) :
    Refuses r dst first ↔ ¬ Valid r l first.toNat dst.length := by
  have hpos : 0 < dst.length := List.length_pos_iff.mpr hne
  have hends := h.ends
  have hlast : (first + UInt64.ofNat dst.length).toNat = first.toNat + dst.length := by
    have hlen : (UInt64.ofNat dst.length).toNat = dst.length :=
      UInt64.toNat_ofNat_of_lt' (show dst.length < 2 ^ 64 by omega)
    rw [UInt64.toNat_add, hlen, Nat.mod_eq_of_lt hfits]
  obtain ⟨a, ha, hjoined⟩ := h.joined
  simp only [Refuses, UInt64.lt_iff_toNat_lt, hlast]
  constructor
  · rintro ((hlow | hhigh) | ⟨rec, hrec, hgap, hend, hfirst⟩) hvalid
    · have hbounds := hvalid first.toNat le_rfl (by omega)
      omega
    · have hbounds := hvalid (first.toNat + dst.length - 1) (by omega) (by omega)
      omega
    · -- the gap and the range meet in an index
      have hbounds := hjoined.bounds hrec
      have hmeet := hvalid (max rec.first.toNat first.toNat) (le_max_right _ _) (by omega)
      have hdescribed := h.describes rec hrec (max rec.first.toNat first.toNat)
        (le_max_left _ _) (by omega)
      rw [if_pos hgap] at hdescribed
      rw [hdescribed] at hmeet
      exact absurd hmeet.2.2 Bool.false_ne_true
  · intro hinvalid
    by_contra hnone
    rw [not_or, not_or, not_lt, not_lt] at hnone
    obtain ⟨⟨hlow, hhigh⟩, hnogap⟩ := hnone
    refine hinvalid fun i hi hi' => ⟨by omega, by omega, ?_⟩
    obtain ⟨rec, hrec, hfirst, hend⟩ := hjoined.exists_mem (i := i) (by omega) (by omega)
    have hdescribed := h.describes rec hrec i hfirst hend
    have hgap : ¬ rec.gap = true := fun hgap =>
      hnogap ⟨rec, hrec, hgap, by omega, by omega⟩
    rw [if_neg hgap] at hdescribed
    obtain ⟨x, hx⟩ := hdescribed
    rw [hx]
    rfl

/-- The samples a copy gives are the log's. -/
theorem Refines.samples (h : Refines r l) {dst : List T} {first : UInt64}
    (hvalid : Valid r l first.toNat dst.length) :
    (ringRead r.data first.toNat dst).map some =
      (List.range dst.length).map fun j => (l.at (first.toNat + j)).map Held.sample := by
  refine List.ext_getElem? fun j => ?_
  rw [List.getElem?_map, List.getElem?_map]
  by_cases hj : j < dst.length
  · have hwindow := h.window
    have hlast := hvalid (first.toNat + (dst.length - 1)) (by omega) (by omega)
    have hfirst := hvalid first.toNat le_rfl (by omega)
    obtain ⟨hlow, hhigh, hsome⟩ := hvalid (first.toNat + j) (by omega) (by omega)
    obtain ⟨held, hheld⟩ := Option.isSome_iff_exists.mp hsome
    have hdst : dst.length ≤ r.data.length := by
      change l.end ≤ r.start.toNat + r.data.length at hwindow
      omega
    have hdata := h.data (first.toNat + j) held hlow (by omega) hhigh hheld
    rw [getElem?_ringRead hdst hj, List.getElem?_range hj, Option.map_some, hheld, Option.map_some]
    exact congrArg (Option.map some) hdata
  · rw [List.getElem?_eq_none (by rw [length_ringRead]; exact not_lt.mp hj),
      List.getElem?_eq_none (by rw [List.length_range]; exact not_lt.mp hj)]
    rfl

/-- **A copy answers as the log does exactly when its range fits.** -/
theorem Refines.copies_iff (h : Refines r l) (dst : List T) (first : UInt64) :
    Copies r l dst first ↔ CopyFits r dst first := by
  have hends := h.ends
  have hwindow := h.window
  rw [CopyFits]
  split_ifs with hnil
  · subst hnil
    have hvalid : Valid r l first.toNat ([] : List T).length := fun i hi hi' => by
      rw [List.length_nil] at hi'
      omega
    have hrefuses : Refuses r ([] : List T) first ↔ ¬ (r.start ≤ first ∧ first ≤ r.end ∧
        ∀ rec ∈ r.recs.entries, rec.gap = true → ¬ (rec.first < first ∧ first < rec.end)) := by
      have hlast : first + UInt64.ofNat ([] : List T).length = first := UInt64.add_zero first
      rw [Refuses, hlast]
      constructor
      · rintro ((hlow | hhigh) | ⟨rec, hrec, hgap, hend, hfirst⟩) ⟨hlow', hhigh', hnogap⟩
        · exact absurd hlow' (UInt64.not_le.mpr hlow)
        · exact absurd hhigh' (UInt64.not_le.mpr hhigh)
        · exact hnogap rec hrec hgap ⟨hfirst, hend⟩
      · intro hnot
        by_contra hnone
        rw [not_or, not_or, UInt64.not_lt, UInt64.not_lt] at hnone
        obtain ⟨⟨hlow, hhigh⟩, hnogap⟩ := hnone
        exact hnot ⟨hlow, hhigh, fun rec hrec hgap hin => hnogap ⟨rec, hrec, hgap, hin.2, hin.1⟩⟩
    constructor
    · intro hcopies
      obtain ⟨out, hcopy, -⟩ := hcopies.valid hvalid
      by_cases href : Refuses r ([] : List T) first
      · rw [copy_of_refuses h.toRecorded href] at hcopy
        cases hcopy
      · rw [copy_of_not_refuses h.toRecorded href] at hcopy
        split_ifs at hcopy with hzero
        exact ⟨hzero, by_contra fun hnot => href (hrefuses.mpr hnot)⟩
    · rintro ⟨hzero, hfits⟩
      have href : ¬ Refuses r ([] : List T) first := fun href => hrefuses.mp href hfits
      refine ⟨fun hvalid => ⟨_, ?_, h.samples hvalid⟩, fun hnot => absurd hvalid hnot⟩
      rw [copy_of_not_refuses h.toRecorded href, if_neg hzero]
  · have hpos : 0 < dst.length := List.length_pos_iff.mpr hnil
    by_cases hfits : first.toNat + dst.length < 2 ^ 64
    · refine ⟨fun _ => Or.inl hfits, fun _ => ⟨fun hvalid => ?_, fun hinvalid => ?_⟩⟩
      · have href : ¬ Refuses r dst first := fun href =>
          (h.refuses_iff hnil hfits).mp href hvalid
        have hzero : r.capacity ≠ 0 := by
          have hbounds := hvalid first.toNat le_rfl (by omega)
          omega
        refine ⟨_, ?_, h.samples hvalid⟩
        rw [copy_of_not_refuses h.toRecorded href, if_neg hzero]
      · exact copy_of_refuses h.toRecorded ((h.refuses_iff hnil hfits).mpr hinvalid)
    · -- a range that reaches `2 ^ 64` holds an index that is not retained
      have hinvalid : ¬ Valid r l first.toNat dst.length := by
        intro hvalid
        have hlast := hvalid (first.toNat + dst.length - 1) (by omega) (by omega)
        have hlt := r.end.toNat_lt
        omega
      constructor
      · intro hcopies
        have hcopy := hcopies.invalid hinvalid
        by_cases href : Refuses r dst first
        · exact Or.inr (or_assoc.mp href)
        · rw [copy_of_not_refuses h.toRecorded href] at hcopy
          split_ifs at hcopy
          cases hcopy
      · rintro (hlt | href)
        · exact absurd hlt hfits
        · exact ⟨fun hvalid => absurd hvalid hinvalid, fun _ =>
            copy_of_refuses h.toRecorded (or_assoc.mpr href)⟩

end EchoMuse.Histories
