import EchoMuse.Wake.Core

/-!
# The Smoothing History

The detector keeps the last three scores and, in a buffer of thirteen, the hop slots since the
oldest of them. `recent` is every slot since the history was last cleared. The scores cut its end
into segments, each a scored slot and the at most five unscored ones after it; the buffer drops
slots only between two scores, and only slots that the next score drops anyway.

## Main results

* `Held.unscored`: an unscored slot joins the last segment;
* `Held.scored`: a scored slot starts a segment, and right after it the buffer holds every slot from
  the oldest score on.
-/

namespace EchoMuse.Wake

/-! ### The slots of a trace -/

/-- The slots since the history was last cleared, with one more entry of the trace. -/
def recentStep (slots : List HopRecord) : Note → List HopRecord
  | .slot r => slots ++ [r]
  | .cleared => []
  | _ => slots

/-- The hop slots since the history was last cleared. -/
def recent (trace : List Note) : List HopRecord := trace.foldl recentStep []

theorem recent_concat (trace : List Note) (n : Note) :
    recent (trace ++ [n]) = recentStep (recent trace) n := List.foldl_append

/-! ### Segments -/

/-- A scored slot and the unscored ones after it. -/
abbrev Segment := HopRecord × List HopRecord

/-- The slots of some segments. -/
def flat (segs : List Segment) : List HopRecord := segs.flatMap fun s => s.1 :: s.2

/-- The score of a slot. -/
def HopRecord.entry (r : HopRecord) : ScoreEntry := { end_ := r.end_, raw := r.raw }

@[simp] theorem flat_nil : flat [] = [] := rfl

@[simp] theorem flat_cons (s : Segment) (segs : List Segment) :
    flat (s :: segs) = s.1 :: (s.2 ++ flat segs) := rfl

theorem flat_append (segs segs' : List Segment) : flat (segs ++ segs') = flat segs ++ flat segs' :=
  List.flatMap_append

/-- A history whose scores cut the end of the slots into segments. -/
structure Held (scores : List ScoreEntry) (records : List HopRecord) (unscored : ℕ)
    (slots : List HopRecord) (before : List HopRecord) (segs : List Segment) : Prop where
  slots_eq : slots = before ++ flat segs
  scores_eq : scores = segs.map fun s => s.1.entry
  length_le : segs.length ≤ smoothingWindows
  before_nil : segs.length < smoothingWindows → before = []
  first : ∀ s ∈ segs, s.1.scored = true
  rest : ∀ s ∈ segs, s.2.length < clearAfterUnscored ∧ ∀ u ∈ s.2, u.scored = false
  /-- The buffer holds the end of the segments. -/
  records_eq : records = (flat segs).drop ((flat segs).length - maxRecords)
  trailing : ∀ pre s, segs = pre ++ [s] → s.2.length = unscored

/-- A cleared history. -/
theorem Held.nil : Held [] [] 0 [] [] [] where
  slots_eq := rfl
  scores_eq := rfl
  length_le := Nat.zero_le _
  before_nil := fun _ => rfl
  first := fun _ h => absurd h List.not_mem_nil
  rest := fun _ h => absurd h List.not_mem_nil
  records_eq := rfl
  trailing := fun pre s h => absurd h.symm (List.append_ne_nil_of_right_ne_nil pre (List.cons_ne_nil s []))

/-- The slots of `n` segments are at most six each. -/
theorem length_flat_le {segs : List Segment} (h : ∀ s ∈ segs, s.2.length < clearAfterUnscored) :
    (flat segs).length ≤ segs.length * clearAfterUnscored := by
  induction segs with
  | nil => exact Nat.le_refl 0
  | cons s segs ih =>
      have hs := h s List.mem_cons_self
      have hrest := ih fun t ht => h t (List.mem_cons_of_mem s ht)
      rw [flat_cons, List.length_cons, List.length_append, List.length_cons, Nat.add_mul]
      omega

/-- A buffer of the last `maxRecords` slots takes one more. -/
theorem drop_concat (slots : List HopRecord) (r : HopRecord) :
    (if (slots.drop (slots.length - maxRecords)).length = maxRecords then
        (slots.drop (slots.length - maxRecords)).tail
      else slots.drop (slots.length - maxRecords)) ++ [r] =
      (slots ++ [r]).drop ((slots ++ [r]).length - maxRecords) := by
  have hmax : maxRecords = 13 := rfl
  rw [List.length_drop, List.length_append, List.length_singleton]
  by_cases hlt : slots.length < maxRecords
  · have hzero : slots.length - maxRecords = 0 := by omega
    have hone : slots.length + 1 - maxRecords = 0 := by omega
    rw [if_neg (by omega), hzero, hone, List.drop_zero, List.drop_zero]
  · rw [if_pos (by omega), List.tail_drop, List.drop_append_of_le_length (by omega)]
    congr 2
    omega

/-- Nothing is dropped from a list none of whose entries should be. -/
theorem dropWhile_eq_self {α : Type} {p : α → Bool} {l : List α} (h : ∀ a ∈ l, p a = false) :
    l.dropWhile p = l := by
  cases l with
  | nil => rfl
  | cons a l => rw [List.dropWhile_cons, h a List.mem_cons_self, if_neg Bool.false_ne_true]

/-- In slots with increasing ends, none from the oldest score on ends before it. -/
theorem not_before_oldest {s : Segment} {segs : List Segment} {l : List HopRecord}
    (hsorted : (flat (s :: segs)).Pairwise fun a b => a.end_ < b.end_)
    (hl : ∀ r ∈ l, r ∈ flat (s :: segs)) :
    l.dropWhile (fun old => decide (old.end_ < s.1.entry.end_)) = l := by
  refine dropWhile_eq_self fun r hr => decide_eq_false ?_
  have hmem := hl r hr
  rw [flat_cons] at hsorted hmem
  change ¬ r.end_ < s.1.end_
  rcases List.mem_cons.mp hmem with rfl | hmem
  · exact Nat.lt_irrefl _
  · have := List.rel_of_pairwise_cons hsorted hmem
    omega

/-! ### One more slot -/

/-- The slots with one more appended to the buffer, as `appendRecord` does it. -/
def appended (scores : List ScoreEntry) (records : List HopRecord) (r : HopRecord) :
    List HopRecord :=
  let records := match scores with
    | [] => records
    | oldest :: _ => records.dropWhile fun old => old.end_ < oldest.end_
  (if records.length = maxRecords then records.tail else records) ++ [r]

theorem Core.appendRecord_records (c : Core) (r : HopRecord) :
    (c.appendRecord r).records = appended c.scores c.records r := rfl

section

variable {scores : List ScoreEntry} {records : List HopRecord} {n : ℕ} {slots before : List HopRecord}
  {segs : List Segment}

/-- An unscored slot joins the last segment. -/
theorem Held.unscored (h : Held scores records n slots before segs) (hne : scores ≠ [])
    (hn : n + 1 < clearAfterUnscored) (hsorted : slots.Pairwise fun a b => a.end_ < b.end_)
    {r : HopRecord} (hr : r.scored = false) :
    ∃ segs', Held scores (appended scores records r) (n + 1) (slots ++ [r]) before segs' := by
  have hsegs : segs ≠ [] := by
    rintro rfl
    exact hne h.scores_eq
  obtain ⟨pre, s, rfl⟩ := (List.eq_nil_or_concat segs).resolve_left hsegs
  rw [List.concat_eq_append] at h hsegs
  obtain ⟨oldest, tail, hcons⟩ := List.exists_cons_of_ne_nil hsegs
  have hflat : (flat (oldest :: tail)).Pairwise fun a b => a.end_ < b.end_ := by
    have hs := hsorted
    rw [h.slots_eq, hcons] at hs
    exact (List.pairwise_append.mp hs).2.1
  have hlen := h.trailing pre s rfl
  have hnew : flat (pre ++ [(s.1, s.2 ++ [r])]) = flat (pre ++ [s]) ++ [r] := by
    rw [flat_append, flat_append, List.append_assoc]
    simp only [flat_cons, flat_nil, List.append_nil, List.cons_append]
  refine ⟨pre ++ [(s.1, s.2 ++ [r])], ?_, ?_, ?_, ?_, ?_, ?_, ?_, ?_⟩
  · rw [hnew, h.slots_eq, List.append_assoc]
  · rw [h.scores_eq, List.map_append, List.map_append]
    rfl
  · have := h.length_le
    rw [List.length_append, List.length_singleton] at this ⊢
    exact this
  · intro hlt
    rw [List.length_append, List.length_singleton] at hlt
    refine h.before_nil ?_
    rw [List.length_append, List.length_singleton]
    exact hlt
  · intro s' hs'
    rcases List.mem_append.mp hs' with hs' | hs'
    · exact h.first s' (List.mem_append_left _ hs')
    · obtain rfl := List.mem_singleton.mp hs'
      exact h.first s (List.mem_append_right _ (List.mem_singleton_self s))
  · intro s' hs'
    rcases List.mem_append.mp hs' with hs' | hs'
    · exact h.rest s' (List.mem_append_left _ hs')
    · obtain rfl := List.mem_singleton.mp hs'
      constructor
      · dsimp only
        rw [List.length_append, List.length_singleton, hlen]
        exact hn
      · intro u hu
        rcases List.mem_append.mp hu with hu | hu
        · exact (h.rest s (List.mem_append_right _ (List.mem_singleton_self s))).2 u hu
        · rw [List.mem_singleton.mp hu]
          exact hr
  · have hkeep : records.dropWhile (fun old => decide (old.end_ < oldest.1.entry.end_)) = records :=
      not_before_oldest hflat fun u hu => by
        rw [h.records_eq, hcons] at hu
        exact List.mem_of_mem_drop hu
    have hscores : scores = oldest.1.entry :: tail.map fun s => s.1.entry := by
      rw [h.scores_eq, hcons]
      rfl
    unfold appended
    rw [hscores, hnew]
    dsimp only
    rw [hkeep, h.records_eq]
    exact drop_concat _ r
  · intro pre' s' heq
    obtain ⟨-, hs'⟩ := List.append_inj' heq rfl
    cases hs'
    rw [List.length_append, List.length_singleton, hlen]

/-- A scored slot starts a segment after the at most two that stay, whose slots are all in the
buffer. -/
theorem Held.start {r : HopRecord} (hr : r.scored = true) (hslots : slots = before ++ flat segs)
    (hlen : segs.length < smoothingWindows)
    (hbefore : segs.length + 1 < smoothingWindows → before = [])
    (hfirst : ∀ s ∈ segs, s.1.scored = true)
    (hrest : ∀ s ∈ segs, s.2.length < clearAfterUnscored ∧ ∀ u ∈ s.2, u.scored = false)
    (hdrop : ∀ oldest tail, (segs.map fun s => s.1.entry) ++ [r.entry] = oldest :: tail →
      records.dropWhile (fun old => decide (old.end_ < oldest.end_)) = flat segs) :
    Held ((segs.map fun s => s.1.entry) ++ [r.entry])
      (appended ((segs.map fun s => s.1.entry) ++ [r.entry]) records r) 0 (slots ++ [r]) before
      (segs ++ [(r, [])]) ∧
    appended ((segs.map fun s => s.1.entry) ++ [r.entry]) records r = flat (segs ++ [(r, [])]) := by
  have hthree : smoothingWindows = 3 := rfl
  have hsix : clearAfterUnscored = 6 := rfl
  have hmax : maxRecords = 13 := rfl
  have hflat := length_flat_le fun s hs => (hrest s hs).1
  have hnew : flat (segs ++ [(r, [])]) = flat segs ++ [r] := by
    rw [flat_append]
    rfl
  have hrecords : appended ((segs.map fun s => s.1.entry) ++ [r.entry]) records r =
      flat (segs ++ [(r, [])]) := by
    cases hm : (segs.map fun s => s.1.entry) ++ [r.entry] with
    | nil => exact absurd hm (List.append_ne_nil_of_right_ne_nil _ (List.cons_ne_nil _ _))
    | cons oldest tail =>
        unfold appended
        dsimp only
        rw [hdrop oldest tail hm, if_neg, hnew]
        have : segs.length * clearAfterUnscored ≤ 2 * clearAfterUnscored :=
          Nat.mul_le_mul_right _ (by omega)
        omega
  refine ⟨⟨?_, ?_, ?_, ?_, ?_, ?_, ?_, ?_⟩, hrecords⟩
  · rw [hnew, hslots, List.append_assoc]
  · rw [List.map_append]
    rfl
  · rw [List.length_append, List.length_singleton]
    omega
  · intro hlt
    rw [List.length_append, List.length_singleton] at hlt
    exact hbefore hlt
  · intro s hs
    rcases List.mem_append.mp hs with hs | hs
    · exact hfirst s hs
    · rw [List.mem_singleton.mp hs]
      exact hr
  · intro s hs
    rcases List.mem_append.mp hs with hs | hs
    · exact hrest s hs
    · rw [List.mem_singleton.mp hs]
      exact ⟨Nat.zero_lt_succ 5, fun u hu => absurd hu List.not_mem_nil⟩
  · have hzero : (flat (segs ++ [(r, [])])).length - maxRecords = 0 := by
      have : segs.length * clearAfterUnscored ≤ 2 * clearAfterUnscored :=
        Nat.mul_le_mul_right _ (by omega)
      rw [hnew, List.length_append, List.length_singleton]
      omega
    rw [hrecords, hzero, List.drop_zero]
  · intro pre s heq
    obtain ⟨-, hs⟩ := List.append_inj' heq rfl
    cases hs
    rfl

/-- A scored slot starts a segment; of three the oldest goes. Right after it the buffer holds
every slot from the oldest score on. -/
theorem Held.scored (h : Held scores records n slots before segs)
    (hsorted : slots.Pairwise fun a b => a.end_ < b.end_) {r : HopRecord} (hr : r.scored = true) :
    ∃ before' segs', Held (Core.push scores r.entry)
      (appended (Core.push scores r.entry) records r) 0 (slots ++ [r]) before'
      (segs' ++ [(r, [])]) ∧
      appended (Core.push scores r.entry) records r = flat (segs' ++ [(r, [])]) := by
  have hthree : smoothingWindows = 3 := rfl
  have hsix : clearAfterUnscored = 6 := rfl
  have hmax : maxRecords = 13 := rfl
  have hflatsorted : (flat segs).Pairwise fun a b => a.end_ < b.end_ := by
    have hs := hsorted
    rw [h.slots_eq] at hs
    exact (List.pairwise_append.mp hs).2.1
  have hscores : scores.length = segs.length := by
    rw [h.scores_eq, List.length_map]
  unfold Core.push
  by_cases hfull : scores.length = smoothingWindows
  · rw [if_pos hfull]
    obtain ⟨s, rest, rfl⟩ := List.exists_cons_of_length_pos (l := segs) (by omega)
    rw [List.length_cons] at hscores
    have hrestlen := length_flat_le fun t ht => (h.rest t (List.mem_cons_of_mem s ht)).1
    have htail : scores.tail = rest.map fun t => t.1.entry := by
      rw [h.scores_eq]
      rfl
    rw [htail]
    have hmul : rest.length * clearAfterUnscored = 2 * clearAfterUnscored := by
      congr 1
      omega
    -- What the buffer has dropped so far belongs to the segment that goes.
    have hbuffer : ∃ j, records = (s.1 :: s.2).drop j ++ flat rest := by
      refine ⟨(flat (s :: rest)).length - maxRecords, ?_⟩
      have hj : (flat (s :: rest)).length - maxRecords ≤ (s.1 :: s.2).length := by
        rw [flat_cons, List.length_cons, List.length_append, List.length_cons]
        omega
      rw [← List.drop_append_of_le_length hj, h.records_eq]
      rfl
    refine ⟨before ++ (s.1 :: s.2), rest, Held.start hr ?_ (by omega) (fun hlt => ?_)
      (fun t ht => h.first t (List.mem_cons_of_mem s ht))
      (fun t ht => h.rest t (List.mem_cons_of_mem s ht)) ?_⟩
    · rw [h.slots_eq, flat_cons, List.append_assoc, List.cons_append]
    · omega
    · intro oldest tail heq
      obtain ⟨t, more, rfl⟩ := List.exists_cons_of_length_pos (l := rest) (by omega)
      obtain ⟨rfl, -⟩ := List.cons.inj heq
      obtain ⟨j, hj⟩ := hbuffer
      rw [flat_cons, ← List.cons_append] at hflatsorted
      obtain ⟨-, hrestsorted, hacross⟩ := List.pairwise_append.mp hflatsorted
      rw [hj, List.dropWhile_append_of_pos]
      · exact not_before_oldest hrestsorted fun u hu => hu
      · intro u hu
        exact decide_eq_true (hacross u (List.mem_of_mem_drop hu) t.1 List.mem_cons_self)
  · rw [if_neg hfull, h.scores_eq]
    have hlt : segs.length < smoothingWindows := lt_of_le_of_ne h.length_le fun heq =>
      hfull (hscores.trans heq)
    have hsmall := length_flat_le fun t ht => (h.rest t ht).1
    have hmul : segs.length * clearAfterUnscored ≤ 2 * clearAfterUnscored :=
      Nat.mul_le_mul_right _ (by omega)
    have hall : records = flat segs := by
      have hzero : (flat segs).length - maxRecords = 0 := by omega
      rw [h.records_eq, hzero, List.drop_zero]
    refine ⟨before, segs, Held.start hr h.slots_eq hlt (fun _ => h.before_nil hlt) h.first h.rest ?_⟩
    intro oldest tail heq
    rw [hall]
    cases segs with
    | nil => rfl
    | cons s rest =>
        obtain ⟨rfl, -⟩ := List.cons.inj heq
        exact not_before_oldest hflatsorted fun u hu => hu

end

/-! ### The mean -/

/-- The scored slots of the mean: the last three. -/
def meanSlots (slots : List HopRecord) : List HopRecord :=
  let scored := slots.filter (·.scored)
  scored.drop (scored.length - smoothingWindows)

theorem filter_flat {segs : List Segment} (hfirst : ∀ s ∈ segs, s.1.scored = true)
    (hrest : ∀ s ∈ segs, ∀ u ∈ s.2, u.scored = false) :
    (flat segs).filter (·.scored) = segs.map (·.1) := by
  induction segs with
  | nil => rfl
  | cons s segs ih =>
      have hs := hfirst s List.mem_cons_self
      have hus : s.2.filter (·.scored) = [] :=
        List.filter_eq_nil_iff.mpr fun u hu => by
          rw [hrest s List.mem_cons_self u hu]
          exact Bool.false_ne_true
      rw [flat_cons, List.filter_cons_of_pos hs, List.filter_append, hus, List.nil_append,
        ih (fun t ht => hfirst t (List.mem_cons_of_mem s ht))
          fun t ht => hrest t (List.mem_cons_of_mem s ht), List.map_cons]

/-- The scores are those of the mean's slots. -/
theorem Held.meanSlots_eq {scores : List ScoreEntry} {records : List HopRecord} {n : ℕ}
    {slots before : List HopRecord} {segs : List Segment}
    (h : Held scores records n slots before segs) : meanSlots slots = segs.map (·.1) := by
  unfold meanSlots
  rw [h.slots_eq, List.filter_append, filter_flat h.first fun s hs => (h.rest s hs).2]
  dsimp only
  rw [List.length_append, List.length_map]
  by_cases hlt : segs.length < smoothingWindows
  · have hzero : ([].filter (fun r : HopRecord => r.scored)).length + segs.length
        - smoothingWindows = 0 := by
      change 0 + segs.length - smoothingWindows = 0
      omega
    rw [h.before_nil hlt, hzero]
    rfl
  · have heq : segs.length = smoothingWindows := le_antisymm h.length_le (not_lt.mp hlt)
    rw [heq, Nat.add_sub_cancel, List.drop_left]

end EchoMuse.Wake
