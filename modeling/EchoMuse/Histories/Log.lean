import EchoMuse.Abutting
import EchoMuse.Histories.Ring

/-!
# A Log of Indices

What a history is for: every index from the epoch's first one holds a sample, with the block it
came in, or a gap. A ring shows a window at the end of the log. `Refines` states that a ring's
records and samples are those of the log's window, and every call keeps it.

## Main results

* `Refines.trim`, `Refines.push`: the records after one more;
* `Refines.apply`: every call that fits keeps a ring a window of its log;
* `start_le_apply`: only a reset moves the start back.
-/

namespace EchoMuse.Histories

variable {T : Type}

/-- A sample, with the first index and the timing of its block. -/
structure Held (T : Type) where
  sample : T
  block : ℕ
  timing : Meta

/-- Every index below the end holds a sample or a gap. -/
structure Log (T : Type) where
  «end» : ℕ
  «at» : ℕ → Option (Held T)

namespace Log

def reset (first : ℕ) : Log T := ⟨first, fun _ => none⟩

/-- The log with a block at its end. -/
def append (l : Log T) (samples : List T) (m : Meta) : Log T where
  «end» := l.end + samples.length
  «at» := fun i =>
    if l.end ≤ i ∧ i < l.end + samples.length then
      samples[i - l.end]?.map fun x => ⟨x, l.end, m⟩
    else l.at i

/-- The log with a gap up to `stop`. -/
def missing (l : Log T) (stop : ℕ) : Log T where
  «end» := max l.end stop
  «at» := fun i => if l.end ≤ i ∧ i < stop then none else l.at i

/-- One call on a log of which `capacity` indices are retained. -/
def apply (capacity : ℕ) (l : Log T) : Call T → Log T × Except RingError Unit
  | .append first samples m =>
    if capacity < samples.length then (l, .error .tooLarge)
    else if first.toNat ≠ l.end then (l, .error .notContiguous)
    else (l.append samples m, .ok ())
  | .missing stop => (l.missing stop.toNat, .ok ())
  | .reset first => (reset first.toNat, .ok ())

end Log

/-! ### Windows -/

/-- The records go from `a` to `b`. -/
abbrev Joined : ℕ → List Record → ℕ → Prop := Abut (·.first.toNat) (·.end.toNat)

/-- A record describes what the log holds between its ends. -/
def Record.Describes (rec : Record) (l : Log T) : Prop :=
  ∀ i, rec.first.toNat ≤ i → i < rec.end.toNat →
    if rec.gap then l.at i = none
    else ∃ x, l.at i = some ⟨x, rec.first.toNat, rec.timing⟩

/-- A ring whose records describe the end of a log. -/
structure Recorded (r : Ring T) (l : Log T) : Prop where
  ends : r.end.toNat = l.end
  start : r.start.toNat ≤ l.end
  count : r.recs.count ≤ r.maxBlocks
  joined : ∃ a ≤ r.start.toNat, Joined a r.recs.entries l.end
  describes : ∀ rec ∈ r.recs.entries, rec.Describes l

/-- A ring that shows the end of a log, before it is trimmed. -/
structure Shows (r : Ring T) (l : Log T) : Prop extends Recorded r l where
  data : ∀ i h, r.start.toNat ≤ i → l.end ≤ i + r.capacity → i < l.end → l.at i = some h →
    r.data[i % r.capacity]? = some h.sample

/-- A ring that shows the window of a log from its start on. -/
structure Refines (r : Ring T) (l : Log T) : Prop extends Shows r l where
  window : l.end ≤ r.start.toNat + r.capacity
  live : ∀ rec ∈ r.recs.entries, r.start < rec.end

/-- The tables of a ring stay as large, and its start moves on. -/
structure Follows (r r' : Ring T) : Prop where
  capacity : r'.capacity = r.capacity
  maxBlocks : r'.maxBlocks = r.maxBlocks
  unitNs : r'.unitNs = r.unitNs
  start : r.start ≤ r'.start

theorem Follows.trans {r r' r'' : Ring T} (h : Follows r r') (h' : Follows r' r'') :
    Follows r r'' :=
  ⟨h'.capacity.trans h.capacity, h'.maxBlocks.trans h.maxBlocks, h'.unitNs.trans h.unitNs,
    UInt64.le_trans h.start h'.start⟩

/-! ### Trimming -/

theorem toNat_max (a b : UInt64) : (max a b).toNat = max a.toNat b.toNat := by
  change (if a ≤ b then b else a).toNat = _
  split_ifs with h
  · exact (max_eq_right (UInt64.le_iff_toNat_le.mp h)).symm
  · exact (max_eq_left (le_of_lt (UInt64.lt_iff_toNat_lt.mp (UInt64.not_le.mp h)))).symm

theorem toNat_min (a b : UInt64) : (min a b).toNat = min a.toNat b.toNat := by
  change (if a ≤ b then a else b).toNat = _
  split_ifs with h
  · exact (min_eq_left (UInt64.le_iff_toNat_le.mp h)).symm
  · exact (min_eq_right (le_of_lt (UInt64.lt_iff_toNat_lt.mp (UInt64.not_le.mp h)))).symm

/-- A trim moves the start up to where the capacity reaches back. -/
theorem start_trim (r : Ring T) (h : r.start ≤ r.end) :
    r.trim.start.toNat = max r.start.toNat (r.end.toNat - r.capacity) := by
  have hle := UInt64.le_iff_toNat_le.mp h
  have hsub := UInt64.toNat_sub_of_le _ _ h
  have hlt := r.end.toNat_lt
  simp only [Ring.trim]
  split_ifs with hover
  · rw [hsub] at hover
    have hcap : (UInt64.ofNat r.capacity).toNat = r.capacity :=
      UInt64.toNat_ofNat_of_lt' (show r.capacity < 2 ^ 64 by omega)
    have hcaple : UInt64.ofNat r.capacity ≤ r.end := by
      rw [UInt64.le_iff_toNat_le, hcap]
      omega
    rw [UInt64.toNat_sub_of_le _ _ hcaple, hcap]
    omega
  · rw [hsub] at hover
    omega

/-- **A trim leaves the window**: what it drops ends before the start. -/
theorem Shows.trim {r : Ring T} {l : Log T} (h : Shows r l) :
    Refines r.trim l ∧ Follows r r.trim := by
  have hle : r.start ≤ r.end := by
    rw [UInt64.le_iff_toNat_le, h.ends]
    exact h.start
  have hstart := start_trim r hle
  have hrecs : r.trim.recs =
      r.recs.dropWhile (fun rec => rec.end ≤ r.trim.start) r.recs.count := by
    simp only [Ring.trim]
    split_ifs <;> rfl
  have hends : r.trim.end = r.end := by
    simp only [Ring.trim]
    split_ifs <;> rfl
  have hdata : r.trim.data = r.data := by
    simp only [Ring.trim]
    split_ifs <;> rfl
  obtain ⟨hentries, hslots, hcount⟩ :=
    Circular.dropWhile_spec (fun rec => decide (rec.end ≤ r.trim.start)) h.count le_rfl
  have htest : (fun rec : Record => decide (rec.end ≤ r.trim.start)) =
      fun rec => decide (rec.end.toNat ≤ r.trim.start.toNat) := by
    funext rec
    exact decide_eq_decide.mpr UInt64.le_iff_toNat_le
  rw [← hrecs, htest] at hentries
  obtain ⟨a, ha, hjoined⟩ := h.joined
  rw [h.ends] at hstart
  have hstop : r.trim.start.toNat ≤ l.end := by
    have hend := h.start
    omega
  obtain ⟨⟨a', ha', hjoined'⟩, hlive⟩ :=
    hjoined.dropWhile (i := r.trim.start.toNat) (by omega) hstop
  refine ⟨?_, ⟨congrArg List.length hdata, ?_, ?_, ?_⟩⟩
  rotate_left
  · rw [Ring.maxBlocks, hrecs, hslots, Ring.maxBlocks]
  · simp only [Ring.trim]
    split_ifs <;> rfl
  · rw [UInt64.le_iff_toNat_le]
    omega
  constructor
  · constructor
    · constructor
      · rw [hends, h.ends]
      · exact hstop
      · rw [Ring.maxBlocks, hrecs, hslots]
        exact hcount
      · exact ⟨a', ha', by rw [hentries]; exact hjoined'⟩
      · rw [hentries]
        exact fun rec hrec => h.describes rec (List.dropWhile_subset _ hrec)
    · rw [Ring.capacity, hdata]
      intro i held hi hcap hend hat
      exact h.data i held (by omega) hcap hend hat
  · rw [Ring.capacity, hdata]
    have hcap : r.data.length = r.capacity := rfl
    omega
  · rw [hentries]
    exact fun rec hrec => UInt64.lt_iff_toNat_lt.mpr (hlive rec hrec)

/-! ### Pushing -/

/-- Making room drops the oldest record of a full table. -/
theorem Recorded.evict {r : Ring T} {l : Log T} (h : Recorded r l) (hblocks : 0 < r.maxBlocks) :
    ∃ r', r.evict = some r' ∧ Recorded r' l ∧ r'.recs.count < r'.maxBlocks ∧ r'.data = r.data ∧
      Follows r r' := by
  rw [Ring.evict]
  split_ifs with hfull
  · have hlength := Circular.length_entries h.count
    obtain ⟨a, ha, hjoined⟩ := h.joined
    cases hentries : r.recs.entries with
    | nil =>
        rw [hentries, List.length_nil] at hlength
        omega
    | cons old rest =>
        have hold : r.record? 0 = some old := by
          rw [Ring.record?, Circular.get_eq h.count (by omega), hentries]
          rfl
        rw [hentries] at hjoined
        have hbounds := hjoined.bounds List.mem_cons_self
        obtain ⟨-, -, hrest⟩ := hjoined
        have htail : r.recs.drop.entries = rest := by
          rw [Circular.entries_drop h.count, hentries, List.tail_cons]
        have hstart := toNat_max r.start old.end
        rw [hold]
        refine ⟨_, rfl, ⟨h.ends, ?_, Circular.count_drop_le h.count, ⟨old.end.toNat, ?_, ?_⟩, ?_⟩,
          ?_, rfl, ⟨rfl, rfl, rfl, ?_⟩⟩
        · rw [hstart]
          exact max_le h.start hbounds.2.2
        · rw [hstart]
          exact le_max_right _ _
        · rw [htail]
          exact hrest
        · rw [htail]
          exact fun rec hrec => h.describes rec (by
            rw [hentries]
            exact List.mem_cons_of_mem _ hrec)
        · change r.recs.count - 1 < r.maxBlocks
          omega
        · rw [UInt64.le_iff_toNat_le, hstart]
          exact le_max_left _ _
  · exact ⟨r, rfl, h, lt_of_le_of_ne h.count hfull, rfl, rfl, rfl, rfl, UInt64.le_refl _⟩

/-- A log that goes on from another one. -/
structure Log.Extends (l l' : Log T) : Prop where
  «end» : l.end ≤ l'.end
  same : ∀ i < l.end, l'.at i = l.at i

/-- What the records of a log describe stays as it goes on. -/
theorem Record.Describes.extends {rec : Record} {l l' : Log T} (h : rec.Describes l)
    (hextends : l.Extends l') (hend : rec.end.toNat ≤ l.end) : rec.Describes l' := by
  intro i hlow hhigh
  rw [hextends.same i (by omega)]
  exact h i hlow hhigh

/-- **A record pushed at the end of a log that goes on by it.** -/
theorem Recorded.push {r : Ring T} {l l' : Log T} {rec : Record} (h : Recorded r l)
    (hblocks : 0 < r.maxBlocks) (hextends : l.Extends l') (hfirst : rec.first.toNat = l.end)
    (hlt : rec.first < rec.end) (hend : rec.end.toNat = l'.end) (hrec : rec.Describes l')
    (hdata : ∀ i held, r.start.toNat ≤ i → l'.end ≤ i + r.capacity → i < l'.end →
      l'.at i = some held → r.data[i % r.capacity]? = some held.sample) :
    ∃ r', r.push rec = some r' ∧ Refines r' l' ∧ Follows r r' := by
  obtain ⟨room, hevict, hroom, hcount, hsame, hfollows⟩ := h.evict hblocks
  let pushed : Ring T := { room with recs := room.recs.push rec, «end» := rec.end }
  have hentries : pushed.recs.entries = room.recs.entries ++ [rec] :=
    Circular.entries_push hcount rec
  have hslots : pushed.maxBlocks = room.maxBlocks := List.length_set
  obtain ⟨a, ha, hjoined⟩ := hroom.joined
  have hstart := UInt64.le_iff_toNat_le.mp hfollows.start
  have hshows : Shows pushed l' := by
    refine ⟨⟨hend, hroom.start.trans hextends.end, ?_, ⟨a, ha, ?_⟩, ?_⟩, ?_⟩
    · rw [hslots]
      exact hcount
    · rw [hentries]
      refine Abut.concat_iff.mpr ⟨?_, UInt64.lt_iff_toNat_lt.mp hlt, hend⟩
      rw [hfirst]
      exact hjoined
    · rw [hentries]
      refine List.forall_mem_append.mpr ⟨fun old hold => ?_, by simpa using hrec⟩
      exact (hroom.describes old hold).extends hextends (hjoined.bounds hold).2.2
    · intro i held hi hcap hlast hat
      have hcapacity : pushed.capacity = r.capacity := hfollows.capacity
      rw [hcapacity] at hcap ⊢
      rw [show pushed.data = r.data from hsame]
      exact hdata i held (hstart.trans hi) hcap hlast hat
  obtain ⟨hrefines, htrim⟩ := hshows.trim
  refine ⟨pushed.trim, by rw [Ring.push, hevict]; rfl, hrefines, ?_⟩
  have hpushed : Follows room pushed := ⟨rfl, hslots, rfl, UInt64.le_refl _⟩
  exact hfollows.trans (hpushed.trans htrim)

/-! ### Calls -/

theorem Log.extends_append (l : Log T) (samples : List T) (m : Meta) :
    l.Extends (l.append samples m) :=
  ⟨Nat.le_add_right _ _, fun i hi => if_neg (by omega)⟩

theorem Log.extends_missing (l : Log T) (stop : ℕ) : l.Extends (l.missing stop) :=
  ⟨le_max_left _ _, fun i hi => if_neg (by omega)⟩

theorem Log.missing_of_le {l : Log T} {stop : ℕ} (h : stop ≤ l.end) : l.missing stop = l := by
  have hat : (l.missing stop).at = l.at := funext fun i => if_neg (by omega)
  have hend : (l.missing stop).end = l.end := max_eq_left h
  calc l.missing stop = ⟨(l.missing stop).end, (l.missing stop).at⟩ := rfl
    _ = l := by rw [hend, hat]

/-- **An append that fits keeps the ring a window of its log.** -/
theorem Refines.append {r : Ring T} {l : Log T} (h : Refines r l) {samples : List T} (m : Meta)
    (hne : samples ≠ []) (hcap : samples.length ≤ r.capacity)
    (hfits : r.end.toNat + samples.length < 2 ^ 64) (hblocks : 0 < r.maxBlocks) :
    ∃ r', r.append r.end samples m = some (r', .ok ()) ∧ Refines r' (l.append samples m) ∧
      Follows r r' := by
  have hpos : 0 < samples.length := List.length_pos_iff.mpr hne
  have hlen : (UInt64.ofNat samples.length).toNat = samples.length :=
    UInt64.toNat_ofNat_of_lt' (show samples.length < 2 ^ 64 by omega)
  have hend : (r.end + UInt64.ofNat samples.length).toNat = r.end.toNat + samples.length := by
    rw [UInt64.toNat_add, hlen, Nat.mod_eq_of_lt hfits]
  let written : Ring T := { r with data := ringWrite r.data r.end.toNat samples }
  have hcapacity : written.capacity = r.capacity := length_ringWrite _ _ _
  have hwritten : Recorded written l := ⟨h.ends, h.start, h.count, h.joined, h.describes⟩
  have hnew : ∀ i, l.end ≤ i → i < l.end + samples.length →
      (l.append samples m).at i = samples[i - l.end]?.map fun x => ⟨x, l.end, m⟩ :=
    fun i hi hi' => if_pos ⟨hi, hi'⟩
  have hsum : (l.append samples m).end = l.end + samples.length := rfl
  have hdescribes : Record.Describes
      ⟨r.end, r.end + UInt64.ofNat samples.length, false, m⟩ (l.append samples m) := by
    intro i hlow hhigh
    dsimp only at hlow hhigh ⊢
    rw [hend] at hhigh
    rw [h.ends] at hlow hhigh ⊢
    rw [if_neg Bool.false_ne_true, hnew i hlow hhigh, List.getElem?_eq_getElem (by omega)]
    exact ⟨_, rfl⟩
  have hdata : ∀ i held, written.start.toNat ≤ i →
      (l.append samples m).end ≤ i + written.capacity → i < (l.append samples m).end →
      (l.append samples m).at i = some held →
      written.data[i % written.capacity]? = some held.sample := by
    intro i held hi hwindow hlast hat
    rw [hcapacity, hsum] at hwindow
    rw [hsum] at hlast
    rw [hcapacity]
    change (ringWrite r.data r.end.toNat samples)[i % r.data.length]? = _
    rw [getElem?_ringWrite hcap (by rw [h.ends]; exact hwindow) (by rw [h.ends]; exact hlast),
      h.ends]
    split_ifs with hin
    · rw [hnew i hin hlast] at hat
      obtain ⟨x, hx, rfl⟩ := Option.map_eq_some_iff.mp hat
      exact hx
    · rw [(l.extends_append samples m).same i (not_le.mp hin)] at hat
      exact h.data i held hi (by omega) (not_le.mp hin) hat
  have hlt : r.end < r.end + UInt64.ofNat samples.length := by
    rw [UInt64.lt_iff_toNat_lt, hend]
    exact Nat.lt_add_of_pos_right hpos
  obtain ⟨r', hpush, hrefines, hfollows⟩ := hwritten.push hblocks (l.extends_append samples m)
    h.ends hlt (by rw [hend, h.ends, hsum]) hdescribes hdata
  refine ⟨r', ?_, hrefines, ?_⟩
  · rw [Ring.append, if_neg (not_lt.mpr hcap), if_neg (not_not.mpr rfl),
      if_neg (by simpa using hne)]
    exact congrArg (Option.map fun r => (r, Except.ok ())) hpush
  · exact Follows.trans ⟨hcapacity, rfl, rfl, UInt64.le_refl _⟩ hfollows

/-- A gap at the end of the records grows with the log. -/
theorem Refines.grow {r : Ring T} {l : Log T} (h : Refines r l) {last : Record}
    (hlast : r.lastGap = some last) {stop : UInt64} (hstop : r.end < stop) :
    Shows { r with
      recs := r.recs.set (r.recs.count - 1) { last with «end» := stop }
      «end» := stop } (l.missing stop.toNat) := by
  have hlt := UInt64.lt_iff_toNat_lt.mp hstop
  have hends := h.ends
  have hmissing : (l.missing stop.toNat).end = stop.toNat := max_eq_right (by omega)
  rw [Ring.lastGap] at hlast
  split_ifs at hlast with hpos
  obtain ⟨hrecord, hgap⟩ := Option.filter_eq_some_iff.mp hlast
  rw [Bool.and_eq_true, decide_eq_true_eq] at hgap
  have hlength := Circular.length_entries h.count
  rw [Ring.record?, Circular.get_eq h.count (by omega), ← hlength] at hrecord
  -- the gap is the last record
  obtain ⟨front, hfront⟩ : ∃ front, r.recs.entries = front ++ [last] := by
    rw [← List.getLast?_eq_getElem?] at hrecord
    exact List.getLast?_eq_some_iff.mp hrecord
  have hset : (r.recs.set (r.recs.count - 1) { last with «end» := stop }).entries =
      front ++ [{ last with «end» := stop }] := by
    rw [Circular.entries_set h.count _ (by omega), ← hlength, hfront]
    simp
  obtain ⟨a, ha, hjoined⟩ := h.joined
  rw [hfront] at hjoined
  obtain ⟨hrest, hinside, hstops⟩ := Abut.concat_iff.mp hjoined
  have hgaps : ∀ i, l.end ≤ i → i < stop.toNat → (l.missing stop.toNat).at i = none :=
    fun i hi hi' => if_pos ⟨hi, hi'⟩
  refine ⟨⟨hmissing.symm, h.start.trans (le_max_left _ _), ?_, ⟨a, ha, ?_⟩, ?_⟩, ?_⟩
  · rw [Ring.maxBlocks, show (r.recs.set (r.recs.count - 1) { last with «end» := stop }).slots.length
      = r.recs.slots.length from List.length_set]
    exact h.count
  · dsimp only
    rw [hset, hmissing]
    exact Abut.concat_iff.mpr ⟨hrest, by dsimp only; omega, rfl⟩
  · dsimp only
    rw [hset]
    refine List.forall_mem_append.mpr ⟨fun rec hrec => ?_, ?_⟩
    · have hmem : rec ∈ r.recs.entries := by
        rw [hfront]
        exact List.mem_append_left _ hrec
      exact (h.describes rec hmem).extends (l.extends_missing _) (hjoined.bounds
        (List.mem_append_left _ hrec)).2.2
    · rw [List.forall_mem_singleton]
      intro i hlow hhigh
      dsimp only at hlow hhigh ⊢
      rw [if_pos hgap.1]
      by_cases hi : l.end ≤ i
      · exact hgaps i hi hhigh
      · rw [(l.extends_missing _).same i (not_le.mp hi)]
        have hdescribed := h.describes last (by
          rw [hfront]
          exact List.mem_append_right _ List.mem_cons_self) i hlow (by omega)
        rw [if_pos hgap.1] at hdescribed
        exact hdescribed
  · intro i held hi hwindow hend hat
    by_cases hnew : l.end ≤ i
    · rw [hgaps i hnew (hmissing ▸ hend)] at hat
      cases hat
    · rw [(l.extends_missing _).same i (not_le.mp hnew)] at hat
      rw [hmissing] at hwindow
      exact h.data i held hi (by
        change stop.toNat ≤ i + r.capacity at hwindow
        omega) (not_le.mp hnew) hat

/-- **A missing range keeps the ring a window of its log.** -/
theorem Refines.missing {r : Ring T} {l : Log T} (h : Refines r l) (stop : UInt64)
    (hblocks : r.end < stop → 0 < r.maxBlocks) :
    ∃ r', r.missing stop = some r' ∧ Refines r' (l.missing stop.toNat) ∧ Follows r r' := by
  have hends := h.ends
  rw [Ring.missing]
  split_ifs with hbehind
  · have hle := UInt64.le_iff_toNat_le.mp hbehind
    rw [Log.missing_of_le (by omega)]
    exact ⟨r, rfl, h, rfl, rfl, rfl, UInt64.le_refl _⟩
  · have hstop : r.end < stop := UInt64.not_le.mp hbehind
    have hlt := UInt64.lt_iff_toNat_lt.mp hstop
    cases hlast : r.lastGap with
    | some last =>
        obtain ⟨hrefines, hfollows⟩ := (h.grow hlast hstop).trim
        have hslots : ∀ recs : Circular Record, ∀ i rec,
            (recs.set i rec).slots.length = recs.slots.length := fun _ _ _ => List.length_set
        exact ⟨_, rfl, hrefines, hfollows.capacity, hfollows.maxBlocks.trans (hslots ..),
          hfollows.unitNs, hfollows.start⟩
    | none =>
        have hmissing : (l.missing stop.toNat).end = stop.toNat := max_eq_right (by omega)
        have hgaps : ∀ i, l.end ≤ i → i < stop.toNat → (l.missing stop.toNat).at i = none :=
          fun i hi hi' => if_pos ⟨hi, hi'⟩
        refine h.toRecorded.push (hblocks hstop) (l.extends_missing _) h.ends hstop hmissing.symm
          (fun i hlow hhigh => ?_) fun i held hi hwindow hend hat => ?_
        · rw [if_pos rfl]
          exact hgaps i (by rw [← h.ends]; exact hlow) hhigh
        · by_cases hnew : l.end ≤ i
          · rw [hgaps i hnew (hmissing ▸ hend)] at hat
            cases hat
          · rw [(l.extends_missing _).same i (not_le.mp hnew)] at hat
            exact h.data i held hi (by omega) (not_le.mp hnew) hat

theorem Refines.reset (r : Ring T) (first : UInt64) :
    Refines (r.reset first) (Log.reset first.toNat) := by
  have hentries : (r.reset first).recs.entries = [] := List.take_zero
  refine ⟨⟨⟨rfl, le_rfl, Nat.zero_le _, ⟨first.toNat, le_rfl, ?_⟩, ?_⟩, ?_⟩, ?_, ?_⟩
  · rw [hentries]
    exact rfl
  · rw [hentries]
    exact fun _ h => (List.not_mem_nil h).elim
  · intro i held _ _ _ hat
    cases hat
  · exact Nat.le_add_right _ _
  · rw [hentries]
    exact fun _ h => (List.not_mem_nil h).elim

theorem Refines.new [Inhabited T] (capacity maxBlocks : ℕ) (unitNs : Int64) :
    Refines (Ring.new (T := T) capacity maxBlocks unitNs) (Log.reset 0) :=
  Refines.reset (Ring.new capacity maxBlocks unitNs) 0

/-- A call that leaves the indices below `2 ^ 64`, and needs no record of a ring that has none. -/
def Call.Fits (r : Ring T) : Call T → Prop
  | .append first samples _ =>
    samples ≠ [] → samples.length ≤ r.capacity → first = r.end →
      first.toNat + samples.length < 2 ^ 64 ∧ 0 < r.maxBlocks
  | .missing stop => r.end < stop → 0 < r.maxBlocks
  | .reset _ => True

/-- Whether the call begins a new epoch. -/
def Call.resets : Call T → Bool
  | .reset _ => true
  | _ => false

/-- What a call leaves: the tables as large as they were, and the start no earlier unless it
begins a new epoch. -/
structure Goes (r r' : Ring T) (c : Call T) : Prop where
  capacity : r'.capacity = r.capacity
  maxBlocks : r'.maxBlocks = r.maxBlocks
  unitNs : r'.unitNs = r.unitNs
  start : c.resets = false → r.start ≤ r'.start

theorem Follows.goes {r r' : Ring T} (h : Follows r r') (c : Call T) : Goes r r' c :=
  ⟨h.capacity, h.maxBlocks, h.unitNs, fun _ => h.start⟩

/-- **Every call that fits keeps the ring a window of its log**, and answers what the log
does. -/
theorem Refines.apply {r : Ring T} {l : Log T} (h : Refines r l) {c : Call T}
    (hfits : c.Fits r) :
    ∃ r', r.apply c = some (r', (l.apply r.capacity c).2) ∧
      Refines r' (l.apply r.capacity c).1 ∧ Goes r r' c := by
  have hsame : Follows r r := ⟨rfl, rfl, rfl, UInt64.le_refl _⟩
  cases c with
  | append first samples m =>
      rw [Ring.apply, Log.apply]
      by_cases hlarge : r.capacity < samples.length
      · rw [Ring.append, if_pos hlarge, if_pos hlarge]
        exact ⟨r, rfl, h, hsame.goes _⟩
      rw [if_neg hlarge]
      by_cases hfirst : first = r.end
      · subst hfirst
        rw [if_neg (not_not.mpr h.ends)]
        by_cases hnil : samples = []
        · subst hnil
          have happend : l.append [] m = l := by
            have hat : (l.append [] m).at = l.at := by
              exact funext fun i => if_neg (by simp)
            calc l.append [] m = ⟨(l.append [] m).end, (l.append [] m).at⟩ := rfl
              _ = l := by rw [hat]; rfl
          rw [happend, Ring.append, if_neg hlarge, if_neg (not_not.mpr rfl)]
          exact ⟨r, rfl, h, hsame.goes _⟩
        · obtain ⟨hsum, hblocks⟩ := hfits hnil (not_lt.mp hlarge) rfl
          obtain ⟨r', happend, hrefines, hfollows⟩ :=
            h.append m hnil (not_lt.mp hlarge) hsum hblocks
          exact ⟨r', happend, hrefines, hfollows.goes _⟩
      · have hends : first.toNat ≠ l.end := fun heq => hfirst (UInt64.toNat_inj.mp
          (heq.trans h.ends.symm))
        rw [Ring.append, if_neg hlarge, if_pos hfirst, if_pos hends]
        exact ⟨r, rfl, h, hsame.goes _⟩
  | missing stop =>
      obtain ⟨r', hmissing, hrefines, hfollows⟩ := h.missing stop hfits
      exact ⟨r', by rw [Ring.apply, hmissing]; rfl, hrefines, hfollows.goes _⟩
  | reset first =>
      exact ⟨r.reset first, rfl, Refines.reset r first, rfl, rfl, rfl, fun hreset => by cases hreset⟩

end EchoMuse.Histories
