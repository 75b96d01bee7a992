import EchoMuse.Histories.Reads

/-!
# A Ring Is a Window of Its Log

Over every sequence of calls a ring shows a window of the log of its indices, as long as the
indices stay below `2 ^ 64` and a ring without records is not asked to keep one.

## Main results

* `tracks_iff`: the calls that fit are exactly those that keep a ring a window of its log.
-/

namespace EchoMuse.Histories

variable {T : Type} {r : Ring T} {l : Log T}

/-- A ring shows the window of a log from its start on: its records and everything that can be
read. -/
structure Windows (r : Ring T) (l : Log T) : Prop where
  ends : r.end.toNat = l.end
  /-- The records are contiguous and ordered, and end at the end. -/
  joined : ∃ a ≤ r.start.toNat, Joined a r.recs.entries r.end.toNat
  retained : r.start.toNat ≤ r.end.toNat ∧ r.end.toNat - r.start.toNat ≤ r.capacity
  read : ∀ «from» «to» dst, ∃ segs, r.read «from» «to» dst = (max «from» r.start, dst ++ segs) ∧
    (∀ s ∈ segs, s.Shows r.unitNs l) ∧
    ((max «from» r.start).toNat < (min «to» r.end).toNat →
      Tiles (max «from» r.start).toNat segs (min «to» r.end).toNat) ∧
    ((min «to» r.end).toNat ≤ (max «from» r.start).toNat → segs = [])
  copy : ∀ dst first, Copies r l dst first ↔ CopyFits r dst first
  oldest : Oldest r l

theorem Refines.windows (h : Refines r l) : Windows r l where
  ends := h.ends
  joined := by
    rw [h.ends]
    exact h.joined
  retained := by
    have hwindow := h.window
    have hstart := h.start
    have hends := h.ends
    omega
  read := h.read
  copy := h.copies_iff
  oldest := h.oldest

/-- In every state that the calls lead to the ring shows a window of the log, and every call
answers as the log does. -/
def Tracks (capacity : ℕ) : Ring T → Log T → List (Call T) → Prop
  | r, l, [] => Windows r l
  | r, l, c :: calls => Windows r l ∧ ∃ r',
    r.apply c = some (r', (l.apply capacity c).2) ∧ Goes r r' c ∧
      Tracks capacity r' (l.apply capacity c).1 calls

/-- Every call fits the ring it finds. -/
def AllFit : Ring T → List (Call T) → Prop
  | _, [] => True
  | r, c :: calls => c.Fits r ∧ ∀ r' answer, r.apply c = some (r', answer) → AllFit r' calls

theorem Tracks.windows {capacity : ℕ} {calls : List (Call T)} (h : Tracks capacity r l calls) :
    Windows r l := by
  cases calls with
  | nil => exact h
  | cons c calls => exact h.1

/-! ### Calls that do not fit -/

theorem push_of_no_blocks (hcount : r.recs.count ≤ r.maxBlocks) (hblocks : r.maxBlocks = 0)
    (rec : Record) : r.push rec = none := by
  have hslots : r.recs.slots = [] := List.length_eq_zero_iff.mp hblocks
  have hnone : r.record? 0 = none := by
    rw [Ring.record?, Circular.get, hslots]
    rfl
  rw [Ring.push, Ring.evict, if_pos (by omega), hnone]
  rfl

/-- A call that does not fit panics, or leaves the ring at another end than the log. -/
theorem Refines.end_ne_of_not_fits (h : Refines r l) {c : Call T} (hfits : ¬ c.Fits r) {r' : Ring T}
    {answer : Except RingError Unit} (happly : r.apply c = some (r', answer)) :
    r'.end.toNat ≠ (l.apply r.capacity c).1.end := by
  cases c with
  | append first samples m =>
      rw [Call.Fits, not_forall] at hfits
      obtain ⟨hne, hfits⟩ := hfits
      rw [not_forall] at hfits
      obtain ⟨hcap, hfits⟩ := hfits
      rw [not_forall] at hfits
      obtain ⟨rfl, hfits⟩ := hfits
      have hpos : 0 < samples.length := List.length_pos_iff.mpr hne
      rw [Ring.apply, Ring.append, if_neg (not_lt.mpr hcap), if_neg (not_not.mpr rfl),
        if_neg (by simpa using hne)] at happly
      obtain ⟨pushed, hpush, heq⟩ := Option.map_eq_some_iff.mp happly
      cases heq
      have hwrap : 2 ^ 64 ≤ r.end.toNat + samples.length := by
        by_contra hlt
        have hblocks : r.maxBlocks = 0 :=
          Nat.eq_zero_of_not_pos fun hpos => hfits ⟨not_le.mp hlt, hpos⟩
        let written : Ring T := { r with data := ringWrite r.data r.end.toNat samples }
        have hnone := push_of_no_blocks (r := written) h.count hblocks
        rw [hnone] at hpush
        cases hpush
      have hlog : (l.apply r.capacity (.append r.end samples m)).1.end =
          r.end.toNat + samples.length := by
        rw [Log.apply, if_neg (not_lt.mpr hcap), if_neg (not_not.mpr h.ends), h.ends]
        rfl
      rw [hlog]
      have hlt := r'.end.toNat_lt
      omega
  | missing stop =>
      rw [Call.Fits, not_forall] at hfits
      obtain ⟨hstop, hblocks⟩ := hfits
      have hcount := h.count
      have hgap : r.lastGap = none := if_neg (by omega)
      rw [Ring.apply, Ring.missing, if_neg (UInt64.not_le.mpr hstop), hgap] at happly
      dsimp only at happly
      rw [push_of_no_blocks hcount (by omega)] at happly
      cases happly
  | reset first => exact absurd trivial hfits

/-- **A ring stays a window of its log exactly as long as every call fits.** -/
theorem Refines.run_iff (h : Refines r l) (calls : List (Call T)) :
    Tracks r.capacity r l calls ↔ AllFit r calls := by
  induction calls generalizing r l with
  | nil => exact ⟨fun _ => trivial, fun _ => h.windows⟩
  | cons c calls ih =>
      by_cases hfits : c.Fits r
      · obtain ⟨r', happly, hrefines, hgoes⟩ := h.apply hfits
        have hrest := ih hrefines
        rw [hgoes.capacity] at hrest
        constructor
        · rintro ⟨-, r'', happly', -, htracks⟩
          rw [happly] at happly'
          cases happly'
          refine ⟨hfits, fun r'' answer happly' => ?_⟩
          rw [happly] at happly'
          cases happly'
          exact hrest.mp htracks
        · rintro ⟨-, hall⟩
          exact ⟨h.windows, r', happly, hgoes, hrest.mpr (hall r' _ happly)⟩
      · constructor
        · rintro ⟨-, r', happly, -, htracks⟩
          exact absurd htracks.windows.ends (h.end_ne_of_not_fits hfits happly)
        · rintro ⟨hfits', -⟩
          exact absurd hfits' hfits

/-- **Over every sequence of calls a new ring is a window of the log of its indices exactly when
every call fits.** -/
theorem tracks_iff [Inhabited T] (capacity maxBlocks : ℕ) (unitNs : Int64)
    (calls : List (Call T)) :
    Tracks capacity (Ring.new capacity maxBlocks unitNs) (Log.reset 0) calls ↔
      AllFit (Ring.new capacity maxBlocks unitNs) calls := by
  have hcapacity : (Ring.new (T := T) capacity maxBlocks unitNs).capacity = capacity :=
    List.length_replicate
  have htracks := (Refines.new (T := T) capacity maxBlocks unitNs).run_iff calls
  rw [hcapacity] at htracks
  exact htracks

/-- Two samples in a ring of eight, and a copy from the last index there is: the end of the range
wraps to one that the ring has, and the copy gives what the slots held. -/
theorem copy_past_last_index :
    ∃ r : Ring UInt16, (Ring.new 8 8 1).apply (.append 0 [1, 2] .zero) = some (r, .ok ()) ∧
      r.copy [0, 0] 0xFFFFFFFFFFFFFFFF = some (.ok [0, 1]) ∧
      ¬ Copies r ((Log.reset 0).append [1, 2] .zero) [0, 0] 0xFFFFFFFFFFFFFFFF := by
  have hlast : (0xFFFFFFFFFFFFFFFF : UInt64).toNat = 2 ^ 64 - 1 := by decide
  have hend : ((Log.reset 0).append [(1 : UInt16), 2] .zero).end = 2 := rfl
  refine ⟨_, rfl, by decide, fun hcopies => ?_⟩
  have hrefused := hcopies.invalid fun hvalid => by
    have hbounds := hvalid (2 ^ 64 - 1) hlast.le (by rw [hlast]; decide)
    rw [hend] at hbounds
    omega
  revert hrefused
  decide

end EchoMuse.Histories
