import EchoMuse.Uplink.Refinement
import Mathlib.Data.List.GetD
import Mathlib.Data.List.TakeWhile
import Mathlib.Data.Nat.ModEq

/-!
# The Ring Holds the Window's Values

The values of a buffer lie in a ring addressed by position. At every moment the positions
the window can hold fit into the ring, so that no two of them share a slot; a store writes
the slots of exactly the records it brings.

## Main results

* `getElem?_writeFrom`: what a store writes, slot by slot;
* `Rings.store`: the ring holds the window's values after a store;
* `length_recordsOf`: a valid packet carries as many records as its header counts.
-/

namespace EchoMuse.Uplink

open EchoMuse.Ema EchoMuse.Streams EchoMuse.Intervals

/-- Positions less than the capacity apart have slots of their own. -/
theorem eq_of_mod_eq {capacity lo i j : ℕ} (hi : lo ≤ i ∧ i < lo + capacity)
    (hj : lo ≤ j ∧ j < lo + capacity) (h : i % capacity = j % capacity) : i = j := by
  have hi' : lo + (i - lo) = i := by omega
  have hj' : lo + (j - lo) = j := by omega
  have hmod : lo + (i - lo) ≡ lo + (j - lo) [MOD capacity] := by
    rw [hi', hj']
    exact h
  have hsub : i - lo = j - lo :=
    Nat.ModEq.eq_of_lt_of_lt (Nat.ModEq.add_left_cancel' lo hmod) (by omega) (by omega)
  omega

/-- Skipping ranges that end at or before `pos` loses no later position. -/
theorem exists_mem_dropWhile_iff {ranges : List (ℕ × ℕ)} {pos i : ℕ} (hi : pos ≤ i) :
    (∃ g ∈ ranges.dropWhile fun r => r.2 ≤ pos, g.1 ≤ i ∧ i < g.2) ↔
      ∃ g ∈ ranges, g.1 ≤ i ∧ i < g.2 := by
  constructor
  · rintro ⟨g, hg, hin⟩
    exact ⟨g, List.dropWhile_subset _ hg, hin⟩
  · rintro ⟨g, hg, hin⟩
    rw [← List.takeWhile_append_dropWhile (p := fun r : ℕ × ℕ => r.2 ≤ pos) (l := ranges),
      List.mem_append] at hg
    rcases hg with hg | hg
    · have hle := List.mem_takeWhile_imp hg
      rw [decide_eq_true_eq] at hle
      omega
    · exact ⟨g, hg, hin⟩

section Write

variable {T : Type} {capacity lo stop : ℕ}

/-- **What a write leaves in a slot**: the value for its position, if the position is in one
of the ranges and there is a value for it, and what was there otherwise. -/
theorem getElem?_writeFrom (hwin : stop ≤ lo + capacity) (values : List T) (pos : ℕ)
    {ranges : List (ℕ × ℕ)} (hr : Spaced lo stop ranges) {ring : List T}
    (hlen : ring.length = capacity) {i : ℕ} (hi : lo ≤ i ∧ i < lo + capacity) :
    (writeFrom capacity pos ranges values ring)[i % capacity]? =
      if pos ≤ i ∧ i < pos + values.length ∧ ∃ g ∈ ranges, g.1 ≤ i ∧ i < g.2 then
        values[i - pos]?
      else ring[i % capacity]? := by
  induction values generalizing pos ranges ring with
  | nil => rw [writeFrom, if_neg (by simp only [List.length_nil]; omega)]
  | cons value values ih =>
      rw [writeFrom]
      have hdrop := hr.dropWhile fun r => r.2 ≤ pos
      have hmem : ∀ j, pos ≤ j → ((∃ g ∈ ranges.dropWhile fun r => r.2 ≤ pos,
          g.1 ≤ j ∧ j < g.2) ↔ ∃ g ∈ ranges, g.1 ≤ j ∧ j < g.2) :=
        fun j hj => exists_mem_dropWhile_iff hj
      have hhead : ∀ r ∈ (ranges.dropWhile fun r => r.2 ≤ pos).head?, pos < r.2 := by
        intro r hr
        have h := List.head?_dropWhile_not (fun r : ℕ × ℕ => r.2 ≤ pos) ranges
        rw [Option.mem_def] at hr
        rw [hr] at h
        simpa using h
      generalize (ranges.dropWhile fun r => r.2 ≤ pos) = left at *
      cases left with
      | nil =>
          rw [if_neg]
          rintro ⟨h1, -, h3⟩
          simpa using (hmem i h1).mpr h3
      | cons r rest =>
          have hlt : pos < r.2 := hhead r rfl
          have hin := hdrop.inside r (by simp)
          -- this position is written exactly when it lies in the first range left
          have hpos : r.1 ≤ pos ↔ ∃ g ∈ ranges, g.1 ≤ pos ∧ pos < g.2 := by
            rw [← hmem pos le_rfl]
            constructor
            · exact fun h => ⟨r, by simp, h, hlt⟩
            · rintro ⟨g, hg, h1, h2⟩
              rcases List.mem_cons.mp hg with rfl | hg
              · exact h1
              · have hroom := (List.pairwise_cons.mp hdrop.apart).1 g hg
                omega
          have hslot : i % capacity < capacity := Nat.mod_lt _ (by omega)
          rw [ih (pos + 1) hdrop (by split_ifs <;> simp [hlen])]
          by_cases hi' : i = pos
          · subst hi'
            have hnext : ¬ (i + 1 ≤ i ∧ i < i + 1 + values.length ∧
                ∃ g ∈ r :: rest, g.1 ≤ i ∧ i < g.2) := by omega
            rw [if_neg hnext]
            by_cases hwrite : r.1 ≤ i
            · rw [if_pos hwrite, if_pos ⟨le_rfl, by simp, hpos.mp hwrite⟩, Nat.sub_self,
                List.getElem?_set_self (by omega), List.getElem?_cons_zero]
            · rw [if_neg hwrite, if_neg fun h => hwrite (hpos.mpr h.2.2)]
          · have hkeep : (if r.1 ≤ pos then ring.set (pos % capacity) value else ring)[i %
                capacity]? = ring[i % capacity]? := by
              split_ifs with hwrite
              · refine List.getElem?_set_ne fun heq => hi' ?_
                exact eq_of_mod_eq hi (by omega) heq.symm
              · rfl
            rw [hkeep]
            have hiff : (pos + 1 ≤ i ∧ i < pos + 1 + values.length ∧
                ∃ g ∈ r :: rest, g.1 ≤ i ∧ i < g.2) ↔
                (pos ≤ i ∧ i < pos + (value :: values).length ∧
                  ∃ g ∈ ranges, g.1 ≤ i ∧ i < g.2) := by
              rw [List.length_cons]
              constructor
              · rintro ⟨h1, h2, h3⟩
                exact ⟨by omega, by omega, (hmem i (by omega)).mp h3⟩
              · rintro ⟨h1, h2, h3⟩
                exact ⟨by omega, by omega, (hmem i h1).mpr h3⟩
            by_cases hcase : pos ≤ i ∧ i < pos + (value :: values).length ∧
                ∃ g ∈ ranges, g.1 ≤ i ∧ i < g.2
            · have hsub : i - pos = i - (pos + 1) + 1 := by omega
              rw [if_pos hcase, if_pos (hiff.mpr hcase), hsub, List.getElem?_cons_succ]
            · rw [if_neg hcase, if_neg fun h => hcase (hiff.mp h)]

theorem length_writeFrom (values : List T) (pos : ℕ) (ranges : List (ℕ × ℕ)) (ring : List T) :
    (writeFrom capacity pos ranges values ring).length = ring.length := by
  induction values generalizing pos ranges ring with
  | nil => rw [writeFrom]
  | cons value values ih =>
      rw [writeFrom]
      split
      · rfl
      · rw [ih]
        split_ifs <;> simp

end Write

/-! ### What the window forgets -/

namespace Window

theorem held_of_raise {w : Window} {f i : ℕ} {m : Mark} (h : (w.raise f).held i = some m) :
    w.held i = some m := by
  simp only [raise] at h
  split_ifs at h
  exact h

theorem held_of_dropOldest {w : Window} {i : ℕ} {m : Mark} (h : w.dropOldest.held i = some m) :
    w.held i = some m := by
  rw [dropOldest] at h
  split at h
  · exact h
  · exact held_of_raise h

/-- The block limit only forgets. -/
theorem held_of_limit {w : Window} {i : ℕ} {m : Mark} (h : w.limit.held i = some m) :
    w.held i = some m := by
  rw [limit] at h
  generalize w.heads.length - w.maxBlocks = n at h
  induction n generalizing w with
  | zero => exact h
  | succ n ih => exact held_of_dropOldest (ih h)

/-- What the block limit leaves alone. -/
theorem limit_frame (w : Window) :
    w.limit.unit = w.unit ∧ w.limit.capacity = w.capacity ∧ w.limit.known = w.known := by
  rw [limit]
  generalize w.heads.length - w.maxBlocks = n
  induction n generalizing w with
  | zero => exact ⟨rfl, rfl, rfl⟩
  | succ n ih =>
      obtain ⟨h1, h2, h3⟩ := ih w.dropOldest
      have hframe : w.dropOldest.unit = w.unit ∧ w.dropOldest.capacity = w.capacity ∧
          w.dropOldest.known = w.known := by
        rw [dropOldest]
        split <;> exact ⟨rfl, rfl, rfl⟩
      exact ⟨h1.trans hframe.1, h2.trans hframe.2.1, h3.trans hframe.2.2⟩

theorem value_eq_some_iff {w : Window} {i : ℕ} {r : Record} :
    w.value i = some r ↔ ∃ event info first d, w.held i = some (.data event info first d r) := by
  rw [value]
  split
  · rename_i event info first d value heq
    rw [heq, Option.some.injEq]
    constructor
    · rintro rfl
      exact ⟨event, info, first, d, rfl⟩
    · rintro ⟨_, _, _, _, h⟩
      injection h with h
      injection h with _ _ _ _ h
  · rename_i hno
    constructor
    · exact fun h => by cases h
    · rintro ⟨event, info, first, d, h⟩
      exact absurd h (hno event info first d r)

/-- After a store a record has its value from the packet that was stored, or had it before. -/
theorem value_store {w : Window} {first : ℕ} {info : BlockMeta} {discontinuity : Bool}
    {records : List Record} {i : ℕ} {r : Record}
    (h : (w.store first info discontinuity records).1.value i = some r) :
    (w.advance (first + records.length)).held i ≠ none ∧
        ¬ (w.advance (first + records.length)).Brings first (first + records.length) i ∧
        w.value i = some r ∨
      (w.advance (first + records.length)).Brings first (first + records.length) i ∧
        records[i - first]? = some r := by
  obtain ⟨event, m, start, d, hheld⟩ := value_eq_some_iff.mp h
  have hmark := held_of_limit hheld
  simp only [mark] at hmark
  split_ifs at hmark with hb
  · have hlt : i - first < records.length := by
      have h1 := hb.1
      have h2 := hb.2.1
      omega
    injection hmark with hmark
    injection hmark with _ _ _ _ hvalue
    rw [List.getD_eq_getElem _ _ hlt] at hvalue
    exact Or.inr ⟨hb, hvalue ▸ List.getElem?_eq_getElem hlt⟩
  · refine Or.inl ⟨by rw [hmark]; simp, hb, ?_⟩
    exact value_eq_some_iff.mpr ⟨event, m, start, d, held_of_raise hmark⟩

/-- A missing report brings no value. -/
theorem value_markMissing {w : Window} {first stop i : ℕ} {r : Record}
    (h : (w.markMissing first stop).value i = some r) : w.value i = some r := by
  obtain ⟨event, m, start, d, hheld⟩ := value_eq_some_iff.mp h
  have hmark := held_of_limit hheld
  simp only [mark] at hmark
  split_ifs at hmark
  · cases hmark
  · exact value_eq_some_iff.mpr ⟨event, m, start, d, held_of_raise hmark⟩

end Window

/-! ### The ring and the window -/

/-- A ring that has the values of a window, each in the slot of its position. -/
structure Rings {T : Type} (rec : T → Record) (ring : List T) (w : Window) : Prop where
  length : ring = [] ∨ ring.length = w.capacity
  slot : ∀ i r, w.value i = some r → (ring[i % w.capacity]?).map rec = some r

namespace Rings

variable {T : Type} {rec : T → Record} {ring : List T} {w w' : Window} {x : BlockIndex}

/-- A window that knows less. -/
theorem of_value (h : Rings rec ring w) (hcap : w'.capacity = w.capacity)
    (hvalue : ∀ i r, w'.value i = some r → w.value i = some r) : Rings rec ring w' where
  length := hcap ▸ h.length
  slot := fun i r hr => hcap ▸ h.slot i r (hvalue i r hr)

/-- **A store keeps the ring**: it writes the slots of the records brought, and no other
record the window holds has one of these. -/
theorem store (h : Rings rec ring w) (hx : Indexes w x)
    (hfew : x.blocks.length ≤ x.maxBlocks) (first : ℕ)
    (info : BlockMeta) (discontinuity : Bool) (fill : T) (values : List T) {novel : List (ℕ × ℕ)}
    (hnovel : novel =
      (x.insertData first (first + values.length) info discontinuity).2) :
    Rings rec
      (if (novel.map fun g => g.2 - g.1).sum = 0 then ring
        else write ring x.capacity fill first values novel)
      (w.store first info discontinuity (values.map rec)).1 := by
  have hlen : (values.map rec).length = values.length := List.length_map _
  obtain ⟨-, hmem, hspaced⟩ := hx.insertData hfew first (first + values.length) info
    discontinuity fun i => (values.map rec).getD (i - first) (.pcm 0)
  rw [← hnovel] at hmem hspaced
  have hadv := hx.advance (first + values.length)
  have hkeep : (w.store first info discontinuity (values.map rec)).1.capacity = w.capacity := by
    simp only [Window.store]
    exact (Window.limit_frame _).2.1
  by_cases hzero : (novel.map fun g => g.2 - g.1).sum = 0
  · -- nothing is brought
    have hnil : novel = [] := by
      rw [List.eq_nil_iff_forall_not_mem]
      intro g hg
      have hlen := List.sum_eq_zero_iff_forall_eq_nat.mp hzero _ (List.mem_map_of_mem hg)
      have hin := hspaced.inside g hg
      omega
    rw [if_pos hzero]
    refine h.of_value hkeep fun i r hr => ?_
    rcases Window.value_store hr with ⟨-, -, hold⟩ | ⟨hb, -⟩
    · exact hold
    · rw [hlen, hmem, hnil] at hb
      simp at hb
  · rw [if_neg hzero, hx.capacity_eq]
    set start := if ring.isEmpty then List.replicate w.capacity fill else ring with hstart
    have hstartlen : start.length = w.capacity := by
      rw [hstart]
      split_ifs with hempty
      · rw [List.length_replicate]
      · exact h.length.resolve_left fun hnil => hempty (by simp [hnil])
    refine ⟨Or.inr ?_, fun i r hr => ?_⟩
    · rw [hkeep, write, length_writeFrom]
      exact hstartlen
    · rw [hkeep, write]
      -- what the window holds fits into the ring
      set lo := (w.advance (first + values.length)).floor with hlo
      have hwin : (w.advance (first + values.length)).known ≤ lo + w.capacity := by
        have hle : (w.advance (first + values.length)).known - w.capacity ≤ lo :=
          le_max_right _ _
        omega
      have hstop : first + values.length ≤ (w.advance (first + values.length)).known :=
        le_max_right _ _
      have hin : (w.advance (first + values.length)).Brings first (first + values.length) i ∨
          (w.advance (first + values.length)).held i ≠ none → lo ≤ i ∧ i < lo + w.capacity := by
        rintro (hb | hheld)
        · exact ⟨hb.2.2.1, by have := hb.2.1; omega⟩
        · have h1 := mt (hadv.below i) hheld
          have h2 := mt (hadv.above i) hheld
          omega
      have hslot := fun hi => getElem?_writeFrom (T := T) (by omega) values
        first (hspaced.of_le (le_max_right _ _)) hstartlen (i := i) hi
      rcases Window.value_store hr with ⟨hheld, hb, hold⟩ | ⟨hb, hvalue⟩
      · rw [hlen] at hheld hb
        rw [hmem] at hb
        have hring := h.slot i r hold
        have hsame : start = ring := by
          rw [hstart, if_neg]
          rintro hempty
          rw [List.isEmpty_iff.mp hempty] at hring
          simp at hring
        rw [← hstart, hslot (hin (Or.inr hheld)), if_neg fun hc => hb hc.2.2, hsame]
        exact hring
      · rw [hlen] at hb
        have hg := (hmem i).mp hb
        rw [← hstart, hslot (hin (Or.inl hb)), if_pos ⟨hb.1, hb.2.1, hg⟩, ← List.getElem?_map]
        exact hvalue

end Rings

/-! ### Records and packets -/

/-- A valid packet carries as many records as its header counts. -/
theorem length_recordsOf (p : Packet) : (recordsOf p).length = p.header.frameCount.toNat := by
  have hlen := p.length_lt
  have hok := p.header_ok
  rw [Header.check] at hok
  split_ifs at hok
  have hpayload := (RawHeader.check_eq_ok_iff.mp hok).payloadBytes
  simp only [Header.raw] at hpayload
  rw [UInt32.toNat_ofNat_of_lt' hlen] at hpayload
  cases hkind : p.header.kind <;>
    simp only [hkind, Kind.payloadBytes, CELL_RECORD_BYTES, AFE_RECORD_BYTES] at hpayload <;>
    simp only [recordsOf, Packet.content, hkind]
  case cells => simp [length_asChunks, hpayload, CELL_RECORD_BYTES]
  case afe => simp [length_asChunks, hpayload, AFE_RECORD_BYTES]
  all_goals
    split_ifs at hpayload ⊢ with hsilent
    · simp
    · simp [length_asChunks, hpayload]

end EchoMuse.Uplink
