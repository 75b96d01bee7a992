import EchoMuse.Uplink.Window

/-!
# The Epoch Buffer Refines the Window
-/

namespace EchoMuse.Uplink

open EchoMuse.Ema EchoMuse.Streams EchoMuse.Intervals

/-! ### Metadata carried forward -/

/-- Saturated steps add up to one saturated step. -/
theorem min_steps (x p q m : ℕ) :
    min (min (x + min p m) m + min q m) m = min (x + min (p + q) m) m := by
  omega

theorem saturatingAdd_twice (x p q n : ℕ) :
    saturatingAdd (saturatingAdd x (saturatingMul p n)) (saturatingMul q n) =
      saturatingAdd x (saturatingMul (p + q) n) := by
  rw [saturatingMul, saturatingMul, saturatingMul, Nat.add_mul]
  exact min_steps x (p * n) (q * n) U64_MAX

theorem BlockMeta.advanced_mk (flags : Flags) (ns : ℕ) (uncertaintyUs : Option UInt32)
    (mask : SourceMask) (records unit : ℕ) :
    (⟨flags, ns, uncertaintyUs, mask⟩ : BlockMeta).advanced records unit =
      ⟨flags, saturatingAdd ns (saturatingMul records (unit * SAMPLE_NS)), uncertaintyUs, mask⟩ :=
  rfl

/-- Carrying metadata forward twice is carrying it forward once. -/
theorem BlockMeta.advanced_advanced (m : BlockMeta) (a b unit : ℕ) :
    (m.advanced a unit).advanced b unit = m.advanced (a + b) unit := by
  obtain ⟨flags, ns, uncertaintyUs, mask⟩ := m
  rw [BlockMeta.advanced_mk, BlockMeta.advanced_mk, BlockMeta.advanced_mk, saturatingAdd_twice]

/-- Carried-forward metadata is that of the record, as the window has it. -/
theorem BlockMeta.advanced_eq_infoAt (m : BlockMeta) (first i unit : ℕ) :
    m.advanced (i - first) unit = Window.infoAt unit m first i := by
  simp only [BlockMeta.advanced, saturatingAdd, saturatingMul, Window.infoAt, Nat.mul_assoc]
  congr 1
  omega

/-! ### Blocks and marks -/

/-- The block `b` says of record `i` what the mark does. -/
def Says (unit : ℕ) (b : Block) (i : ℕ) (x : Mark) : Prop :=
  match b.kind, x with
  | .data info discontinuity, .data _ m first d _ =>
    first ≤ i ∧ info.advanced (i - b.first) unit = m.advanced (i - first) unit ∧
      (discontinuity && decide (i = b.first)) = (d && decide (i = first))
  | .missing, .missing _ => True
  | _, _ => False

/-- A missing block says the same wherever it starts and stops. -/
theorem Says.of_missing {unit : ℕ} {b c : Block} {i : ℕ} {x : Mark} (hb : b.kind = .missing)
    (hc : c.kind = b.kind) (h : Says unit b i x) : Says unit c i x := by
  cases x with
  | data => simp only [Says, hb] at h
  | missing => simp only [Says, hc, hb]

/-- A block trimmed at the floor says the same of the records left. -/
theorem Says.trimmed {unit f : ℕ} {b : Block} (hf : b.first < f) {i : ℕ} {x : Mark}
    (hi : f ≤ i) (h : Says unit b i x) :
    Says unit ⟨f, b.stop, BlockIndex.trimmed unit f b⟩ i x := by
  obtain ⟨first, stop, kind⟩ := b
  have hf : first < f := hf
  cases kind with
  | missing => exact Says.of_missing (b := ⟨first, stop, .missing⟩) rfl rfl h
  | data info discontinuity =>
      cases x with
      | missing event => exact h
      | data event m start d value =>
          obtain ⟨hle, hinfo, hdisc⟩ := h
          have hne : decide (i = first) = false := decide_eq_false (by omega)
          have hsum : f - first + (i - f) = i - first := by omega
          rw [hne, Bool.and_false] at hdisc
          refine ⟨hle, ?_, by rw [Bool.false_and]; exact hdisc⟩
          rw [← hinfo, BlockMeta.advanced_advanced, hsum]

theorem Says.isData_eq_false_iff {unit : ℕ} {b : Block} {i : ℕ} {x : Mark}
    (h : Says unit b i x) : x.isData = false ↔ b.kind = .missing := by
  cases hb : b.kind with
  | missing =>
      cases x with
      | data => simp only [Says, hb] at h
      | missing => simp [Mark.isData]
  | data info discontinuity =>
      cases x with
      | data => simp [Mark.isData]
      | missing => simp only [Says, hb] at h

/-! ### The block limit -/

namespace BlockIndex

theorem length_raiseFloor_le (x : BlockIndex) (f : ℕ) :
    (x.raiseFloor f).blocks.length ≤ x.blocks.length := by
  rw [raiseFloor]
  split_ifs
  · exact le_rfl
  · exact length_dropBelow_le _ _ _

theorem length_advance_le (x : BlockIndex) (stop : ℕ) :
    (x.advance stop).blocks.length ≤ x.blocks.length :=
  length_raiseFloor_le _ _

theorem length_dropOldest_le (maxBlocks floor : ℕ) (blocks : List Block) :
    (dropOldest maxBlocks floor blocks).2.length ≤ maxBlocks := by
  induction blocks generalizing floor with
  | nil => exact Nat.zero_le _
  | cons b blocks ih =>
      rw [dropOldest]
      split_ifs with hlimit
      · exact ih _
      · exact not_lt.mp hlimit

theorem length_enforceBlockLimit_le (x : BlockIndex) :
    x.enforceBlockLimit.blocks.length ≤ x.maxBlocks :=
  length_dropOldest_le _ _ _

theorem enforceBlockLimit_eq_self {x : BlockIndex} (hfew : x.blocks.length ≤ x.maxBlocks) :
    x.enforceBlockLimit = x := by
  obtain ⟨unit, capacity, maxBlocks, blocks, «end», floor⟩ := x
  cases blocks with
  | nil => rfl
  | cons b blocks => rw [enforceBlockLimit, dropOldest, if_neg (not_lt.mpr hfew)]

@[simp] theorem maxBlocks_raiseFloor (x : BlockIndex) (f : ℕ) :
    (x.raiseFloor f).maxBlocks = x.maxBlocks := by
  rw [raiseFloor]
  split_ifs <;> rfl

@[simp] theorem maxBlocks_advance (x : BlockIndex) (stop : ℕ) :
    (x.advance stop).maxBlocks = x.maxBlocks :=
  maxBlocks_raiseFloor _ _

/-- Inserting data leaves no more blocks than the limit. -/
theorem few_insertData {x : BlockIndex} (hfew : x.blocks.length ≤ x.maxBlocks) (first stop : ℕ)
    (info : BlockMeta) (discontinuity : Bool) :
    (x.insertData first stop info discontinuity).1.blocks.length ≤
      (x.insertData first stop info discontinuity).1.maxBlocks := by
  simp only [insertData]
  split_ifs
  · rw [maxBlocks_advance]
    exact (length_advance_le x stop).trans hfew
  · exact length_enforceBlockLimit_le _

/-- Inserting missing records leaves no more blocks than the limit. -/
theorem few_insertMissing {x : BlockIndex} (hfew : x.blocks.length ≤ x.maxBlocks)
    (first stop : ℕ) :
    (x.insertMissing first stop).blocks.length ≤ (x.insertMissing first stop).maxBlocks := by
  simp only [insertMissing]
  split_ifs
  · rw [maxBlocks_advance]
    exact (length_advance_le x stop).trans hfew
  · exact length_enforceBlockLimit_le _

end BlockIndex

/-! ### The index and the window -/

/-- The index of a buffer and a window know the same. -/
structure Indexes (w : Window) (x : BlockIndex) : Prop where
  unit_eq : x.unit = w.unit
  capacity_eq : x.capacity = w.capacity
  maxBlocks_eq : x.maxBlocks = w.maxBlocks
  end_eq : x.end = w.known
  floor_eq : x.floor = w.floor
  tiles : Tiles Mark.event (Says w.unit) w.held x.blocks
  /-- Nothing below the floor is held. -/
  below : ∀ i < w.floor, w.held i = none
  /-- Everything held is known. -/
  above : ∀ i, w.known ≤ i → w.held i = none
  /-- Marks come from events that happened. -/
  fresh : ∀ i m, w.held i = some m → m.event < w.events

namespace Indexes

variable {w : Window} {x : BlockIndex}

/-- A block starts at or above the floor. -/
theorem floor_le (h : Indexes w x) {b : Block} (hb : b ∈ x.blocks) : w.floor ≤ b.first := by
  by_contra hlt
  have hcov : b.Covers b.first := ⟨le_rfl, h.tiles.sorted.nonempty b hb⟩
  exact h.tiles.not_covers (h.below _ (not_le.mp hlt)) hb hcov

/-- A block stops at or below what is known. -/
theorem stop_le (h : Indexes w x) : ∀ b ∈ x.blocks, b.stop ≤ w.known := by
  intro b hb
  by_contra hlt
  have hne := h.tiles.sorted.nonempty b hb
  have hcov : b.Covers (b.stop - 1) := ⟨by omega, by omega⟩
  exact h.tiles.not_covers (h.above _ (by omega)) hb hcov

theorem heads_eq (h : Indexes w x) : w.heads = x.blocks.map Piece.first :=
  h.tiles.map_first_eq h.stop_le

/-- Raising the floor of the index forgets what raising the window's does. -/
theorem raiseFloor (h : Indexes w x) (f : ℕ) : Indexes (w.raise f) (x.raiseFloor f) := by
  by_cases hf : f ≤ x.floor
  · have hheld : (w.raise f).held = w.held := by
      funext i
      simp only [Window.raise]
      split_ifs with hi
      · rw [h.floor_eq] at hf
        exact (h.below i (lt_of_lt_of_le hi hf)).symm
      · rfl
    have hraise : w.raise f = w := by
      have hfloor : max w.floor f = w.floor := max_eq_left (h.floor_eq ▸ hf)
      simp only [Window.raise] at hheld ⊢
      rw [hheld, hfloor]
    rw [BlockIndex.raiseFloor, if_pos hf, hraise]
    exact h
  · have hfloor : max w.floor f = f := by
      rw [h.floor_eq] at hf
      omega
    rw [BlockIndex.raiseFloor, if_neg hf]
    refine ⟨h.unit_eq, h.capacity_eq, h.maxBlocks_eq, h.end_eq, hfloor.symm, ?_, ?_, ?_, ?_⟩
    · rw [h.unit_eq]
      exact h.tiles.dropBelow fun b hb hlt i m _ hi hrep => hrep.trimmed hlt hi
    · intro i hi
      simp only [Window.raise, hfloor] at hi ⊢
      exact if_pos hi
    · intro i hi
      simp only [Window.raise]
      split_ifs
      · rfl
      · exact h.above i hi
    · intro i m hm
      simp only [Window.raise] at hm
      split_ifs at hm
      exact h.fresh i m hm

/-- Learning of records up to `stop`. -/
theorem advance (h : Indexes w x) (stop : ℕ) : Indexes (w.advance stop) (x.advance stop) := by
  have hknown : Indexes { w with known := max w.known stop }
      { x with «end» := max x.end stop } :=
    { h with
      end_eq := by rw [h.end_eq]
      above := fun i hi => h.above i (le_trans (le_max_left _ _) hi) }
  have hraise := hknown.raiseFloor (max w.known stop - w.capacity)
  rw [← h.capacity_eq] at hraise
  unfold BlockIndex.advance
  rw [← h.end_eq] at hraise
  convert hraise using 1
  rw [Window.advance, h.capacity_eq, h.end_eq]

/-- A block is found to stop where it does. -/
theorem blockEnd_eq (h : Indexes w x) {b : Block} (hb : b ∈ x.blocks) :
    w.blockEnd b.first = b.stop := by
  have hne := h.tiles.sorted.nonempty b hb
  have hstop := h.stop_le b hb
  obtain ⟨t, ht⟩ := h.tiles.piece b hb
  obtain ⟨m, hm, -, hmt⟩ := ht b.first ⟨le_rfl, hne⟩
  have hsame : ∀ j, b.first < j → j < b.stop →
      (w.held j).map Mark.event = (w.held b.first).map Mark.event := by
    intro j h1 h2
    obtain ⟨n, hn, -, hnt⟩ := ht j ⟨h1.le, h2⟩
    rw [hn, hm, Option.map_some, Option.map_some, hnt, hmt]
  obtain hlt | heq := lt_or_eq_of_le hstop
  · have hdiff : (w.held b.stop).map Mark.event ≠ (w.held b.first).map Mark.event := by
      cases hn : w.held b.stop with
      | none => simp [hm]
      | some n =>
          rw [hm, Option.map_some, Option.map_some, ne_eq, Option.some.injEq]
          exact h.tiles.tag_stop hb hm hn
    rw [Window.blockEnd, List.find?_range_eq_some.mpr, Option.getD_some]
    refine ⟨decide_eq_true ⟨hne, hdiff⟩, List.mem_range.mpr hlt, fun j hj => ?_⟩
    rw [Bool.not_eq_true', decide_eq_false_iff_not, not_and, not_not]
    exact fun hfirst => hsame j hfirst hj
  · rw [Window.blockEnd, List.find?_range_eq_none.mpr, Option.getD_none, heq]
    intro j hj
    rw [Bool.not_eq_true', decide_eq_false_iff_not, not_and, not_not]
    exact fun hfirst => hsame j hfirst (by omega)

/-- Dropping the oldest block. -/
theorem dropOldest (h : Indexes w x) {b : Block} {blocks : List Block}
    (hblocks : x.blocks = b :: blocks) :
    Indexes w.dropOldest { x with floor := max x.floor b.stop, blocks := blocks } := by
  have hb : b ∈ x.blocks := by simp [hblocks]
  have hsorted := h.tiles.sorted
  rw [hblocks] at hsorted
  obtain ⟨hne, hall, hrest⟩ := Sorted.cons_iff.mp hsorted
  have hfloor := h.floor_le hb
  have hlt : ¬ b.stop ≤ x.floor := by rw [h.floor_eq]; omega
  have hdrop : dropBelow (BlockIndex.trimmed x.unit) b.stop x.blocks = blocks := by
    rw [hblocks]
    cases blocks with
    | nil => simp [dropBelow]
    | cons c blocks =>
        have hc := hall c (by simp)
        have hcne := hrest.nonempty c (by simp)
        simp [dropBelow, not_lt.mpr hc, show ¬ c.stop ≤ b.stop by omega]
  have hraise := h.raiseFloor b.stop
  rw [BlockIndex.raiseFloor, if_neg hlt, hdrop] at hraise
  have hmax : max x.floor b.stop = b.stop := by omega
  have hwindow : w.dropOldest = w.raise b.stop := by
    rw [Window.dropOldest, h.heads_eq, hblocks, List.map_cons]
    exact congrArg w.raise (h.blockEnd_eq hb)
  rw [hwindow, hmax]
  exact hraise

/-- Dropping the oldest blocks down to the limit. -/
theorem iterate_dropOldest (h : Indexes w x) :
    Indexes (Window.dropOldest^[x.blocks.length - w.maxBlocks] w) x.enforceBlockLimit := by
  obtain ⟨unit, capacity, maxBlocks, blocks, «end», floor⟩ := x
  induction blocks generalizing w floor with
  | nil => simpa [BlockIndex.enforceBlockLimit, BlockIndex.dropOldest] using h
  | cons b blocks ih =>
      have hmax : maxBlocks = w.maxBlocks := h.maxBlocks_eq
      by_cases hlimit : maxBlocks < (b :: blocks).length
      · have hdrop := h.dropOldest rfl
        have hkeep : w.dropOldest.maxBlocks = w.maxBlocks := hdrop.maxBlocks_eq.symm.trans hmax
        have hcount : (b :: blocks).length - w.maxBlocks =
            blocks.length - w.dropOldest.maxBlocks + 1 := by
          rw [hkeep, List.length_cons] at *
          omega
        have hrest := ih _ hdrop
        simp only [BlockIndex.enforceBlockLimit] at hrest ⊢
        rw [BlockIndex.dropOldest, if_pos hlimit, hcount, Function.iterate_succ_apply]
        exact hrest
      · have hzero : (b :: blocks).length - w.maxBlocks = 0 := by omega
        simp only [BlockIndex.enforceBlockLimit]
        rw [BlockIndex.dropOldest, if_neg hlimit, hzero]
        exact h

theorem limit (h : Indexes w x) : Indexes w.limit x.enforceBlockLimit := by
  rw [Window.limit, h.heads_eq, List.length_map]
  exact h.iterate_dropOldest

/-- The ranges found are exactly the records no block counts for. -/
theorem mem_uncovered_iff (h : Indexes w x) {first stop i : ℕ} {dataOnly : Bool} :
    (∃ g ∈ x.uncovered first stop dataOnly, g.1 ≤ i ∧ i < g.2) ↔
      first ≤ i ∧ i < stop ∧ ∀ m, w.held i = some m → dataOnly = true ∧ m.isData = false := by
  have hsorted := h.tiles.sorted
  rw [BlockIndex.uncovered, BlockIndex.after, mem_gaps_iff (hsorted.dropWhile _)]
  refine and_congr_right fun hfirst => and_congr_right fun _ => ?_
  constructor
  · intro hnone m hm
    obtain ⟨b, hb, hcov⟩ := h.tiles.covered i m hm
    have hlt := hcov.2
    have hcount : BlockIndex.counts dataOnly b = false := by
      by_contra hcount
      rw [Bool.not_eq_false] at hcount
      exact hnone b (hsorted.mem_dropWhile_iff.mpr ⟨hb, by omega⟩) hcount hcov
    obtain ⟨n, hn, hrep⟩ := h.tiles.rep_of_mem hb hcov
    rw [hm, Option.some.injEq] at hn
    subst hn
    simp only [BlockIndex.counts, Bool.not_eq_false', Bool.and_eq_true, decide_eq_true_eq]
      at hcount
    exact ⟨hcount.1, hrep.isData_eq_false_iff.mpr hcount.2⟩
  · intro hsoft b hb hcount hcov
    obtain ⟨m, hm, hrep⟩ := h.tiles.rep_of_mem (List.dropWhile_subset _ hb) hcov
    obtain ⟨rfl, hdata⟩ := hsoft m hm
    have hkind := hrep.isData_eq_false_iff.mp hdata
    simp [BlockIndex.counts, hkind] at hcount

theorem spaced_uncovered (h : Indexes w x) (first stop : ℕ) (dataOnly : Bool) :
    Spaced first stop (x.uncovered first stop dataOnly) :=
  spaced_gaps _ (h.tiles.sorted.dropWhile _) first

/-- Ranges are filled with blocks, and their records marked. -/
theorem mark (h : Indexes w x) {gs : List (ℕ × ℕ)} {start stop : ℕ}
    (hgs : Spaced start stop gs) (hfloor : w.floor ≤ start) (hknown : stop ≤ w.known)
    {p : ℕ → Prop} [DecidablePred p] (hp : ∀ i, p i ↔ ∃ g ∈ gs, g.1 ≤ i ∧ i < g.2)
    (hsoft : ∀ i, p i → ∀ m, w.held i = some m → m.isData = false)
    {m : ℕ → Mark} {b : ℕ × ℕ → Block} (hnew : ∀ g, (b g).first = g.1 ∧ (b g).stop = g.2)
    (hrep : ∀ g ∈ gs, ∀ i, g.1 ≤ i → i < g.2 →
      Says w.unit (b g) i (m i) ∧ (m i).event = w.events) :
    Indexes (w.mark p m)
      { x with blocks := gs.foldl (fun bs g => Intervals.place (b g) (cut g.1 g.2 bs)) x.blocks } := by
  have hheld : ∀ i, (w.mark p m).held i =
      if ∃ g ∈ gs, g.1 ≤ i ∧ i < g.2 then some (m i) else w.held i := by
    intro i
    simp only [Window.mark, hp i]
  have hinside : ∀ i, (∃ g ∈ gs, g.1 ≤ i ∧ i < g.2) → start ≤ i ∧ i < stop := by
    rintro i ⟨g, hg, h1, h2⟩
    have hin := hgs.inside g hg
    omega
  refine ⟨h.unit_eq, h.capacity_eq, h.maxBlocks_eq, h.end_eq, h.floor_eq, ?_, ?_, ?_, ?_⟩
  · rw [funext hheld]
    refine h.tiles.fill hgs hnew hrep (· = .missing) ?_ ?_ ?_ ?_
    · exact fun hsoft hkind hrep => hrep.of_missing hsoft hkind
    · -- a block that reaches into a range to be filled is a missing one
      intro g hg c hc h1 h2
      have hne := h.tiles.sorted.nonempty c hc
      have hin := (hgs.inside g hg).2.1
      obtain ⟨n, hn, hrep⟩ := h.tiles.rep_of_mem hc (i := max c.first g.1)
        ⟨by omega, by omega⟩
      have hfill := (hp (max c.first g.1)).mpr ⟨g, hg, by omega, by omega⟩
      exact hrep.isData_eq_false_iff.mp (hsoft _ hfill n hn)
    · exact fun g _ n _ hn => (h.fresh _ n hn).ne
    · exact fun g _ n hn => (h.fresh _ n hn).ne
  · intro i hi
    have hi : i < w.floor := hi
    rw [hheld, if_neg fun hin => by have := hinside i hin; omega]
    exact h.below i hi
  · intro i hi
    have hi : w.known ≤ i := hi
    rw [hheld, if_neg fun hin => by have := hinside i hin; omega]
    exact h.above i hi
  · intro i n hn
    rw [hheld] at hn
    split_ifs at hn with hin
    · obtain ⟨g, hg, h1, h2⟩ := hin
      rw [← Option.some.inj hn, (hrep g hg i h1 h2).2]
      exact Nat.lt_succ_self _
    · exact Nat.lt_succ_of_lt (h.fresh i n hn)

/-- No record marked. -/
theorem mark_none (h : Indexes w x) {p : ℕ → Prop} [DecidablePred p] (hnone : ∀ i, ¬ p i)
    (m : ℕ → Mark) : Indexes (w.mark p m) x := by
  have hheld : (w.mark p m).held = w.held := funext fun i => if_neg (hnone i)
  refine ⟨h.unit_eq, h.capacity_eq, h.maxBlocks_eq, h.end_eq, h.floor_eq, ?_, ?_, ?_, ?_⟩
  · rw [hheld]
    exact h.tiles
  · rw [hheld]
    exact h.below
  · rw [hheld]
    exact h.above
  · rw [hheld]
    exact fun i n hn => Nat.lt_succ_of_lt (h.fresh i n hn)

/-- **Inserting data** does what bringing a packet's records does, and returns the ranges of
the records brought. -/
theorem insertData (h : Indexes w x) (hfew : x.blocks.length ≤ x.maxBlocks) (first stop : ℕ)
    (info : BlockMeta) (discontinuity : Bool) (value : ℕ → Record) :
    Indexes ((w.advance stop).mark ((w.advance stop).Brings first stop) fun i =>
        .data (w.advance stop).events info first discontinuity (value i)).limit
      (x.insertData first stop info discontinuity).1 ∧
    (∀ i, (w.advance stop).Brings first stop i ↔
      ∃ g ∈ (x.insertData first stop info discontinuity).2, g.1 ≤ i ∧ i < g.2) ∧
    Spaced (max first (w.advance stop).floor) stop
      (x.insertData first stop info discontinuity).2 := by
  have hadv := h.advance stop
  have hknown : stop ≤ (w.advance stop).known := le_max_right _ _
  have hfew' := (x.length_advance_le stop).trans hfew
  rw [← x.maxBlocks_advance stop] at hfew'
  simp only [BlockIndex.insertData]
  generalize w.advance stop = w' at *
  generalize x.advance stop = x' at *
  rw [hadv.floor_eq]
  by_cases hempty : stop ≤ max first w'.floor
  · -- nothing the window would keep
    have hnone : ∀ i, ¬ w'.Brings first stop i := by
      rintro i ⟨h1, h2, h3, -⟩
      omega
    have hspaced : Spaced (max first w'.floor) stop [] := ⟨by simp, List.Pairwise.nil⟩
    rw [if_pos hempty]
    refine ⟨?_, fun i => by simp [hnone i], hspaced⟩
    have hlimit := (hadv.mark_none hnone fun i =>
      .data w'.events info first discontinuity (value i)).limit
    rw [BlockIndex.enforceBlockLimit_eq_self hfew'] at hlimit
    exact hlimit
  · have hspaced := hadv.spaced_uncovered (max first w'.floor) stop true
    have hmem : ∀ i, w'.Brings first stop i ↔
        ∃ g ∈ x'.uncovered (max first w'.floor) stop true, g.1 ≤ i ∧ i < g.2 := by
      intro i
      rw [hadv.mem_uncovered_iff, Window.Brings]
      simp only [true_and, Option.mem_def, max_le_iff]
      tauto
    rw [if_neg hempty]
    refine ⟨?_, hmem, hspaced⟩
    have hmark := hadv.mark hspaced (le_max_right _ _) hknown hmem (fun i hi => hi.2.2.2)
      (m := fun i => .data w'.events info first discontinuity (value i))
      (b := fun g => ⟨g.1, g.2, .data (info.advanced (g.1 - first) x'.unit)
        (discontinuity && g.1 = first)⟩)
      (fun g => ⟨rfl, rfl⟩) ?_
    · rw [hadv.floor_eq] at hmark
      exact hmark.limit
    intro g hg i h1 h2
    refine ⟨⟨?_, ?_, ?_⟩, rfl⟩
    · have hin := (hspaced.inside g hg).1
      omega
    · have hin := (hspaced.inside g hg).1
      have hsum : g.1 - first + (i - g.1) = i - first := by omega
      rw [hadv.unit_eq, BlockMeta.advanced_advanced, hsum]
    · have hin := (hspaced.inside g hg).1
      by_cases hi : i = g.1
      · subst hi
        simp
      · rw [decide_eq_false hi, decide_eq_false (show ¬ i = first by omega)]
        simp

/-- **Inserting missing records** marks them where nothing is known. -/
theorem insertMissing (h : Indexes w x) (hfew : x.blocks.length ≤ x.maxBlocks)
    (first stop : ℕ) : Indexes (w.markMissing first stop) (x.insertMissing first stop) := by
  have hadv := h.advance stop
  have hknown : stop ≤ (w.advance stop).known := le_max_right _ _
  have hfew' := (x.length_advance_le stop).trans hfew
  rw [← x.maxBlocks_advance stop] at hfew'
  simp only [BlockIndex.insertMissing, Window.markMissing]
  generalize w.advance stop = w' at *
  generalize x.advance stop = x' at *
  rw [hadv.floor_eq]
  by_cases hempty : stop ≤ max first w'.floor
  · have hnone : ∀ i, ¬ (first ≤ i ∧ i < stop ∧ w'.floor ≤ i ∧ w'.held i = none) := by
      rintro i ⟨h1, h2, h3, -⟩
      omega
    have hlimit := (hadv.mark_none hnone fun _ => .missing w'.events).limit
    rw [BlockIndex.enforceBlockLimit_eq_self hfew'] at hlimit
    rw [if_pos hempty]
    exact hlimit
  · have hspaced := hadv.spaced_uncovered (max first w'.floor) stop false
    have hmem : ∀ i, (first ≤ i ∧ i < stop ∧ w'.floor ≤ i ∧ w'.held i = none) ↔
        ∃ g ∈ x'.uncovered (max first w'.floor) stop false, g.1 ≤ i ∧ i < g.2 := by
      intro i
      rw [hadv.mem_uncovered_iff, Option.eq_none_iff_forall_ne_some]
      simp only [Bool.false_eq_true, false_and, imp_false, max_le_iff, ne_eq]
      tauto
    -- no block reaches into a range where nothing is known
    have hclear : ∀ g ∈ x'.uncovered (max first w'.floor) stop false, ∀ b ∈ x'.blocks,
        b.stop ≤ g.1 ∨ g.2 ≤ b.first := by
      intro g hg b hb
      by_contra hreach
      have hne := hadv.tiles.sorted.nonempty b hb
      have hin := (hspaced.inside g hg).2.1
      have hfree := (hmem (max b.first g.1)).mpr ⟨g, hg, by omega, by omega⟩
      exact hadv.tiles.not_covers hfree.2.2.2 hb ⟨by omega, by omega⟩
    have hmark := hadv.mark (m := fun _ => .missing w'.events) (b := fun g => ⟨g.1, g.2, .missing⟩)
      hspaced (le_max_right _ _) hknown hmem
      (fun i hi m hm => by rw [hi.2.2.2] at hm; cases hm)
      (fun g => ⟨rfl, rfl⟩) fun g hg i h1 h2 => ⟨trivial, rfl⟩
    rw [← Tiles.foldl_place_eq hspaced (fun g => ⟨rfl, rfl⟩) hclear, hadv.floor_eq] at hmark
    rw [if_neg hempty]
    exact hmark.limit

end Indexes

end EchoMuse.Uplink
