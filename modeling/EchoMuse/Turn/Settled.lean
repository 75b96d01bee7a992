import EchoMuse.Turn.Assembly

/-!
# Settled Evidence

Whether two orders of the same evidence release the same depends on the gaps alone: a gap cell is
released as soon as its mark is there, without waiting for the other inputs of the cell, and
without waiting for ASR results that end before it. Evidence is settled when no released cell
depends on what is there first.

## Main results

* `eq_of_before`: items in sample order are known from the cells and the blocks alone;
* `settling_invariant`: what holds while settled evidence is pushed;
* `Evidence.Settled.total_eq`: settled evidence comes out the same in every order.
-/

namespace EchoMuse.Turn

/-! ### Evidence -/

/-- The evidence of an utterance, whatever the order it is pushed in: at most one value for each
cell and input, the cells that are marked, and the ASR results. -/
structure Evidence where
  slot : ℕ → Slot
  asr : List AsrObservation

/-- The cell is a gap, marked or by its device record. -/
def Slot.isGap (s : Slot) : Bool := s.gap || s.deviceGap

/-- The device record says that the device was muted. -/
def Slot.deviceMuted (s : Slot) : Bool :=
  match s.device with
  | some (.cell d) => d.muted
  | _ => false

/-- The call is of the plan's epoch, and for cells that the plan asks that input on. -/
def Push.Within (plan : EvidencePlan) : Push → Prop
  | .device epoch first _ => epoch = plan.epoch ∧ plan.cellsFrom ≤ first
  | .vad epoch first _ => epoch = plan.epoch ∧ plan.vadFrom ≤ first
  | .echo epoch first _ => epoch = plan.epoch ∧ plan.analysisFrom ≤ first
  | .gap epoch _ => epoch = plan.epoch
  | .asr epoch _ => epoch = plan.epoch
  | .release => True

namespace Evidence

variable (plan : EvidencePlan) (E : Evidence)

/-- Calls push exactly the evidence, the ASR results in their order. -/
structure PushedBy (ps : List Push) : Prop where
  within : ∀ p ∈ ps, p.Within plan
  device : ∀ c v, (E.slot c).device = some v ↔ ∃ p ∈ ps, p.deviceAt c = some v
  vad : ∀ c v, (E.slot c).vad = some v ↔ ∃ p ∈ ps, p.vadAt c = some v
  echo : ∀ c v, (E.slot c).echo = some v ↔ ∃ p ∈ ps, p.echoAt c = some v
  gap : ∀ c, plan.cellsFrom ≤ c → ((E.slot c).gap = true ↔ ∃ p ∈ ps, p.gapAt c = true)
  asr : asrOf ps = E.asr

/-- The evidence is for cells of the plan, none too far ahead, and the ASR results cover more and
more of the utterance. -/
structure Fits : Prop where
  cells : ∀ c, E.slot c ≠ {} → plan.cellsFrom ≤ c ∧ c < plan.cellsFrom + maxCellsAhead
  vad : ∀ c, c < plan.vadFrom → (E.slot c).vad = none
  echo : ∀ c, c < plan.analysisFrom → (E.slot c).echo = none
  increasing : E.asr.Pairwise (·.through < ·.through)
  inside : ∀ o ∈ E.asr, cellStart plan.analysisFrom < o.through

/-- The ASR results cover the cell, or need not. -/
def Covered (c : ℕ) : Prop :=
  c < plan.analysisFrom ∨ (∃ g, plan.analysisFrom ≤ g ∧ g < c ∧ (E.slot g).isGap = true) ∨
    ∃ o ∈ E.asr, cellEnd c ≤ o.through

/-- The cell has every input the plan requires. -/
def Complete (c : ℕ) : Prop :=
  (E.slot c).device.isSome = true ∧ (c < plan.vadFrom ∨ (E.slot c).vad.isSome = true) ∧
    (c < plan.analysisFrom ∨ (E.slot c).echo.isSome = true) ∧ E.Covered plan c

/-- The cell can be released. -/
def Ready (c : ℕ) : Prop := (E.slot c).isGap = true ∨ E.Complete plan c

/-- The cell and every one before it can be released. -/
def Reached (c : ℕ) : Prop :=
  plan.cellsFrom ≤ c ∧ ∀ d, plan.cellsFrom ≤ d → d ≤ c → E.Ready plan d

/-- No released cell depends on what is there first. A marked cell is a gap whatever else arrives:
its device record does not say muted, and says gap unless the cell is incomplete without the mark.
An ASR result that ends before the end of a cell behind a gap, or of the gap itself, is the first
to reach the gap's start, so the cell before the gap has waited for it. -/
structure Settled : Prop where
  marks : ∀ c, E.Reached plan c → (E.slot c).gap = true → (E.slot c).deviceMuted = false ∧
    ((E.slot c).deviceGap = true ∨ ¬ E.Complete plan c)
  blocks : ∀ g c, E.Reached plan c → plan.analysisFrom ≤ g → g ≤ c → (E.slot g).isGap = true →
    ∀ before o after, E.asr = before ++ o :: after → o.through < cellEnd c →
      plan.analysisFrom < g ∧ ∀ o' ∈ before, o'.through < cellStart g

end Evidence

/-- A slot that holds no more than another. -/
structure Slot.Le (s t : Slot) : Prop where
  device : ∀ v, s.device = some v → t.device = some v
  vad : ∀ v, s.vad = some v → t.vad = some v
  echo : ∀ v, s.echo = some v → t.echo = some v
  gap : s.gap = true → t.gap = true

/-- A gap cell is released as a gap. -/
theorem fromInputs_gap_iff {s : Slot} :
    (∃ m, CellAudio.fromInputs s = .gap m) ↔ s.isGap = true := by
  obtain ⟨device, vad, echo, gap⟩ := s
  unfold CellAudio.fromInputs Slot.isGap Slot.deviceGap
  rcases device with _ | (d | _)
  · cases gap <;> simp
  · by_cases hd : (d.gap || d.muted) = true
    · simp only [hd, if_true, Bool.or_true, iff_true]
      exact ⟨_, rfl⟩
    · cases gap <;> simp [hd]
  · cases gap <;> simp

/-- A gap record decides what is released. -/
theorem fromInputs_of_deviceGap {s : Slot} (h : s.deviceGap = true) :
    CellAudio.fromInputs s = .gap s.deviceMuted := by
  obtain ⟨device, vad, echo, gap⟩ := s
  unfold Slot.deviceGap at h
  unfold CellAudio.fromInputs Slot.deviceMuted
  rcases device with _ | (d | _)
  · cases h
  · exact if_pos h
  · cases h

/-- A marked cell is a gap, unless its record says muted. -/
theorem fromInputs_of_gap {s : Slot} (h : s.gap = true) (hmuted : s.deviceMuted = false) :
    CellAudio.fromInputs s = .gap false := by
  obtain ⟨device, vad, echo, gap⟩ := s
  obtain rfl : gap = true := h
  unfold Slot.deviceMuted at hmuted
  unfold CellAudio.fromInputs
  rcases device with _ | (d | _)
  · rfl
  · dsimp only at hmuted ⊢
    rw [hmuted]
    by_cases hd : (d.gap || false) = true
    · rw [if_pos hd]
    · rw [if_neg hd]
      rfl
  · rfl

/-- A muted record is a gap record. -/
theorem Slot.deviceMuted_of_not_deviceGap {s : Slot} (h : s.deviceGap = false) :
    s.deviceMuted = false := by
  obtain ⟨device, vad, echo, gap⟩ := s
  unfold Slot.deviceGap at h
  unfold Slot.deviceMuted
  rcases device with _ | (d | _)
  · rfl
  · exact (Bool.or_eq_false_iff.mp h).2
  · rfl

/-- A gap record is what the whole slot has too. -/
theorem Slot.Le.deviceGap {s t : Slot} (h : s.Le t) (hgap : s.deviceGap = true) :
    t.device = s.device := by
  have hdevice := h.device
  unfold Slot.deviceGap at hgap
  cases hd : s.device with
  | none =>
      rw [hd] at hgap
      cases hgap
  | some v => exact hdevice v hd

/-- A slot with fewer inputs is released as the whole one, unless a mark makes the difference. -/
theorem Slot.Le.fromInputs_eq {s t : Slot} (h : s.Le t)
    (hmark : s.deviceGap = false → s.gap = true → t.deviceMuted = false)
    (hplain : s.isGap = false → t.gap = false ∧ t.device = s.device ∧ t.vad = s.vad ∧
      t.echo = s.echo) : CellAudio.fromInputs s = CellAudio.fromInputs t := by
  cases hdevice : s.deviceGap with
  | true =>
      have heq := h.deviceGap hdevice
      have ht : t.deviceGap = true := by
        rw [← hdevice]
        unfold Slot.deviceGap
        rw [heq]
      rw [fromInputs_of_deviceGap hdevice, fromInputs_of_deviceGap ht]
      unfold Slot.deviceMuted
      rw [heq]
  | false =>
      cases hgap : s.gap with
      | true =>
          rw [fromInputs_of_gap hgap (Slot.deviceMuted_of_not_deviceGap hdevice),
            fromInputs_of_gap (h.gap hgap) (hmark hdevice hgap)]
      | false =>
          have hs : s.isGap = false := by
            unfold Slot.isGap
            rw [hgap, hdevice]
            rfl
          obtain ⟨hgap', hd, hv, he⟩ := hplain hs
          have heq : t = s := by
            obtain ⟨sd, sv, se, sg⟩ := s
            obtain ⟨td, tv, te, tg⟩ := t
            dsimp only at hgap hgap' hd hv he
            rw [hd, hv, he, hgap', hgap]
          rw [heq]

/-! ### Calls that push evidence -/

section

variable {plan : EvidencePlan} {E : Evidence} {full ps : List Push}

/-- The last of the values that calls have. -/
theorem foldl_or_some {β γ : Type} (f : β → Option γ) {l : List β} {o : Option γ} {v : γ}
    (h : l.foldl (fun o p => (f p).or o) o = some v) : o = some v ∨ ∃ p ∈ l, f p = some v := by
  induction l generalizing o with
  | nil => exact .inl h
  | cons p l ih =>
      rcases ih h with ho | ⟨p', hp', hv⟩
      · dsimp only at ho
        cases hf : f p with
        | none =>
            rw [hf] at ho
            exact .inl ho
        | some w =>
            rw [hf] at ho
            exact .inr ⟨p, List.mem_cons_self, hf.trans ho⟩
      · exact .inr ⟨p', List.mem_cons_of_mem _ hp', hv⟩

theorem foldl_or_isSome {β γ : Type} (f : β → Option γ) {l : List β} {o : Option γ}
    (h : o.isSome = true ∨ ∃ p ∈ l, (f p).isSome = true) :
    (l.foldl (fun o p => (f p).or o) o).isSome = true := by
  induction l generalizing o with
  | nil =>
      rcases h with h | ⟨p, hp, -⟩
      · exact h
      · cases hp
  | cons p l ih =>
      refine ih ?_
      rcases h with h | ⟨p', hp', hv⟩
      · left
        cases f p <;> simp [h]
      · rcases List.mem_cons.mp hp' with rfl | hmem
        · left
          rw [Option.isSome_or, hv]
          rfl
        · exact .inr ⟨p', hmem, hv⟩

/-- The inputs that calls have for a cell, each the last of its kind. -/
theorem collected_eq (ps : List Push) (c : ℕ) : collected ps c =
    { device := ps.foldl (fun o p => (p.deviceAt c).or o) none
      vad := ps.foldl (fun o p => (p.vadAt c).or o) none
      echo := ps.foldl (fun o p => (p.echoAt c).or o) none
      gap := ps.any (·.gapAt c) } := by
  have hgen (s : Slot) : ps.foldl (fun s p => s.add p c) s =
      { device := ps.foldl (fun o p => (p.deviceAt c).or o) s.device
        vad := ps.foldl (fun o p => (p.vadAt c).or o) s.vad
        echo := ps.foldl (fun o p => (p.echoAt c).or o) s.echo
        gap := s.gap || ps.any (·.gapAt c) } := by
    induction ps generalizing s with
    | nil => simp
    | cons p ps ih =>
        rw [List.foldl_cons, ih]
        simp [Slot.add, Bool.or_assoc]
  exact hgen {}

/-- Calls at the front have no more for a cell than the evidence. -/
theorem Evidence.PushedBy.le (h : E.PushedBy plan full) (hps : ps <+: full) {c : ℕ}
    (hc : plan.cellsFrom ≤ c) : (collected ps c).Le (E.slot c) := by
  rw [collected_eq]
  refine ⟨fun v hv => ?_, fun v hv => ?_, fun v hv => ?_, fun hgap => ?_⟩
  · rcases foldl_or_some _ hv with hnone | ⟨p, hp, hv⟩
    · cases hnone
    · exact (h.device c v).mpr ⟨p, hps.subset hp, hv⟩
  · rcases foldl_or_some _ hv with hnone | ⟨p, hp, hv⟩
    · cases hnone
    · exact (h.vad c v).mpr ⟨p, hps.subset hp, hv⟩
  · rcases foldl_or_some _ hv with hnone | ⟨p, hp, hv⟩
    · cases hnone
    · exact (h.echo c v).mpr ⟨p, hps.subset hp, hv⟩
  · obtain ⟨p, hp, hgap⟩ := List.any_eq_true.mp hgap
    exact (h.gap c hc).mpr ⟨p, hps.subset hp, hgap⟩

/-- All calls have the evidence. -/
theorem Evidence.PushedBy.collected (h : E.PushedBy plan full) {c : ℕ}
    (hc : plan.cellsFrom ≤ c) : collected full c = E.slot c := by
  have hle := h.le (List.prefix_refl full) hc
  have hopt {γ : Type} {f : Push → Option γ} {o o' : Option γ}
      (ho : o = full.foldl (fun o p => (f p).or o) none) (hle : ∀ v, o = some v → o' = some v)
      (hall : ∀ v, o' = some v → ∃ p ∈ full, f p = some v) : o = o' := by
    cases ho' : o' with
    | none =>
        cases hv : o with
        | none => rfl
        | some v =>
            rw [hle v hv] at ho'
            cases ho'
    | some v =>
        obtain ⟨p, hp, hv⟩ := hall v ho'
        have hsome := foldl_or_isSome f (o := none) (.inr ⟨p, hp, by rw [hv]; rfl⟩)
        obtain ⟨w, hw⟩ := Option.isSome_iff_exists.mp hsome
        rw [← ho] at hw
        rw [hw, ← ho', hle w hw]
  have heq := collected_eq full c
  have hdevice := hopt (congrArg Slot.device heq) hle.device fun v => (h.device c v).mp
  have hvad := hopt (congrArg Slot.vad heq) hle.vad fun v => (h.vad c v).mp
  have hecho := hopt (congrArg Slot.echo heq) hle.echo fun v => (h.echo c v).mp
  have hgap : (Turn.collected full c).gap = (E.slot c).gap := by
    rw [Bool.eq_iff_iff, h.gap c hc, heq]
    exact List.any_eq_true
  cases hs : Turn.collected full c with
  | mk device vad echo gap =>
      rw [hs] at hdevice hvad hecho hgap
      cases ht : E.slot c with
      | mk device' vad' echo' gap' =>
          rw [ht] at hdevice hvad hecho hgap
          dsimp only at hdevice hvad hecho hgap
          rw [hdevice, hvad, hecho, hgap]

/-- A value for a cell is behind the first cell of its batch. -/
theorem first_le_of_valueAt {γ : Type} {first c : ℕ} {values : List γ} {v : γ}
    (h : valueAt first values c = some v) : first ≤ c := by
  unfold valueAt at h
  by_contra hc
  rw [if_neg hc] at h
  cases h

/-- The plan asks for no VAD result before its start. -/
theorem Evidence.PushedBy.vad_none (h : E.PushedBy plan full) {c : ℕ} (hc : c < plan.vadFrom) :
    (E.slot c).vad = none := by
  cases hv : (E.slot c).vad with
  | none => rfl
  | some v =>
      obtain ⟨p, hp, hat⟩ := (h.vad c v).mp hv
      have hwithin := h.within p hp
      cases p with
      | vad epoch first values =>
          have hfirst : first ≤ c := first_le_of_valueAt hat
          have := hwithin.2
          omega
      | _ => cases hat

/-- The plan asks for no echo label before the utterance. -/
theorem Evidence.PushedBy.echo_none (h : E.PushedBy plan full) {c : ℕ}
    (hc : c < plan.analysisFrom) : (E.slot c).echo = none := by
  cases hv : (E.slot c).echo with
  | none => rfl
  | some v =>
      obtain ⟨p, hp, hat⟩ := (h.echo c v).mp hv
      have hwithin := h.within p hp
      cases p with
      | echo epoch first values =>
          have hfirst : first ≤ c := first_le_of_valueAt hat
          have := hwithin.2
          omega
      | _ => cases hat

end

/-! ### The order of what is released -/

/-- `r` may come before `r'`: a block comes behind the cells that end at or before it, and before
those that end after it. -/
def Released.Before : Released → Released → Prop
  | .cell c _, .block b => cellEnd c ≤ b.through
  | .block b, .cell c _ => b.through < cellEnd c
  | _, _ => True

/-- The released items are in sample order: the cells one after the other, each block between
them where it belongs. -/
structure Ordered (plan : EvidencePlan) (out : List Released) : Prop where
  cells : ∃ n, cellsOf out = List.range' plan.cellsFrom n
  blocks : out.Pairwise Released.Before

/-- Items in sample order are known from the cells and the blocks alone. -/
theorem eq_of_before {out out' : List Released} (h : out.Pairwise Released.Before)
    (h' : out'.Pairwise Released.Before) (hblocks : blocksOf out = blocksOf out')
    (hcells : cellsOf out = cellsOf out')
    (haudio : ∀ c audio audio', .cell c audio ∈ out → .cell c audio' ∈ out' → audio = audio') :
    out = out' := by
  induction out generalizing out' with
  | nil =>
      cases out' with
      | nil => rfl
      | cons r' out' =>
          cases r' with
          | cell c audio => cases hcells
          | block b => cases hblocks
  | cons r out ih =>
      rw [List.pairwise_cons] at h
      cases out' with
      | nil =>
          cases r with
          | cell c audio => cases hcells
          | block b => cases hblocks
      | cons r' out' =>
          rw [List.pairwise_cons] at h'
          have htail (c : ℕ) (audio audio' : CellAudio) (hmem : .cell c audio ∈ out)
              (hmem' : .cell c audio' ∈ out') : audio = audio' :=
            haudio c audio audio' (List.mem_cons_of_mem _ hmem) (List.mem_cons_of_mem _ hmem')
          cases r with
          | cell c audio =>
              cases r' with
              | cell c' audio' =>
                  obtain ⟨rfl, hrest⟩ := List.cons.inj hcells
                  rw [haudio c audio audio' List.mem_cons_self List.mem_cons_self,
                    ih h.2 h'.2 hblocks hrest htail]
              | block b =>
                  have hb : .block b ∈ out := by
                    rw [← mem_blocksOf]
                    change blocksOf out = b :: blocksOf out' at hblocks
                    rw [hblocks]
                    exact List.mem_cons_self
                  obtain ⟨audio', hc⟩ : ∃ audio', .cell c audio' ∈ out' := by
                    rw [← mem_cellsOf]
                    change c :: cellsOf out = cellsOf out' at hcells
                    rw [← hcells]
                    exact List.mem_cons_self
                  exact absurd (h.1 _ hb) (not_le.mpr (h'.1 _ hc))
          | block b =>
              cases r' with
              | cell c audio =>
                  have hb : .block b ∈ out' := by
                    rw [← mem_blocksOf]
                    change b :: blocksOf out = blocksOf out' at hblocks
                    rw [← hblocks]
                    exact List.mem_cons_self
                  obtain ⟨audio', hc⟩ : ∃ audio', .cell c audio' ∈ out := by
                    rw [← mem_cellsOf]
                    change cellsOf out = c :: cellsOf out' at hcells
                    rw [hcells]
                    exact List.mem_cons_self
                  exact absurd (h'.1 _ hb) (not_le.mpr (h.1 _ hc))
              | block b' =>
                  obtain ⟨rfl, hrest⟩ := List.cons.inj hblocks
                  rw [ih h.2 h'.2 hrest hcells htail]

/-! ### Evidence whose order does not matter -/

/-- The cells are released with all that the evidence has for them. -/
def Evidence.Faithful (E : Evidence) (out : List Released) : Prop :=
  ∀ c audio, .cell c audio ∈ out → audio = CellAudio.fromInputs (E.slot c)

/-- What holds while settled evidence is pushed, on top of `Assembled`: the released cells have
all of the evidence, and no block that belongs before them is still to come. -/
structure Settling (plan : EvidencePlan) (E : Evidence) (ps : List Push) (a : EvidenceAssembler)
    (out : List Released) : Prop where
  faithful : E.Faithful out
  ready : ∀ c, plan.cellsFrom ≤ c → c < a.next → E.Ready plan c
  covered : ∀ c, plan.analysisFrom ≤ c → c < a.next →
    (∀ g, plan.analysisFrom ≤ g → g ≤ c → (E.slot g).isGap = false) →
      ∃ o ∈ asrOf ps, cellEnd c ≤ o.through
  late : ∀ o ∈ E.asr, o ∉ blocksOf out → cellStart a.next ≤ o.through
  order : out.Pairwise Released.Before

section

variable {plan : EvidencePlan} {E : Evidence} {full ps : List Push} {a : EvidenceAssembler}
  {out : List Released} {s : Slot} {rest : List Slot}

/-- The stream has ended once a gap of the utterance is released. -/
theorem Evidence.Faithful.closed_iff (h : E.Faithful out) (hA : Assembled plan ps a out)
    (hplan : plan.cellsFrom ≤ plan.analysisFrom) : a.asrClosed = true ↔
      ∃ g, plan.analysisFrom ≤ g ∧ g < a.next ∧ (E.slot g).isGap = true := by
  rw [hA.closed]
  constructor
  · rintro ⟨g, m, hg, hmem⟩
    have hm := h g _ hmem
    exact ⟨g, hg, (hA.lt_next hmem).2, fromInputs_gap_iff.mp ⟨m, hm.symm⟩⟩
  · rintro ⟨g, hg, hlt, hgap⟩
    obtain ⟨audio, hmem⟩ := hA.released (hplan.trans hg) hlt
    obtain ⟨m, hm⟩ := fromInputs_gap_iff.mpr hgap
    rw [h g audio hmem, hm] at hmem
    exact ⟨g, m, hg, hmem⟩

/-- What a cell that is released without being a gap has waited for. -/
theorem Evidence.Faithful.complete (h : E.Faithful out) (hA : Assembled plan ps a out)
    (hplan : plan.cellsFrom ≤ plan.analysisFrom) (hready : a.slotReady s = true) (hgap : s.isGap = false) :
    s.device.isSome = true ∧ (a.next < plan.vadFrom ∨ s.vad.isSome = true) ∧
      (a.next < plan.analysisFrom ∨ s.echo.isSome = true) ∧
      (a.next < plan.analysisFrom ∨
        (∃ g, plan.analysisFrom ≤ g ∧ g < a.next ∧ (E.slot g).isGap = true) ∨
        ∃ o ∈ asrOf ps, cellEnd a.next ≤ o.through) := by
  have hclosed := h.closed_iff hA hplan
  unfold EvidenceAssembler.slotReady at hready
  unfold Slot.isGap at hgap
  rw [hgap, Bool.false_or] at hready
  unfold EvidenceAssembler.asrCovers at hready
  simp only [Bool.and_eq_true, Bool.or_eq_true, decide_eq_true_eq, hA.plan_eq, hclosed] at hready
  obtain ⟨⟨⟨hdevice, hvad⟩, hecho⟩, hcovers⟩ := hready
  refine ⟨hdevice, hvad, hecho, ?_⟩
  rcases hcovers with (hfrom | hg) | hthrough
  · exact .inl hfrom
  · exact .inr (.inl hg)
  · refine .inr (.inr ?_)
    rw [hA.through] at hthrough
    cases hlast : (asrOf ps).getLast? with
    | none =>
        rw [hlast] at hthrough
        cases hthrough
    | some z =>
        rw [hlast] at hthrough
        exact ⟨z, List.mem_of_getLast? hlast, by simpa using hthrough⟩

/-- Calls at the front have ASR results at the front. -/
theorem asrOf_prefix (h : ps <+: full) : asrOf ps <+: asrOf full := h.filterMap _

/-- A gap stays a gap with more inputs. -/
theorem Slot.Le.isGap {t : Slot} (h : s.Le t) (hgap : s.isGap = true) : t.isGap = true := by
  unfold Slot.isGap at hgap ⊢
  rcases Bool.or_eq_true_iff.mp hgap with hmark | hdevice
  · rw [h.gap hmark, Bool.true_or]
  · have heq := h.deviceGap hdevice
    unfold Slot.deviceGap at hdevice ⊢
    rw [heq, hdevice, Bool.or_true]

/-- An input that is there is the evidence's. -/
theorem eq_of_le_some {γ : Type} {o o' : Option γ} (hle : ∀ v, o = some v → o' = some v)
    (h : o.isSome = true) : o' = o := by
  obtain ⟨v, hv⟩ := Option.isSome_iff_exists.mp h
  rw [hv, hle v hv]

theorem eq_of_le_none {γ : Type} {o o' : Option γ} (hle : ∀ v, o = some v → o' = some v)
    (h : o' = none) : o' = o := by
  cases o with
  | none => exact h
  | some v =>
      rw [hle v rfl] at h
      cases h

/-- The cell at the release point is ready with the whole evidence. -/
theorem Evidence.Faithful.ready_next (h : E.Faithful out) (hA : Assembled plan ps a out)
    (hplan : plan.cellsFrom ≤ plan.analysisFrom) (hle : s.Le (E.slot a.next))
    (hasr : asrOf ps <+: E.asr) (hready : a.slotReady s = true) : E.Ready plan a.next := by
  cases hgap : s.isGap with
  | true => exact .inl (hle.isGap hgap)
  | false =>
      obtain ⟨hdevice, hvad, hecho, hcovers⟩ := h.complete hA hplan hready hgap
      refine .inr ⟨?_, ?_, ?_, ?_⟩
      · rw [eq_of_le_some hle.device hdevice]
        exact hdevice
      · refine hvad.imp_right fun hsome => ?_
        rw [eq_of_le_some hle.vad hsome]
        exact hsome
      · refine hecho.imp_right fun hsome => ?_
        rw [eq_of_le_some hle.echo hsome]
        exact hsome
      · refine hcovers.imp_right (Or.imp_right ?_)
        rintro ⟨o, ho, hthrough⟩
        exact ⟨o, hasr.subset ho, hthrough⟩

/-- The cell at the release point is released with all that the evidence has for it. -/
theorem Evidence.Faithful.contents_next (h : E.Faithful out) (hA : Assembled plan ps a out)
    (hplan : plan.cellsFrom ≤ plan.analysisFrom) (hE : E.PushedBy plan full)
    (hset : E.Settled plan) (hle : s.Le (E.slot a.next)) (hasr : asrOf ps <+: E.asr)
    (hready : a.slotReady s = true) (hreached : E.Reached plan a.next) :
    CellAudio.fromInputs s = CellAudio.fromInputs (E.slot a.next) := by
  refine hle.fromInputs_eq (fun _ hgap => (hset.marks _ hreached (hle.gap hgap)).1) fun hgap => ?_
  obtain ⟨hdevice, hvad, hecho, hcovers⟩ := h.complete hA hplan hready hgap
  have hdeq := eq_of_le_some hle.device hdevice
  have hveq : (E.slot a.next).vad = s.vad := by
    rcases hvad with hlt | hsome
    · exact eq_of_le_none hle.vad (hE.vad_none hlt)
    · exact eq_of_le_some hle.vad hsome
  have heeq : (E.slot a.next).echo = s.echo := by
    rcases hecho with hlt | hsome
    · exact eq_of_le_none hle.echo (hE.echo_none hlt)
    · exact eq_of_le_some hle.echo hsome
  refine ⟨?_, hdeq, hveq, heeq⟩
  by_contra hmark
  rw [Bool.not_eq_false] at hmark
  rcases (hset.marks _ hreached hmark).2 with hdg | hnot
  · unfold Slot.isGap at hgap
    unfold Slot.deviceGap at hgap hdg
    rw [hdeq] at hdg
    rw [hdg, Bool.or_true] at hgap
    cases hgap
  · refine hnot ⟨by rw [hdeq]; exact hdevice, by rw [hveq]; exact hvad,
      by rw [heeq]; exact hecho, ?_⟩
    refine hcovers.imp_right (Or.imp_right ?_)
    rintro ⟨o, ho, hthrough⟩
    exact ⟨o, hasr.subset ho, hthrough⟩

/-- The first gap at or before a cell. -/
theorem exists_first_gap {n : ℕ} (h : ∃ g, plan.analysisFrom ≤ g ∧ g ≤ n ∧
    (E.slot g).isGap = true) : ∃ g, plan.analysisFrom ≤ g ∧ g ≤ n ∧ (E.slot g).isGap = true ∧
      ∀ d, plan.analysisFrom ≤ d → d < g → (E.slot d).isGap = false := by
  classical
  obtain ⟨hfrom, hle, hgap⟩ := Nat.find_spec h
  refine ⟨Nat.find h, hfrom, hle, hgap, fun d hd hlt => ?_⟩
  have hnot := Nat.find_min h hlt
  by_contra hne
  exact hnot ⟨hd, by omega, by simpa using hne⟩

/-- No result that belongs before the cell at the release point is still to come. -/
theorem Settling.late_next (h : Settling plan E ps a out) (hA : Assembled plan ps a out)
    (hplan : plan.cellsFrom ≤ plan.analysisFrom) (hset : E.Settled plan)
    (hinc : E.asr.Pairwise (·.through < ·.through))
    (hin : ∀ o ∈ E.asr, cellStart plan.analysisFrom < o.through)
    (hle : s.Le (E.slot a.next)) (hasr : asrOf ps <+: E.asr) (hready : a.slotReady s = true)
    (hfront : ∀ b ∈ a.blocks.head?, cellEnd a.next ≤ b.through)
    (hreached : E.Reached plan a.next) {o : AsrObservation} (ho : o ∈ E.asr)
    (hnew : o ∉ blocksOf out) : cellEnd a.next ≤ o.through := by
  obtain ⟨later, hlater⟩ := hasr
  rw [← hlater, List.mem_append] at ho
  rcases ho with hpushed | hlate
  · -- It is queued, behind a front that does not end before the cell's end.
    have hinc' := hA.increasing
    rw [hA.asr] at hpushed hinc'
    have hqueued := (List.mem_append.mp hpushed).resolve_left hnew
    cases hblocks : a.blocks with
    | nil =>
        rw [hblocks] at hqueued
        cases hqueued
    | cons b blocks =>
        rw [hblocks] at hqueued hinc'
        have hb := hfront b (by rw [hblocks]; rfl)
        rcases List.mem_cons.mp hqueued with rfl | hmem
        · exact hb
        · have hlt := (List.pairwise_cons.mp (List.pairwise_append.mp hinc').2.1).1 o hmem
          omega
  have hafter : ∀ o' ∈ asrOf ps, o'.through < o.through := by
    rw [← hlater] at hinc
    exact fun o' ho' => (List.pairwise_append.mp hinc).2.2 o' ho' o hlate
  have hmem : o ∈ E.asr := by
    rw [← hlater]
    exact List.mem_append_right _ hlate
  by_contra hlt
  rw [not_le] at hlt
  -- It belongs before the cell, so a gap has stopped the cells from waiting.
  have hgap : ∃ g, plan.analysisFrom ≤ g ∧ g ≤ a.next ∧ (E.slot g).isGap = true := by
    have hfrom : plan.analysisFrom ≤ a.next := by
      by_contra hbefore
      have hend : cellEnd a.next ≤ cellStart plan.analysisFrom :=
        Nat.mul_le_mul_right _ (by omega)
      have hstart := hin o hmem
      omega
    cases hs : s.isGap with
    | true => exact ⟨a.next, hfrom, le_refl _, hle.isGap hs⟩
    | false =>
        rcases (h.faithful.complete hA hplan hready hs).2.2.2 with hbefore | ⟨g, hg, hgn, hgap⟩ |
          ⟨o', ho', hthrough⟩
        · omega
        · exact ⟨g, hg, hgn.le, hgap⟩
        · have := hafter o' ho'
          omega
  obtain ⟨g, hg, hgn, hgap, hfirst⟩ := exists_first_gap hgap
  obtain ⟨before, after, heq⟩ := List.append_of_mem hlate
  have hsplit : E.asr = (asrOf ps ++ before) ++ o :: after := by
    rw [← hlater, heq, List.append_assoc]
  obtain ⟨hlt', hbefore⟩ := hset.blocks g a.next hreached hg hgn hgap _ o after hsplit hlt
  -- The cell before the gap has waited for a result that reaches the gap.
  obtain ⟨o', ho', hthrough⟩ := h.covered (g - 1) (by omega) (by omega)
    fun d hd hdg => hfirst d hd (by omega)
  have hstart := hbefore o' (List.mem_append_left _ ho')
  have hend : cellEnd (g - 1) = cellStart g := by
    unfold cellEnd cellStart
    rw [Nat.sub_add_cancel (by omega)]
  omega

/-- Settled evidence settles. -/
theorem settling_invariant (hplan : plan.cellsFrom ≤ plan.analysisFrom)
    (hE : E.PushedBy plan full) (hset : E.Settled plan)
    (hinc : E.asr.Pairwise (·.through < ·.through))
    (hin : ∀ o ∈ E.asr, cellStart plan.analysisFrom < o.through) :
    RunInvariant full fun ps a out => Assembled plan ps a out ∧ Settling plan E ps a out where
  took {ps p a a' out} h hpre hp happly := by
    have htook := Push.apply_took happly hp (h.1.plan_eq.symm ▸ h.1.start)
    refine ⟨(assembled_invariant plan full).took h.1 hpre hp happly, h.2.faithful,
      htook.next.symm ▸ h.2.ready, ?_, htook.next.symm ▸ h.2.late, h.2.order⟩
    rw [htook.next]
    intro c hc hlt hgap
    obtain ⟨o, ho, hthrough⟩ := h.2.covered c hc hlt hgap
    refine ⟨o, ?_, hthrough⟩
    rw [asrOf_concat]
    exact List.mem_append_left _ ho
  pause {ps a out} h := by
    refine ⟨(assembled_invariant plan full).pause h.1, h.2.faithful, h.2.ready,
      fun c hc hlt hgap => ?_, h.2.late, h.2.order⟩
    obtain ⟨o, ho, hthrough⟩ := h.2.covered c hc hlt hgap
    refine ⟨o, ?_, hthrough⟩
    rw [asrOf_concat]
    exact List.mem_append_left _ ho
  block {ps a out b blocks} h hpre hblocks hb := by
    have hasr := hE.asr ▸ asrOf_prefix hpre
    have hsplit := h.1.asr
    have hbnew : b ∉ blocksOf out := by
      have hinc' := h.1.increasing
      rw [hsplit, hblocks] at hinc'
      intro hmem
      have hlt := (List.pairwise_append.mp hinc').2.2 b hmem b List.mem_cons_self
      exact absurd hlt (lt_irrefl _)
    have hbE : b ∈ E.asr := by
      refine hasr.subset ?_
      rw [hsplit, hblocks]
      exact List.mem_append_right _ List.mem_cons_self
    refine ⟨(assembled_invariant plan full).block h.1 hpre hblocks hb, fun c audio hc => ?_,
      h.2.ready, h.2.covered, fun o ho hnew => ?_, ?_⟩
    · rcases List.mem_append.mp hc with hold | hlast
      · exact h.2.faithful c audio hold
      · cases List.mem_singleton.mp hlast
    · rw [blocksOf_append, List.mem_append, not_or] at hnew
      exact h.2.late o ho hnew.1
    · refine List.pairwise_append.mpr ⟨h.2.order, List.pairwise_singleton _ _, ?_⟩
      intro r hr r' hr'
      rw [List.mem_singleton.mp hr']
      cases r with
      | cell c audio =>
          have hlt := (h.1.lt_next hr).2
          have hlate := h.2.late b hbE hbnew
          have hend : cellEnd c ≤ cellStart a.next := Nat.mul_le_mul_right _ hlt
          exact hend.trans hlate
      | block b' => trivial
  cell {ps a out s rest} h hpre hslots hready hfront := by
    have hasr := hE.asr ▸ asrOf_prefix hpre
    have hs : s = Turn.collected ps a.next := by
      rw [← h.1.slots a.next (le_refl _), slotAt_next hslots]
    have hle : s.Le (E.slot a.next) := hs ▸ hE.le hpre h.1.start
    have hnext : (a.releaseCell s rest).next = a.next + 1 := rfl
    have hready' := h.2.faithful.ready_next h.1 hplan hle hasr hready
    have hreached : E.Reached plan a.next := by
      refine ⟨h.1.start, fun d hd hdn => ?_⟩
      rcases Nat.lt_or_eq_of_le hdn with hlt | rfl
      · exact h.2.ready d hd hlt
      · exact hready'
    refine ⟨(assembled_invariant plan full).cell h.1 hpre hslots hready hfront,
      fun c audio hc => ?_, fun c hc hlt => ?_, fun c hc hlt hgap => ?_, fun o ho hnew => ?_, ?_⟩
    · rcases List.mem_append.mp hc with hold | hlast
      · exact h.2.faithful c audio hold
      · obtain ⟨rfl, rfl⟩ := Released.cell.inj (List.mem_singleton.mp hlast)
        exact h.2.faithful.contents_next h.1 hplan hE hset hle hasr hready hreached
    · rw [hnext] at hlt
      exact hreached.2 c hc (by omega)
    · rw [hnext] at hlt
      rcases Nat.lt_or_eq_of_le (Nat.lt_succ_iff.mp hlt) with hold | rfl
      · exact h.2.covered c hc hold hgap
      · have hs' : s.isGap = false := by
          by_contra hne
          rw [Bool.not_eq_false] at hne
          have := hgap a.next hc (le_refl _)
          rw [hle.isGap hne] at this
          cases this
        rcases (h.2.faithful.complete h.1 hplan hready hs').2.2.2 with hlt' | ⟨g, hg, hgn, hgap'⟩ | hcov
        · omega
        · rw [hgap g hg hgn.le] at hgap'
          cases hgap'
        · exact hcov
    · rw [blocksOf_append, blocksOf_cell, List.append_nil] at hnew
      exact h.2.late_next h.1 hplan hset hinc hin hle hasr hready hfront hreached ho hnew
    · refine List.pairwise_append.mpr ⟨h.2.order, List.pairwise_singleton _ _, ?_⟩
      intro r hr r' hr'
      rw [List.mem_singleton.mp hr']
      cases r with
      | cell c audio => trivial
      | block b => exact h.1.early b (mem_blocksOf.mpr hr)

/-! ### Whole runs -/

/-- A plan whose starts are in order. -/
def EvidencePlan.Valid (plan : EvidencePlan) : Prop :=
  plan.cellsFrom ≤ plan.vadFrom ∧ plan.vadFrom ≤ plan.analysisFrom

instance (plan : EvidencePlan) : Decidable plan.Valid := inferInstanceAs (Decidable (_ ∧ _))

/-- A run of calls that is not refused, and the release behind it. -/
theorem total_eq_ok {r : List Released} (h : total plan full = .ok r) :
    ∃ a₀ a out, EvidenceAssembler.new plan = .ok a₀ ∧ runFrom a₀ full = .ok (a, out) ∧
      r = out ++ a.release.2 := by
  unfold total at h
  cases hnew : EvidenceAssembler.new plan with
  | error e =>
      rw [hnew] at h
      cases h
  | ok a₀ =>
      rw [hnew] at h
      change (do
        let r ← runFrom a₀ full
        pure (r.2 ++ r.1.release.2)) = Except.ok r at h
      cases hrun : runFrom a₀ full with
      | error e =>
          rw [hrun] at h
          cases h
      | ok q =>
          obtain ⟨a, out⟩ := q
          rw [hrun] at h
          cases h
          exact ⟨a₀, a, out, rfl, hrun, rfl⟩

/-- What an invariant says of a whole run. -/
theorem RunInvariant.total {I : List Push → EvidenceAssembler → List Released → Prop}
    (h : RunInvariant full I) (hinit : ∀ a, EvidenceAssembler.new plan = .ok a → I [] a [])
    {r : List Released} (hr : total plan full = .ok r) : ∃ a, I full a r ∧ a.Blocked := by
  obtain ⟨a₀, a, out, hnew, hrun, rfl⟩ := total_eq_ok hr
  have hI := h.runFrom hrun (hinit a₀ hnew) (List.prefix_refl _)
  exact ⟨a.release.1, h.releases (release_releases a) hI (List.prefix_refl _),
    (release_releases a).blocked⟩

/-- A cell that is ready with all of the evidence is released. -/
theorem Evidence.Faithful.not_ready (h : E.Faithful out) (hA : Assembled plan full a out)
    (hplan : plan.cellsFrom ≤ plan.analysisFrom) (hE : E.PushedBy plan full) (hblocked : a.Blocked) :
    ¬ E.Ready plan a.next := by
  have hclosed := h.closed_iff hA hplan
  have hslot : a.slotAt a.next = E.slot a.next := by
    rw [hA.slots _ (le_refl _), hE.collected hA.start]
  have hfront := hblocked.2
  intro hready
  cases hslots : a.slots with
  | nil =>
      have hempty : E.slot a.next = {} := by
        rw [← hslot]
        unfold EvidenceAssembler.slotAt
        rw [hslots]
        rfl
      rcases hready with hgap | hcomplete
      · rw [hempty] at hgap
        cases hgap
      · have hdevice := hcomplete.1
        rw [hempty] at hdevice
        cases hdevice
  | cons s rest =>
      rw [slotAt_next hslots] at hslot
      unfold EvidenceAssembler.frontReady at hfront
      rw [hslots] at hfront
      dsimp only at hfront
      refine Bool.false_ne_true (hfront.symm.trans ?_)
      unfold EvidenceAssembler.slotReady EvidenceAssembler.asrCovers
      simp only [Bool.and_eq_true, Bool.or_eq_true, decide_eq_true_eq, hA.plan_eq, hclosed, hslot]
      rcases hready with hgap | ⟨hdevice, hvad, hecho, hcovered⟩
      · exact .inl (Bool.or_eq_true_iff.mp hgap)
      · refine .inr ⟨⟨⟨hdevice, hvad⟩, hecho⟩, ?_⟩
        rcases hcovered with hlt | hgap | ⟨o, ho, hthrough⟩
        · exact .inl (.inl hlt)
        · exact .inl (.inr hgap)
        · refine .inr ?_
          rw [← hE.asr] at ho
          obtain ⟨z, hz, hle⟩ := le_getLast_of_mem hA.increasing ho
          rw [hA.through, hz]
          exact decide_eq_true (hthrough.trans hle)

/-- The released blocks are those that end before the end of the cell at the release point. -/
theorem Assembled.blocksOf_eq (hA : Assembled plan full a out) (hblocked : a.Blocked) :
    blocksOf out = (asrOf full).filter fun o => decide (o.through < cellEnd a.next) := by
  have hinc := hA.increasing
  rw [hA.asr] at hinc
  rw [hA.asr, List.filter_append, List.filter_eq_self.mpr, List.filter_eq_nil_iff.mpr,
    List.append_nil]
  · intro o ho
    cases hblocks : a.blocks with
    | nil =>
        rw [hblocks] at ho
        cases ho
    | cons b blocks =>
        rw [hblocks] at ho hinc
        have hb := hblocked.1 b (by rw [hblocks]; rfl)
        rcases List.mem_cons.mp ho with rfl | hmem
        · simpa using hb
        · have hlt := (List.pairwise_cons.mp (List.pairwise_append.mp hinc).2.1).1 o hmem
          simp only [decide_eq_true_eq, not_lt]
          omega
  · exact fun o ho => decide_eq_true (hA.early o ho)

/-- Settled evidence comes out in sample order, and the same whatever the order of the calls. -/
theorem Evidence.Settled.total_eq {full' : List Push} {r r' : List Released}
    (hset : E.Settled plan) (hplan : plan.Valid) (hE : E.PushedBy plan full) (hE' : E.PushedBy plan full') (hr : total plan full = .ok r)
    (hr' : total plan full' = .ok r') : Ordered plan r ∧ r = r' := by
  have hstarts := hplan.1.trans hplan.2
  obtain ⟨a₁, hA₁, -⟩ := (assembled_invariant plan full).total (fun _ => Assembled.new) hr
  have hinc : E.asr.Pairwise (·.through < ·.through) := hE.asr ▸ hA₁.increasing
  have hin : ∀ o ∈ E.asr, cellStart plan.analysisFrom < o.through := hE.asr ▸ hA₁.inside
  have hinit (a : EvidenceAssembler) (hnew : EvidenceAssembler.new plan = .ok a) :
      Assembled plan [] a [] ∧ Settling plan E [] a [] := by
    have hA := Assembled.new hnew
    have hnext : a.next = plan.cellsFrom := by
      unfold EvidenceAssembler.new at hnew
      split at hnew
      · cases hnew
      · cases hnew
        rfl
    refine ⟨hA, fun _ _ h => absurd h List.not_mem_nil, fun c hc hlt => by omega, fun c hc hlt => by omega, fun o ho _ => ?_, .nil⟩
    have hstart : cellStart a.next ≤ cellStart plan.analysisFrom :=
      Nat.mul_le_mul_right _ (by omega)
    have := hin o ho
    omega
  obtain ⟨a, ⟨hA, hS⟩, hblocked⟩ :=
    (settling_invariant hstarts hE hset hinc hin).total hinit hr
  obtain ⟨a', ⟨hA', hS'⟩, hblocked'⟩ :=
    (settling_invariant hstarts hE' hset hinc hin).total hinit hr'
  have hnext : a.next = a'.next := by
    rcases lt_trichotomy a.next a'.next with hlt | heq | hlt
    · exact absurd (hS'.ready _ hA.start hlt) (hS.faithful.not_ready hA hstarts hE hblocked)
    · exact heq
    · exact absurd (hS.ready _ hA'.start hlt) (hS'.faithful.not_ready hA' hstarts hE' hblocked')
  refine ⟨⟨⟨_, hA.cells⟩, hS.order⟩, eq_of_before hS.order hS'.order ?_ ?_ ?_⟩
  · rw [hA.blocksOf_eq hblocked, hA'.blocksOf_eq hblocked', hE.asr, hE'.asr, hnext]
  · rw [hA.cells, hA'.cells, hnext]
  · intro c audio audio' hc hc'
    rw [hS.faithful c audio hc, hS'.faithful c audio' hc']

end

end EchoMuse.Turn
