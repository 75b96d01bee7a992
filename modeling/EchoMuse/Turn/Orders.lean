import EchoMuse.Turn.Settled

/-!
# Orders of Evidence

Which evidence is released the same in every order of the calls. No order of evidence that fits
the plan is refused; settled evidence comes out the same in all of them; and evidence that is not
settled has two orders that differ.

## Main results

* `Evidence.PushedBy.accepted`: no order of evidence that fits is refused;
* `batch_released`: what is released when all of some evidence is there;
* `order_independent_iff`: the order does not matter exactly for settled evidence.
-/

namespace EchoMuse.Turn

section

variable {plan : EvidencePlan} {E : Evidence} {full ps : List Push} {a : EvidenceAssembler}
  {out : List Released}

/-! ### Calls that are not refused -/

/-- The last value of a batch. -/
theorem valueAt_last {γ : Type} (first : ℕ) {values : List γ} (h : 0 < values.length) :
    ∃ v, valueAt first values (first + values.length - 1) = some v := by
  unfold valueAt
  rw [if_pos (by omega), List.getElem?_eq_getElem (by omega)]
  exact ⟨_, rfl⟩

/-- A batch of evidence that fits is not refused. -/
theorem pushValues_accepted {γ : Type} [DecidableEq γ] {field : Field γ} {start epoch first : ℕ}
    {values : List γ} (hA : Assembled plan ps a out) (hfits : E.Fits plan)
    (hepoch : epoch = plan.epoch) (hstart : start ≤ first) (hplan : plan.cellsFrom ≤ start)
    (hvalue : ∀ c v, plan.cellsFrom ≤ c → valueAt first values c = some v →
      field.get (E.slot c) = some v)
    (hle : ∀ c v, plan.cellsFrom ≤ c → field.get (collected ps c) = some v →
      field.get (E.slot c) = some v)
    (hempty : field.get {} = none) :
    ∃ a', a.pushValues field start epoch first values = .ok a' := by
  refine EvidenceAssembler.pushValues_ok (hA.plan_eq ▸ hepoch) hstart (fun hpos => ?_)
    fun c v held hc hv hheld => ?_
  · obtain ⟨v, hv⟩ := valueAt_last first hpos
    have hget := hvalue _ v (by omega) hv
    have hcells := hfits.cells (first + values.length - 1) fun hnil => by
      rw [hnil, hempty] at hget
      cases hget
    have := hA.start
    omega
  · have hcells := hA.start.trans hc
    rw [hA.slots c hc] at hheld
    exact Option.some.inj ((hle c held hcells hheld).symm.trans (hvalue c v hcells hv))

/-- A call of evidence that fits is not refused. -/
theorem Evidence.PushedBy.apply_ok {p : Push} (hE : E.PushedBy plan full) (hfits : E.Fits plan)
    (hplan : plan.Valid) (hA : Assembled plan ps a out) (hps : ps ++ [p] <+: full) :
    ∃ r, p.apply a = .ok r := by
  have hp : p ∈ full := hps.subset (List.mem_append_right _ List.mem_cons_self)
  have hpre : ps <+: full := (List.prefix_append _ _).trans hps
  have hwithin := hE.within p hp
  have hmap {r : Except EvidenceError EvidenceAssembler} (hr : ∃ a', r = .ok a') :
      ∃ q, r.map (fun a => (a, ([] : List Released))) = .ok q := by
    obtain ⟨a', rfl⟩ := hr
    exact ⟨_, rfl⟩
  cases p with
  | device epoch first values =>
      refine hmap (pushValues_accepted hA hfits hwithin.1 (hA.plan_eq ▸ hwithin.2)
        (hA.plan_eq ▸ le_refl _) (fun c v _ hv => (hE.device c v).mpr ⟨_, hp, hv⟩)
        (fun c v hc hv => (hE.le hpre hc).device v hv) rfl)
  | vad epoch first values =>
      refine hmap (pushValues_accepted hA hfits hwithin.1 (hA.plan_eq ▸ hwithin.2)
        (hA.plan_eq ▸ hplan.1) (fun c v _ hv => (hE.vad c v).mpr ⟨_, hp, hv⟩)
        (fun c v hc hv => (hE.le hpre hc).vad v hv) rfl)
  | echo epoch first values =>
      refine hmap (pushValues_accepted hA hfits hwithin.1 (hA.plan_eq ▸ hwithin.2)
        (hA.plan_eq ▸ hplan.1.trans hplan.2) (fun c v _ hv => (hE.echo c v).mpr ⟨_, hp, hv⟩)
        (fun c v hc hv => (hE.le hpre hc).echo v hv) rfl)
  | gap epoch span =>
      refine hmap (EvidenceAssembler.markGap_ok (hA.plan_eq ▸ hwithin) fun hempty => ?_)
      have hstart := hA.start
      by_cases hlast : plan.cellsFrom ≤ cellOf (span.stop - 1)
      · have hover : span.overlaps (cellOf (span.stop - 1)) = true := by
          have hlt : span.start < span.stop := by
            simpa [SampleSpan.isEmpty] using hempty
          have hcell : cellOf span.start ≤ cellOf (span.stop - 1) :=
            Nat.div_le_div_right (by omega)
          simp [SampleSpan.overlaps, hempty, hcell]
        have hgap := (hE.gap _ hlast).mpr ⟨_, hp, hover⟩
        have hcells := hfits.cells _ fun hnil => by
          rw [hnil] at hgap
          cases hgap
        omega
      · omega
  | asr epoch obs =>
      have hasr : asrOf ps ++ [obs] <+: E.asr := by
        have h := asrOf_prefix hps
        rw [asrOf_concat, hE.asr] at h
        exact h
      refine hmap (EvidenceAssembler.pushAsr_ok (hA.plan_eq ▸ hwithin) ?_ fun t ht => ?_)
      · rw [hA.plan_eq]
        exact hfits.inside obs (hasr.subset (List.mem_append_right _ List.mem_cons_self))
      · rw [hA.through] at ht
        obtain ⟨z, hz, rfl⟩ := Option.map_eq_some_iff.mp ht
        have hinc := hfits.increasing.sublist hasr.sublist
        exact (List.pairwise_append.mp hinc).2.2 z (List.mem_of_getLast? hz) obs
          List.mem_cons_self
  | release => exact ⟨_, rfl⟩

/-- No order of evidence that fits is refused. -/
theorem Evidence.PushedBy.accepted (hE : E.PushedBy plan full) (hfits : E.Fits plan)
    (hplan : plan.Valid) : ∃ r, total plan full = .ok r := by
  have hrun : ∀ ps' ps a out, ps ++ ps' = full → Assembled plan ps a out →
      ∃ r, runFrom a ps' = .ok r := by
    intro ps'
    induction ps' with
    | nil => exact fun ps a out _ _ => ⟨_, rfl⟩
    | cons p ps' ih =>
        intro ps a out hfull hA
        rw [List.append_cons] at hfull
        have hpre : ps ++ [p] <+: full := ⟨ps', hfull⟩
        obtain ⟨⟨a₁, out₁⟩, hp⟩ := hE.apply_ok hfits hplan hA hpre
        have hone : runFrom a [p] = .ok (a₁, out₁) := by
          rw [runFrom, hp]
          change Except.ok (a₁, out₁ ++ []) = _
          rw [List.append_nil]
        obtain ⟨⟨a₂, out₂⟩, hrest⟩ :=
          ih (ps ++ [p]) a₁ (out ++ out₁) hfull ((assembled_invariant plan full).runFrom hone hA hpre)
        rw [runFrom, hp]
        change ∃ r, (do
          let q ← runFrom a₁ ps'
          pure (q.1, out₁ ++ q.2)) = Except.ok r
        rw [hrest]
        exact ⟨_, rfl⟩
  have hnew : EvidenceAssembler.new plan = .ok ⟨plan, plan.cellsFrom, [], [], none, false⟩ := by
    unfold EvidenceAssembler.new
    rw [if_neg]
    have h₁ := hplan.1
    have h₂ := hplan.2
    omega
  obtain ⟨⟨a, out⟩, hr⟩ := hrun full [] _ [] rfl (Assembled.new hnew)
  unfold total
  rw [hnew]
  change ∃ r, (do
    let q ← runFrom ⟨plan, plan.cellsFrom, [], [], none, false⟩ full
    pure (q.2 ++ q.1.release.2)) = Except.ok r
  rw [hr]
  exact ⟨_, rfl⟩

end

/-! ### Evidence as calls -/

/-- The inputs of one cell as calls. -/
def pushesAt (plan : EvidencePlan) (s : Slot) (c : ℕ) : List Push :=
  s.device.toList.map (fun v => .device plan.epoch c [v]) ++
    s.vad.toList.map (fun v => .vad plan.epoch c [v]) ++
    s.echo.toList.map (fun v => .echo plan.epoch c [v]) ++
    if s.gap then [.gap plan.epoch ⟨cellStart c, cellEnd c⟩] else []

/-- Evidence as calls, without a release. -/
def Evidence.pushes (plan : EvidencePlan) (E : Evidence) : List Push :=
  (List.range' plan.cellsFrom maxCellsAhead).flatMap (fun c => pushesAt plan (E.slot c) c) ++
    E.asr.map (.asr plan.epoch)

section

variable {plan : EvidencePlan} {E S : Evidence} {ps ps' : List Push} {p : Push} {c d : ℕ}

theorem valueAt_singleton {γ : Type} {v w : γ} : valueAt c [v] d = some w ↔ d = c ∧ v = w := by
  rw [EvidenceAssembler.valueAt_cons]
  by_cases h : d = c
  · simp [h]
  · rw [if_neg h]
    simp [h, valueAt]

theorem overlaps_cell : (SampleSpan.mk (cellStart c) (cellEnd c)).overlaps d = true ↔ d = c := by
  unfold SampleSpan.overlaps SampleSpan.isEmpty cellStart cellEnd cellOf cellSamples
  simp
  omega

/-- The calls of one cell have its inputs, and nothing else. -/
theorem mem_pushesAt {s : Slot} : p ∈ pushesAt plan s c ↔
    (∃ v, s.device = some v ∧ p = .device plan.epoch c [v]) ∨
      (∃ v, s.vad = some v ∧ p = .vad plan.epoch c [v]) ∨
      (∃ v, s.echo = some v ∧ p = .echo plan.epoch c [v]) ∨
      (s.gap = true ∧ p = .gap plan.epoch ⟨cellStart c, cellEnd c⟩) := by
  unfold pushesAt
  cases hgap : s.gap <;> simp [eq_comm]

/-- The calls of evidence. -/
theorem Evidence.mem_pushes : p ∈ E.pushes plan ↔
    (∃ c, (plan.cellsFrom ≤ c ∧ c < plan.cellsFrom + maxCellsAhead) ∧
      p ∈ pushesAt plan (E.slot c) c) ∨ ∃ o ∈ E.asr, p = .asr plan.epoch o := by
  unfold Evidence.pushes
  rw [List.mem_append, List.mem_flatMap, List.mem_map]
  simp only [List.mem_range'_1, eq_comm]

/-- Evidence that fits is pushed by its calls. -/
theorem Evidence.Fits.pushedBy (h : E.Fits plan) : E.PushedBy plan (E.pushes plan) := by
  have hmem {c : ℕ} {p : Push} (hc : E.slot c ≠ {}) (hp : p ∈ pushesAt plan (E.slot c) c) :
      p ∈ E.pushes plan := Evidence.mem_pushes.mpr (.inl ⟨c, h.cells c hc, hp⟩)
  refine ⟨fun p hp => ?_, fun c v => ?_, fun c v => ?_, fun c v => ?_, fun c hc => ?_, ?_⟩
  · rcases Evidence.mem_pushes.mp hp with ⟨c, hc, hp⟩ | ⟨o, -, rfl⟩
    · rcases mem_pushesAt.mp hp with ⟨v, -, rfl⟩ | ⟨v, hv, rfl⟩ | ⟨v, hv, rfl⟩ | ⟨-, rfl⟩
      · exact ⟨rfl, hc.1⟩
      · refine ⟨rfl, ?_⟩
        by_contra hlt
        rw [h.vad c (not_le.mp hlt)] at hv
        cases hv
      · refine ⟨rfl, ?_⟩
        by_contra hlt
        rw [h.echo c (not_le.mp hlt)] at hv
        cases hv
      · rfl
    · rfl
  · constructor
    · intro hv
      have hne : E.slot c ≠ {} := fun hnil => by
        rw [hnil] at hv
        cases hv
      exact ⟨_, hmem hne (mem_pushesAt.mpr (.inl ⟨v, hv, rfl⟩)), valueAt_singleton.mpr ⟨rfl, rfl⟩⟩
    · rintro ⟨p, hp, hat⟩
      rcases Evidence.mem_pushes.mp hp with ⟨d, -, hp⟩ | ⟨o, -, rfl⟩
      · rcases mem_pushesAt.mp hp with ⟨v', hv', rfl⟩ | ⟨w, -, rfl⟩ | ⟨w, -, rfl⟩ | ⟨-, rfl⟩
        · obtain ⟨rfl, rfl⟩ := valueAt_singleton.mp hat
          exact hv'
        · cases hat
        · cases hat
        · cases hat
      · cases hat
  · constructor
    · intro hv
      have hne : E.slot c ≠ {} := fun hnil => by
        rw [hnil] at hv
        cases hv
      exact ⟨_, hmem hne (mem_pushesAt.mpr (.inr (.inl ⟨v, hv, rfl⟩))), valueAt_singleton.mpr ⟨rfl, rfl⟩⟩
    · rintro ⟨p, hp, hat⟩
      rcases Evidence.mem_pushes.mp hp with ⟨d, -, hp⟩ | ⟨o, -, rfl⟩
      · rcases mem_pushesAt.mp hp with ⟨w, -, rfl⟩ | ⟨v', hv', rfl⟩ | ⟨w, -, rfl⟩ | ⟨-, rfl⟩
        · cases hat
        · obtain ⟨rfl, rfl⟩ := valueAt_singleton.mp hat
          exact hv'
        · cases hat
        · cases hat
      · cases hat
  · constructor
    · intro hv
      have hne : E.slot c ≠ {} := fun hnil => by
        rw [hnil] at hv
        cases hv
      exact ⟨_, hmem hne (mem_pushesAt.mpr (.inr (.inr (.inl ⟨v, hv, rfl⟩)))), valueAt_singleton.mpr ⟨rfl, rfl⟩⟩
    · rintro ⟨p, hp, hat⟩
      rcases Evidence.mem_pushes.mp hp with ⟨d, -, hp⟩ | ⟨o, -, rfl⟩
      · rcases mem_pushesAt.mp hp with ⟨w, -, rfl⟩ | ⟨w, -, rfl⟩ | ⟨v', hv', rfl⟩ | ⟨-, rfl⟩
        · cases hat
        · cases hat
        · obtain ⟨rfl, rfl⟩ := valueAt_singleton.mp hat
          exact hv'
        · cases hat
      · cases hat
  · constructor
    · intro hgap
      have hne : E.slot c ≠ {} := fun hnil => by
        rw [hnil] at hgap
        cases hgap
      exact ⟨_, hmem hne (mem_pushesAt.mpr (.inr (.inr (.inr ⟨hgap, rfl⟩)))),
        overlaps_cell.mpr rfl⟩
    · rintro ⟨p, hp, hat⟩
      rcases Evidence.mem_pushes.mp hp with ⟨d, -, hp⟩ | ⟨o, -, rfl⟩
      · rcases mem_pushesAt.mp hp with ⟨w, -, rfl⟩ | ⟨w, -, rfl⟩ | ⟨w, -, rfl⟩ | ⟨hgap, rfl⟩
        · cases hat
        · cases hat
        · cases hat
        · obtain rfl := overlaps_cell.mp hat
          exact hgap
      · cases hat
  · have hcells : asrOf ((List.range' plan.cellsFrom maxCellsAhead).flatMap
        fun c => pushesAt plan (E.slot c) c) = [] := by
      refine List.filterMap_eq_nil_iff.mpr fun p hp => ?_
      obtain ⟨d, -, hp⟩ := List.mem_flatMap.mp hp
      rcases mem_pushesAt.mp hp with ⟨w, -, rfl⟩ | ⟨w, -, rfl⟩ | ⟨w, -, rfl⟩ | ⟨-, rfl⟩ <;> rfl
    have hasr : asrOf (E.asr.map (.asr plan.epoch)) = E.asr := by
      unfold asrOf
      rw [List.filterMap_map]
      exact List.filterMap_some
    unfold Evidence.pushes asrOf
    rw [List.filterMap_append]
    exact (congrArg₂ (· ++ ·) hcells hasr).trans (List.nil_append _)

/-- Calls of less evidence, and calls of all of it behind them. -/
theorem Evidence.PushedBy.append (hS : S.PushedBy plan ps) (hE : E.PushedBy plan ps')
    (hle : ∀ c, (S.slot c).Le (E.slot c)) :
    Evidence.PushedBy plan ⟨E.slot, S.asr ++ E.asr⟩ (ps ++ ps') := by
  have hor {γ : Type} {f : Push → Option γ} {o o' : Option γ} {v : γ}
      (ho : o = some v ↔ ∃ p ∈ ps, f p = some v) (ho' : o' = some v ↔ ∃ p ∈ ps', f p = some v)
      (hle : o = some v → o' = some v) : o' = some v ↔ ∃ p ∈ ps ++ ps', f p = some v := by
    constructor
    · intro hv
      obtain ⟨p, hp, hat⟩ := ho'.mp hv
      exact ⟨p, List.mem_append_right _ hp, hat⟩
    · rintro ⟨p, hp, hat⟩
      rcases List.mem_append.mp hp with hp | hp
      · exact hle (ho.mpr ⟨p, hp, hat⟩)
      · exact ho'.mpr ⟨p, hp, hat⟩
  refine ⟨fun p hp => ?_, fun c v => hor (hS.device c v) (hE.device c v) ((hle c).device v),
    fun c v => hor (hS.vad c v) (hE.vad c v) ((hle c).vad v),
    fun c v => hor (hS.echo c v) (hE.echo c v) ((hle c).echo v), fun c hc => ?_, ?_⟩
  · rcases List.mem_append.mp hp with hp | hp
    · exact hS.within p hp
    · exact hE.within p hp
  · constructor
    · intro hgap
      obtain ⟨p, hp, hat⟩ := (hE.gap c hc).mp hgap
      exact ⟨p, List.mem_append_right _ hp, hat⟩
    · rintro ⟨p, hp, hat⟩
      rcases List.mem_append.mp hp with hp | hp
      · exact (hle c).gap ((hS.gap c hc).mpr ⟨p, hp, hat⟩)
      · exact (hE.gap c hc).mpr ⟨p, hp, hat⟩
  · unfold asrOf
    rw [List.filterMap_append]
    exact congrArg₂ (· ++ ·) hS.asr hE.asr

/-- Less evidence fits too. -/
theorem Evidence.Fits.mono (h : E.Fits plan) (hle : ∀ c, (S.slot c).Le (E.slot c))
    (hasr : S.asr.Sublist E.asr) : S.Fits plan := by
  refine ⟨fun c hne => h.cells c fun hnil => hne ?_, fun c hc => ?_, fun c hc => ?_,
    h.increasing.sublist hasr, fun o ho => h.inside o (hasr.subset ho)⟩
  · have hc := hle c
    rw [hnil] at hc
    have hgap : (S.slot c).gap = false := by
      by_contra hgap
      cases hc.gap (by simpa using hgap)
    have hdevice := eq_of_le_none hc.device rfl
    have hvad := eq_of_le_none hc.vad rfl
    have hecho := eq_of_le_none hc.echo rfl
    cases hs : S.slot c with
    | mk device vad echo gap =>
        rw [hs] at hgap hdevice hvad hecho
        dsimp only at hgap hdevice hvad hecho
        rw [← hdevice, ← hvad, ← hecho, hgap]
  · exact (eq_of_le_none (hle c).vad (h.vad c hc)).symm.trans (h.vad c hc)
  · exact (eq_of_le_none (hle c).echo (h.echo c hc)).symm.trans (h.echo c hc)

/-! ### Batches -/

/-- Calls without a release release nothing. -/
theorem runFrom_out {a a' : EvidenceAssembler} {out : List Released}
    (h : runFrom a ps = .ok (a', out)) (hps : ∀ p ∈ ps, p ≠ .release) : out = [] := by
  induction ps generalizing a out with
  | nil =>
      cases h
      rfl
  | cons p ps ih =>
      rw [runFrom] at h
      cases hp : p.apply a with
      | error e =>
          rw [hp] at h
          cases h
      | ok r =>
          obtain ⟨a₁, out₁⟩ := r
          rw [hp] at h
          change (do
            let q ← runFrom a₁ ps
            pure (q.1, out₁ ++ q.2)) = Except.ok (a', out) at h
          cases hrest : runFrom a₁ ps with
          | error e =>
              rw [hrest] at h
              cases h
          | ok q =>
              obtain ⟨a₂, out₂⟩ := q
              rw [hrest] at h
              cases h
              rw [Push.apply_out hp (hps p List.mem_cons_self),
                ih hrest fun p' hp' => hps p' (List.mem_cons_of_mem _ hp')]
              rfl

/-- Calls, and more calls behind them. -/
theorem runFrom_append {a : EvidenceAssembler} : runFrom a (ps ++ ps') = (do
    let q ← runFrom a ps
    let q' ← runFrom q.1 ps'
    pure (q'.1, q.2 ++ q'.2)) := by
  induction ps generalizing a with
  | nil =>
      change runFrom a ps' = (do
        let q' ← runFrom a ps'
        pure (q'.1, [] ++ q'.2))
      cases runFrom a ps' <;> rfl
  | cons p ps ih =>
      rw [List.cons_append, runFrom, runFrom]
      cases p.apply a with
      | error e => rfl
      | ok r =>
          change (do
            let q ← runFrom r.1 (ps ++ ps')
            pure (q.1, r.2 ++ q.2)) = _
          rw [ih]
          change _ = (do
            let q ← (do
              let q ← runFrom r.1 ps
              pure (q.1, r.2 ++ q.2))
            let q' ← runFrom q.1 ps'
            pure (q'.1, q.2 ++ q'.2))
          cases runFrom r.1 ps with
          | error e => rfl
          | ok q =>
              change (do
                let q ← (do
                  let q' ← runFrom q.1 ps'
                  pure (q'.1, q.2 ++ q'.2))
                pure (q.1, r.2 ++ q.2)) = (do
                let q' ← runFrom q.1 ps'
                pure (q'.1, r.2 ++ q.2 ++ q'.2))
              cases runFrom q.1 ps' with
              | error e => rfl
              | ok q' =>
                  change Except.ok (q'.1, r.2 ++ (q.2 ++ q'.2)) = Except.ok _
                  rw [List.append_assoc]

/-- What a release in the middle of a run has released stays in front. -/
theorem total_split {r : List Released} (h : total plan (ps ++ .release :: ps') = .ok r) :
    ∃ r₁ r₂, total plan ps = .ok r₁ ∧ r = r₁ ++ r₂ := by
  obtain ⟨a₀, a, out, hnew, hrun, rfl⟩ := total_eq_ok h
  rw [runFrom_append] at hrun
  cases hps : runFrom a₀ ps with
  | error e =>
      rw [hps] at hrun
      cases hrun
  | ok q =>
      rw [hps] at hrun
      change (do
        let q' ← runFrom q.1 (.release :: ps')
        pure (q'.1, q.2 ++ q'.2)) = Except.ok (a, out) at hrun
      rw [runFrom] at hrun
      change (do
        let q' ← (do
          let q' ← runFrom q.1.release.1 ps'
          pure (q'.1, q.1.release.2 ++ q'.2))
        pure (q'.1, q.2 ++ q'.2)) = Except.ok (a, out) at hrun
      cases hrest : runFrom q.1.release.1 ps' with
      | error e =>
          rw [hrest] at hrun
          cases hrun
      | ok q' =>
          rw [hrest] at hrun
          cases hrun
          refine ⟨q.2 ++ q.1.release.2, q'.2 ++ q'.1.release.2, ?_, ?_⟩
          · unfold total
            rw [hnew]
            change (do
              let q ← runFrom a₀ ps
              pure (q.2 ++ q.1.release.2)) = _
            rw [hps]
            rfl
          · simp only [List.append_assoc]

/-- A release with everything of some evidence there. -/
theorem Releases.faithful {a a' : EvidenceAssembler} {out out' : List Released}
    (hrel : Releases a out' a') (hS : S.PushedBy plan ps) (hA : Assembled plan ps a out)
    (hF : S.Faithful out) : Assembled plan ps a' (out ++ out') ∧ S.Faithful (out ++ out') := by
  induction hrel generalizing out with
  | done _ =>
      rw [List.append_nil]
      exact ⟨hA, hF⟩
  | block hblocks hb _ ih =>
      rw [List.append_cons]
      refine ih ((assembled_invariant plan ps).block hA (List.prefix_refl _) hblocks hb) ?_
      intro c audio hc
      rcases List.mem_append.mp hc with hold | hlast
      · exact hF c audio hold
      · cases List.mem_singleton.mp hlast
  | cell hslots hready hfront _ ih =>
      rw [List.append_cons]
      refine ih ((assembled_invariant plan ps).cell hA (List.prefix_refl _) hslots hready
        hfront) ?_
      intro c audio hc
      rcases List.mem_append.mp hc with hold | hlast
      · exact hF c audio hold
      · obtain ⟨rfl, rfl⟩ := Released.cell.inj (List.mem_singleton.mp hlast)
        rw [← hS.collected hA.start, ← hA.slots _ (le_refl _), slotAt_next hslots]

/-- Everything of some evidence is there before anything is released. -/
theorem batch_released {r : List Released} (hS : S.PushedBy plan ps)
    (hps : ∀ p ∈ ps, p ≠ .release) (hr : total plan ps = .ok r) :
    ∃ a, Assembled plan ps a r ∧ S.Faithful r ∧ a.Blocked := by
  obtain ⟨a₀, a, out, hnew, hrun, rfl⟩ := total_eq_ok hr
  have hA := (assembled_invariant plan ps).runFrom hrun (Assembled.new hnew) (List.prefix_refl _)
  obtain rfl := runFrom_out hrun hps
  obtain ⟨hA', hF⟩ := (release_releases a).faithful hS hA (fun _ _ h => absurd h List.not_mem_nil)
  exact ⟨a.release.1, hA', hF, (release_releases a).blocked⟩

/-- A batch releases every cell it reaches. -/
theorem batch_cell {r : List Released} (hplan : plan.Valid) (hS : S.PushedBy plan ps)
    (hps : ∀ p ∈ ps, p ≠ .release) (hr : total plan ps = .ok r) (hc : S.Reached plan c) :
    .cell c (CellAudio.fromInputs (S.slot c)) ∈ r := by
  obtain ⟨a, hA, hF, hblocked⟩ := batch_released hS hps hr
  have hlt : c < a.next := by
    by_contra hle
    exact hF.not_ready hA (hplan.1.trans hplan.2) hS hblocked
      (hc.2 a.next hA.start (not_lt.mp hle))
  obtain ⟨audio, hmem⟩ := hA.released hc.1 hlt
  rwa [← hF c audio hmem]

/-- Less evidence released first, and all of it behind that. -/
theorem exists_order (hplan : plan.Valid) (hfits : E.Fits plan)
    (hle : ∀ c, (S.slot c).Le (E.slot c)) {rest : List AsrObservation}
    (hasr : E.asr = S.asr ++ rest) : ∃ ps r r₁ r₂, E.PushedBy plan ps ∧ total plan ps = .ok r ∧
      r = r₁ ++ r₂ ∧ total plan (S.pushes plan) = .ok r₁ ∧ S.PushedBy plan (S.pushes plan) := by
  have hSfits : S.Fits plan := hfits.mono hle (by rw [hasr]; exact List.sublist_append_left _ _)
  have hRfits : Evidence.Fits plan ⟨E.slot, rest⟩ :=
    hfits.mono (fun c => ⟨fun _ h => h, fun _ h => h, fun _ h => h, id⟩)
      (by rw [hasr]; exact List.sublist_append_right _ _)
  have hrelease : Evidence.PushedBy plan ⟨fun _ => {}, []⟩ [.release] := by
    refine ⟨fun p hp => ?_, fun c v => ?_, fun c v => ?_, fun c v => ?_, fun c _ => ?_, rfl⟩
    · rw [List.mem_singleton.mp hp]
      trivial
    all_goals
      simp [Push.deviceAt, Push.vadAt, Push.echoAt, Push.gapAt]
  have hrest := hrelease.append hRfits.pushedBy fun c => ⟨by simp, by simp, by simp, by simp⟩
  have hE : E.PushedBy plan
      (S.pushes plan ++ .release :: Evidence.pushes plan ⟨E.slot, rest⟩) := by
    have h := hSfits.pushedBy.append hrest hle
    rw [List.nil_append, ← hasr] at h
    exact h
  obtain ⟨r, hr⟩ := hE.accepted hfits hplan
  obtain ⟨r₁, r₂, hr₁, heq⟩ := total_split hr
  exact ⟨_, r, r₁, r₂, hE, hr, heq, hr₁, hSfits.pushedBy⟩

/-! ### Orders that differ -/

/-- The order of the calls does not matter: whatever it is, what is released is in sample order,
and the same. -/
def Evidence.OrderIndependent (plan : EvidencePlan) (E : Evidence) : Prop :=
  ∀ ps r, E.PushedBy plan ps → total plan ps = .ok r → Ordered plan r ∧
    ∀ ps' r', E.PushedBy plan ps' → total plan ps' = .ok r' → r' = r

theorem Evidence.ne_release : ∀ p ∈ E.pushes plan, p ≠ .release := by
  rintro p hp rfl
  rcases Evidence.mem_pushes.mp hp with ⟨c, -, hp⟩ | ⟨o, -, hp⟩
  · rcases mem_pushesAt.mp hp with ⟨v, -, hp⟩ | ⟨v, -, hp⟩ | ⟨v, -, hp⟩ | ⟨-, hp⟩ <;> cases hp
  · cases hp

/-- Some order releases a reached cell with any part of its inputs that it can be released
with. -/
theorem exists_order_cell (hplan : plan.Valid) (hfits : E.Fits plan) (hc : E.Reached plan c)
    {s : Slot} (hle : s.Le (E.slot c)) (hready : s.isGap = true ∨ s.device.isSome = true ∧
      (c < plan.vadFrom ∨ s.vad.isSome = true) ∧ (c < plan.analysisFrom ∨ s.echo.isSome = true) ∧
      E.Covered plan c) :
    ∃ ps r, E.PushedBy plan ps ∧ total plan ps = .ok r ∧ .cell c (CellAudio.fromInputs s) ∈ r := by
  let S : Evidence := ⟨fun d => if d = c then s else E.slot d, E.asr⟩
  have hself : S.slot c = s := if_pos rfl
  have hother {d : ℕ} (hd : d ≠ c) : S.slot d = E.slot d := if_neg hd
  have hSE : ∀ d, (S.slot d).Le (E.slot d) := by
    intro d
    by_cases hd : d = c
    · rw [hd, hself]
      exact hle
    · rw [hother hd]
      exact ⟨fun _ h => h, fun _ h => h, fun _ h => h, id⟩
  have hcovered {d : ℕ} (hd : d ≤ c) (h : E.Covered plan d) : S.Covered plan d := by
    refine h.imp_right (Or.imp_left ?_)
    rintro ⟨g, hg, hgd, hgap⟩
    exact ⟨g, hg, hgd, by rwa [hother (by omega)]⟩
  have hreached : S.Reached plan c := by
    refine ⟨hc.1, fun d hd hdc => ?_⟩
    by_cases heq : d = c
    · subst heq
      unfold Evidence.Ready Evidence.Complete
      rw [hself]
      rcases hready with hgap | ⟨hdevice, hvad, hecho, hcov⟩
      · exact .inl hgap
      · exact .inr ⟨hdevice, hvad, hecho, hcovered le_rfl hcov⟩
    · have h := hc.2 d hd hdc
      unfold Evidence.Ready Evidence.Complete at h ⊢
      rw [hother heq]
      rcases h with hgap | ⟨hdevice, hvad, hecho, hcov⟩
      · exact .inl hgap
      · exact .inr ⟨hdevice, hvad, hecho, hcovered hdc hcov⟩
  obtain ⟨ps, r, r₁, r₂, hE, hr, rfl, hr₁, hS⟩ :=
    exists_order hplan hfits hSE (List.append_nil E.asr).symm
  have hmem := batch_cell hplan hS Evidence.ne_release hr₁ hreached
  rw [hself] at hmem
  exact ⟨ps, _, hE, hr, List.mem_append_left _ hmem⟩

/-- A cell is released once. -/
theorem eq_of_mem_cells {r : List Released} (h : (cellsOf r).Nodup) {audio audio' : CellAudio}
    (hc : .cell c audio ∈ r) (hc' : .cell c audio' ∈ r) : audio = audio' := by
  induction r with
  | nil => cases hc
  | cons q r ih =>
      cases q with
      | block b =>
          exact ih h ((List.mem_cons.mp hc).resolve_left nofun)
            ((List.mem_cons.mp hc').resolve_left nofun)
      | cell d audio'' =>
          have hnot : ∀ audio, .cell d audio ∉ r := fun audio hmem =>
            (List.nodup_cons.mp h).1 (mem_cellsOf.mpr ⟨audio, hmem⟩)
          rcases List.mem_cons.mp hc with heq | hmem
          · obtain ⟨rfl, rfl⟩ := Released.cell.inj heq
            rcases List.mem_cons.mp hc' with heq' | hmem'
            · exact (Released.cell.inj heq').2.symm
            · exact absurd hmem' (hnot _)
          · rcases List.mem_cons.mp hc' with heq' | hmem'
            · obtain ⟨rfl, rfl⟩ := Released.cell.inj heq'
              exact absurd hmem (hnot _)
            · exact ih (List.nodup_cons.mp h).2 hmem hmem'

/-- Where the order does not matter, a reached cell is released with the same whatever part of
its inputs is there first. -/
theorem Evidence.OrderIndependent.fromInputs_eq (h : E.OrderIndependent plan)
    (hplan : plan.Valid) (hfits : E.Fits plan) (hc : E.Reached plan c) {s t : Slot}
    (hs : s.Le (E.slot c)) (ht : t.Le (E.slot c))
    (hready : s.isGap = true ∨ s.device.isSome = true ∧
      (c < plan.vadFrom ∨ s.vad.isSome = true) ∧ (c < plan.analysisFrom ∨ s.echo.isSome = true) ∧
      E.Covered plan c) (hgap : t.isGap = true) :
    CellAudio.fromInputs s = CellAudio.fromInputs t := by
  obtain ⟨ps, r, hE, hr, hmem⟩ := exists_order_cell hplan hfits hc hs hready
  obtain ⟨ps', r', hE', hr', hmem'⟩ := exists_order_cell hplan hfits hc ht (.inl hgap)
  obtain ⟨⟨⟨n, hcells⟩, -⟩, hall⟩ := h ps r hE hr
  rw [hall ps' r' hE' hr'] at hmem'
  refine eq_of_mem_cells ?_ hmem hmem'
  rw [hcells]
  exact List.nodup_range'

/-- Where the order does not matter, no mark does. -/
theorem Evidence.OrderIndependent.marks (h : E.OrderIndependent plan) (hplan : plan.Valid)
    (hfits : E.Fits plan) (hc : E.Reached plan c) (hgap : (E.slot c).gap = true) :
    (E.slot c).deviceMuted = false ∧
      ((E.slot c).deviceGap = true ∨ ¬ E.Complete plan c) := by
  have hmark : ({ gap := true } : Slot).Le (E.slot c) := ⟨nofun, nofun, nofun, fun _ => hgap⟩
  have hfirst : CellAudio.fromInputs { gap := true } = .gap false := rfl
  constructor
  · by_contra hmuted
    rw [Bool.not_eq_false] at hmuted
    have hdg : (E.slot c).deviceGap = true := by
      by_contra hne
      rw [Slot.deviceMuted_of_not_deviceGap (by simpa using hne)] at hmuted
      cases hmuted
    have heq := h.fromInputs_eq hplan hfits hc (s := { device := (E.slot c).device })
      ⟨fun _ hv => hv, nofun, nofun, nofun⟩ hmark (.inl (Bool.or_eq_true_iff.mpr (.inr hdg))) rfl
    have hrecord : CellAudio.fromInputs { device := (E.slot c).device } = .gap true :=
      (fromInputs_of_deviceGap (s := { device := (E.slot c).device }) hdg).trans
        (congrArg _ hmuted)
    rw [hrecord, hfirst] at heq
    cases heq
  · by_contra hnot
    rw [not_or, not_not] at hnot
    obtain ⟨hdg, hcomplete⟩ := hnot
    have heq := h.fromInputs_eq hplan hfits hc (s := { E.slot c with gap := false })
      ⟨fun _ hv => hv, fun _ hv => hv, fun _ hv => hv, nofun⟩ hmark (.inr hcomplete) rfl
    rw [hfirst] at heq
    have hisGap := fromInputs_gap_iff.mp ⟨_, heq⟩
    rcases Bool.or_eq_true_iff.mp hisGap with hmarked | hdevice
    · cases hmarked
    · exact hdg hdevice

/-- Where the order does not matter, the cell before a gap has waited for every block that belongs
before a cell behind it. -/
theorem Evidence.OrderIndependent.blocks (h : E.OrderIndependent plan) (hplan : plan.Valid)
    (hfits : E.Fits plan) {g : ℕ} (hc : E.Reached plan c) (hg : plan.analysisFrom ≤ g)
    (hgc : g ≤ c) (hgap : (E.slot g).isGap = true) {before after : List AsrObservation}
    {o : AsrObservation} (hasr : E.asr = before ++ o :: after) (ho : o.through < cellEnd c) :
    plan.analysisFrom < g ∧ ∀ o' ∈ before, o'.through < cellStart g := by
  by_contra hnot
  have hheld : g = plan.analysisFrom ∨ ∃ o' ∈ before, cellStart g ≤ o'.through := by
    by_contra hne
    rw [not_or, not_exists] at hne
    refine hnot ⟨by omega, fun o' ho' => ?_⟩
    by_contra hle
    exact hne.2 o' ⟨ho', not_lt.mp hle⟩
  -- The results from `o` on are held back until the cell is released.
  let S : Evidence := ⟨E.slot, before⟩
  have hreached : S.Reached plan c := by
    refine ⟨hc.1, fun d hd hdc => ?_⟩
    rcases hc.2 d hd hdc with hd' | ⟨hdevice, hvad, hecho, hcov⟩
    · exact .inl hd'
    rcases lt_trichotomy d g with hlt | rfl | hlt
    · refine .inr ⟨hdevice, hvad, hecho, ?_⟩
      rcases hheld with heq | ⟨o', ho', hthrough⟩
      · exact .inl (by omega)
      · refine .inr (.inr ⟨o', ho', le_trans ?_ hthrough⟩)
        exact Nat.mul_le_mul_right _ hlt
    · exact .inl hgap
    · exact .inr ⟨hdevice, hvad, hecho, .inr (.inl ⟨g, hg, hlt, hgap⟩)⟩
  obtain ⟨ps, r, r₁, r₂, hE, hr, heq, hr₁, hS⟩ :=
    exists_order hplan hfits (S := S) (fun d => ⟨fun _ h => h, fun _ h => h, fun _ h => h, id⟩) hasr
  have hcell := batch_cell hplan hS Evidence.ne_release hr₁ hreached
  obtain ⟨a₁, hA₁, -, -⟩ := batch_released hS Evidence.ne_release hr₁
  obtain ⟨a, hA, hblocked⟩ := (assembled_invariant plan ps).total (fun _ => Assembled.new) hr
  have hlt : c < a.next := (hA.lt_next (by rw [heq]; exact List.mem_append_left _ hcell)).2
  have hblock : o ∈ blocksOf r := by
    rw [hA.blocksOf_eq hblocked, hE.asr, List.mem_filter, hasr]
    refine ⟨List.mem_append_right _ List.mem_cons_self, decide_eq_true ?_⟩
    exact ho.trans_le (cellEnd_le_cellEnd hlt.le)
  have hlate : o ∉ blocksOf r₁ := by
    intro hmem
    have hbefore : o ∈ before := by
      have hsplit := hA₁.asr
      rw [hS.asr] at hsplit
      change before = _ at hsplit
      rw [hsplit]
      exact List.mem_append_left _ hmem
    have hinc := hfits.increasing
    rw [hasr] at hinc
    exact lt_irrefl _ ((List.pairwise_append.mp hinc).2.2 o hbefore o List.mem_cons_self)
  rw [heq, blocksOf_append, List.mem_append] at hblock
  have hafter := mem_blocksOf.mp (hblock.resolve_left hlate)
  have hordered := (h ps r hE hr).1.blocks
  rw [heq] at hordered
  exact absurd ((List.pairwise_append.mp hordered).2.2 _ hcell _ hafter) (not_le.mpr ho)

/-- No order of evidence that fits a plan is refused. What is released is in sample order and the
same in every order, with releases at any moments, exactly when the evidence is settled. -/
theorem order_independent_iff (hplan : plan.Valid) (hfits : E.Fits plan) :
    (∀ ps, E.PushedBy plan ps → ∃ r, total plan ps = .ok r) ∧
      (E.OrderIndependent plan ↔ E.Settled plan) := by
  refine ⟨fun ps hE => hE.accepted hfits hplan, fun h => ?_, fun h ps r hE hr => ?_⟩
  · exact ⟨fun c hc hgap => h.marks hplan hfits hc hgap,
      fun g c hc hg hgc hgap before o after hasr ho => h.blocks hplan hfits hc hg hgc hgap hasr ho⟩
  · exact ⟨(h.total_eq hplan hE hE hr hr).1,
      fun ps' r' hE' hr' => (h.total_eq hplan hE' hE hr' hr).2⟩

end

/-! ### A late result at a gap -/

/-- An utterance from sample zero on. -/
def samplePlan : EvidencePlan := ⟨9, 0, 0, 0⟩

/-- A result that ends inside the first cell. -/
def lateResult : AsrObservation := ⟨256, [], 0, .live⟩

/-- The first cell is missing. -/
def missingCell : Push := .gap 9 ⟨cellStart 0, cellEnd 0⟩

/-- The first cell is missing, and a result ends inside it. -/
def gapEvidence : Evidence where
  slot c := if c = 0 then { gap := true } else {}
  asr := [lateResult]

theorem gapEvidence_fits : gapEvidence.Fits samplePlan := by
  refine ⟨fun c hc => ?_, nofun, nofun, List.pairwise_singleton _ _, fun o ho => ?_⟩
  · by_cases h : c = 0
    · rw [h]
      decide
    · exact absurd (if_neg h) hc
  · rw [List.mem_singleton.mp ho]
    decide

/-- Any order of the mark and the result pushes the evidence. -/
theorem gapEvidence_pushedBy {ps : List Push}
    (hps : ∀ p, p ∈ ps ↔ p = missingCell ∨ p = .asr 9 lateResult ∨ p = .release)
    (hasr : asrOf ps = [lateResult]) : gapEvidence.PushedBy samplePlan ps := by
  have hnone (c : ℕ) : (gapEvidence.slot c).device = none ∧ (gapEvidence.slot c).vad = none ∧
      (gapEvidence.slot c).echo = none := by
    by_cases h : c = 0
    · rw [h]
      exact ⟨rfl, rfl, rfl⟩
    · rw [show gapEvidence.slot c = {} from if_neg h]
      exact ⟨rfl, rfl, rfl⟩
  refine ⟨fun p hp => ?_, fun c v => ?_, fun c v => ?_, fun c v => ?_, fun c _ => ?_, hasr⟩
  · rcases (hps p).mp hp with rfl | rfl | rfl
    · rfl
    · rfl
    · trivial
  · rw [(hnone c).1]
    refine ⟨nofun, ?_⟩
    rintro ⟨p, hp, hat⟩
    rcases (hps p).mp hp with rfl | rfl | rfl <;> cases hat
  · rw [(hnone c).2.1]
    refine ⟨nofun, ?_⟩
    rintro ⟨p, hp, hat⟩
    rcases (hps p).mp hp with rfl | rfl | rfl <;> cases hat
  · rw [(hnone c).2.2]
    refine ⟨nofun, ?_⟩
    rintro ⟨p, hp, hat⟩
    rcases (hps p).mp hp with rfl | rfl | rfl <;> cases hat
  · constructor
    · intro hgap
      refine ⟨missingCell, (hps _).mpr (.inl rfl), overlaps_cell (c := 0).mpr ?_⟩
      by_contra h
      rw [show gapEvidence.slot c = {} from if_neg h] at hgap
      cases hgap
    · rintro ⟨p, hp, hat⟩
      rcases (hps p).mp hp with rfl | rfl | rfl
      · obtain rfl := overlaps_cell (c := 0).mp hat
        rfl
      · cases hat
      · cases hat

/-- The order of the mark and the result shows in what is released: a result that comes behind the
release of the gap comes out behind a cell that ends after it. -/
theorem late_result_reordered : samplePlan.Valid ∧ gapEvidence.Fits samplePlan ∧
    ∃ ps ps' r r', gapEvidence.PushedBy samplePlan ps ∧ gapEvidence.PushedBy samplePlan ps' ∧
      total samplePlan ps = .ok r ∧ total samplePlan ps' = .ok r' ∧ r ≠ r' ∧
      ¬ Ordered samplePlan r' := by
  refine ⟨by decide, gapEvidence_fits, [.asr 9 lateResult, missingCell, .release],
    [missingCell, .release, .asr 9 lateResult],
    [.block lateResult, .cell 0 (.gap false)], [.cell 0 (.gap false), .block lateResult],
    gapEvidence_pushedBy (fun p => ?_) rfl, gapEvidence_pushedBy (fun p => ?_) rfl, by decide,
    by decide, by decide, fun h => ?_⟩
  · simp [or_left_comm]
  · simp [or_comm]
  · have hbefore := (List.pairwise_cons.mp h.blocks).1 _ List.mem_cons_self
    change cellEnd 0 ≤ lateResult.through at hbefore
    revert hbefore
    decide

/-- The evidence of a missing first cell and a result inside it: no order is refused, and the order
would not matter only if it were settled. -/
theorem gapEvidence_order_iff :
    (∀ ps, gapEvidence.PushedBy samplePlan ps → ∃ r, total samplePlan ps = .ok r) ∧
      (gapEvidence.OrderIndependent samplePlan ↔ gapEvidence.Settled samplePlan) :=
  order_independent_iff (by decide) gapEvidence_fits

end EchoMuse.Turn
