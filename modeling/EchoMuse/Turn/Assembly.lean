import EchoMuse.Turn.Evidence

/-!
# Runs of the Assembler

What the assembler releases over a whole run of calls: the cells one after the other, and the ASR
results in their own order.

## Main results

* `RunInvariant.runFrom`: what one call and one released item preserve holds of every run;
* `assembled_invariant`: what holds of every run.
-/

namespace EchoMuse.Turn

/-! ### The release loop -/

/-- Nothing can be released. -/
def EvidenceAssembler.Blocked (a : EvidenceAssembler) : Prop :=
  (∀ b ∈ a.blocks.head?, cellEnd a.next ≤ b.through) ∧ a.frontReady = false

/-- The rounds of a release. -/
inductive Releases : EvidenceAssembler → List Released → EvidenceAssembler → Prop
  | done {a} : a.Blocked → Releases a [] a
  | block {a a' b blocks out} : a.blocks = b :: blocks → b.through < cellEnd a.next →
      Releases { a with blocks := blocks } out a' → Releases a (.block b :: out) a'
  | cell {a a' s rest out} : a.slots = s :: rest → a.slotReady s = true →
      (∀ b ∈ a.blocks.head?, cellEnd a.next ≤ b.through) →
      Releases (a.releaseCell s rest) out a' →
      Releases a (.cell a.next (CellAudio.fromInputs s) :: out) a'

/-- Enough rounds release everything that is ready. -/
theorem releaseLoop_releases {fuel : ℕ} {a : EvidenceAssembler}
    (h : a.slots.length + a.blocks.length ≤ fuel) :
    Releases a (a.releaseLoop fuel).2 (a.releaseLoop fuel).1 := by
  induction fuel generalizing a with
  | zero =>
      have hslots : a.slots = [] := List.length_eq_zero_iff.mp (by omega)
      have hblocks : a.blocks = [] := List.length_eq_zero_iff.mp (by omega)
      refine .done ⟨fun b hb => ?_, ?_⟩
      · rw [hblocks] at hb
        cases hb
      · unfold EvidenceAssembler.frontReady
        rw [hslots]
  | succ fuel ih =>
      have hfree (hfront : ∀ b ∈ a.blocks.head?, cellEnd a.next ≤ b.through) :
          (a.frontReady = false → Releases a [] a) ∧
            ∀ s rest, a.slots = s :: rest → a.slotReady s = true →
              Releases a (.cell a.next (CellAudio.fromInputs s) ::
                ((a.releaseCell s rest).releaseLoop fuel).2)
                ((a.releaseCell s rest).releaseLoop fuel).1 := by
        refine ⟨fun hready => .done ⟨hfront, hready⟩, fun s rest hslots hready => ?_⟩
        refine .cell hslots hready hfront (ih ?_)
        rw [hslots, List.length_cons] at h
        change rest.length + a.blocks.length ≤ fuel
        omega
      have hready {s : Slot} {rest : List Slot} (hslots : a.slots = s :: rest) :
          a.frontReady = a.slotReady s := by
        unfold EvidenceAssembler.frontReady
        rw [hslots]
      have hnone (hslots : a.slots = []) : a.frontReady = false := by
        unfold EvidenceAssembler.frontReady
        rw [hslots]
      unfold EvidenceAssembler.releaseLoop
      dsimp only
      cases hblocks : a.blocks with
      | nil =>
          have hfront : ∀ b ∈ a.blocks.head?, cellEnd a.next ≤ b.through := by simp [hblocks]
          cases hslots : a.slots with
          | nil => exact (hfree hfront).1 (hnone hslots)
          | cons s rest =>
              dsimp only
              by_cases hs : a.slotReady s = true
              · rw [if_pos hs]
                exact (hfree hfront).2 s rest hslots hs
              · rw [if_neg hs]
                exact (hfree hfront).1 ((hready hslots).trans (Bool.eq_false_iff.mpr hs))
      | cons b blocks =>
          dsimp only
          by_cases hb : b.through < cellEnd a.next
          · rw [if_pos hb]
            refine .block hblocks hb (ih ?_)
            rw [hblocks, List.length_cons] at h
            change a.slots.length + blocks.length ≤ fuel
            omega
          · rw [if_neg hb]
            have hfront : ∀ b ∈ a.blocks.head?, cellEnd a.next ≤ b.through := by
              simpa [hblocks] using not_lt.mp hb
            cases hslots : a.slots with
            | nil => exact (hfree hfront).1 (hnone hslots)
            | cons s rest =>
                dsimp only
                by_cases hs : a.slotReady s = true
                · rw [if_pos hs]
                  exact (hfree hfront).2 s rest hslots hs
                · rw [if_neg hs]
                  exact (hfree hfront).1 ((hready hslots).trans (Bool.eq_false_iff.mpr hs))

theorem release_releases (a : EvidenceAssembler) : Releases a a.release.2 a.release.1 :=
  releaseLoop_releases (le_refl _)

/-- A release leaves nothing that can be released. -/
theorem Releases.blocked {a a' : EvidenceAssembler} {out : List Released}
    (h : Releases a out a') : a'.Blocked := by
  induction h with
  | done hb => exact hb
  | block _ _ _ ih => exact ih
  | cell _ _ _ _ ih => exact ih

/-! ### Runs -/

/-- An invariant of the calls made so far, the assembler and what it has released, for the calls
at the front of `full`. -/
structure RunInvariant (full : List Push)
    (I : List Push → EvidenceAssembler → List Released → Prop) : Prop where
  took : ∀ {ps p a a' out}, I ps a out → ps ++ [p] <+: full → p ≠ .release →
    p.apply a = .ok (a', []) → I (ps ++ [p]) a' out
  pause : ∀ {ps a out}, I ps a out → I (ps ++ [.release]) a out
  block : ∀ {ps a out b blocks}, I ps a out → ps <+: full → a.blocks = b :: blocks →
    b.through < cellEnd a.next → I ps { a with blocks := blocks } (out ++ [.block b])
  cell : ∀ {ps a out s rest}, I ps a out → ps <+: full → a.slots = s :: rest →
    a.slotReady s = true → (∀ b ∈ a.blocks.head?, cellEnd a.next ≤ b.through) →
    I ps (a.releaseCell s rest) (out ++ [.cell a.next (CellAudio.fromInputs s)])

namespace RunInvariant

variable {full ps ps' : List Push} {I : List Push → EvidenceAssembler → List Released → Prop}
  {a a' : EvidenceAssembler} {out out' : List Released}

theorem releases (h : RunInvariant full I) (hr : Releases a out' a') (hI : I ps a out)
    (hps : ps <+: full) : I ps a' (out ++ out') := by
  induction hr generalizing out with
  | done _ => rwa [List.append_nil]
  | block hblocks hb _ ih =>
      rw [List.append_cons]
      exact ih (h.block hI hps hblocks hb)
  | cell hslots hready hfront _ ih =>
      rw [List.append_cons]
      exact ih (h.cell hI hps hslots hready hfront)

/-- The invariant holds of every run. -/
theorem runFrom (h : RunInvariant full I) (hrun : runFrom a ps' = .ok (a', out'))
    (hI : I ps a out) (hps : ps ++ ps' <+: full) : I (ps ++ ps') a' (out ++ out') := by
  induction ps' generalizing ps a out out' with
  | nil =>
      cases hrun
      rwa [List.append_nil, List.append_nil]
  | cons p ps' ih =>
      rw [Turn.runFrom] at hrun
      cases hp : p.apply a with
      | error e =>
          rw [hp] at hrun
          cases hrun
      | ok r =>
          obtain ⟨a₁, out₁⟩ := r
          rw [hp] at hrun
          change (do
            let r ← Turn.runFrom a₁ ps'
            pure (r.1, out₁ ++ r.2)) = Except.ok (a', out') at hrun
          cases hrest : Turn.runFrom a₁ ps' with
          | error e =>
              rw [hrest] at hrun
              cases hrun
          | ok r =>
              obtain ⟨a₂, out₂⟩ := r
              rw [hrest] at hrun
              cases hrun
              rw [List.append_cons] at hps
              have hpre : ps ++ [p] <+: full := (List.prefix_append _ _).trans hps
              have hstep : I (ps ++ [p]) a₁ (out ++ out₁) := by
                by_cases hrel : p = .release
                · subst hrel
                  have hreleases := release_releases a
                  obtain ⟨rfl, rfl⟩ := Prod.mk.inj (Except.ok.inj hp)
                  exact h.releases hreleases (h.pause hI) hpre
                · obtain rfl := Push.apply_out hp hrel
                  rw [List.append_nil]
                  exact h.took hI hpre hrel hp
              rw [List.append_cons, ← List.append_assoc]
              exact ih hrest hstep hps

end RunInvariant

/-! ### What every run does -/

/-- The facts that calls have for a cell. -/
def collected (ps : List Push) (c : ℕ) : Slot := ps.foldl (fun s p => s.add p c) {}

theorem collected_concat (ps : List Push) (p : Push) (c : ℕ) :
    collected (ps ++ [p]) c = (collected ps c).add p c := List.foldl_append

/-- The ASR results of calls, in order. -/
def asrOf (ps : List Push) : List AsrObservation := ps.filterMap Push.asr?

theorem asrOf_concat (ps : List Push) (p : Push) : asrOf (ps ++ [p]) = asrOf ps ++ p.asr?.toList := by
  rw [asrOf, List.filterMap_append]
  cases h : p.asr? <;> simp [h, asrOf]

namespace Released

/-- The cell of a released item. -/
def cell? : Released → Option ℕ
  | .cell c _ => some c
  | .block _ => none

/-- The ASR result of a released item. -/
def block? : Released → Option AsrObservation
  | .cell .. => none
  | .block b => some b

end Released

/-- The released cells, in order. -/
def cellsOf (out : List Released) : List ℕ := out.filterMap Released.cell?

/-- The released ASR results, in order. -/
def blocksOf (out : List Released) : List AsrObservation := out.filterMap Released.block?

@[simp] theorem cellsOf_append (out out' : List Released) :
    cellsOf (out ++ out') = cellsOf out ++ cellsOf out' := List.filterMap_append

@[simp] theorem blocksOf_append (out out' : List Released) :
    blocksOf (out ++ out') = blocksOf out ++ blocksOf out' := List.filterMap_append

@[simp] theorem cellsOf_cell (c : ℕ) (audio : CellAudio) : cellsOf [.cell c audio] = [c] := rfl

@[simp] theorem cellsOf_block (b : AsrObservation) : cellsOf [.block b] = [] := rfl

@[simp] theorem blocksOf_cell (c : ℕ) (audio : CellAudio) : blocksOf [.cell c audio] = [] := rfl

@[simp] theorem blocksOf_block (b : AsrObservation) : blocksOf [.block b] = [b] := rfl

theorem mem_cellsOf {out : List Released} {c : ℕ} :
    c ∈ cellsOf out ↔ ∃ audio, .cell c audio ∈ out := by
  rw [cellsOf, List.mem_filterMap]
  constructor
  · rintro ⟨r, hr, hc⟩
    cases r with
    | cell c' audio =>
        cases hc
        exact ⟨audio, hr⟩
    | block b => cases hc
  · rintro ⟨audio, h⟩
    exact ⟨_, h, rfl⟩

theorem mem_blocksOf {out : List Released} {b : AsrObservation} :
    b ∈ blocksOf out ↔ .block b ∈ out := by
  rw [blocksOf, List.mem_filterMap]
  constructor
  · rintro ⟨r, hr, hb⟩
    cases r with
    | cell c audio => cases hb
    | block b' =>
        cases hb
        exact hr
  · intro h
    exact ⟨_, h, rfl⟩

/-- What holds after any calls: the pending slots hold what the calls have for cells that are not
released, the cells come out one after the other, and the ASR results in their own order. -/
structure Assembled (plan : EvidencePlan) (ps : List Push) (a : EvidenceAssembler)
    (out : List Released) : Prop where
  plan_eq : a.plan = plan
  start : plan.cellsFrom ≤ a.next
  slots : ∀ c, a.next ≤ c → a.slotAt c = collected ps c
  asr : asrOf ps = blocksOf out ++ a.blocks
  through : a.lastThrough = (asrOf ps).getLast?.map (·.through)
  increasing : (asrOf ps).Pairwise (·.through < ·.through)
  inside : ∀ o ∈ asrOf ps, cellStart plan.analysisFrom < o.through
  cells : cellsOf out = List.range' plan.cellsFrom (a.next - plan.cellsFrom)
  closed : a.asrClosed = true ↔ ∃ g m, plan.analysisFrom ≤ g ∧ .cell g (.gap m) ∈ out
  early : ∀ b ∈ blocksOf out, b.through < cellEnd a.next

theorem cellEnd_le_cellEnd {c d : ℕ} (h : c ≤ d) : cellEnd c ≤ cellEnd d :=
  Nat.mul_le_mul_right _ (Nat.succ_le_succ h)

theorem cellStart_succ (c : ℕ) : cellStart (c + 1) = cellEnd c := rfl

section

variable {plan : EvidencePlan} {ps full : List Push} {a a' : EvidenceAssembler}
  {out : List Released}

theorem Assembled.new (h : EvidenceAssembler.new plan = .ok a) : Assembled plan [] a [] := by
  unfold EvidenceAssembler.new at h
  split at h
  · cases h
  · cases h
    refine ⟨rfl, le_refl _, fun c _ => rfl, rfl, rfl, .nil, nofun, ?_, ?_, nofun⟩
    · simp [cellsOf]
    · simp

/-- The slot at the release point. -/
theorem slotAt_next {s : Slot} {rest : List Slot} (h : a.slots = s :: rest) :
    a.slotAt a.next = s := by
  unfold EvidenceAssembler.slotAt
  rw [h, Nat.sub_self]
  rfl

/-- A released cell was not released before. -/
theorem Assembled.lt_next (h : Assembled plan ps a out) {c : ℕ} {audio : CellAudio}
    (hc : .cell c audio ∈ out) : plan.cellsFrom ≤ c ∧ c < a.next := by
  have hmem := mem_cellsOf.mpr ⟨audio, hc⟩
  have hstart := h.start
  rw [h.cells, List.mem_range'_1] at hmem
  omega

/-- Every cell before the release point is released. -/
theorem Assembled.released (h : Assembled plan ps a out) {c : ℕ} (hc : plan.cellsFrom ≤ c)
    (hlt : c < a.next) : ∃ audio, .cell c audio ∈ out := by
  refine mem_cellsOf.mp ?_
  rw [h.cells, List.mem_range'_1]
  omega

/-- The newest of increasing results covers the most. -/
theorem le_getLast_of_mem {l : List AsrObservation} (h : l.Pairwise (·.through < ·.through))
    {o : AsrObservation} (ho : o ∈ l) : ∃ z, l.getLast? = some z ∧ o.through ≤ z.through := by
  rcases List.eq_nil_or_concat l with rfl | ⟨init, z, rfl⟩
  · cases ho
  · rw [List.concat_eq_append] at h ho ⊢
    refine ⟨z, by simp, ?_⟩
    rcases List.mem_append.mp ho with hold | hnew
    · exact ((List.pairwise_append.mp h).2.2 o hold z (List.mem_singleton_self z)).le
    · rw [List.mem_singleton.mp hnew]

theorem assembled_invariant (plan : EvidencePlan) (full : List Push) :
    RunInvariant full (Assembled plan) where
  took {ps p a a' out} h _ hp happly := by
    have htook := Push.apply_took happly hp (h.plan_eq.symm ▸ h.start)
    refine ⟨htook.plan.trans h.plan_eq, htook.next.symm ▸ h.start, fun c hc => ?_, ?_, ?_, ?_, ?_,
      htook.next.symm ▸ h.cells, htook.closed.symm ▸ h.closed, htook.next.symm ▸ h.early⟩
    · rw [htook.next] at hc
      rw [htook.slots c hc, collected_concat, h.slots c hc]
    · rw [asrOf_concat, h.asr, htook.blocks, List.append_assoc]
    · rw [htook.through, asrOf_concat, h.through]
      cases hasr : p.asr? with
      | none => simp
      | some o => simp
    · rw [asrOf_concat]
      cases hasr : p.asr? with
      | none => simpa using h.increasing
      | some o =>
          refine List.pairwise_append.mpr ⟨h.increasing, List.pairwise_singleton _ _, ?_⟩
          intro o₁ ho₁ o₂ ho₂
          obtain rfl := List.mem_singleton.mp ho₂
          obtain ⟨z, hz, hle⟩ := le_getLast_of_mem h.increasing ho₁
          exact hle.trans_lt (htook.more o₂ hasr z.through (by rw [h.through, hz]; rfl))
    · rw [asrOf_concat]
      intro o ho
      rcases List.mem_append.mp ho with hold | hnew
      · exact h.inside o hold
      · rw [← h.plan_eq]
        exact htook.inside o (Option.mem_toList.mp hnew)
  pause {ps a out} h := by
    have hadd (c : ℕ) : collected (ps ++ [.release]) c = collected ps c := by
      rw [collected_concat]
      simp [Slot.add, Push.deviceAt, Push.vadAt, Push.echoAt, Push.gapAt]
    have hasr : asrOf (ps ++ [.release]) = asrOf ps := by
      rw [asrOf_concat]
      exact List.append_nil _
    refine ⟨h.plan_eq, h.start, fun c hc => ?_, ?_, ?_, ?_, ?_, h.cells, h.closed, h.early⟩
    · rw [hadd]
      exact h.slots c hc
    · rw [hasr]
      exact h.asr
    · rw [hasr]
      exact h.through
    · rw [hasr]
      exact h.increasing
    · rw [hasr]
      exact h.inside
  block {ps a out b blocks} h _ hblocks hb := by
    refine ⟨h.plan_eq, h.start, h.slots, ?_, h.through, h.increasing, h.inside, ?_, ?_, ?_⟩
    · rw [h.asr, hblocks]
      simp
    · simpa using h.cells
    · simpa using h.closed
    · intro b' hb'
      rw [blocksOf_append, List.mem_append] at hb'
      rcases hb' with hold | hnew
      · exact h.early b' hold
      · obtain rfl := List.mem_singleton.mp hnew
        exact hb
  cell {ps a out s rest} h _ hslots _ _ := by
    have hnext : (a.releaseCell s rest).next = a.next + 1 := rfl
    have hstart := h.start
    refine ⟨h.plan_eq, hstart.trans (Nat.le_succ _), fun c hc => ?_, ?_, h.through, h.increasing,
      h.inside, ?_, ?_, fun b hb => ?_⟩
    · rw [hnext] at hc
      rw [← h.slots c (by omega)]
      unfold EvidenceAssembler.slotAt
      rw [hslots, hnext, show c - a.next = c - (a.next + 1) + 1 from by omega]
      rfl
    · rw [blocksOf_append, blocksOf_cell, List.append_nil]
      exact h.asr
    · rw [cellsOf_append, h.cells, hnext, cellsOf_cell,
        show a.next + 1 - plan.cellsFrom = a.next - plan.cellsFrom + 1 from by omega,
        List.range'_concat]
      congr 2
      omega
    · have hclosed : (a.releaseCell s rest).asrClosed = true ↔ a.asrClosed = true ∨
          (plan.analysisFrom ≤ a.next ∧ ∃ m, CellAudio.fromInputs s = .gap m) := by
        unfold EvidenceAssembler.releaseCell
        rw [h.plan_eq]
        cases hs : CellAudio.fromInputs s <;> simp
      rw [hclosed, h.closed]
      constructor
      · rintro (⟨g, m, hg, hmem⟩ | ⟨hfrom, m, hm⟩)
        · exact ⟨g, m, hg, List.mem_append_left _ hmem⟩
        · exact ⟨a.next, m, hfrom, by rw [hm]; simp⟩
      · rintro ⟨g, m, hg, hmem⟩
        rcases List.mem_append.mp hmem with hold | hnew
        · exact .inl ⟨g, m, hg, hold⟩
        · obtain ⟨rfl, hm⟩ := Released.cell.inj (List.mem_singleton.mp hnew)
          exact .inr ⟨hg, m, hm.symm⟩
    · rw [blocksOf_append, blocksOf_cell, List.append_nil] at hb
      exact (h.early b hb).trans_le (cellEnd_le_cellEnd (Nat.le_succ _))

end

end EchoMuse.Turn
