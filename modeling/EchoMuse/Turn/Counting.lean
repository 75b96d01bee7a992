import EchoMuse.Turn.Cells
import Mathlib.Algebra.Order.BigOperators.Group.List
import Mathlib.Data.List.Chain
import Mathlib.Data.List.Nodup
import Mathlib.Data.List.Perm.Subperm

/-!
# Counting Command Speech

The command speech an utterance is judged by: its cells of command speech, and those its runs were
dated back over. A run is dated back over the whole voiced stretch before it, so the cells of a
stretch are counted once exactly when nothing else was decided about them before.

## Main results

* `stretch_voiced`: the cells a run is dated back over are voiced;
* `counted_once_iff`: when no cell is counted twice.
-/

namespace EchoMuse.Turn

open CellClassifier (roundDown)

/-! ### What is judged -/

/-- A cell that was judged, with what it was judged by. -/
structure Judgement where
  cell : ℕ
  audio : CellAudio
  background : Option Float
  foreground : Option Float
  before : CellClassifier

namespace Judgement

def judged (j : Judgement) : Classified :=
  (j.before.classify j.cell j.audio j.background j.foreground).1

def after (j : Judgement) : CellClassifier :=
  (j.before.classify j.cell j.audio j.background j.foreground).2

/-- The cell's probability of speech is above the bar of no speech. -/
def voiced (j : Judgement) : Bool := CellClassifier.voiced j.before.policy j.audio.vad

/-- The cells the run that opened on the cell was dated back over. -/
def datedBack (j : Judgement) : List ℕ :=
  match j.judged.opened with
  | some run => (List.range j.cell).filter fun k => run.start ≤ cellStart k
  | none => []

/-- Neither the cell's evidence nor a run that is there decides what the cell is. -/
def Undisturbed (j : Judgement) : Prop := j.before.Undisturbed j.audio j.foreground

/-- The cell's evidence opens a run. -/
def Opens (j : Judgement) : Prop := j.before.Opens j.cell j.audio j.background j.foreground

/-- The cells of the voiced stretch before the cell, from the trigger's cell on, if a reply's stretch
began inside the opening guard. -/
def reach (j : Judgement) : List ℕ :=
  match j.before.reply.join, j.before.voicedSince with
  | some g, some since =>
    if since < g then
      (List.range j.cell).filter fun k => since ≤ cellStart k && cellOf j.before.trigger ≤ k
    else []
  | _, _ => []

end Judgement

/-! ### Runs of cells -/

/-- A policy that is given one cell after another until it is finished, and what was judged. -/
structure Watched where
  policy : TurnPolicy
  /-- The next cell. -/
  next : ℕ
  /-- The cells after the trigger so far. -/
  seen : ℕ
  log : List Judgement

namespace Watched

def new (attribution : AttributionPolicy) (spec : TurnSpec) (first : ℕ) : Watched where
  policy := .new attribution spec
  next := first
  seen := 0
  log := []

def step (w : Watched) (audio : CellAudio) : Watched :=
  if w.policy.finished then w
  else
    { policy := (w.policy.onCell w.next audio).1
      next := w.next + 1
      seen := w.seen + if w.policy.spec.trigger < cellEnd w.next then 1 else 0
      log := w.log ++
        if w.policy.judges w.next then
          [{ cell := w.next, audio := audio, background := w.policy.background.currentDb,
             foreground := (w.policy.reached w.next).foreground.currentDb,
             before := w.policy.classifier }]
        else [] }

/-- The policy after some cells. -/
def run (attribution : AttributionPolicy) (spec : TurnSpec) (first : ℕ) (cells : List CellAudio) :
    Watched :=
  cells.foldl step (new attribution spec first)

end Watched

/-- No cell is counted twice. -/
structure CountedOnce (trigger : ℕ) (w : Watched) : Prop where
  /-- What is counted is no more than the cells after the trigger. -/
  total : w.policy.commandCells + w.policy.datedBackCells ≤ w.seen
  /-- A cell that is dated back over was undecided. -/
  unknown : ∀ o ∈ w.log, ∀ k ∈ o.datedBack, ∃ j ∈ w.log, j.cell = k ∧ j.judged.cls = .unknown
  /-- It and the cells behind it, up to the one that opened the run, are voiced. -/
  stretch : ∀ o ∈ w.log, ∀ k ∈ o.datedBack, ∀ m, k ≤ m → m ≤ o.cell →
    ∃ j ∈ w.log, j.cell = m ∧ j.voiced = true
  /-- It is dated back over by one run. -/
  once : w.log.Pairwise fun o o' => ∀ k ∈ o.datedBack, k ∉ o'.datedBack
  /-- A run does not start after the cell that opened it, nor before the trigger's cell when it is
  dated back. -/
  start : ∀ o ∈ w.log, ∀ run, o.judged.opened = some run → run.start ≤ cellStart o.cell ∧
    (run.start < cellStart o.cell → roundDown trigger ≤ run.start)

/-- Where a run opens, nothing was decided about the cells it reaches back over. -/
def Clear (log : List Judgement) : Prop :=
  ∀ o ∈ log, o.Opens → ∀ j ∈ log, j.cell ∈ o.reach → j.Undisturbed

/-! ### The log -/

/-- A cell is judged with what the one before it left. -/
structure Follows (i j : Judgement) : Prop where
  cell : j.cell = i.cell + 1
  before : j.before = i.after

/-- The cells judged so far, one after another. -/
structure Traced (start : CellClassifier) (log : List Judgement) (c : CellClassifier) : Prop where
  chain : log.IsChain Follows
  head : ∀ j ∈ log.head?, j.before = start
  last : c = (log.getLast?.map Judgement.after).getD start

namespace Traced

variable {start c : CellClassifier} {log : List Judgement}

theorem nil : Traced start [] start :=
  ⟨List.IsChain.nil, fun _ hj => absurd hj (Option.not_mem_none _), rfl⟩

theorem concat (h : Traced start log c) {j : Judgement} (hbefore : j.before = c)
    (hcell : ∀ i ∈ log.getLast?, j.cell = i.cell + 1) : Traced start (log ++ [j]) j.after := by
  refine ⟨List.isChain_append.mpr ⟨h.chain, .singleton j, fun i hi j' hj => ?_⟩, fun i hi => ?_, ?_⟩
  · cases hj
    refine ⟨hcell i hi, ?_⟩
    rw [hbefore, h.last, Option.mem_def.mp hi]
    rfl
  · cases log with
    | nil =>
      cases hi
      rw [hbefore, h.last]
      rfl
    | cons i' log => exact h.head i hi
  · rw [List.getLast?_append_of_ne_nil _ (List.cons_ne_nil j [])]
    rfl

theorem eq_start (h : Traced start [] c) : c = start := h.last

theorem eq_after {j : Judgement} (h : Traced start (log ++ [j]) c) : c = j.after := by
  rw [h.last, List.getLast?_append_of_ne_nil _ (List.cons_ne_nil j [])]
  rfl

/-- The cells before one that was judged. -/
theorem before {pre post : List Judgement} {j : Judgement}
    (h : Traced start (pre ++ j :: post) c) : Traced start pre j.before := by
  obtain ⟨hpre, -, hlink⟩ := List.isChain_append.mp h.chain
  refine ⟨hpre, fun i hi => h.head i ?_, ?_⟩
  · exact List.mem_head?_append_of_mem_head? hi
  · cases hlast : pre.getLast? with
    | none =>
      rw [List.getLast?_eq_none_iff] at hlast
      subst hlast
      exact h.head j rfl
    | some i => exact (hlink i hlast j rfl).before

/-- Later cells come later. -/
theorem pairwise (h : Traced start log c) : log.Pairwise fun i j => i.cell < j.cell := by
  have htrans : IsTrans Judgement fun i j => i.cell < j.cell := ⟨fun _ _ _ hij hjk => hij.trans hjk⟩
  refine List.isChain_iff_pairwise.mp (h.chain.imp fun i j (hij : Follows i j) => ?_)
  rw [hij.cell]
  exact Nat.lt_succ_self _

/-- Every cell between the first and a later one of a chain is in it. -/
theorem exists_of_chain {i j : Judgement} {post : List Judgement}
    (h : (i :: post).IsChain Follows) (hj : j ∈ i :: post) {m : ℕ} (him : i.cell ≤ m)
    (hmj : m ≤ j.cell) : ∃ l ∈ i :: post, l.cell = m := by
  induction post generalizing i with
  | nil =>
    rw [List.mem_singleton] at hj
    subst hj
    exact ⟨j, List.mem_cons_self, Nat.le_antisymm him hmj⟩
  | cons l post ih =>
    obtain ⟨hnext, hrest⟩ := List.isChain_cons_cons.mp h
    by_cases hm : m = i.cell
    · exact ⟨i, List.mem_cons_self, hm.symm⟩
    · have hj : j ∈ l :: post := (List.mem_cons.mp hj).resolve_left fun heq => by
        rw [heq] at hmj
        omega
      obtain ⟨l', hl', hcell⟩ := ih hrest hj (by rw [hnext.cell]; omega)
      exact ⟨l', List.mem_cons_of_mem _ hl', hcell⟩

/-- A judgement, and what comes after it. -/
theorem exists_split (h : Traced start log c) {i : Judgement} (hi : i ∈ log) :
    ∃ pre post, log = pre ++ i :: post ∧ (i :: post).IsChain Follows ∧
      (∀ l ∈ pre, l.cell < i.cell) ∧ ∀ l ∈ post, i.cell < l.cell := by
  obtain ⟨pre, post, rfl⟩ := List.append_of_mem hi
  obtain ⟨-, hpost, hlink⟩ := List.pairwise_append.mp h.pairwise
  exact ⟨pre, post, rfl, h.chain.right_of_append, fun l hl => hlink l hl i List.mem_cons_self,
    (List.pairwise_cons.mp hpost).1⟩

/-- Every cell between two that were judged was judged. -/
theorem exists_between (h : Traced start log c) {i j : Judgement} (hi : i ∈ log) (hj : j ∈ log)
    {m : ℕ} (him : i.cell ≤ m) (hmj : m ≤ j.cell) : ∃ l ∈ log, l.cell = m := by
  obtain ⟨pre, post, rfl, hchain, hpre, -⟩ := h.exists_split hi
  have hj : j ∈ i :: post := (List.mem_append.mp hj).resolve_left fun hj => by
    have := hpre j hj
    omega
  obtain ⟨l, hl, hcell⟩ := exists_of_chain hchain hj him hmj
  exact ⟨l, List.mem_append_right _ hl, hcell⟩

/-- One cell is judged once. -/
theorem eq_of_cell (h : Traced start log c) {i j : Judgement} (hi : i ∈ log) (hj : j ∈ log)
    (hcell : i.cell = j.cell) : i = j := by
  obtain ⟨pre, post, rfl, -, hpre, hpost⟩ := h.exists_split hi
  obtain hj | hj := List.mem_append.mp hj
  · exact absurd hcell (Nat.ne_of_gt (hpre j hj))
  · obtain rfl | hj := List.mem_cons.mp hj
    · rfl
    · exact absurd hcell (Nat.ne_of_lt (hpost j hj))

/-- The cell after one that was judged, if a later one was, was judged with what that left. -/
theorem exists_next (h : Traced start log c) {i j : Judgement} (hi : i ∈ log) (hj : j ∈ log)
    (hij : i.cell < j.cell) : ∃ l ∈ log, Follows i l := by
  obtain ⟨pre, post, rfl, hchain, hpre, -⟩ := h.exists_split hi
  obtain hj | hj := List.mem_append.mp hj
  · have := hpre j hj
    omega
  · match post with
    | [] =>
      rw [List.mem_singleton.mp hj] at hij
      omega
    | l :: post => exact ⟨l, by simp, (List.isChain_cons_cons.mp hchain).1⟩

end Traced

/-! ### Where a run starts -/

section

variable {start c : CellClassifier} {log : List Judgement}

theorem Judgement.spec (j : Judgement) : j.before.ClassifySpec j.cell j.audio j.background
    j.foreground (j.judged, j.after) :=
  CellClassifier.classify_spec _ _ _ _ _

/-- The rules do not change. -/
theorem Traced.rules (h : Traced start log c) : c.policy = start.policy ∧
    c.trigger = start.trigger ∧ c.reply = start.reply := by
  induction log using List.reverseRecOn generalizing c with
  | nil =>
    rw [h.eq_start]
    exact ⟨rfl, rfl, rfl⟩
  | append_singleton log j ih =>
    obtain ⟨hpolicy, htrigger, hreply⟩ := ih h.before
    have hj := j.spec
    rw [h.eq_after]
    exact ⟨hj.policy.trans hpolicy, hj.trigger.trans htrigger, hj.reply.trans hreply⟩

theorem Traced.rules_of_mem (h : Traced start log c) {j : Judgement} (hj : j ∈ log) :
    j.before.policy = start.policy ∧ j.before.trigger = start.trigger ∧
      j.before.reply = start.reply := by
  obtain ⟨pre, post, rfl, -⟩ := h.exists_split hj
  exact h.before.rules

/-- A stretch starts at a cell that was judged, and every cell judged since is voiced. -/
theorem Traced.stretch (h : Traced start log c) (hstart : start.voicedSince = none) {since : ℕ}
    (hsince : c.voicedSince = some since) : ∃ i ∈ log, since = cellStart i.cell ∧
      ∀ j ∈ log, i.cell ≤ j.cell → j.voiced = true := by
  induction log using List.reverseRecOn generalizing c with
  | nil =>
    rw [h.eq_start, hstart] at hsince
    cases hsince
  | append_singleton log j ih =>
    have hj : j.after.voicedSince = if j.voiced then
      j.before.voicedSince.or (some (cellStart j.cell)) else none := j.spec.voicedSince
    rw [← h.eq_after, hsince] at hj
    cases hvoiced : j.voiced with
    | false =>
      rw [hvoiced, if_neg Bool.false_ne_true] at hj
      cases hj
    | true =>
      rw [hvoiced, if_pos rfl] at hj
      cases hbefore : j.before.voicedSince with
      | none =>
        rw [hbefore, Option.none_or] at hj
        refine ⟨j, by simp, Option.some.inj hj, fun l hl hle => ?_⟩
        obtain hl | hl := List.mem_append.mp hl
        · have := (List.pairwise_append.mp h.pairwise).2.2 l hl j List.mem_cons_self
          omega
        · rw [List.mem_singleton.mp hl, hvoiced]
      | some s =>
        rw [hbefore, Option.some_or] at hj
        obtain ⟨i, hi, hs, hall⟩ := ih h.before (hbefore.trans hj.symm)
        refine ⟨i, List.mem_append_left _ hi, hs, fun l hl hle => ?_⟩
        obtain hl | hl := List.mem_append.mp hl
        · exact hall l hl hle
        · rw [List.mem_singleton.mp hl, hvoiced]

/-- Where a run that opened starts: at its cell, or where its stretch began inside the guard. -/
structure Starts (j : Judgement) (run : RunOpen) (first : ℕ) : Prop where
  start : run.start = cellStart first
  le : first ≤ j.cell
  datedBackCells : run.datedBackCells = j.cell - first
  trigger : first < j.cell → cellOf j.before.trigger ≤ first
  stretch : first < j.cell → ∃ since, j.before.voicedSince = some since ∧ since ≤ cellStart first
  reach : ∀ k, k ∈ j.reach ↔ first ≤ k ∧ k < j.cell

theorem cellStart_le_iff {a b : ℕ} : cellStart a ≤ cellStart b ↔ a ≤ b :=
  Nat.mul_le_mul_right_iff (by decide)

/-- The cell holding a sample ends after it. -/
theorem lt_cellEnd_of_le {t k : ℕ} (h : cellOf t ≤ k) : t < cellEnd k := by
  simp only [cellOf, cellEnd, cellSamples] at h ⊢
  omega

theorem cellStart_min_max (a b d : ℕ) :
    min (max (cellStart a) (cellStart b)) (cellStart d) = cellStart (min (max a b) d) := by
  simp only [cellStart, cellSamples]
  omega

theorem cellStart_sub (a b : ℕ) : (cellStart a - cellStart b) / cellSamples = a - b := by
  rw [cellStart, cellStart, ← Nat.sub_mul, Nat.mul_div_cancel _ (by decide)]

/-- A run that is not dated back. -/
theorem starts_here {j : Judgement} {run : RunOpen} (hreach : j.reach = [])
    (hrun : run = ⟨cellStart j.cell, (cellStart j.cell - cellStart j.cell) / cellSamples⟩) :
    Starts j run j.cell := by
  subst hrun
  refine ⟨rfl, le_rfl, cellStart_sub _ _, fun h => absurd h (lt_irrefl _),
    fun h => absurd h (lt_irrefl _), fun k => ?_⟩
  rw [hreach]
  exact iff_of_false List.not_mem_nil fun h => absurd h.2 (not_lt.mpr h.1)

theorem Traced.starts (h : Traced start log c) (hstart : start.voicedSince = none) {j : Judgement}
    (hj : j ∈ log) {run : RunOpen} (hrun : j.judged.opened = some run) :
    ∃ first, Starts j run first := by
  obtain ⟨hcls, -, hopen⟩ := j.spec.opened run hrun
  have hvoiced : CellClassifier.voiced j.before.policy j.audio.vad = true := j.spec.command hcls
  have hsince : (j.before.track j.cell j.audio.vad).voicedSince =
      j.before.voicedSince.or (some (cellStart j.cell)) := if_pos hvoiced
  cases hguard : j.before.reply.join with
  | none =>
    have hhere : (j.before.track j.cell j.audio.vad).runStart j.cell = cellStart j.cell := by
      rw [CellClassifier.runStart, CellClassifier.track_reply, hguard]
    rw [hhere] at hopen
    exact ⟨j.cell, starts_here (by rw [Judgement.reach, hguard]) hopen⟩
  | some g =>
    cases hbefore : j.before.voicedSince with
    | none =>
      have hhere : (j.before.track j.cell j.audio.vad).runStart j.cell = cellStart j.cell := by
        rw [CellClassifier.runStart, CellClassifier.track_reply, hguard, hsince, hbefore,
          Option.none_or]
        simp only []
        split_ifs
        · exact Nat.min_eq_right (le_max_left _ _)
        · rfl
      rw [hhere] at hopen
      exact ⟨j.cell, starts_here (by rw [Judgement.reach, hguard, hbefore]) hopen⟩
    | some since =>
      by_cases hlt : since < g
      · obtain ⟨pre, post, rfl, -⟩ := h.exists_split hj
        obtain ⟨i, -, hi, -⟩ := h.before.stretch hstart hbefore
        have hfirst : (j.before.track j.cell j.audio.vad).runStart j.cell =
            cellStart (min (max i.cell (cellOf j.before.trigger)) j.cell) := by
          rw [CellClassifier.runStart, CellClassifier.track_reply, hguard, hsince, hbefore,
            Option.some_or]
          simp only []
          rw [if_pos hlt, hi]
          exact cellStart_min_max _ _ _
        rw [hfirst, cellStart_sub] at hopen
        refine ⟨min (max i.cell (cellOf j.before.trigger)) j.cell, ?_⟩
        subst hopen
        refine ⟨rfl, min_le_right _ _, rfl, fun h => ?_, fun h => ⟨since, hbefore, ?_⟩, fun k => ?_⟩
        · omega
        · rw [hi, cellStart_le_iff]
          omega
        · rw [Judgement.reach, hguard, hbefore]
          simp only []
          rw [if_pos hlt, List.mem_filter, List.mem_range, hi, Bool.and_eq_true, decide_eq_true_eq,
            decide_eq_true_eq, cellStart_le_iff]
          omega
      · have hhere : (j.before.track j.cell j.audio.vad).runStart j.cell = cellStart j.cell := by
          rw [CellClassifier.runStart, CellClassifier.track_reply, hguard, hsince, hbefore,
            Option.some_or]
          exact if_neg hlt
        rw [hhere] at hopen
        refine ⟨j.cell, starts_here ?_ hopen⟩
        rw [Judgement.reach, hguard, hbefore]
        exact if_neg hlt

/-- The cells a run was dated back over. -/
theorem Starts.mem_datedBack {j : Judgement} {run : RunOpen} {first : ℕ} (h : Starts j run first)
    (hrun : j.judged.opened = some run) {k : ℕ} : k ∈ j.datedBack ↔ first ≤ k ∧ k < j.cell := by
  rw [Judgement.datedBack, hrun, List.mem_filter, List.mem_range, decide_eq_true_eq, h.start,
    cellStart_le_iff, and_comm]

/-- The run of a cell that is dated back over something. -/
theorem exists_opened {o : Judgement} {k : ℕ} (hk : k ∈ o.datedBack) :
    ∃ run, o.judged.opened = some run := by
  rw [Judgement.datedBack] at hk
  split at hk
  next run hrun => exact ⟨run, hrun⟩
  next => cases hk

theorem Judgement.opens_iff (o : Judgement) : o.Opens ↔ ∃ run, o.judged.opened = some run := by
  rw [← Option.isSome_iff_exists]
  exact o.spec.opens.symm

/-- The cells a run is dated back over, and those behind them, are voiced. -/
theorem Traced.stretch_voiced (h : Traced start log c) (hstart : start.voicedSince = none)
    {o : Judgement} (ho : o ∈ log) {k m : ℕ} (hk : k ∈ o.datedBack) (hkm : k ≤ m)
    (hm : m ≤ o.cell) : ∃ j ∈ log, j.cell = m ∧ j.voiced = true := by
  obtain ⟨run, hrun⟩ := exists_opened hk
  obtain ⟨first, hfirst⟩ := h.starts hstart ho hrun
  obtain ⟨hle, hlt⟩ := (hfirst.mem_datedBack hrun).mp hk
  obtain ⟨since, hsince, hreach⟩ := hfirst.stretch (hle.trans_lt hlt)
  have hvoiced : o.voiced = true := o.spec.command (o.spec.opened run hrun).1
  by_cases heq : m = o.cell
  · exact ⟨o, ho, heq.symm, hvoiced⟩
  · obtain ⟨pre, post, rfl, -, -, hpost⟩ := h.exists_split ho
    obtain ⟨i, hi, hs, hall⟩ := h.before.stretch hstart hsince
    rw [hs, cellStart_le_iff] at hreach
    obtain ⟨l, hl, hcell⟩ := h.exists_between (List.mem_append_left _ hi) ho
      ((hreach.trans hle).trans hkm) hm
    refine ⟨l, hl, hcell, ?_⟩
    obtain hl | hl := List.mem_append.mp hl
    · exact hall l hl (by omega)
    · obtain rfl | hl := List.mem_cons.mp hl
      · exact absurd hcell.symm heq
      · have := hpost l hl
        omega

/-- The cells a clear run is dated back over were undecided. -/
theorem Traced.unknown_of_clear (h : Traced start log c) (hstart : start.voicedSince = none)
    (hclear : Clear log) {o : Judgement} (ho : o ∈ log) {k : ℕ} (hk : k ∈ o.datedBack) :
    ∃ j ∈ log, j.cell = k ∧ j.judged.cls = .unknown := by
  obtain ⟨run, hrun⟩ := exists_opened hk
  obtain ⟨first, hfirst⟩ := h.starts hstart ho hrun
  obtain ⟨hle, hlt⟩ := (hfirst.mem_datedBack hrun).mp hk
  have hopens : o.Opens := o.opens_iff.mpr ⟨run, hrun⟩
  obtain ⟨j, hj, rfl, hvoiced⟩ := h.stretch_voiced hstart ho hk le_rfl hlt.le
  have hundisturbed := hclear o ho hopens j hj ((hfirst.reach j.cell).mpr ⟨hle, hlt⟩)
  refine ⟨j, hj, rfl, ((j.spec.unknown hvoiced).mpr hundisturbed).resolve_right fun hopened => ?_⟩
  -- a run that opened on the cell would be there for the next one
  obtain ⟨run', hrun'⟩ := Option.isSome_iff_exists.mp hopened
  obtain ⟨l, hl, hnext⟩ := h.exists_next hj ho hlt
  have hsome : l.before.run = some (cellStart j.cell) := by
    rw [hnext.before]
    exact (j.spec.opened run' hrun').2.1
  have hnone : l.before.run = none := by
    by_cases heq : l.cell = o.cell
    · rw [h.eq_of_cell hl ho heq]
      exact hopens.undisturbed.run
    · have hcell := hnext.cell
      exact (hclear o ho hopens l hl ((hfirst.reach l.cell).mpr ⟨by omega, by omega⟩)).run
  rw [hnone] at hsome
  cases hsome

theorem Traced.clear_of_unknown (h : Traced start log c) (hstart : start.voicedSince = none)
    (hunknown : ∀ o ∈ log, ∀ k ∈ o.datedBack, ∃ j ∈ log, j.cell = k ∧ j.judged.cls = .unknown) :
    Clear log := by
  intro o ho hopens j hj hreach
  obtain ⟨run, hrun⟩ := o.opens_iff.mp hopens
  obtain ⟨first, hfirst⟩ := h.starts hstart ho hrun
  have hrange := (hfirst.reach j.cell).mp hreach
  have hk : j.cell ∈ o.datedBack := (hfirst.mem_datedBack hrun).mpr hrange
  obtain ⟨i, hi, hcell, hcls⟩ := hunknown o ho j.cell hk
  obtain ⟨l, hl, hcell', hvoiced⟩ := h.stretch_voiced hstart ho hk le_rfl hrange.2.le
  rw [h.eq_of_cell hi hj hcell] at hcls
  rw [h.eq_of_cell hl hj hcell'] at hvoiced
  exact (j.spec.unknown hvoiced).mp (.inl hcls)

/-- Runs that are dated back over undecided cells are not dated back over one another. -/
theorem Traced.once_of_unknown (h : Traced start log c) (hstart : start.voicedSince = none)
    (hunknown : ∀ o ∈ log, ∀ k ∈ o.datedBack, ∃ j ∈ log, j.cell = k ∧ j.judged.cls = .unknown) :
    log.Pairwise fun o o' => ∀ k ∈ o.datedBack, k ∉ o'.datedBack := by
  refine h.pairwise.imp_of_mem fun {o o'} ho ho' hlt k hk hk' => ?_
  obtain ⟨run, hrun⟩ := exists_opened hk
  obtain ⟨run', hrun'⟩ := exists_opened hk'
  obtain ⟨first, hfirst⟩ := h.starts hstart ho hrun
  obtain ⟨first', hfirst'⟩ := h.starts hstart ho' hrun'
  have hrange := (hfirst.mem_datedBack hrun).mp hk
  have hrange' := (hfirst'.mem_datedBack hrun').mp hk'
  obtain ⟨j, hj, hcell, hcls⟩ := hunknown o' ho' o.cell
    ((hfirst'.mem_datedBack hrun').mpr ⟨hrange'.1.trans hrange.2.le, hlt⟩)
  rw [h.eq_of_cell hj ho hcell, (o.spec.opened run hrun).1] at hcls
  cases hcls

end

/-! ### The counts -/

section

variable {start c : CellClassifier} {log : List Judgement}

/-- The cells that are counted as command speech. -/
def Judgement.isCommand (trigger : ℕ) (j : Judgement) : Bool :=
  trigger < cellEnd j.cell ∧ j.judged.cls = .commandSpeech

/-- The cells a run counts besides its own. -/
def Judgement.dated (trigger : ℕ) (j : Judgement) : ℕ :=
  if trigger < cellEnd j.cell then (j.judged.opened.map (·.datedBackCells)).getD 0 else 0

theorem length_filter_range (first n : ℕ) :
    ((List.range n).filter fun k => first ≤ k).length = n - first := by
  have hperm : ((List.range n).filter fun k => first ≤ k).Perm (List.range' first (n - first)) := by
    rw [List.perm_ext_iff_of_nodup (List.nodup_range.filter _) List.nodup_range']
    intro k
    rw [List.mem_filter, List.mem_range, decide_eq_true_eq, List.mem_range'_1]
    omega
  rw [hperm.length_eq, List.length_range']

/-- A run counts the cells it is dated back over. -/
theorem Traced.dated_le (h : Traced start log c) (hstart : start.voicedSince = none) {o : Judgement}
    (ho : o ∈ log) : o.dated start.trigger ≤ o.datedBack.length := by
  rw [Judgement.dated]
  split_ifs
  · cases hrun : o.judged.opened with
    | none => exact Nat.zero_le _
    | some run =>
      obtain ⟨first, hfirst⟩ := h.starts hstart ho hrun
      have hback : o.datedBack = (List.range o.cell).filter fun k => first ≤ k := by
        rw [Judgement.datedBack, hrun]
        refine List.filter_congr fun k _ => ?_
        rw [hfirst.start, decide_eq_decide, cellStart_le_iff]
      rw [hback, length_filter_range]
      exact hfirst.datedBackCells.le
  · exact Nat.zero_le _

theorem countP_add_countP_le {α : Type*} {p q r : α → Bool} (l : List α)
    (hp : ∀ a, p a = true → r a = true) (hq : ∀ a, q a = true → r a = true)
    (hpq : ∀ a, p a = true → q a = false) : l.countP p + l.countP q ≤ l.countP r := by
  induction l with
  | nil => exact le_rfl
  | cons a l ih =>
    have hpa := hp a
    have hqa := hq a
    have hpqa := hpq a
    rw [List.countP_cons, List.countP_cons, List.countP_cons]
    cases ha : p a <;> cases hb : q a <;> cases hc : r a <;> simp_all <;> omega

/-- What is counted is no more than the cells after the trigger that were judged. -/
theorem Traced.count_le (h : Traced start log c) (hstart : start.voicedSince = none)
    (hunknown : ∀ o ∈ log, ∀ k ∈ o.datedBack, ∃ j ∈ log, j.cell = k ∧ j.judged.cls = .unknown) :
    log.countP (·.isCommand start.trigger) + (log.map (·.dated start.trigger)).sum ≤
      log.countP fun j => start.trigger < cellEnd j.cell := by
  have hsum : (log.map (·.dated start.trigger)).sum ≤ (log.flatMap Judgement.datedBack).length := by
    rw [List.length_flatMap]
    exact List.sum_le_sum fun o ho => h.dated_le hstart ho
  have hnodup : (log.flatMap Judgement.datedBack).Nodup := by
    rw [List.nodup_flatMap]
    refine ⟨fun o _ => ?_, (h.once_of_unknown hstart hunknown).imp fun hone k hk hk' => hone k hk hk'⟩
    rw [Judgement.datedBack]
    split
    · exact List.nodup_range.filter _
    · exact List.nodup_nil
  have hsubset : log.flatMap Judgement.datedBack ⊆ (log.filter fun j =>
      start.trigger < cellEnd j.cell ∧ j.judged.cls = .unknown).map (·.cell) := by
    intro k hk
    obtain ⟨o, ho, hk⟩ := List.mem_flatMap.mp hk
    obtain ⟨run, hrun⟩ := exists_opened hk
    obtain ⟨first, hfirst⟩ := h.starts hstart ho hrun
    obtain ⟨hle, hlt⟩ := (hfirst.mem_datedBack hrun).mp hk
    obtain ⟨j, hj, rfl, hcls⟩ := hunknown o ho k hk
    refine List.mem_map.mpr ⟨j, List.mem_filter.mpr ⟨hj, decide_eq_true ⟨?_, hcls⟩⟩, rfl⟩
    have htrigger := hfirst.trigger (hle.trans_lt hlt)
    rw [(h.rules_of_mem ho).2.1] at htrigger
    exact lt_cellEnd_of_le (htrigger.trans hle)
  have hlength := (hnodup.subperm hsubset).length_le
  rw [List.length_map, ← List.countP_eq_length_filter] at hlength
  have hcount := @countP_add_countP_le Judgement (·.isCommand start.trigger)
    (fun j => start.trigger < cellEnd j.cell ∧ j.judged.cls = .unknown)
    (fun j => start.trigger < cellEnd j.cell) log ?_ ?_ ?_
  · omega
  · exact fun j hj => decide_eq_true (of_decide_eq_true hj).1
  · exact fun j hj => decide_eq_true (of_decide_eq_true hj).1
  · intro j hj
    refine decide_eq_false fun hboth => ?_
    rw [(of_decide_eq_true hj).2] at hboth
    cases hboth.2

end

/-! ### Every run -/

section

variable {attribution : AttributionPolicy} {spec : TurnSpec}

/-- The policy's counts are those of the log. -/
structure Recorded (attribution : AttributionPolicy) (spec : TurnSpec) (w : Watched) : Prop where
  same : w.policy.spec = spec
  traced : Traced (TurnPolicy.new attribution spec).classifier w.log w.policy.classifier
  commandCells : w.policy.commandCells = w.log.countP (·.isCommand spec.trigger)
  datedBackCells : w.policy.datedBackCells = (w.log.map (·.dated spec.trigger)).sum
  seen : (w.log.countP fun j => spec.trigger < cellEnd j.cell) ≤ w.seen
  next : w.policy.finished = true ∨ w.policy.replyGapEnd.isSome = true ∨
    ∀ i ∈ w.log.getLast?, w.next = i.cell + 1
  started : w.log ≠ [] → roundDown spec.start ≤ cellStart w.next

theorem Recorded.new (attribution : AttributionPolicy) (spec : TurnSpec) (first : ℕ) :
    Recorded attribution spec (.new attribution spec first) where
  same := rfl
  traced := .nil
  commandCells := rfl
  datedBackCells := rfl
  seen := le_rfl
  next := .inr (.inr fun _ hi => absurd hi (Option.not_mem_none _))
  started := fun h => absurd rfl h

/-- A cell that is judged is the next of the log. -/
theorem Recorded.judged {w : Watched} (h : Recorded attribution spec w)
    (hfinished : w.policy.finished ≠ true) {audio : CellAudio} (hjudges : w.policy.judges w.next = true)
    {j : Judgement} (hj : j = { cell := w.next, audio := audio
                                background := w.policy.background.currentDb
                                foreground := (w.policy.reached w.next).foreground.currentDb
                                before := w.policy.classifier }) :
    Recorded attribution spec
      { policy := (w.policy.onCell w.next audio).1
        next := w.next + 1
        seen := w.seen + if w.policy.spec.trigger < cellEnd w.next then 1 else 0
        log := w.log ++ [j] } := by
  obtain ⟨hspec, hclassifier, hcommand, hdated⟩ :=
    @TurnPolicy.onCell_judged w.policy w.next audio hjudges
  rw [TurnPolicy.judges, Bool.and_eq_true, decide_eq_true_eq, Option.isNone_iff_eq_none] at hjudges
  have hcell : j.cell = w.next := by rw [hj]
  have hjudged : j.judged = (w.policy.judge w.next audio).1 := by rw [hj]; rfl
  have hafter : j.after = (w.policy.judge w.next audio).2 := by rw [hj]; rfl
  have hnext : ∀ i ∈ w.log.getLast?, j.cell = i.cell + 1 := by
    obtain hdone | hgap | hnext := h.next
    · exact absurd hdone hfinished
    · rw [hjudges.2] at hgap
      cases hgap
    · exact fun i hi => hcell.trans (hnext i hi)
  refine ⟨hspec.trans h.same, ?_, ?_, ?_, ?_, .inr (.inr fun i hi => ?_), fun _ => ?_⟩
  · rw [hclassifier, ← hafter]
    exact h.traced.concat (by rw [hj]) hnext
  · rw [hcommand, h.commandCells, h.same, List.countP_append, List.countP_singleton,
      Judgement.isCommand, hjudged, hcell]
    simp only [decide_eq_true_eq]
  · rw [hdated, h.datedBackCells, h.same, List.map_append, List.sum_append, List.map_singleton,
      List.sum_singleton, Judgement.dated, hjudged, hcell]
  · have hseen := h.seen
    rw [List.countP_append, List.countP_singleton, hcell, h.same]
    simp only [decide_eq_true_eq]
    omega
  · rw [List.getLast?_append_of_ne_nil _ (List.cons_ne_nil j [])] at hi
    cases hi
    exact congrArg (· + 1) hcell.symm
  · rw [← h.same]
    exact hjudges.1.trans (cellStart_le_iff.mpr (Nat.le_succ _))

/-- A cell that is not judged leaves the log as it is. -/
theorem Recorded.skipped {w : Watched} (h : Recorded attribution spec w) {audio : CellAudio}
    (hjudges : w.policy.judges w.next = false) :
    Recorded attribution spec
      { policy := (w.policy.onCell w.next audio).1
        next := w.next + 1
        seen := w.seen + if w.policy.spec.trigger < cellEnd w.next then 1 else 0
        log := w.log } := by
  obtain ⟨hspec, hclassifier, hcommand, hdated, hgap⟩ :=
    @TurnPolicy.onCell_skipped w.policy w.next audio hjudges
  refine ⟨hspec.trans h.same, ?_, hcommand.trans h.commandCells, hdated.trans h.datedBackCells,
    h.seen.trans (Nat.le_add_right _ _), ?_, fun hne => ?_⟩
  · rw [hclassifier]
    exact h.traced
  · by_cases hlog : w.log = []
    · refine .inr (.inr fun i hi => ?_)
      rw [hlog] at hi
      cases hi
    · rw [h.same] at hgap
      exact (hgap (h.started hlog)).imp_right .inl
  · exact (h.started hne).trans (cellStart_le_iff.mpr (Nat.le_succ _))

theorem Recorded.step {w : Watched} (h : Recorded attribution spec w) (audio : CellAudio) :
    Recorded attribution spec (w.step audio) := by
  rw [Watched.step]
  by_cases hfinished : w.policy.finished = true
  · rwa [if_pos hfinished]
  · rw [if_neg hfinished]
    cases hjudges : w.policy.judges w.next with
    | true => exact h.judged hfinished hjudges rfl
    | false =>
      rw [if_neg Bool.false_ne_true, List.append_nil]
      exact h.skipped hjudges

theorem recorded_run (attribution : AttributionPolicy) (spec : TurnSpec) (first : ℕ)
    (cells : List CellAudio) : Recorded attribution spec (Watched.run attribution spec first cells) := by
  induction cells using List.reverseRecOn with
  | nil => exact .new attribution spec first
  | append_singleton cells audio ih =>
    rw [Watched.run, List.foldl_append]
    exact ih.step audio

end

/-- No cell is counted twice exactly when nothing was decided about the cells a run reaches back over
before it opens. -/
theorem counted_once_iff (attribution : AttributionPolicy) (spec : TurnSpec) (first : ℕ)
    (cells : List CellAudio) :
    CountedOnce spec.trigger (Watched.run attribution spec first cells) ↔
      Clear (Watched.run attribution spec first cells).log := by
  have h := recorded_run attribution spec first cells
  have hstart : (TurnPolicy.new attribution spec).classifier.voicedSince = none := rfl
  constructor
  · exact fun hcounted => h.traced.clear_of_unknown hstart hcounted.unknown
  · intro hclear
    have hunknown : ∀ o ∈ (Watched.run attribution spec first cells).log, ∀ k ∈ o.datedBack,
        ∃ j ∈ (Watched.run attribution spec first cells).log, j.cell = k ∧
          j.judged.cls = .unknown :=
      fun o ho k hk => h.traced.unknown_of_clear hstart hclear ho hk
    refine ⟨?_, hunknown, fun o ho k hk m hkm hm => h.traced.stretch_voiced hstart ho hk hkm hm,
      h.traced.once_of_unknown hstart hunknown, fun o ho run hrun => ?_⟩
    · rw [h.commandCells, h.datedBackCells]
      exact (h.traced.count_le hstart hunknown).trans h.seen
    · obtain ⟨k, hk⟩ := h.traced.starts hstart ho hrun
      rw [hk.start, cellStart_le_iff]
      refine ⟨hk.le, fun hlt => ?_⟩
      have htrigger := hk.trigger (lt_of_not_ge fun hle => not_lt.mpr (cellStart_le_iff.mpr hle) hlt)
      rw [(h.traced.rules_of_mem ho).2.1] at htrigger
      exact cellStart_le_iff.mpr htrigger

/-- A cell of unknown loudness with a probability of speech. -/
def heard (bits : ℕ) (valid : bits ≤ 0x3F800000) (label : EchoLabel) : CellAudio :=
  .present none none (.probability ⟨bits, valid⟩) ⟨label, .full⟩

/-- An answer begun as the window opens, in which one cell is the device's own playback. -/
def interruptedAnswer : List CellAudio :=
  List.replicate 24 (heard 0x3DCCCCCD (by decide) .nearEndPresent) ++
    List.replicate 12 (heard 0x3F666666 (by decide) .nearEndPresent) ++
    [heard 0x3F666666 (by decide) .echoOnly, heard 0x3F666666 (by decide) .nearEndPresent]

/-- The window such an answer is heard in. -/
def drainedReply : TurnSpec := ⟨0, 12480, .reply (some 17600) 124480⟩

/-- The run that opens after that cell is dated back over the cells of the run before it. -/
theorem answer_counted_twice :
    (Watched.run .default drainedReply 0 interruptedAnswer).policy.commandCells = 2 ∧
      (Watched.run .default drainedReply 0 interruptedAnswer).policy.datedBackCells = 24 ∧
      (Watched.run .default drainedReply 0 interruptedAnswer).seen = 14 ∧
      ¬ CountedOnce 12480 (Watched.run .default drainedReply 0 interruptedAnswer) := by
  have hcommand : (Watched.run .default drainedReply 0 interruptedAnswer).policy.commandCells = 2 := by
    decide +kernel
  have hdated : (Watched.run .default drainedReply 0 interruptedAnswer).policy.datedBackCells = 24 := by
    decide +kernel
  have hseen : (Watched.run .default drainedReply 0 interruptedAnswer).seen = 14 := by
    decide +kernel
  refine ⟨hcommand, hdated, hseen, fun h => ?_⟩
  have htotal := h.total
  rw [hcommand, hdated, hseen] at htotal
  omega

end EchoMuse.Turn
