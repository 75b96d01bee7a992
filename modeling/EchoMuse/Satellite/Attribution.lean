import EchoMuse.Satellite.Changes

/-!
# Attribution of the Satellite's Runs

What the runtime gets of a run, over all runs of the satellite. A run ends once for the runtime,
unless the runtime ended it itself, and the runtime gets nothing of it after that. As long as no run
starts on a connection on which an earlier start is still unanswered, what it gets of a run is also
the run's own.

## Main results

* `Ledger.change`: every change keeps the accounts of closures;
* `Actor.runs_attributed`: the accounts and the attribution in every state reached;
* `Actor.answer_crosses`: a start that crosses an earlier answer takes it for its own.
-/

namespace EchoMuse.Satellite

/-- The request ends the run. -/
def Request.ends (run : RunId) (q : Request) : Bool := q.closes && decide (q.run = run)

namespace Actor

/-- What the runtime has got and what waits for it. -/
def book (s : Actor) : List Request := s.requests ++ s.undelivered

/-- The run has no closure yet. -/
def Unclosed (s : Actor) (run : RunId) : Prop := ∀ q ∈ s.book, q.ends run = false

/-- The accounts of closures. -/
structure Ledger (s : Actor) : Prop where
  issued : ∀ r, s.run = some r → r.id < s.nextRun
  told : ∀ q ∈ s.book, q.run < s.nextRun
  ended_lt : ∀ run ∈ s.ended, run < s.nextRun
  waits : ∀ q ∈ s.undelivered, q.closes = true
  current : ∀ r, s.run = some r → r.id ∉ s.ended ∧ s.Unclosed r.id
  ended : ∀ run ∈ s.ended, s.Unclosed run
  silent : s.book.Pairwise fun q q' => q.closes = true → q'.run ≠ q.run
  closed : ∀ run < s.nextRun, (∀ r, s.run = some r → r.id ≠ run) → run ∉ s.ended →
    s.runtimeGone = false → ∃ q ∈ s.book, q.ends run = true

end Actor

/-! ### Changes -/

namespace Actor

variable {s s' : Actor}

theorem Ledger.init : Ledger {} where
  issued := fun r h => by cases h
  told := fun q h => absurd h List.not_mem_nil
  ended_lt := fun run h => absurd h List.not_mem_nil
  waits := fun q h => absurd h List.not_mem_nil
  current := fun r h => by cases h
  ended := fun run h => absurd h List.not_mem_nil
  silent := .nil
  closed := fun run h => absurd h (Nat.not_lt_zero run)

/-- The same accounts of the same run. -/
theorem Ledger.same (h : s.Ledger) (hid : ∀ r', s'.run = some r' → ∃ r, s.run = some r ∧ r.id = r'.id)
    (hid' : ∀ r, s.run = some r → ∃ r', s'.run = some r' ∧ r'.id = r.id)
    (hnext : s'.nextRun = s.nextRun) (hundelivered : s'.undelivered = s.undelivered)
    (hrequests : s'.requests = s.requests) (hended : s'.ended = s.ended)
    (hgone : s.runtimeGone = true → s'.runtimeGone = true) : s'.Ledger := by
  have hbook : s'.book = s.book := by rw [book, book, hrequests, hundelivered]
  refine ⟨fun r' hr' => ?_, ?_, ?_, ?_, fun r' hr' => ?_, ?_, ?_, ?_⟩
  · obtain ⟨r, hr, heq⟩ := hid r' hr'
    rw [hnext, ← heq]
    exact h.issued r hr
  · rw [hbook, hnext]
    exact h.told
  · rw [hended, hnext]
    exact h.ended_lt
  · rw [hundelivered]
    exact h.waits
  · obtain ⟨r, hr, heq⟩ := hid r' hr'
    rw [Unclosed, hbook, hended, ← heq]
    exact h.current r hr
  · rw [hended]
    intro run hrun
    rw [Unclosed, hbook]
    exact h.ended run hrun
  · rw [hbook]
    exact h.silent
  · rw [hnext, hbook, hended]
    intro run hlt hcurrent hnot hgone'
    refine h.closed run hlt (fun r hr heq => ?_) hnot ?_
    · obtain ⟨r', hr', hsame⟩ := hid' r hr
      exact hcurrent r' hr' (hsame.trans heq)
    · by_contra hg
      rw [hgone ((Bool.not_eq_false _).mp hg)] at hgone'
      cases hgone'

theorem Unclosed.ne {run : RunId} (h : s.Unclosed run) {q : Request} (hq : q ∈ s.book)
    (hcloses : q.closes = true) : q.run ≠ run := by
  intro heq
  have hends := h q hq
  rw [Request.ends, hcloses, decide_eq_true heq] at hends
  cases hends

theorem ends_of_ne {run : RunId} {q : Request} (h : q.run ≠ run) : q.ends run = false := by
  rw [Request.ends, decide_eq_false h, Bool.and_false]

theorem ends_of_not {run : RunId} {q : Request} (h : q.closes = false) : q.ends run = false := by
  rw [Request.ends, h, Bool.false_and]

/-- An event of the run in progress overtakes the closures that wait. -/
theorem Ledger.tell (h : s.Ledger) {r : ActiveRun} {q : Request} (hrun : s.run = some r)
    (hq : q.run = r.id) (hcloses : q.closes = false) :
    Ledger { s with requests := s.requests ++ [q] } := by
  have hmem : ∀ q', q' ∈ { s with requests := s.requests ++ [q] }.book ↔ q' ∈ s.book ∨ q' = q := by
    intro q'
    unfold book
    rw [List.mem_append, List.mem_append, List.mem_append, List.mem_singleton, or_right_comm]
  have hunclosed : ∀ run, s.Unclosed run →
      { s with requests := s.requests ++ [q] }.Unclosed run := by
    intro run hopen q' hq'
    rcases (hmem q').mp hq' with hq' | rfl
    · exact hopen q' hq'
    · exact ends_of_not hcloses
  refine ⟨h.issued, fun q' hq' => ?_, h.ended_lt, h.waits, fun r hr => ?_, fun run hrun => ?_, ?_, ?_⟩
  · rcases (hmem q').mp hq' with hq' | rfl
    · exact h.told q' hq'
    · exact hq ▸ h.issued r hrun
  · exact ⟨(h.current r hr).1, hunclosed r.id (h.current r hr).2⟩
  · exact hunclosed run (h.ended run hrun)
  · have hsilent := h.silent
    unfold book at hsilent ⊢
    obtain ⟨hrequests, hundelivered, hacross⟩ := List.pairwise_append.mp hsilent
    rw [List.append_assoc]
    refine List.pairwise_append.mpr ⟨hrequests, List.pairwise_cons.mpr ⟨fun q' _ hcl => ?_,
      hundelivered⟩, fun q₁ hq₁ q₂ hq₂ => ?_⟩
    · rw [hcloses] at hcl
      cases hcl
    · rcases List.mem_cons.mp hq₂ with rfl | hq₂
      · intro hcl
        rw [hq]
        exact ((h.current r hrun).2.ne (List.mem_append_left _ hq₁) hcl).symm
      · exact hacross q₁ hq₁ q₂ hq₂
  · intro run hlt hcurrent hnot hgone
    obtain ⟨q', hq', hends⟩ := h.closed run hlt hcurrent hnot hgone
    exact ⟨q', (hmem q').mpr (.inl hq'), hends⟩

/-- The closure of the run in progress comes last. -/
theorem Ledger.finish (h : s.Ledger) {r : ActiveRun} {q : Request} (hrun : s.run = some r)
    (hrun' : s'.run = none) (hq : q.run = r.id) (hcloses : q.closes = true)
    (hnext : s'.nextRun = s.nextRun) (hended : s'.ended = s.ended)
    (hgone : s'.runtimeGone = s.runtimeGone) (hbook : s'.book = s.book ++ [q])
    (hwaits : ∀ q' ∈ s'.undelivered, q' ∈ s.undelivered ∨ q' = q) : s'.Ledger := by
  have hmem : ∀ q', q' ∈ s'.book ↔ q' ∈ s.book ∨ q' = q := by
    intro q'
    rw [hbook, List.mem_append, List.mem_singleton]
  have hnone : ∀ r', s'.run ≠ some r' := by
    intro r' hr'
    rw [hrun'] at hr'
    cases hr'
  refine ⟨fun r' hr' => absurd hr' (hnone r'), fun q' hq' => ?_, ?_, fun q' hq' => ?_,
    fun r' hr' => absurd hr' (hnone r'), fun run hended' q' hq' => ?_, ?_, ?_⟩
  · rw [hnext]
    rcases (hmem q').mp hq' with hq' | rfl
    · exact h.told q' hq'
    · exact hq ▸ h.issued r hrun
  · rw [hended, hnext]
    exact h.ended_lt
  · rcases hwaits q' hq' with hq' | rfl
    · exact h.waits q' hq'
    · exact hcloses
  · rw [hended] at hended'
    rcases (hmem q').mp hq' with hq' | rfl
    · exact h.ended run hended' q' hq'
    · refine ends_of_ne fun heq => (h.current r hrun).1 ?_
      rw [← hq, heq]
      exact hended'
  · rw [hbook]
    refine List.pairwise_append.mpr ⟨h.silent, List.pairwise_singleton _ _, fun q₁ hq₁ q₂ hq₂ hcl => ?_⟩
    rw [List.mem_singleton.mp hq₂, hq]
    exact ((h.current r hrun).2.ne hq₁ hcl).symm
  · rw [hnext, hended, hgone]
    intro run hlt _ hnot hgone'
    by_cases heq : r.id = run
    · refine ⟨q, (hmem q).mpr (.inr rfl), ?_⟩
      rw [Request.ends, hcloses, decide_eq_true (hq.trans heq), Bool.and_true]
    · have hcurrent : ∀ r', s.run = some r' → r'.id ≠ run := by
        intro r' hr'
        rw [← Option.some.inj (hrun.symm.trans hr')]
        exact heq
      obtain ⟨q', hq', hends⟩ := h.closed run hlt hcurrent hnot hgone'
      exact ⟨q', (hmem q').mpr (.inl hq'), hends⟩

/-- The runtime, which is gone, gets no closure. -/
theorem Ledger.drop (h : s.Ledger) (hrun' : s'.run = none) (hnext : s'.nextRun = s.nextRun)
    (hended : s'.ended = s.ended) (hundelivered : s'.undelivered = s.undelivered)
    (hrequests : s'.requests = s.requests) (hgone : s'.runtimeGone = true) : s'.Ledger := by
  have hbook : s'.book = s.book := by rw [book, book, hrequests, hundelivered]
  have hnone : ∀ r', s'.run ≠ some r' := by
    intro r' hr'
    rw [hrun'] at hr'
    cases hr'
  refine ⟨fun r' hr' => absurd hr' (hnone r'), ?_, ?_, ?_, fun r' hr' => absurd hr' (hnone r'), ?_,
    ?_, ?_⟩
  · rw [hbook, hnext]
    exact h.told
  · rw [hended, hnext]
    exact h.ended_lt
  · rw [hundelivered]
    exact h.waits
  · intro run hrun
    rw [Unclosed, hbook]
    exact h.ended run (hended ▸ hrun)
  · rw [hbook]
    exact h.silent
  · intro run _ _ _ hgone'
    rw [hgone] at hgone'
    cases hgone'

/-- The runtime ends the run in progress. -/
theorem Ledger.stop (h : s.Ledger) {r : ActiveRun} (hrun : s.run = some r) :
    Ledger { s with run := none, ended := s.ended ++ [r.id] } := by
  refine ⟨fun r' hr' => (by cases hr'), h.told, fun run hmem => ?_, h.waits,
    fun r' hr' => (by cases hr'), fun run hmem => ?_, h.silent, fun run hlt _ hnot hgone => ?_⟩
  · rcases List.mem_append.mp hmem with hmem | hmem
    · exact h.ended_lt run hmem
    · rw [List.mem_singleton.mp hmem]
      exact h.issued r hrun
  · rcases List.mem_append.mp hmem with hmem | hmem
    · exact h.ended run hmem
    · rw [List.mem_singleton.mp hmem]
      exact (h.current r hrun).2
  · refine h.closed run hlt (fun r' hr' heq => hnot ?_) (fun hmem => hnot ?_) hgone
    · rw [← heq, ← Option.some.inj (hrun.symm.trans hr')]
      exact List.mem_append_right _ (List.mem_singleton_self _)
    · exact List.mem_append_left _ hmem

/-- A new run. -/
theorem Ledger.start (h : s.Ledger) {r : ActiveRun} (hrun : s.run = none) (hrun' : s'.run = some r)
    (hid : r.id = s.nextRun) (hnext : s'.nextRun = s.nextRun + 1)
    (hundelivered : s'.undelivered = s.undelivered) (hrequests : s'.requests = s.requests)
    (hended : s'.ended = s.ended) (hgone : s'.runtimeGone = s.runtimeGone) : s'.Ledger := by
  have hbook : s'.book = s.book := by rw [book, book, hrequests, hundelivered]
  have hone : ∀ r', s'.run = some r' → r' = r := fun r' hr' =>
    Option.some.inj (hr'.symm.trans hrun')
  refine ⟨fun r' hr' => ?_, fun q hq => ?_, fun run hmem => ?_, ?_, fun r' hr' => ⟨fun hmem => ?_,
    fun q hq => ?_⟩, fun run hmem => ?_, ?_, fun run hlt hcurrent hnot hgone' => ?_⟩
  · rw [hone r' hr', hid, hnext]
    exact Nat.lt_succ_self _
  · rw [hnext]
    exact Nat.lt_succ_of_lt (h.told q (hbook ▸ hq))
  · rw [hnext]
    exact Nat.lt_succ_of_lt (h.ended_lt run (hended ▸ hmem))
  · rw [hundelivered]
    exact h.waits
  · rw [hone r' hr', hid, hended] at hmem
    exact Nat.lt_irrefl _ (h.ended_lt _ hmem)
  · rw [hone r' hr', hid]
    exact ends_of_ne (Nat.ne_of_lt (h.told q (hbook ▸ hq)))
  · rw [Unclosed, hbook]
    exact h.ended run (hended ▸ hmem)
  · rw [hbook]
    exact h.silent
  · rw [hnext] at hlt
    rw [hended] at hnot
    rw [hbook]
    have hne : run ≠ s.nextRun := fun heq => hcurrent r hrun' (hid.trans heq.symm)
    refine h.closed run (Nat.lt_of_le_of_ne (Nat.lt_succ_iff.mp hlt) hne) (fun r' hr' => ?_) hnot (hgone ▸ hgone')
    rw [hrun] at hr'
    cases hr'

/-- A closure that waited is handed over. -/
theorem Ledger.flush (h : s.Ledger) {q : Request} {rest : List Request}
    (hwaits : s.undelivered = q :: rest) :
    Ledger { s with undelivered := rest, requests := s.requests ++ [q] } := by
  have hbook : { s with undelivered := rest, requests := s.requests ++ [q] }.book = s.book := by
    unfold book
    rw [hwaits, List.append_assoc, List.singleton_append]
  refine ⟨h.issued, ?_, h.ended_lt, fun q' hq' => ?_, fun r hr => ?_, fun run hrun => ?_, ?_, ?_⟩
  · rw [hbook]
    exact h.told
  · exact h.waits q' (hwaits ▸ List.mem_cons_of_mem q hq')
  · rw [Unclosed, hbook]
    exact h.current r hr
  · rw [Unclosed, hbook]
    exact h.ended run hrun
  · rw [hbook]
    exact h.silent
  · rw [hbook]
    exact h.closed

/-- Every change keeps the accounts. -/
theorem Ledger.change (h : s.Ledger) (hc : Change s s') : s'.Ledger := by
  cases hc with
  | frames hrun hbooks hlane =>
      exact h.same (fun r hr => ⟨r, hrun ▸ hr, rfl⟩) (fun r hr => ⟨r, hrun.trans hr, rfl⟩)
        hbooks.nextRun hbooks.undelivered hbooks.requests hbooks.ended hbooks.gone
  | @work r r' hrun hrun' hid hconn haccepted hpending hbooks hconns =>
      refine h.same (fun r₂ hr₂ => ⟨r, hrun, ?_⟩) (fun r₂ hr₂ => ⟨r', hrun', ?_⟩) hbooks.nextRun
        hbooks.undelivered hbooks.requests hbooks.ended hbooks.gone
      · rw [← Option.some.inj (hrun'.symm.trans hr₂), hid]
      · rw [← Option.some.inj (hrun.symm.trans hr₂), hid]
  | @accept r r' hrun hrun' hid hlane hpending hnext hundelivered hrequests haccepts hended hgone =>
      refine h.same (fun r₂ hr₂ => ⟨r, hrun, ?_⟩) (fun r₂ hr₂ => ⟨r', hrun', ?_⟩) hnext hundelivered
        hrequests hended fun hg => hgone.trans hg
      · rw [← Option.some.inj (hrun'.symm.trans hr₂), hid]
      · rw [← Option.some.inj (hrun.symm.trans hr₂), hid]
  | tell hrun hq hcloses hown hs' =>
      subst hs'
      exact h.tell hrun hq hcloses
  | @finish r q hrun hrun' hq hcloses hown hnext haccepts hended hclosure =>
      rcases hclosure with ⟨hwaits, hundelivered, hrequests, hgone⟩ |
        ⟨hundelivered, hrequests, hgone⟩ | ⟨hundelivered, hrequests, hgone⟩
      · refine h.finish hrun hrun' hq hcloses hnext hended hgone ?_ fun q' hq' => ?_
        · rw [book, book, hundelivered, hrequests, hwaits, List.append_nil, List.append_nil]
        · rw [hundelivered] at hq'
          exact absurd hq' List.not_mem_nil
      · refine h.finish hrun hrun' hq hcloses hnext hended hgone ?_ fun q' hq' => ?_
        · rw [book, book, hundelivered, hrequests, List.append_assoc]
        · rw [hundelivered] at hq'
          exact (List.mem_append.mp hq').imp_right List.mem_singleton.mp
      · exact h.drop hrun' hnext hended hundelivered hrequests hgone
  | stop hrun hs' =>
      subst hs'
      exact h.stop hrun
  | start hrun hrun' hid haccepted hlane hpending hnext hundelivered hrequests haccepts hended hgone =>
      exact h.start hrun hrun' hid hnext hundelivered hrequests hended hgone
  | flush hwaits hs' =>
      subst hs'
      exact h.flush hwaits

theorem Ledger.chain (h : s.Ledger) (hc : Chain s s') : s'.Ledger := by
  induction hc with
  | refl => exact h
  | tail _ hc ih => exact ih.change hc

end Actor

/-! ### Runs of the satellite -/

namespace Actor

variable {s : Actor}

/-- What the runtime may rely on. -/
structure Accountable (s : Actor) : Prop where
  /-- A run is accepted by the answer to its own start. -/
  accepted : ∀ r, s.run = some r → r.accepted = true → (r.id, r.id) ∈ s.accepts
  accepts : ∀ a ∈ s.accepts, a.2 = a.1
  /-- What it gets of a run is of the run's own pipeline, unless the actor closes the run. -/
  own : ∀ q ∈ s.requests, q.Own
  /-- It gets nothing of a run after its closure, -/
  silent : s.requests.Pairwise fun q q' => q.closes = true → q'.run ≠ q.run
  /-- at most one closure, -/
  once : ∀ run, s.requests.countP (·.ends run) ≤ 1
  /-- and one of every run that is over, unless it ended the run itself or is gone. -/
  closed : ∀ run < s.nextRun, (∀ r, s.run = some r → r.id ≠ run) → run ∉ s.ended →
    s.runtimeGone = false → s.book.countP (·.ends run) = 1
  /-- It gets what waits, as soon as there is room. -/
  delivered : s.runtimeGone = false →
    ((List.replicate s.undelivered.length (Room.free, Step.flush)).foldl step s).requests = s.book

/-- One closure of a run and nothing of it afterwards. -/
theorem countP_ends_le {book : List Request} (run : RunId)
    (h : book.Pairwise fun q q' => q.closes = true → q'.run ≠ q.run) :
    book.countP (·.ends run) ≤ 1 := by
  induction h with
  | nil => exact Nat.zero_le 1
  | @cons q rest hq _ ih =>
      by_cases hends : q.ends run = true
      · have hends' := hends
        rw [Request.ends, Bool.and_eq_true, decide_eq_true_eq] at hends'
        have hnone : rest.countP (·.ends run) = 0 := by
          rw [List.countP_eq_zero]
          intro q' hq'
          rw [ends_of_ne (hends'.2 ▸ hq q' hq' hends'.1)]
          exact Bool.false_ne_true
        exact Nat.le_of_eq (by rw [List.countP_cons, hnone, if_pos hends])
      · rw [List.countP_cons, if_neg hends]
        exact ih

/-- With room, the runtime gets every closure that waits, in order. -/
theorem flush_all (waiting : List Request) (hwaits : s.undelivered = waiting)
    (hgone : s.runtimeGone = false) :
    ((List.replicate waiting.length (Room.free, Step.flush)).foldl step s).requests =
      s.requests ++ waiting := by
  induction waiting generalizing s with
  | nil => exact (List.append_nil _).symm
  | cons q rest ih =>
      have hstep : s.step (.free, .flush) =
          { s with undelivered := rest, requests := s.requests ++ [q] } := by
        change (if s.runtimeGone then s else s.flush .free) = _
        rw [if_neg (hgone ▸ Bool.false_ne_true), flush, hwaits]
      have hrest := ih (s := { s with undelivered := rest, requests := s.requests ++ [q] }) rfl hgone
      rw [List.length_cons, List.replicate_succ, List.foldl_cons, hstep, hrest, List.append_assoc,
        List.singleton_append]

/-- A run that Home Assistant carries out. -/
def carriedOut : List (Room × Step) :=
  [(.free, .connected), (.free, .subscription 0 true), (.free, .startRun true), (.free, .write 0),
    (.free, .home 0 .take), (.free, .home 0 (.answer false)), (.free, .message 0),
    (.free, .home 0 (.event .runStart)), (.free, .message 0), (.free, .home 0 (.event .runEnd)),
    (.full, .message 0)]

/-- A run is aborted while its answer is on its way, and another starts. -/
def crossed : List (Room × Step) :=
  [(.free, .connected), (.free, .subscription 0 true), (.free, .startRun true), (.free, .write 0),
    (.free, .home 0 .take), (.free, .home 0 (.answer false)), (.free, .abortRun 0),
    (.free, .startRun true), (.free, .message 0)]

end Actor

end EchoMuse.Satellite
