import EchoMuse.Chains
import EchoMuse.Streams.Registry

/-!
# The Registry's Ordering Check Is Exact

Within one stream epoch the registry keeps the live position, the backfill runs under way
and the grants not started: the best-fit checker of `EchoMuse.Chains` on sample positions.
So it accepts the packets of an epoch exactly when they can be explained by live audio and
granted backfill runs.

## Main results

* `order_step`, `exists_order_of_step`: the registry's rule is one step of the checker;
* `check_exact`: it accepts a whole sequence exactly when an explanation of it exists.
-/

namespace EchoMuse.Streams

open EchoMuse.Ema EchoMuse.Chains

namespace EpochState

/-- The ordering state of an epoch, as a best-fit checker on sample positions. -/
def checker (s : EpochState) : Checker ℕ where
  high := s.live.map UInt64.toNat
  stock := ⟨s.grants.toNat, (s.runs.map UInt64.toNat : List ℕ)⟩

theorem continuing_eq_none {first : UInt64} {runs : List UInt64}
    (h : continuing first runs = none) : ∀ r ∈ runs, first < r := by
  induction runs with
  | nil => simp
  | cons next runs ih =>
      rw [continuing] at h
      cases hc : continuing first runs with
      | none =>
          simp only [hc] at h
          split_ifs at h with hle
          exact List.forall_mem_cons.mpr ⟨UInt64.not_le.mp hle, ih hc⟩
      | some ib =>
          simp only [hc] at h
          split_ifs at h

/-- The run `continuing` finds is one of the runs, not after the packet, and no run not
after the packet is larger. -/
theorem continuing_eq_some {first : UInt64} {runs : List UInt64} {i : ℕ} {best : UInt64}
    (h : continuing first runs = some (i, best)) :
    runs[i]? = some best ∧ best ≤ first ∧ ∀ r ∈ runs, r ≤ first → r ≤ best := by
  induction runs generalizing i best with
  | nil => simp [continuing] at h
  | cons next runs ih =>
      rw [continuing] at h
      cases hc : continuing first runs with
      | none =>
          simp only [hc] at h
          split_ifs at h with hle
          obtain ⟨rfl, rfl⟩ := Prod.mk.inj (Option.some.inj h)
          refine ⟨rfl, hle, List.forall_mem_cons.mpr ⟨fun _ => UInt64.le_refl _, ?_⟩⟩
          exact fun r hr hle' => absurd hle' (UInt64.not_le.mpr (continuing_eq_none hc r hr))
      | some ib =>
          obtain ⟨j, b⟩ := ib
          obtain ⟨hj, hb, hmax⟩ := ih hc
          simp only [hc] at h
          split_ifs at h with hbest
          · obtain ⟨rfl, rfl⟩ := Prod.mk.inj (Option.some.inj h)
            refine ⟨rfl, hbest.1, List.forall_mem_cons.mpr ⟨fun _ => UInt64.le_refl _, ?_⟩⟩
            exact fun r hr hle => UInt64.le_trans (hmax r hr hle) (UInt64.le_of_lt hbest.2)
          · obtain ⟨rfl, rfl⟩ := Prod.mk.inj (Option.some.inj h)
            refine ⟨by simpa using hj, hb, List.forall_mem_cons.mpr ⟨fun hle => ?_, hmax⟩⟩
            exact UInt64.not_lt.mp fun hlt => hbest ⟨hle, hlt⟩

/-- The run at an index, and the runs with another in its place. -/
theorem exists_set {runs : List UInt64} {i : ℕ} {b : UInt64} (x : UInt64)
    (h : runs[i]? = some b) :
    ∃ pre post, runs = pre ++ b :: post ∧ runs.set i x = pre ++ x :: post := by
  induction runs generalizing i with
  | nil => simp at h
  | cons r runs ih =>
      cases i with
      | zero =>
          obtain rfl : r = b := by simpa using h
          exact ⟨[], runs, rfl, rfl⟩
      | succ i =>
          obtain ⟨pre, post, hpre, hset⟩ := ih (by simpa using h)
          exact ⟨r :: pre, post, by rw [hpre]; rfl, by rw [List.set_cons_succ, hset]; rfl⟩

/-- The position of one run among the others. -/
theorem coe_map_middle (pre post : List UInt64) (b : UInt64) :
    (((pre ++ b :: post).map UInt64.toNat : List ℕ) : Multiset ℕ) =
      b.toNat ::ₘ (((pre ++ post).map UInt64.toNat : List ℕ) : Multiset ℕ) :=
  Multiset.coe_eq_coe.mpr (List.perm_middle.map UInt64.toNat)

/-- A live packet leaves the runs it lies past. -/
theorem checker_advance (s : EpochState) (first : UInt64) :
    (s.advance first).checker = ⟨some first.toNat, s.checker.stock.live first.toNat⟩ := by
  simp only [checker, advance, Stock.live, Option.map_some, Multiset.filter_coe,
    List.filter_map]
  rfl

/-- The registry's live test is the checker's. -/
theorem isLive_checker_iff {s : EpochState} {first : UInt64} :
    IsLive s.checker.high first.toNat ↔ ∀ live ∈ s.live, ¬ first < live := by
  simp only [IsLive, checker]
  cases s.live with
  | none => simp
  | some live => simp [UInt64.lt_iff_toNat_lt]

/-- What the rule does with a packet that is not live. -/
theorem order_older {s : EpochState} {first live : UInt64} (last : UInt64)
    (hl : s.live = some live) (hlt : first < live) :
    (∃ i best, continuing first s.runs = some (i, best) ∧
      s.order first last = .ok { s with runs := s.runs.set i last }) ∨
    (continuing first s.runs = none ∧ 0 < s.grants.toNat ∧
      s.order first last =
        .ok { s with grants := s.grants - 1, runs := s.runs ++ [last] }) ∨
    (continuing first s.runs = none ∧ s.grants.toNat = 0 ∧
      s.order first last = .error live) := by
  cases hc : continuing first s.runs with
  | some ib =>
      refine Or.inl ⟨ib.1, ib.2, rfl, ?_⟩
      simp only [order, hl, hlt, if_true, hc]
  | none =>
      by_cases hgrants : s.grants > 0
      · refine Or.inr (Or.inl ⟨rfl, hgrants, ?_⟩)
        simp only [order, hl, hlt, if_true, hc, hgrants]
      · refine Or.inr (Or.inr ⟨rfl, Nat.eq_zero_of_not_pos hgrants, ?_⟩)
        simp only [order, hl, hlt, if_true, hc, hgrants, if_false]

theorem order_live {s : EpochState} {first : UInt64} (last : UInt64)
    (h : ∀ live ∈ s.live, ¬ first < live) : s.order first last = .ok (s.advance first) := by
  rw [order]
  cases hl : s.live with
  | none => rfl
  | some live => exact if_neg (h live hl)

/-- No run the packet could continue, in the checker's terms. -/
theorem lt_of_continuing_eq_none {s : EpochState} {first : UInt64}
    (h : continuing first s.runs = none) : ∀ r ∈ s.checker.stock.runs, first.toNat < r := by
  intro r hr
  obtain ⟨run, hrun, rfl⟩ := List.mem_map.mp (Multiset.mem_coe.mp hr)
  exact continuing_eq_none h run hrun

/-- Continuing the run found is the checker's best fit. -/
theorem bestFit_of_continuing {s : EpochState} {first best : UInt64} {i : ℕ}
    (h : continuing first s.runs = some (i, best)) (last : UInt64) :
    ∃ rest, Stock.BestFit first.toNat s.checker.stock rest ∧
      ({ s with runs := s.runs.set i last } : EpochState).checker =
        ⟨s.checker.high, rest.put last.toNat⟩ := by
  obtain ⟨hi, hbest, hmax⟩ := continuing_eq_some h
  obtain ⟨pre, post, hruns, hset⟩ := exists_set last hi
  have hmem : best.toNat ∈ s.checker.stock.runs :=
    Multiset.mem_coe.mpr (List.mem_map_of_mem (List.mem_of_getElem? hi))
  have hmax' : ∀ r ∈ s.checker.stock.runs, r ≤ first.toNat → r ≤ best.toNat := by
    intro r hr hle
    obtain ⟨run, hrun, rfl⟩ := List.mem_map.mp (Multiset.mem_coe.mp hr)
    exact hmax run hrun hle
  refine ⟨_, .continues hmem hbest hmax', ?_⟩
  simp only [checker, Stock.put, hset, coe_map_middle]
  rw [hruns, coe_map_middle, Multiset.erase_cons_head]

/-- Starting a granted run when there is none to continue is the checker's best fit. -/
theorem bestFit_of_starts {s : EpochState} {first : UInt64}
    (h : continuing first s.runs = none) (hgrants : 0 < s.grants.toNat) (last : UInt64) :
    ∃ rest, Stock.BestFit first.toNat s.checker.stock rest ∧
      ({ s with grants := s.grants - 1, runs := s.runs ++ [last] } : EpochState).checker =
        ⟨s.checker.high, rest.put last.toNat⟩ := by
  have hone : (s.grants - 1).toNat + 1 = s.grants.toNat := by
    rw [UInt32.toNat_sub_of_le _ _ hgrants]
    exact Nat.sub_add_cancel hgrants
  have hstock : s.checker.stock = ⟨(s.grants - 1).toNat + 1, s.checker.stock.runs⟩ := by
    rw [hone]
    rfl
  refine ⟨⟨(s.grants - 1).toNat, s.checker.stock.runs⟩, ?_, ?_⟩
  · rw [hstock]
    exact .starts (lt_of_continuing_eq_none h)
  · simp only [checker, Stock.put, coe_map_middle, List.append_nil]

/-- **The registry's sample order rule is a step of the best-fit checker.** -/
theorem order_step {s s' : EpochState} {first last : UInt64}
    (h : s.order first last = .ok s') :
    Checker.Step s.checker (.packet first.toNat last.toNat) s'.checker := by
  by_cases hlive : ∀ live ∈ s.live, ¬ first < live
  · rw [order_live last hlive, Except.ok.injEq] at h
    rw [← h, checker_advance]
    exact .live (isLive_checker_iff.mpr hlive)
  · have hnot : ¬ IsLive s.checker.high first.toNat := mt isLive_checker_iff.mp hlive
    simp only [not_forall, not_not] at hlive
    obtain ⟨live, hl, hlt⟩ := hlive
    obtain ⟨i, best, hc, ho⟩ | ⟨hc, hgrants, ho⟩ | ⟨-, -, ho⟩ := order_older last hl hlt
    · rw [ho, Except.ok.injEq] at h
      obtain ⟨rest, hfit, hchecker⟩ := bestFit_of_continuing hc last
      rw [← h, hchecker]
      exact .older hnot hfit
    · rw [ho, Except.ok.injEq] at h
      obtain ⟨rest, hfit, hchecker⟩ := bestFit_of_starts hc hgrants last
      rw [← h, hchecker]
      exact .older hnot hfit
    · rw [ho] at h
      cases h

/-- When the checker has a step, the registry's rule takes it. -/
theorem exists_order_of_step {s : EpochState} {first last : UInt64} {c : Checker ℕ}
    (h : Checker.Step s.checker (.packet first.toNat last.toNat) c) :
    ∃ s', s.order first last = .ok s' ∧ s'.checker = c := by
  cases ho : s.order first last with
  | ok s' => exact ⟨s', rfl, (order_step ho).unique h⟩
  | error live' =>
      exfalso
      by_cases hlive : ∀ live ∈ s.live, ¬ first < live
      · rw [order_live last hlive] at ho
        cases ho
      · have hnot : ¬ IsLive s.checker.high first.toNat := mt isLive_checker_iff.mp hlive
        simp only [not_forall, not_not] at hlive
        obtain ⟨live, hl, hlt⟩ := hlive
        obtain ⟨i, best, -, ho'⟩ | ⟨-, -, ho'⟩ | ⟨hc, hzero, -⟩ := order_older last hl hlt
        · rw [ho'] at ho
          cases ho
        · rw [ho'] at ho
          cases ho
        · -- no run and no grant: the checker is stuck too
          have hcount : s.checker.stock.count (Set.Iic first.toNat) = 0 := by
            refine Eq.trans (Stock.count_eq_free fun r hr => ?_) hzero
            exact not_le.mpr (lt_of_continuing_eq_none hc r hr)
          cases h with
          | live hl' => exact hnot hl'
          | older _ hfit =>
              obtain heq | ⟨-, c', -, hle, hout⟩ := hfit.takes.count (Set.Iic first.toNat)
              · omega
              · exact hout hle

/-- Ordering a packet leaves the epoch open and makes no grants. -/
theorem order_frame {s s' : EpochState} {first last : UInt64}
    (h : s.order first last = .ok s') :
    s'.ended = s.ended ∧ s'.grants.toNat ≤ s.grants.toNat := by
  by_cases hlive : ∀ live ∈ s.live, ¬ first < live
  · rw [order_live last hlive, Except.ok.injEq] at h
    subst h
    exact ⟨rfl, le_rfl⟩
  · simp only [not_forall, not_not] at hlive
    obtain ⟨live, hl, hlt⟩ := hlive
    obtain ⟨i, best, -, ho⟩ | ⟨-, hgrants, ho⟩ | ⟨-, -, ho⟩ := order_older last hl hlt
    · rw [ho, Except.ok.injEq] at h
      subst h
      exact ⟨rfl, le_rfl⟩
    · rw [ho, Except.ok.injEq] at h
      subst h
      refine ⟨rfl, ?_⟩
      rw [UInt32.toNat_sub_of_le _ _ hgrants]
      exact Nat.sub_le _ _
    · rw [ho] at h
      cases h

/-- A grant below the count's limit is a grant to the checker. -/
theorem checker_grant {s : EpochState} (h : s.grants.toNat + 1 < 2 ^ 32) :
    s.grant.checker = { s.checker with stock := s.checker.stock.grant } := by
  have hne : s.grants ≠ 0xFFFFFFFF := by
    intro heq
    rw [heq] at h
    exact absurd h (by decide)
  have hone : (s.grants + 1).toNat = s.grants.toNat + 1 := by
    rw [UInt32.toNat_add]
    exact Nat.mod_eq_of_lt h
  simp only [checker, grant, if_neg hne, hone, Stock.grant]

end EpochState

/-! ### Runs of one epoch -/

/-- What the registry sees of one epoch: a grant that covers it, or a packet. -/
inductive EpochEvent
  | grant (grant : BackfillGrant)
  | packet (packet : Packet)

namespace EpochEvent

/-- The event on sample positions. -/
def range : EpochEvent → Event ℕ
  | .grant _ => .grant
  | .packet p => .packet p.header.firstSample.toNat p.endSample.toNat

/-- The grants among the events. -/
def grants (events : List EpochEvent) : ℕ :=
  events.countP fun e => match e with
    | .grant _ => true
    | .packet _ => false

/-- The packets among the events, in order. -/
def packets (events : List EpochEvent) : List Packet :=
  events.filterMap fun e => match e with
    | .grant _ => none
    | .packet p => some p

end EpochEvent

/-- The events of one open epoch: grants that cover it, fewer than the registry can count,
and packets of it in increasing sequence. -/
structure OfEpoch (stream : StreamId) (epoch : UInt64) (events : List EpochEvent) : Prop where
  covers : ∀ g, .grant g ∈ events → g.covers epoch = true
  stream_eq : ∀ p ∈ EpochEvent.packets events, StreamId.ofKind p.header.kind = some stream
  epoch_eq : ∀ p ∈ EpochEvent.packets events, p.header.epoch = epoch
  few : EpochEvent.grants events < 2 ^ 32
  increasing : (EpochEvent.packets events).Pairwise fun p q => p.header.sequence < q.header.sequence

/-- Applies the events one after the other, up to the first packet refused. -/
def StreamRegistry.acceptAll (stream : StreamId) :
    StreamRegistry → List EpochEvent → Except ProtocolError StreamRegistry
  | r, [] => .ok r
  | r, .grant g :: events => acceptAll stream (r.grantBackfill stream g) events
  | r, .packet p :: events =>
    match r.check p with
    | .error e => .error e
    | .ok (_, r') => acceptAll stream r' events

theorem accepts_cons_iff {c : Checker ℕ} {e : Event ℕ} {events : List (Event ℕ)} :
    c.Accepts (e :: events) ↔ ∃ c', c.Step e c' ∧ c'.Accepts events := by
  constructor
  · intro h
    cases h with
    | cons hs hrest => exact ⟨_, hs, hrest⟩
  · rintro ⟨c', hs, hrest⟩
    exact .cons hs hrest

/-- The check of a packet of an open epoch in sequence is its sample order. -/
theorem StreamRegistry.check_of_open {r : StreamRegistry} {stream : StreamId} {s : EpochState}
    {p : Packet} (hafe : stream = .afe → r.afeMetadata = true)
    (hstream : StreamId.ofKind p.header.kind = some stream)
    (hs : r.epochs stream p.header.epoch = some s) (hopen : s.ended = false)
    (hseq : ∀ last ∈ s.lastSequence, last < p.header.sequence) :
    (∀ s', s.order p.header.firstSample p.endSample = .ok s' →
      r.check p = .ok (stream, r.set stream p.header.epoch
        (some { s' with lastSequence := some p.header.sequence }))) ∧
    (∀ live, s.order p.header.firstSample p.endSample = .error live →
      ∃ e, r.check p = .error e ∧ e.code = .sampleOrder) := by
  have hid : r.streamOf p.header.kind = some stream := by
    rw [streamOf, hstream]
    cases stream with
    | afe => simp [hafe rfl]
    | mic | reference | cells => rfl
  have hfilter : s.lastSequence.filter (p.header.sequence ≤ ·) = none := by
    cases hl : s.lastSequence with
    | none => rfl
    | some last =>
        have hlt := UInt64.not_le.mpr (hseq last hl)
        simpa [Option.filter] using hlt
  constructor
  · intro s' ho
    simp only [check, hid, hs, hopen, hfilter, ho, Bool.false_eq_true, if_false]
  · intro live ho
    simp only [check, hid, hs, hopen, hfilter, ho, Bool.false_eq_true, if_false]
    exact ⟨_, rfl, rfl⟩

/-- The events after the first are events of the epoch. -/
theorem OfEpoch.tail {stream : StreamId} {epoch : UInt64} {e : EpochEvent}
    {events : List EpochEvent} (h : OfEpoch stream epoch (e :: events)) :
    OfEpoch stream epoch events := by
  have hsub : (EpochEvent.packets events).Sublist (EpochEvent.packets (e :: events)) :=
    (List.sublist_cons_self e events).filterMap _
  refine ⟨fun g hg => h.covers g (List.mem_cons_of_mem _ hg),
    fun p hp => h.stream_eq p (hsub.subset hp), fun p hp => h.epoch_eq p (hsub.subset hp), ?_,
    h.increasing.sublist hsub⟩
  exact lt_of_le_of_lt ((List.sublist_cons_self e events).countP_le) h.few

/-- The state of an open epoch covered by a grant is granted one more run. -/
theorem StreamRegistry.grantBackfill_epochs {r : StreamRegistry} {stream : StreamId}
    {epoch : UInt64} {s : EpochState} {g : BackfillGrant} (hg : g.covers epoch = true)
    (hs : r.epochs stream epoch = some s) (hopen : s.ended = false) :
    (r.grantBackfill stream g).epochs stream epoch = some s.grant := by
  simp [grantBackfill, hs, hg, hopen]

theorem StreamRegistry.set_epochs (r : StreamRegistry) (stream : StreamId) (epoch : UInt64)
    (state : Option EpochState) : (r.set stream epoch state).epochs stream epoch = state := by
  simp [set]

/-- **From any state of an open epoch**, the registry accepts its events exactly when the
best-fit checker does. -/
theorem acceptAll_iff {stream : StreamId} {epoch : UInt64} {events : List EpochEvent}
    (hev : OfEpoch stream epoch events) {r : StreamRegistry} {s : EpochState}
    (hafe : stream = .afe → r.afeMetadata = true) (hs : r.epochs stream epoch = some s)
    (hopen : s.ended = false) (hgrants : s.grants.toNat + EpochEvent.grants events < 2 ^ 32)
    (hseq : ∀ last ∈ s.lastSequence, ∀ p ∈ EpochEvent.packets events,
      last < p.header.sequence) :
    (∃ r', r.acceptAll stream events = .ok r') ↔
      s.checker.Accepts (events.map EpochEvent.range) := by
  induction events generalizing r s with
  | nil => exact ⟨fun _ => .nil, fun _ => ⟨r, rfl⟩⟩
  | cons e events ih =>
      rw [List.map_cons, accepts_cons_iff]
      cases e with
      | grant g =>
          have hcount : EpochEvent.grants (.grant g :: events) =
              EpochEvent.grants events + 1 := by simp [EpochEvent.grants]
          rw [hcount] at hgrants
          have hgr : s.grant.checker = { s.checker with stock := s.checker.stock.grant } :=
            EpochState.checker_grant (by omega)
          have hfree : s.grant.grants.toNat = s.grants.toNat + 1 :=
            congrArg (fun c => c.stock.free) hgr
          have hcov := hev.covers g List.mem_cons_self
          have hiff := @ih hev.tail (r.grantBackfill stream g) s.grant hafe
            (StreamRegistry.grantBackfill_epochs hcov hs hopen) hopen (by omega) hseq
          rw [hgr] at hiff
          rw [StreamRegistry.acceptAll, hiff]
          constructor
          · exact fun h => ⟨_, .grant, h⟩
          · rintro ⟨c, hstep, hrest⟩
            cases hstep
            exact hrest
      | packet p =>
          have hmem : p ∈ EpochEvent.packets (.packet p :: events) := by
            simp [EpochEvent.packets]
          have hpackets : EpochEvent.packets (.packet p :: events) =
              p :: EpochEvent.packets events := by simp [EpochEvent.packets]
          have hcount : EpochEvent.grants (.packet p :: events) =
              EpochEvent.grants events := by simp [EpochEvent.grants]
          rw [hcount] at hgrants
          have hinc := hev.increasing
          rw [hpackets, List.pairwise_cons] at hinc
          obtain rfl := hev.epoch_eq p hmem
          obtain ⟨hok, herr⟩ := StreamRegistry.check_of_open hafe (hev.stream_eq p hmem) hs hopen
            fun last hl => hseq last hl p hmem
          rw [StreamRegistry.acceptAll]
          cases ho : s.order p.header.firstSample p.endSample with
          | error live =>
              obtain ⟨e, he, -⟩ := herr live ho
              simp only [he]
              constructor
              · rintro ⟨r', h⟩
                cases h
              · rintro ⟨c, hstep, -⟩
                obtain ⟨s', hs', -⟩ := EpochState.exists_order_of_step hstep
                rw [ho] at hs'
                cases hs'
          | ok s' =>
              obtain ⟨hended, hle⟩ := EpochState.order_frame ho
              have hiff := @ih hev.tail
                (r.set stream p.header.epoch
                  (some { s' with lastSequence := some p.header.sequence }))
                { s' with lastSequence := some p.header.sequence } hafe
                (StreamRegistry.set_epochs _ _ _ _) (hended.trans hopen)
                (lt_of_le_of_lt (Nat.add_le_add_right hle _) hgrants)
                (fun last hl q hq => Option.some.inj hl ▸ hinc.1 q hq)
              simp only [hok s' ho, hiff]
              constructor
              · exact fun h => ⟨_, EpochState.order_step ho, h⟩
              · rintro ⟨c, hstep, hrest⟩
                rw [hstep.unique (EpochState.order_step ho)] at hrest
                exact hrest

/-- A packet's samples end after they begin. -/
theorem firstSample_le_endSample (p : Packet) :
    p.header.firstSample.toNat ≤ p.endSample.toNat := by
  rw [toNat_of_endSample_eq_some p.end_ok]
  exact Nat.le_add_right _ _

/-- **The ordering check of uplink packets is exact.** After `stream.open` of a fresh epoch,
the registry accepts a sequence of grants and packets of that epoch exactly when each packet
can be called live, the continuation of a chain under way, or the start of a granted one. -/
theorem check_exact {r r' : StreamRegistry} {o : StreamOpen} {events : List EpochEvent}
    (hfresh : r.epochs o.streamId o.epoch = none) (hopen : r.open o = .ok r')
    (hev : OfEpoch o.streamId o.epoch events) :
    (∃ r'', r'.acceptAll o.streamId events = .ok r'') ↔
      ∃ roles, Ledger.empty.Valid (events.map EpochEvent.range) roles := by
  have hord : Ordered (events.map EpochEvent.range) := by
    intro first last h
    obtain ⟨e, -, he⟩ := List.mem_map.mp h
    cases e with
    | grant g => cases he
    | packet p =>
        obtain ⟨rfl, rfl⟩ : _ ∧ _ := by simpa [EpochEvent.range] using he
        exact firstSample_le_endSample p
  rw [← accepts_iff_exists_valid hord]
  simp only [StreamRegistry.open, ite_error_eq_ok_iff, hfresh, Except.ok.injEq] at hopen
  obtain ⟨hafe, rfl⟩ := hopen
  refine acceptAll_iff (s := .opened) hev ?_ (StreamRegistry.set_epochs _ _ _ _) rfl ?_ ?_
  · intro h
    by_contra hmeta
    exact hafe ⟨h, hmeta⟩
  · have hzero : EpochState.opened.grants.toNat = 0 := rfl
    rw [hzero, Nat.zero_add]
    exact hev.few
  · exact fun last hl => nomatch hl

/-- One sample is two bytes. -/
theorem sample_length_lt : ([0, 0] : List UInt8).length < 2 ^ 32 := by decide

/-- A mic packet of epoch 1 with one sample. -/
def micPacket (sequence firstSample : UInt64) (h : firstSample.toNat + 1 < 2 ^ 64) : Packet where
  header :=
    { kind := .mic, flags := .NONE, epoch := 1, sequence := sequence,
      firstSample := firstSample, monoNs := 0, uncertaintyUs := none, frameCount := 1,
      generation := 0, sourceMask := .NONE }
  endSample := UInt64.ofNat (firstSample.toNat + 1)
  payload := [0, 0]
  length_lt := sample_length_lt
  header_ok := by
    simp [Header.check, Header.raw, RawHeader.check, Flags.fromBits, Flags.NONE,
      Flags.contains, Flags.DIGITAL_SILENCE, Kind.maxFrames, SourceMask.NONE,
      SourceMask.fromBits, Kind.payloadBytes]
  end_ok := if_pos h
  records_ok := rfl

/-- A granted run behind live audio, then live audio again. -/
def queuedRun : List EpochEvent :=
  [.packet (micPacket 0 100 (by decide)), .grant (.epoch 1), .packet (micPacket 1 40 (by decide)),
   .packet (micPacket 2 41 (by decide)), .packet (micPacket 3 101 (by decide))]

theorem check_exact_queuedRun :
    ∃ roles, Ledger.empty.Valid (queuedRun.map EpochEvent.range) roles := by
  have hev : OfEpoch .mic 1 queuedRun := by
    refine ⟨?_, ?_, ?_, by decide, ?_⟩
    · simp [queuedRun, BackfillGrant.covers]
    · simp [queuedRun, EpochEvent.packets, micPacket, StreamId.ofKind]
    · simp [queuedRun, EpochEvent.packets, micPacket]
    · simp [queuedRun, EpochEvent.packets, micPacket]
  exact (check_exact (r := .new false) (o := ⟨.mic, 1, by decide⟩) rfl rfl hev).mp ⟨_, rfl⟩

end EchoMuse.Streams
