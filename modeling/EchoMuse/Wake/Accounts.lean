import EchoMuse.Wake.Fates
import EchoMuse.Wake.Candidates

/-!
# The Accounts of the Shadow Rules

Every run of `core` with its shadow rules, under one policy: what the counters of a rule add up to,
and what became of its episodes. Loading a model sets the rules up anew and keeps their counters, but
not the episodes that wait.

## Main results

* `Watch.run_core`: the rules change nothing in `core`;
* `Watch.Accounts.step`: one input keeps the books;
* `Watch.shadow_accounts`: the accounts over a run.
-/

namespace EchoMuse.Wake

namespace Watch

/-! ### The core of the machine -/

/-- What reaches the core. -/
def coreInput? : WatchInput → Option Input
  | .input i => some i
  | .window => none

@[simp] theorem usePolicy_core (w : Watch) : w.usePolicy.core = w.core := by
  rw [usePolicy]
  cases w.core.model <;> rfl

@[simp] theorem adopt_core (w : Watch) (core : Core) : (w.adopt core).core = core := by
  rw [adopt]
  split_ifs
  · rfl
  · exact usePolicy_core _

@[simp] theorem closeCandidate_core (w : Watch) (reason : CloseReason) :
    (w.closeCandidate reason).core = w.core.closeCandidate reason := by
  rw [closeCandidate]
  cases hc : w.core.candidate with
  | none =>
      rw [Core.closeCandidate, hc]
  | some cs => exact adopt_core _ _

@[simp] theorem invalid_core (w : Watch) (reason : CloseReason) :
    (w.invalid reason).core = w.core.invalid reason := by
  rw [invalid, Core.invalid, closeCandidate_core]

@[simp] theorem candidateHop_core (w : Watch) (it : HopItem) (raw smoothed : ℚ) (now : ℤ)
    (producingSound : Bool) (m : Model) :
    (w.candidateHop it raw smoothed now producingSound m).core =
      w.core.candidateHop it raw smoothed now producingSound m := by
  rw [candidateHop]
  split_ifs <;> rfl

@[simp] theorem closeBelow_core (w : Watch) : w.closeBelow.core = w.core.closeBelow := by
  rw [closeBelow, Core.closeBelow]
  cases w.core.candidate with
  | none => rfl
  | some cs =>
      dsimp only
      split_ifs
      · exact closeCandidate_core _ _
      · rfl

theorem scoredHop_core (w : Watch) (it : HopItem) (raw : ℚ) (now : ℤ) (producingSound : Bool)
    (m : Model) : (w.scoredHop it raw now producingSound m).core =
      w.core.scoredHop it raw now producingSound m := by
  rw [scoredHop, Core.scoredHop]
  dsimp only
  rw [closeBelow_core]
  dsimp only
  rw [candidateHop_core]

theorem score_core (w : Watch) (it : HopItem) (result : ScoreResult) (now : ℤ)
    (producingSound : Bool) :
    (w.score it result now producingSound).core = w.core.score it result now producingSound := by
  rw [score, Core.score]
  cases w.core.model with
  | none => rfl
  | some m =>
      cases result with
      | error => exact invalid_core _ _
      | unscored => rfl
      | scored raw => exact scoredHop_core _ _ _ _ _ _

/-- **The shadow rules change nothing in the core.** -/
theorem step_core (w : Watch) (i : WatchInput) :
    (w.step i).core = (coreInput? i).elim w.core w.core.step := by
  cases i with
  | window => rfl
  | input i =>
      cases i with
      | reset => exact invalid_core _ _
      | mute => exact invalid_core _ _
      | overrun => exact invalid_core _ _
      | gap => exact invalid_core _ _
      | model m =>
          refine (usePolicy_core _).trans ?_
          dsimp only
          rw [invalid_core]
          rfl
      | unavailable =>
          rw [step]
          dsimp only
          rw [invalid_core]
          rfl
      | policy p =>
          rw [step]
          change _ = if w.core.candidate.isSome then _ else _
          split_ifs
          · rfl
          · exact adopt_core _ _
      | hop it result now producingSound => exact score_core _ _ _ _ _

theorem run_concat (inputs : List WatchInput) (i : WatchInput) :
    run (inputs ++ [i]) = (run inputs).step i := List.foldl_append

theorem run_core (inputs : List WatchInput) :
    (run inputs).core = Core.run (inputs.filterMap coreInput?) := by
  induction inputs using List.reverseRecOn with
  | nil => rfl
  | append_singleton inputs i ih =>
      rw [run_concat, step_core, ih, List.filterMap_append, Core.run, Core.run, List.foldl_append]
      cases i <;> rfl

end Watch

/-! ### One policy -/

namespace Core

/-- What the rules see of the core stays; identifiers may have been drawn. -/
structure Beside (c c' : Core) : Prop where
  model : c'.model = c.model
  pending : c'.pending = c.pending
  candidate : c'.candidate = c.candidate
  drawn : c.drawn ≤ c'.drawn

namespace Beside

theorem refl (c : Core) : Beside c c := ⟨rfl, rfl, rfl, le_rfl⟩

theorem trans {c c' c'' : Core} (h : Beside c c') (h' : Beside c' c'') : Beside c c'' :=
  ⟨h'.model.trans h.model, h'.pending.trans h.pending, h'.candidate.trans h.candidate,
    h.drawn.trans h'.drawn⟩

theorem endNearMiss (c : Core) (reason : CloseReason) : Beside c (c.endNearMiss reason) := by
  rw [Core.endNearMiss]
  cases c.near with
  | none => exact refl c
  | some n =>
      dsimp only
      split_ifs
      · exact ⟨rfl, rfl, rfl, le_rfl⟩
      · exact ⟨rfl, rfl, rfl, Nat.le_succ _⟩

theorem nearHop (c : Core) (it : HopItem) (smoothed : ℚ) (now : ℤ) :
    Beside c (c.nearHop it smoothed now) := by
  rw [Core.nearHop]
  cases c.near with
  | none =>
      dsimp only
      split
      · split_ifs
        · exact ⟨rfl, rfl, rfl, le_rfl⟩
        · exact refl c
      · exact refl c
  | some n =>
      dsimp only
      split_ifs
      · exact ⟨rfl, rfl, rfl, le_rfl⟩
      · have hnear : ∀ n : NearState, Beside c { c with near := some n } := fun n =>
          ⟨rfl, rfl, rfl, le_rfl⟩
        exact (hnear _).trans (endNearMiss _ _)
      · exact ⟨rfl, rfl, rfl, le_rfl⟩

theorem unscoredHop (c : Core) (it : HopItem) : Beside c (c.unscoredHop it) := by
  rw [Core.unscoredHop]
  dsimp only
  split_ifs <;> exact ⟨rfl, rfl, rfl, le_rfl⟩

end Beside

/-- Every policy the core knows is this one. -/
structure Under (p : Policy) (c : Core) : Prop where
  model : ∀ m ∈ c.model, m.policy = p
  pending : ∀ q ∈ c.pending, q = p

namespace Under

variable {p : Policy} {c c' : Core}

theorem beside (h : Under p c) (hb : Beside c c') : Under p c' where
  model := hb.model ▸ h.model
  pending := hb.pending ▸ h.pending

/-- The same policy again changes nothing. -/
theorem applyPolicy (h : Under p c) : c.applyPolicy p = { c with pending := none } := by
  rw [Core.applyPolicy]
  cases hm : c.model with
  | none => rfl
  | some m => exact if_pos (h.model m hm)

/-- A candidate that closes leaves the policy. -/
theorem closeCandidate (h : Under p c) {cs : CandidateState} (hc : c.candidate = some cs)
    (reason : CloseReason) :
    Under p (c.closeCandidate reason) ∧ (c.closeCandidate reason).model = c.model ∧
      (c.closeCandidate reason).candidate = none ∧ (c.closeCandidate reason).drawn = c.drawn := by
  rw [Core.closeCandidate, hc]
  dsimp only
  have hnoted : Under p ({ c with candidate := none }.note (.candidateEnd
      { candidateId := cs.id, supportEnd := cs.supportEnd, peakSmoothed := cs.peak, reason })) :=
    ⟨h.model, h.pending⟩
  split
  next q hq =>
    rw [hnoted.pending q hq, hnoted.applyPolicy]
    exact ⟨⟨h.model, fun _ hn => absurd hn (Option.not_mem_none _)⟩, rfl, rfl, rfl⟩
  next => exact ⟨hnoted, rfl, rfl, rfl⟩

end Under

end Core

namespace ShadowRule

/-- The books of a rule between inputs. -/
structure Kept (hops : List HopItem) (live : Option CandidateState) (drawn : ℕ) (s : ShadowRule) :
    Prop where
  booked : Booked s
  spaced : Spaced hops s
  fated : Fated hops s
  timed : Timed hops s
  overlaps : Overlaps live drawn s

/-- The books at a hop that has reached the rules; a live candidate met there may have opened
just now. -/
structure Reached (hops : List HopItem) (it : HopItem) (met live : Option CandidateState)
    (drawn : ℕ) (s : ShadowRule) : Prop where
  booked : Booked s
  spaced : AtHop (hops ++ [it]) it s
  fated : Fated hops s
  struck : Struck hops it met s
  overlaps : Overlaps live drawn s

namespace Kept

variable {hops : List HopItem} {live live' : Option CandidateState} {drawn drawn' : ℕ}
  {s : ShadowRule} {it : HopItem}

theorem new (r : OpenRule) : Kept hops none drawn { rule := r } where
  booked := .new r
  spaced := .new r
  fated := .new r
  timed := .new r
  overlaps := .new r

/-- Identifiers are drawn; the live candidate goes on. -/
theorem drawn_le (h : Kept hops live drawn s) (hle : drawn ≤ drawn')
    (hlive : ∀ cs ∈ live', ∃ old ∈ live, old.id = cs.id) : Kept hops live' drawn' s where
  __ := h
  overlaps := h.overlaps.append rfl (List.append_nil _).symm (fun _ hn => absurd hn List.not_mem_nil) hle
    fun cs hcs => by
      obtain ⟨old, hold, hid⟩ := hlive cs hcs
      exact ⟨hid ▸ (h.overlaps.open_ old hold).1.trans_le hle, .inl ⟨old, hold, hid, rfl⟩⟩

/-- A hop that does not reach the rules. -/
theorem pass (h : Kept hops live drawn s) (hgrid : ∀ x ∈ hops, hopSamples ∣ x.end_)
    (hnext : NextHop hops it) : Kept (hops ++ [it]) live drawn s where
  booked := h.booked
  spaced := h.spaced.pass hgrid hnext
  fated := h.fated.mono fun _ hx => List.mem_append_left _ hx
  timed := h.timed.pass h.fated hnext
  overlaps := h.overlaps

theorem expireHeld (h : Kept hops live drawn s) (hgrid : ∀ x ∈ hops, hopSamples ∣ x.end_)
    (hnext : NextHop hops it) : Reached hops it none live drawn (s.expireHeld it) where
  booked := h.booked.expireHeld it
  spaced := h.spaced.expireHeld hgrid hnext
  fated := h.fated.expireHeld (nodup_of_apart h.spaced.apart) (h.spaced.expireHeld hgrid hnext)
  struck := h.timed.expireHeld h.fated hnext
  overlaps := h.overlaps.expireHeld it

theorem closeCandidate {cs : CandidateState} (h : Kept hops (some cs) drawn s) :
    Kept hops none drawn (s.closeCandidate cs) where
  booked := h.booked.closeCandidate cs
  spaced := h.spaced.closeCandidate cs
  fated := h.fated.closeCandidate cs
  timed := h.timed.closeCandidate cs
  overlaps := h.overlaps.closeCandidate

theorem abandon (h : Kept hops live drawn s) : Kept hops live drawn s.abandon where
  booked := h.booked.abandon
  spaced := h.spaced.abandon
  fated := h.fated.abandon h.spaced.origin
  timed := h.timed.abandon
  overlaps := h.overlaps.abandon

theorem renew (h : Kept hops none drawn s) (hnone : s.current = none) :
    Kept hops none drawn s.renew where
  booked := h.booked.renew hnone
  spaced := h.spaced.renew hnone
  fated := h.fated.renew hnone (nodup_of_apart h.spaced.apart)
  timed := h.timed.renew hnone
  overlaps := h.overlaps.renew hnone

theorem nextWindow (h : Kept hops live drawn s) : Kept hops live drawn s.nextWindow where
  booked := h.booked.nextWindow
  spaced := h.spaced.nextWindow
  fated := h.fated.nextWindow
  timed := h.timed.nextWindow
  overlaps := h.overlaps.nextWindow

end Kept

namespace Reached

variable {hops : List HopItem} {met live live' : Option CandidateState} {drawn drawn' : ℕ}
  {s : ShadowRule} {it : HopItem}

/-- The hop is not scored. -/
theorem kept (h : Reached hops it none live drawn s) : Kept (hops ++ [it]) live drawn s where
  booked := h.booked
  spaced := h.spaced.spaced
  fated := h.fated.mono fun _ hx => List.mem_append_left _ hx
  timed := h.struck.timed
  overlaps := h.overlaps

/-- The live candidate goes on, or there is none. -/
theorem same (h : Reached hops it none live drawn s)
    (hlive : ∀ cs ∈ live', ∃ old ∈ live, old.id = cs.id) : Reached hops it live' live' drawn s where
  __ := h
  struck := h.struck.any
  overlaps := h.overlaps.append rfl (List.append_nil _).symm (fun _ hn => absurd hn List.not_mem_nil) le_rfl
    fun cs hcs => by
      obtain ⟨old, hold, hid⟩ := hlive cs hcs
      exact ⟨hid ▸ (h.overlaps.open_ old hold).1, .inl ⟨old, hold, hid, rfl⟩⟩

theorem retryHeld (h : Reached hops it none none drawn s) {cs : CandidateState}
    (hid : drawn ≤ cs.id) (hdrawn : cs.id < drawn') :
    Reached hops it (some cs) (some cs) drawn' (s.retryHeld it) where
  booked := h.booked.retryHeld it
  spaced := h.spaced.retryHeld
  fated := h.fated.retryHeld h.spaced
  struck := h.struck.retryHeld cs
  overlaps := h.overlaps.retryHeld it hid hdrawn

theorem shadowHop (h : Reached hops it live live drawn s) (hnext : NextHop hops it)
    (raw smoothed : ℚ) (now : ℤ) (scores : List ScoreEntry) :
    Kept (hops ++ [it]) live drawn (s.shadowHop it raw smoothed now scores live) where
  booked := h.booked.shadowHop h.spaced.has_room.ne it raw smoothed now scores live
  spaced := h.spaced.shadowHop raw smoothed now scores live
  fated := h.fated.shadowHop h.spaced hnext raw smoothed now scores live
  timed := h.struck.shadowHop h.spaced.has_room.ne hnext raw smoothed now scores
  overlaps := h.overlaps.shadowHop h.spaced.has_room.ne it raw smoothed now scores

end Reached

end ShadowRule

namespace Watch

/-- The books of every rule under one policy, after some hops. -/
structure Accounts (p : Policy) (hops : List HopItem) (w : Watch) : Prop where
  under : w.core.Under p
  rules : ∀ s ∈ w.shadow, s.Kept hops w.core.candidate w.core.drawn

namespace Accounts

variable {p : Policy} {hops : List HopItem} {w : Watch} {it : HopItem}

theorem init : Accounts p hops {} where
  under := ⟨fun _ h => absurd h (Option.not_mem_none _), fun _ h => absurd h (Option.not_mem_none _)⟩
  rules := fun _ h => absurd h List.not_mem_nil

/-- The core goes on beside the rules. -/
theorem beside (h : Accounts p hops w) {core : Core} (hb : w.core.Beside core) :
    Accounts p hops { w with core } where
  under := h.under.beside hb
  rules s hs := (h.rules s hs).drawn_le hb.drawn fun cs hcs => ⟨cs, hb.candidate ▸ hcs, rfl⟩

theorem adopt_same (w : Watch) (core : Core) (h : core.model = w.core.model) :
    w.adopt core = { w with core } := if_pos h

theorem closeCandidate (h : Accounts p hops w) (reason : CloseReason) :
    Accounts p hops (w.closeCandidate reason) ∧
      (w.closeCandidate reason).core.candidate = none := by
  rw [Watch.closeCandidate]
  cases hc : w.core.candidate with
  | none => exact ⟨h, hc⟩
  | some cs =>
      obtain ⟨hunder, hmodel, hcandidate, hdrawn⟩ := h.under.closeCandidate hc reason
      dsimp only
      rw [adopt_same]
      · refine ⟨⟨hunder, fun s hs => ?_⟩, hcandidate⟩
        obtain ⟨old, hold, rfl⟩ := List.mem_map.mp hs
        have hkept := h.rules old hold
        rw [hc] at hkept
        dsimp only
        rw [hcandidate, hdrawn]
        exact hkept.closeCandidate
      · exact hmodel

theorem invalid (h : Accounts p hops w) (reason : CloseReason) :
    Accounts p hops (w.invalid reason) ∧ (w.invalid reason).core.candidate = none ∧
      ∀ s ∈ (w.invalid reason).shadow, s.current = none := by
  obtain ⟨hclosed, hnone⟩ := h.closeCandidate reason
  have hb := Core.Beside.endNearMiss (w.closeCandidate reason).core reason
  have hclear : Core.Beside (w.closeCandidate reason).core
      ((w.closeCandidate reason).core.endNearMiss reason).clear :=
    ⟨hb.model, hb.pending, hb.candidate, hb.drawn⟩
  obtain ⟨hunder, hrules⟩ := hclosed.beside hclear
  rw [Watch.invalid]
  refine ⟨⟨hunder, fun s hs => ?_⟩, hclear.candidate.trans hnone, fun s hs => ?_⟩
  · obtain ⟨old, hold, rfl⟩ := List.mem_map.mp hs
    exact (hrules old hold).abandon
  · obtain ⟨old, -, rfl⟩ := List.mem_map.mp hs
    exact (ShadowRule.abandon_spec old).2.2.1

/-- A model is loaded: the rules are set up anew. -/
theorem model (h : Accounts p hops w) {m : Model} (hm : m.policy = p) :
    Accounts p hops (w.step (.input (.model m))) := by
  have hcleared : Accounts p hops { w with core := { w.core with pending := none } } :=
    ⟨⟨h.under.model, fun _ hn => absurd hn (Option.not_mem_none _)⟩, h.rules⟩
  obtain ⟨hinvalid, hnone, hcurrent⟩ := hcleared.invalid .reset
  refine ⟨⟨fun m' hm' => ?_, hinvalid.under.pending⟩, fun s hs => ?_⟩
  · rw [← Option.some.inj hm']
    exact hm
  · obtain ⟨r, -, rfl⟩ := List.mem_map.mp hs
    change ShadowRule.Kept hops (({ w with core := { w.core with pending := none } } : Watch).invalid
      .reset).core.candidate (({ w with core := { w.core with pending := none } } : Watch).invalid
      .reset).core.drawn _
    rw [hnone, renewed]
    split
    · exact .new r
    · next s hfind =>
        have hs := List.mem_of_find?_eq_some hfind
        exact (hnone ▸ hinvalid.rules s hs).renew (hcurrent s hs)

/-- The model is gone; the rules stay. -/
theorem unavailable (h : Accounts p hops w) : Accounts p hops (w.step (.input .unavailable)) := by
  have hcleared : Accounts p hops { w with core := { w.core with pending := none } } :=
    ⟨⟨h.under.model, fun _ hn => absurd hn (Option.not_mem_none _)⟩, h.rules⟩
  obtain ⟨hinvalid, -⟩ := hcleared.invalid .reset
  exact ⟨⟨fun _ hn => absurd hn (Option.not_mem_none _), hinvalid.under.pending⟩, hinvalid.rules⟩

theorem policy (h : Accounts p hops w) : Accounts p hops (w.step (.input (.policy p))) := by
  rw [Watch.step]
  split_ifs
  · exact ⟨⟨h.under.model, fun q hq => (Option.some.inj hq).symm⟩, h.rules⟩
  · rw [h.under.applyPolicy, adopt_same]
    · exact ⟨⟨h.under.model, fun _ hn => absurd hn (Option.not_mem_none _)⟩, h.rules⟩
    · rfl

/-- A hop that does not reach the rules. -/
theorem pass (h : Accounts p hops w) (hgrid : ∀ x ∈ hops, hopSamples ∣ x.end_)
    (hnext : NextHop hops it) : Accounts p (hops ++ [it]) w where
  under := h.under
  rules s hs := (h.rules s hs).pass hgrid hnext

theorem unscored (h : Accounts p hops w) (hgrid : ∀ x ∈ hops, hopSamples ∣ x.end_)
    (hnext : NextHop hops it) :
    Accounts p (hops ++ [it])
      { core := w.core.unscoredHop it, shadow := w.shadow.map (·.expireHeld it) } := by
  have hreached : Accounts p (hops ++ [it]) { w with shadow := w.shadow.map (·.expireHeld it) } := by
    refine ⟨h.under, fun s hs => ?_⟩
    obtain ⟨old, hold, rfl⟩ := List.mem_map.mp hs
    exact ((h.rules old hold).expireHeld hgrid hnext).kept
  exact hreached.beside (.unscoredHop w.core it)

/-- The candidate rules: the live candidate goes on, or one opens, or there is none. -/
theorem candidateHop {shadow : List ShadowRule} {core : Core}
    (h : ∀ s ∈ shadow, s.Reached hops it none core.candidate core.drawn) (raw smoothed : ℚ)
    (now : ℤ) (producingSound : Bool) (m : Model) :
    ∀ s ∈ (Watch.candidateHop { core, shadow } it raw smoothed now producingSound m).shadow,
      s.Reached hops it (core.candidateHop it raw smoothed now producingSound m).candidate
        (core.candidateHop it raw smoothed now producingSound m).candidate
        (core.candidateHop it raw smoothed now producingSound m).drawn := by
  rw [Watch.candidateHop, Core.candidateHop]
  cases hc : core.candidate with
  | some cs =>
      intro s hs
      have hs : s ∈ shadow := hs
      refine (h s hs).same fun x hx => ⟨cs, hc, ?_⟩
      rw [← Option.some.inj hx]
      rfl
  | none =>
      dsimp only
      cases hf : core.firing it with
      | none =>
          intro s hs
          have hs : s ∈ shadow := by simpa [hc] using hs
          dsimp only
          rw [hc]
          exact (h s hs).same fun x hx => absurd hx (Option.not_mem_none x)
      | some fired =>
          intro s hs
          obtain ⟨old, hold, rfl⟩ := List.mem_map.mp hs
          have hkept := h old hold
          rw [hc] at hkept
          exact hkept.retryHeld le_rfl (Nat.lt_add_of_pos_right Nat.two_pos)

theorem candidateHop_under {core : Core} (h : core.Under p) (raw smoothed : ℚ) (now : ℤ)
    (producingSound : Bool) (m : Model) :
    (core.candidateHop it raw smoothed now producingSound m).Under p := by
  rw [Core.candidateHop]
  split
  · exact ⟨h.model, h.pending⟩
  · split
    · exact ⟨h.model, h.pending⟩
    · exact h

theorem closeBelow (h : Accounts p hops w) : Accounts p hops w.closeBelow := by
  rw [Watch.closeBelow]
  split
  · split_ifs
    · exact (h.closeCandidate .below).1
    · exact h
  · exact h

/-- **A scored hop.** -/
theorem scored (h : Accounts p hops w) (hgrid : ∀ x ∈ hops, hopSamples ∣ x.end_)
    (hnext : NextHop hops it) (raw : ℚ) (now : ℤ) (producingSound : Bool) (m : Model) :
    Accounts p (hops ++ [it])
      (Watch.scoredHop { w with shadow := w.shadow.map fun s : ShadowRule => s.expireHeld it } it raw
        now producingSound m) := by
  have hreached : ∀ core : Core, core.candidate = w.core.candidate → core.drawn = w.core.drawn →
      ∀ s ∈ w.shadow.map fun s : ShadowRule => s.expireHeld it,
        s.Reached hops it none core.candidate core.drawn := by
    intro core hcandidate hdrawn s hs
    obtain ⟨old, hold, rfl⟩ := List.mem_map.mp hs
    rw [hcandidate, hdrawn]
    exact (h.rules old hold).expireHeld hgrid hnext
  -- the rules take the hop with the live candidate of the hop
  have hhop : ∀ (core : Core) (smoothed : ℚ), core.candidate = w.core.candidate →
      core.drawn = w.core.drawn → core.Under p → Accounts p (hops ++ [it])
        { core := core.candidateHop it raw smoothed now producingSound m
          shadow := (Watch.candidateHop
            { core, shadow := w.shadow.map fun s : ShadowRule => s.expireHeld it } it raw smoothed
            now producingSound m).shadow.map fun s : ShadowRule =>
              s.shadowHop it raw smoothed now
                (core.candidateHop it raw smoothed now producingSound m).scores
                (core.candidateHop it raw smoothed now producingSound m).candidate } := by
    intro core smoothed hcandidate hdrawn hunder
    refine ⟨candidateHop_under hunder raw smoothed now producingSound m, fun s hs => ?_⟩
    obtain ⟨old, hold, rfl⟩ := List.mem_map.mp hs
    have hmet := candidateHop (hreached core hcandidate hdrawn) raw smoothed now producingSound m
    exact (hmet old hold).shadowHop hnext raw smoothed now _
  rw [Watch.scoredHop]
  dsimp only
  rw [candidateHop_core]
  refine (closeBelow (hhop _ _ ?_ ?_ ?_)).beside (.nearHop _ it _ now)
  · rfl
  · rfl
  · exact ⟨h.under.model, h.under.pending⟩

end Accounts

end Watch

/-! ### Runs -/

/-- The hop of an input. -/
def WatchInput.hop? : WatchInput → Option HopItem
  | .input (.hop it _ _ _) => some it
  | _ => none

/-- Every policy the input brings is this one. -/
def WatchInput.Keeps (p : Policy) : WatchInput → Prop
  | .input (.model m) => m.policy = p
  | .input (.policy q) => q = p
  | _ => True

instance (p : Policy) (i : WatchInput) : Decidable (i.Keeps p) :=
  match i with
  | .input (.model m) => inferInstanceAs (Decidable (m.policy = p))
  | .input (.policy q) => inferInstanceAs (Decidable (q = p))
  | .input .reset | .input .mute | .input .unavailable | .input .overrun | .input .gap
  | .input (.hop _ _ _ _) | .window => .isTrue trivial

/-- Window ends are on the hop grid and increase within an epoch, and an epoch that was left does not
come back. -/
def Timeline (hops : List HopItem) : Prop :=
  ∀ pre it post, hops = pre ++ it :: post → NextHop pre it

theorem Timeline.of_append {hops hops' : List HopItem} (h : Timeline (hops ++ hops')) :
    Timeline hops := fun pre it post heq => h pre it (post ++ hops') <| by
  rw [heq, List.append_assoc, List.cons_append]

theorem Timeline.grid {hops : List HopItem} (h : Timeline hops) :
    ∀ x ∈ hops, hopSamples ∣ x.end_ := by
  intro x hx
  obtain ⟨pre, post, heq⟩ := List.append_of_mem hx
  exact (h pre x post heq).grid

/-- The hops of one epoch. -/
theorem Timeline.of_epoch {hops : List HopItem} (epoch : ℕ)
    (hgrid : ∀ x ∈ hops, x.epoch = epoch ∧ hopSamples ∣ x.end_)
    (hlater : hops.Pairwise fun a b => a.end_ < b.end_) : Timeline hops := by
  intro pre it post heq
  have hit : it ∈ hops := heq ▸ List.mem_append_right pre List.mem_cons_self
  have hpre : ∀ x ∈ pre, x ∈ hops := fun x hx => heq ▸ List.mem_append_left _ hx
  rw [heq] at hlater
  refine ⟨(hgrid it hit).2, fun x hx _ => ?_, fun _ _ _ l hl => ?_⟩
  · exact (List.pairwise_append.mp hlater).2.2 x hx it List.mem_cons_self
  · exact (hgrid l (hpre l (List.mem_of_getLast? hl))).1.trans (hgrid it hit).1.symm

namespace Watch

variable {p : Policy} {hops : List HopItem} {w : Watch}

/-- **One input keeps the books.** -/
theorem Accounts.step (h : Accounts p hops w) (hgrid : ∀ x ∈ hops, hopSamples ∣ x.end_)
    {i : WatchInput} (hkeeps : i.Keeps p) (hnext : ∀ it ∈ i.hop?, NextHop hops it) :
    Accounts p (hops ++ i.hop?.toList) (w.step i) := by
  cases i with
  | window =>
      refine (List.append_nil hops).symm ▸ ⟨h.under, fun s hs => ?_⟩
      obtain ⟨old, hold, rfl⟩ := List.mem_map.mp hs
      exact (h.rules old hold).nextWindow
  | input i =>
      cases i with
      | reset => exact (List.append_nil hops).symm ▸ (h.invalid .reset).1
      | mute => exact (List.append_nil hops).symm ▸ (h.invalid .mute).1
      | overrun => exact (List.append_nil hops).symm ▸ (h.invalid .overrun).1
      | gap => exact (List.append_nil hops).symm ▸ (h.invalid .gap).1
      | model m => exact (List.append_nil hops).symm ▸ h.model hkeeps
      | unavailable => exact (List.append_nil hops).symm ▸ h.unavailable
      | policy q =>
          obtain rfl : q = p := hkeeps
          exact (List.append_nil hops).symm ▸ h.policy
      | hop it result now producingSound =>
          have hit := hnext it rfl
          change Accounts p (hops ++ [it]) (w.score it result now producingSound)
          rw [Watch.score]
          cases w.core.model with
          | none => exact h.pass hgrid hit
          | some m =>
              cases result with
              | error => exact ((h.pass hgrid hit).invalid .gap).1
              | unscored => exact h.unscored hgrid hit
              | scored raw => exact h.scored hgrid hit raw now producingSound m

/-- **Every run keeps the books.** -/
theorem accounts_run {inputs : List WatchInput} (hkeeps : ∀ i ∈ inputs, i.Keeps p)
    (hline : Timeline (inputs.filterMap WatchInput.hop?)) :
    Accounts p (inputs.filterMap WatchInput.hop?) (run inputs) := by
  induction inputs using List.reverseRecOn with
  | nil => exact .init
  | append_singleton inputs i ih =>
      have hsplit : (inputs ++ [i]).filterMap WatchInput.hop? =
          inputs.filterMap WatchInput.hop? ++ i.hop?.toList := by
        rw [List.filterMap_append]
        cases hi : i.hop? <;> simp [hi]
      rw [hsplit] at hline ⊢
      rw [run_concat]
      refine (ih (fun j hj => hkeeps j (List.mem_append_left _ hj)) hline.of_append).step
        hline.of_append.grid (hkeeps i (List.mem_append_right _ (List.mem_singleton_self i)))
        fun it hit => hline _ it [] ?_
      rw [Option.mem_def.mp hit]
      rfl

end Watch

/-! ### Accounts -/

theorem RuleNote.settled?_of_counted? {n : RuleNote} {o : Opening} (h : n.counted? = some o) :
    n.settled? = some o := by
  cases n <;> first | exact h | exact absurd h (Option.some_ne_none o).symm

namespace ShadowRule

/-- What the counters of a rule add up to over all its stats windows, and what became of its
episodes. -/
structure Accounted (s : ShadowRule) : Prop where
  balance : s.total .opens = s.total .matched + s.total .unmatched + s.total .retried +
    s.held.length + s.pending + s.log.countP RuleNote.isLost + s.log.countP RuleNote.isDropped
  notes : ∀ k : Counter, s.total k = s.log.countP k.marks
  episodes : (s.log.filterMap RuleNote.opened?).Nodup
  once : (s.log.filterMap RuleNote.counted?).Nodup
  matched : ∀ o, .matched o ∈ s.log ↔ ∃ candidate, .both o candidate ∈ s.log
  retried : ∀ o, .retried o ∈ s.log ↔ .closed o ∈ s.log ∧ (∀ candidate, .both o candidate ∉ s.log) ∧
    .dropped o ∉ s.log ∧ ∃ it, .live it ∈ s.log ∧ o.InTime it
  unmatched : ∀ o, .unmatched o ∈ s.log ↔ .closed o ∈ s.log ∧
    (∀ candidate, .both o candidate ∉ s.log) ∧ .dropped o ∉ s.log ∧
    (∀ it, .live it ∈ s.log → ¬ o.InTime it) ∧
    ∃ it, [.closed o, .reached it].Sublist s.log ∧ o.Over it
  liveOnly : ∀ candidate, .liveOnly candidate ∈ s.log ↔
    .ended candidate s.rule.profile ∈ s.log ∧ ∀ o, .both o candidate ∉ s.log
  liveOnce : (s.log.filterMap RuleNote.liveOnly?).Nodup
  ordered : s.held.Pairwise fun a b => a.epoch = b.epoch ∧ a.openSample < b.openSample
  room : .overflow ∉ s.log

namespace Kept

variable {hops : List HopItem} {live : Option CandidateState} {drawn : ℕ} {s : ShadowRule}
  {o : Opening}

/-- An episode is settled in one way. -/
theorem settled_unique (h : Kept hops live drawn s) {a b : RuleNote} (ha : a ∈ s.log)
    (hb : b ∈ s.log) (hsa : a.settled? = some o) (hsb : b.settled? = some o) : a = b :=
  eq_of_nodup_filterMap h.fated.once ha hb hsa hsb

/-- One that waited until it was settled has met no live candidate, and was not dropped otherwise. -/
theorem alone (h : Kept hops live drawn s) {f : Fate} (hf : f.note o ∈ s.log) :
    (∀ candidate, .both o candidate ∉ s.log) ∧ ∀ f', f'.note o ∈ s.log → f' = f := by
  refine ⟨fun candidate hboth => ?_, fun f' hf' => ?_⟩
  · have heq := h.settled_unique ((h.fated.both o).mpr ⟨candidate, hboth⟩) hf rfl
      Fate.settled?_note
    cases f <;> exact RuleNote.noConfusion heq
  · exact (Fate.note_inj (h.settled_unique hf' hf Fate.settled?_note Fate.settled?_note)).1

/-- One that closed has met a live candidate, or is settled otherwise, or waits. -/
theorem closed_cases (h : Kept hops live drawn s) (hclosed : .closed o ∈ s.log)
    (hboth : ∀ candidate, .both o candidate ∉ s.log) :
    (∃ f : Fate, f.note o ∈ s.log) ∨ ∃ ep ∈ s.held, ep.opening = o := by
  refine (h.fated.closed o hclosed).imp (fun hs => ?_) List.mem_map.mp
  obtain ⟨n, hn, hsettled⟩ := List.mem_filterMap.mp hs
  cases n with
  | matched o' =>
      obtain rfl := Option.some.inj hsettled
      obtain ⟨candidate, hmet⟩ := (h.fated.both o').mp hn
      exact absurd hmet (hboth candidate)
  | unmatched o' => exact ⟨.unmatched, Option.some.inj hsettled ▸ hn⟩
  | retried o' => exact ⟨.retried, Option.some.inj hsettled ▸ hn⟩
  | dropped o' => exact ⟨.dropped, Option.some.inj hsettled ▸ hn⟩
  | _ => exact absurd hsettled (Option.some_ne_none o).symm

theorem retried_iff (h : Kept hops live drawn s) : .retried o ∈ s.log ↔
    .closed o ∈ s.log ∧ (∀ candidate, .both o candidate ∉ s.log) ∧ .dropped o ∉ s.log ∧
      ∃ it, .live it ∈ s.log ∧ o.InTime it := by
  constructor
  · intro hr
    obtain ⟨hclosed, hcause⟩ := h.fated.fate .retried o hr
    obtain ⟨hboth, hother⟩ := h.alone (f := .retried) hr
    exact ⟨hclosed, hboth, fun hd => Fate.noConfusion (hother .dropped hd), hcause⟩
  · rintro ⟨hclosed, hboth, hdropped, it, hlive, htime⟩
    rcases h.closed_cases hclosed hboth with ⟨f, hf⟩ | ⟨ep, hep, rfl⟩
    · cases f with
      | unmatched => exact absurd htime ((h.timed.unmatched o hf).2 it hlive)
      | retried => exact hf
      | dropped => exact absurd hf hdropped
    · exact absurd (h.timed.held ep hep it hlive htime.1) (Nat.not_lt.mpr htime.2.1)

theorem unmatched_iff (h : Kept hops live drawn s) : .unmatched o ∈ s.log ↔
    .closed o ∈ s.log ∧ (∀ candidate, .both o candidate ∉ s.log) ∧ .dropped o ∉ s.log ∧
      (∀ it, .live it ∈ s.log → ¬ o.InTime it) ∧
      ∃ it, [.closed o, .reached it].Sublist s.log ∧ o.Over it := by
  constructor
  · intro hu
    obtain ⟨hclosed, hcause⟩ := h.fated.fate .unmatched o hu
    obtain ⟨hboth, hother⟩ := h.alone (f := .unmatched) hu
    exact ⟨hclosed, hboth, fun hd => Fate.noConfusion (hother .dropped hd),
      (h.timed.unmatched o hu).2, hcause⟩
  · rintro ⟨hclosed, hboth, hdropped, hnot, it, hpair, hover⟩
    rcases h.closed_cases hclosed hboth with ⟨f, hf⟩ | ⟨ep, hep, rfl⟩
    · cases f with
      | unmatched => exact hf
      | retried =>
          obtain ⟨-, x, hlive, htime⟩ := h.fated.fate .retried o hf
          exact absurd htime (hnot x hlive)
      | dropped => exact absurd hf hdropped
    · exact absurd hover ((h.fated.waiting ep hep).2.2 it hpair)

theorem accounted (h : Kept hops live drawn s) : s.Accounted where
  balance := by
    have hbalance := h.booked.balance
    simp only [h.booked.totals]
    omega
  notes := h.booked.totals
  episodes := h.fated.opens
  once := by
    refine List.pairwise_filterMap.mpr ((List.pairwise_filterMap.mp h.fated.once).imp ?_)
    exact fun hab o ho o' ho' =>
      hab o (RuleNote.settled?_of_counted? ho) o' (RuleNote.settled?_of_counted? ho')
  matched := h.fated.both
  retried _ := h.retried_iff
  unmatched _ := h.unmatched_iff
  liveOnly := h.overlaps.liveOnly
  liveOnce := h.overlaps.once
  ordered := by
    have hapart := List.pairwise_map.mp (List.pairwise_append.mp h.spaced.apart).1
    refine hapart.imp fun hab => ⟨hab.1, lt_of_lt_of_le ?_ hab.2⟩
    exact Nat.lt_add_of_pos_right (by decide)
  room := h.spaced.room

end Kept

end ShadowRule

namespace Watch

/-- **The accounts of every shadow rule**, over any run under one policy. -/
theorem shadow_accounts (p : Policy) (inputs : List WatchInput) (hkeeps : ∀ i ∈ inputs, i.Keeps p)
    (hline : Timeline (inputs.filterMap WatchInput.hop?)) :
    ∀ s ∈ (run inputs).shadow, s.Accounted :=
  fun s hs => ((accounts_run hkeeps hline).rules s hs).accounted

/-- One shadow rule, of a single window, beside the baseline at one half. -/
def watchedPolicy : Policy where
  thresholds := { idle := 1 / 2, playback := 1 / 2, nearMiss := 1 / 4 }
  rules :=
    { openRules := none
      shadowRules := [{ profile := .idle, windows := 1, combine := .all, threshold := 1 / 4 }] }
  accepted := by decide +kernel

def load : WatchInput := .input (.model { graphSHA256 := "", policy := watchedPolicy })

/-- A scored hop at a quiet moment. -/
def heard (end_ : ℕ) (raw : ℚ) : WatchInput :=
  .input (.hop { end_, epoch := 1, profile := .idle } (.scored raw) 0 false)

/-- A word that only the shadow rule hears. -/
def faint : List WatchInput :=
  [load, heard 23040 (2 / 5), heard 25600 0, heard 28160 0, heard 30720 0, heard 33280 0]

/-- The word said again aloud. -/
def repeated : List WatchInput := faint ++ [heard 35840 1, heard 38400 1, .window]

theorem timeline_repeated : Timeline (repeated.filterMap WatchInput.hop?) :=
  .of_epoch 1 (by decide) (by decide)

/-- The faint word waits, and the loud one within its hold makes it a retry. -/
theorem shadow_accounts_repeated : (∀ s ∈ (run repeated).shadow, s.Accounted) ∧
    (run repeated).shadow.map (fun s => (s.total .opens, s.total .matched, s.total .retried)) =
      [(2, 1, 1)] :=
  ⟨shadow_accounts watchedPolicy repeated (by decide +kernel) timeline_repeated, by decide +kernel⟩

/-- The same model loaded again, and the faint word that waited is nowhere. -/
theorem waiting_dropped_by_load : (∀ i ∈ faint ++ [load], i.Keeps watchedPolicy) ∧
    Timeline ((faint ++ [load]).filterMap WatchInput.hop?) ∧
    ∃ s ∈ (run (faint ++ [load])).shadow,
      s.total .opens ≠ s.total .matched + s.total .unmatched + s.total .retried + s.held.length +
        s.pending + s.log.countP RuleNote.isLost :=
  ⟨by decide +kernel, .of_epoch 1 (by decide) (by decide), by decide +kernel⟩

end Watch

end EchoMuse.Wake
