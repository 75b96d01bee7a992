import EchoMuse.Wake.Candidates

/-!
# Wake Episodes

Runs of the detector's policy machine over every order of hops, scores, gaps, overruns, resets,
mutes, model changes and policies. Window ends start at the first hop-grid point and increase
within an epoch, and an epoch starts with a reset.

## Main results

* `Core.Well.step`, `Core.well_run`: the history and the reports fit together, at every step and
  over every run;
* `candidates_judged`: candidates and their ends alternate, each candidate is one the controller
  can judge, and each end has the latest support and the greatest smoothed value.
-/

namespace EchoMuse.Wake

/-! ### Orders of window ends -/

/-- The epoch and the end of the last hop, with one more input. -/
def lastStep (last : Option (ℕ × ℕ)) : Input → Option (ℕ × ℕ)
  | .hop it _ _ _ => some (it.epoch, it.end_)
  | .policy _ | .overrun | .gap => last
  | .reset | .mute | .model _ | .unavailable => none

/-- The epoch and the end of the last hop since the history was last restarted. -/
def lastHop (inputs : List Input) : Option (ℕ × ℕ) := inputs.foldl lastStep none

/-- The input's window ends after the last hop, within its epoch. -/
def Input.After (last : Option (ℕ × ℕ)) : Input → Prop
  | .hop it _ _ _ => firstWindowEnd ≤ it.end_ ∧ ∀ l ∈ last, it.epoch = l.1 ∧ l.2 < it.end_
  | _ => True

/-- Window ends are grid points with a full window, increase within an epoch, and another epoch
starts with a reset. -/
def Ordered (inputs : List Input) : Prop :=
  ∀ pre i post, inputs = pre ++ i :: post → i.After (lastHop pre)

theorem lastHop_concat (inputs : List Input) (i : Input) :
    lastHop (inputs ++ [i]) = lastStep (lastHop inputs) i := List.foldl_append

theorem Ordered.nil : Ordered [] := fun pre i post h =>
  absurd h.symm (List.append_ne_nil_of_right_ne_nil pre (List.cons_ne_nil i post))

theorem Ordered.concat {inputs : List Input} {i : Input} (h : Ordered inputs)
    (hafter : i.After (lastHop inputs)) : Ordered (inputs ++ [i]) := by
  intro pre j post heq
  rcases List.eq_nil_or_concat post with rfl | ⟨post, k, rfl⟩
  · obtain ⟨rfl, hj⟩ := List.append_inj' heq rfl
    cases hj
    exact hafter
  · rw [List.concat_eq_append, ← List.cons_append, ← List.append_assoc] at heq
    exact h pre j post (List.append_inj' heq rfl).1

theorem Ordered.of_concat {inputs : List Input} {i : Input} (h : Ordered (inputs ++ [i])) :
    Ordered inputs ∧ i.After (lastHop inputs) := by
  refine ⟨fun pre j post heq => h pre j (post ++ [i]) ?_, h inputs i [] rfl⟩
  rw [heq, List.append_assoc, List.cons_append]

namespace Core

variable {newID : ℕ → String} {c : Core} {last : Option (ℕ × ℕ)}

/-- What holds between inputs, the last hop being `last`. -/
structure Well (newID : ℕ → String) (c : Core) (last : Option (ℕ × ℕ)) : Prop where
  reported : c.Reported newID
  held : ∃ before segs, Held c.scores c.records c.unscored (read c.trace).slots before segs
  sorted : (read c.trace).slots.Pairwise fun a b => a.end_ < b.end_
  past : ∀ r ∈ (read c.trace).slots, ∃ l ∈ last, r.end_ ≤ l.2
  support : ∀ cs, c.candidate = some cs → ∃ l ∈ last, cs.supportEnd ≤ l.2

theorem Well.init : Well newID {} none where
  reported := .init
  held := ⟨[], [], .nil⟩
  sorted := .nil
  past := fun _ h => absurd h List.not_mem_nil
  support := fun _ h => by cases h

/-- Nothing happens to the history, and the candidate at most closes. -/
theorem Well.same (h : c.Well newID last) {c' : Core} (hreported : c'.Reported newID)
    (hsame : SameHistory c c') (hopen : ∀ cs, c'.candidate = some cs → c.candidate = some cs) :
    c'.Well newID last where
  reported := hreported
  held := by
    rw [hsame.scores, hsame.records, hsame.unscored, hsame.slots]
    exact h.held
  sorted := by
    rw [hsame.slots]
    exact h.sorted
  past := by
    rw [hsame.slots]
    exact h.past
  support := fun cs hcs => h.support cs (hopen cs hcs)

/-- A cleared history with no candidate open fits whatever the last hop was. -/
theorem Well.cleared (hreported : c.Reported newID) (hscores : c.scores = [])
    (hrecords : c.records = []) (hunscored : c.unscored = 0) (hslots : (read c.trace).slots = [])
    (hnone : c.candidate = none) : c.Well newID last where
  reported := hreported
  held := by
    refine ⟨[], [], ?_⟩
    rw [hscores, hrecords, hunscored, hslots]
    exact .nil
  sorted := by
    rw [hslots]
    exact .nil
  past := fun r hr => by
    rw [hslots] at hr
    exact absurd hr List.not_mem_nil
  support := fun cs hcs => absurd (hnone.symm.trans hcs) (Option.some_ne_none cs).symm

theorem clear_slots (c : Core) : (read c.clear.trace).slots = [] :=
  congrArg Reading.slots (read_concat c.trace .cleared)

theorem Well.invalid (h : c.Reported newID) (reason : CloseReason) :
    (c.invalid reason).Well newID last :=
  .cleared (h.invalid reason) rfl rfl rfl (clear_slots _) (invalid_candidate c reason)

/-- A later hop. -/
theorem Well.later (h : c.Well newID last) {it : HopItem}
    (hafter : ∀ l ∈ last, it.epoch = l.1 ∧ l.2 < it.end_) :
    c.Well newID (some (it.epoch, it.end_)) where
  reported := h.reported
  held := h.held
  sorted := h.sorted
  past := fun r hr => by
    obtain ⟨l, hl, hle⟩ := h.past r hr
    exact ⟨_, rfl, hle.trans (hafter l hl).2.le⟩
  support := fun cs hcs => by
    obtain ⟨l, hl, hle⟩ := h.support cs hcs
    exact ⟨_, rfl, hle.trans (hafter l hl).2.le⟩

/-- A later slot keeps the slots in order. -/
theorem Well.sorted_concat (h : c.Well newID last) {it : HopItem}
    (hafter : ∀ l ∈ last, it.epoch = l.1 ∧ l.2 < it.end_) {r : HopRecord} (hend : r.end_ = it.end_) :
    ((read c.trace).slots ++ [r]).Pairwise fun a b => a.end_ < b.end_ := by
  refine List.pairwise_append.mpr ⟨h.sorted, List.pairwise_singleton _ r, fun a ha b hb => ?_⟩
  obtain ⟨l, hl, hle⟩ := h.past a ha
  rw [List.mem_singleton.mp hb, hend]
  exact hle.trans_lt (hafter l hl).2

/-- Every slot with one more ends no later than the hop. -/
theorem Well.past_concat (h : c.Well newID last) {it : HopItem}
    (hafter : ∀ l ∈ last, it.epoch = l.1 ∧ l.2 < it.end_) {r : HopRecord} (hend : r.end_ = it.end_) :
    ∀ a ∈ (read c.trace).slots ++ [r], a.end_ ≤ it.end_ := by
  intro a ha
  rcases List.mem_append.mp ha with ha | ha
  · obtain ⟨l, hl, hle⟩ := h.past a ha
    exact hle.trans (hafter l hl).2.le
  · rw [List.mem_singleton.mp ha, hend]

/-! ### One input -/

theorem appendRecord_trace (c : Core) (r : HopRecord) :
    read (c.appendRecord r).trace = (read c.trace).step (.slot r) := read_concat c.trace (.slot r)

/-- A hop below the model's floor leaves the candidate alone, and joins or clears the history. -/
theorem Well.unscoredHop (h : c.Well newID last) {it : HopItem}
    (hafter : ∀ l ∈ last, it.epoch = l.1 ∧ l.2 < it.end_) :
    (c.unscoredHop it).Well newID (some (it.epoch, it.end_)) := by
  have hlater := h.later hafter
  have hcount : { c with unscored := c.unscored + 1 }.Reported newID :=
    ⟨h.reported.sound, h.reported.tracks, h.reported.live⟩
  obtain ⟨before, segs, hheld⟩ := h.held
  change ((if clearAfterUnscored ≤ c.unscored + 1 then
      { c with unscored := c.unscored + 1 }.clear
    else if c.scores ≠ [] then
      { c with unscored := c.unscored + 1 }.appendRecord
        { end_ := it.end_, raw := 0, smoothed := 0, scored := false, profile := it.profile }
    else { c with unscored := c.unscored + 1 }) : Core).Well newID _
  by_cases hclear : clearAfterUnscored ≤ c.unscored + 1
  · rw [if_pos hclear]
    have hslots := clear_slots { c with unscored := c.unscored + 1 }
    refine ⟨hcount.clear, ⟨[], [], ?_⟩, ?_, ?_, hlater.support⟩
    · rw [hslots]
      exact .nil
    · rw [hslots]
      exact .nil
    · rw [hslots]
      exact fun r hr => absurd hr List.not_mem_nil
  · rw [if_neg hclear]
    by_cases hne : c.scores ≠ []
    · rw [if_pos hne]
      obtain ⟨segs', hheld'⟩ := hheld.unscored hne (not_le.mp hclear) h.sorted
        (r := { end_ := it.end_, raw := 0, smoothed := 0, scored := false, profile := it.profile })
        rfl
      have hread := appendRecord_trace { c with unscored := c.unscored + 1 }
        { end_ := it.end_, raw := 0, smoothed := 0, scored := false, profile := it.profile }
      let r : HopRecord :=
        { end_ := it.end_, raw := 0, smoothed := 0, scored := false, profile := it.profile }
      have hbuffer : { c with unscored := c.unscored + 1
                              records := appended c.scores c.records r }.Reported newID :=
        ⟨hcount.sound, hcount.tracks, hcount.live⟩
      have hsound : Sound newID (read c.trace) (.slot r) := trivial
      refine ⟨hbuffer.note hsound Option.map_id_apply, ⟨before, segs', ?_⟩, ?_, ?_,
        hlater.support⟩
      · rw [hread]
        exact hheld'
      · rw [hread]
        exact h.sorted_concat hafter rfl
      · rw [hread]
        exact fun a ha => ⟨_, rfl, h.past_concat hafter rfl a ha⟩
    · rw [if_neg hne]
      have hnil := not_not.mp hne
      refine ⟨hcount, ⟨before, segs, { hheld with trailing := fun pre s hsegs => ?_ }⟩, h.sorted,
        hlater.past, hlater.support⟩
      rw [hheld.scores_eq, List.map_eq_nil_iff] at hnil
      exact absurd (hnil.symm.trans hsegs).symm
        (List.append_ne_nil_of_right_ne_nil pre (List.cons_ne_nil s []))

/-- A scored hop joins the history, then extends, opens or closes a candidate. -/
theorem Well.scoredHop (h : c.Well newID last) (hid : ∀ n, newID n ≠ "") {it : HopItem}
    (hafter : ∀ l ∈ last, it.epoch = l.1 ∧ l.2 < it.end_) {m : Model} (hm : c.model = some m)
    (raw : ℚ) (now : ℤ) (sound : Bool) :
    (c.scoredHop it raw now sound m).Well newID (some (it.epoch, it.end_)) := by
  obtain ⟨before, segs, hheld⟩ := h.held
  let r : HopRecord :=
    { end_ := it.end_, raw, smoothed := meanOf (push c.scores { end_ := it.end_, raw })
      scored := true, profile := it.profile }
  let c' : Core :=
    { c with unscored := 0, scores := push c.scores { end_ := it.end_, raw } }.appendRecord r
  obtain ⟨before', segs', hheld', hrecords⟩ := hheld.scored h.sorted (r := r) rfl
  have hread : read c'.trace =
      { slots := (read c.trace).slots ++ [r], opened := (read c.trace).opened.map (·.add r) } :=
    appendRecord_trace _ r
  have hslots : (read c'.trace).slots = (read c.trace).slots ++ [r] := by rw [hread]
  have hsorted : (read c'.trace).slots.Pairwise fun a b => a.end_ < b.end_ := by
    rw [hslots]
    exact h.sorted_concat hafter rfl
  have hnow : Held c'.scores c'.records 0 (read c'.trace).slots before' (segs' ++ [(r, [])]) := by
    rw [hslots]
    exact hheld'
  have hhop := h.reported.candidateHop hid hm rfl (rfl : r.end_ = it.end_) c' rfl rfl rfl rfl hnow
    hrecords hsorted now sound
  have hsame := ((SameHistory.candidateHop c' it raw r.smoothed now sound m).trans
    (.closeBelow _)).trans (.nearHop _ it r.smoothed now)
  change (((c'.candidateHop it raw r.smoothed now sound m).closeBelow).nearHop it r.smoothed
    now).Well newID _
  refine ⟨hhop.closeBelow.nearHop it r.smoothed now, ⟨before', segs' ++ [(r, [])], ?_⟩, ?_, ?_, ?_⟩
  · rw [hsame.scores, hsame.records, hsame.unscored, hsame.slots]
    exact hnow
  · rw [hsame.slots]
    exact hsorted
  · rw [hsame.slots, hslots]
    exact fun a ha => ⟨_, rfl, h.past_concat hafter rfl a ha⟩
  · intro cs hcs
    rw [nearHop_candidate] at hcs
    refine ⟨_, rfl, ?_⟩
    rcases candidateHop_candidate (closeBelow_candidate hcs) with ⟨old, hold, rfl⟩ | ⟨-, v, hv⟩
    · obtain ⟨l, hl, hle⟩ := h.support old hold
      exact (extend_supportEnd (hle.trans (hafter l hl).2.le)).2
    · rw [hv]
      exact latestSupport_le fun s hs => hnow.score_le hsorted hs

theorem Well.score (h : c.Well newID last) (hid : ∀ n, newID n ≠ "") {it : HopItem}
    (hafter : ∀ l ∈ last, it.epoch = l.1 ∧ l.2 < it.end_) (result : ScoreResult) (now : ℤ)
    (sound : Bool) : (c.score it result now sound).Well newID (some (it.epoch, it.end_)) := by
  unfold Core.score
  cases hm : c.model with
  | none => exact h.later hafter
  | some m =>
      cases result with
      | error => exact .invalid h.reported .gap
      | unscored => exact h.unscoredHop hafter
      | scored raw => exact h.scoredHop hid hafter hm raw now sound

/-- A new model starts with its own rules, a cleared history and no candidate. -/
theorem Well.model (h : c.Reported newID) (m : Model) :
    (c.step (.model m)).Well newID last := by
  have hpending : { c with pending := none }.Reported newID := ⟨h.sound, h.tracks, h.live⟩
  have hinvalid := hpending.invalid .reset
  refine .cleared ⟨hinvalid.sound, hinvalid.tracks, fun m' _ rule hrule => ?_⟩ rfl rfl rfl
    (clear_slots _) (invalid_candidate _ .reset)
  exact m.policy.live_accepted hrule

/-- One input keeps the history and the reports together. -/
theorem Well.step (h : c.Well newID last) (hid : ∀ n, newID n ≠ "") {i : Input}
    (hafter : i.After last) : (c.step i).Well newID (lastStep last i) := by
  cases i with
  | reset => exact .invalid h.reported .reset
  | mute => exact .invalid h.reported .mute
  | model m => exact .model h.reported m
  | unavailable =>
      have hpending : { c with pending := none }.Reported newID :=
        ⟨h.reported.sound, h.reported.tracks, h.reported.live⟩
      have hinvalid := hpending.invalid .reset
      refine .cleared ⟨hinvalid.sound, hinvalid.tracks, fun m hm => ?_⟩ rfl rfl rfl
        (clear_slots _) (invalid_candidate _ .reset)
      cases hm
  | policy p =>
      change (if c.candidate.isSome then { c with pending := some p }
        else c.applyPolicy p : Core).Well newID last
      by_cases hopen : c.candidate.isSome = true
      · rw [if_pos hopen]
        exact h.same ⟨h.reported.sound, h.reported.tracks, h.reported.live⟩
          ⟨rfl, rfl, rfl, rfl, rfl⟩ fun cs hcs => hcs
      · rw [if_neg hopen]
        refine h.same (h.reported.applyPolicy p) (.applyPolicy c p) fun cs hcs => ?_
        rw [applyPolicy_candidate] at hcs
        exact hcs
  | overrun => exact .invalid h.reported .overrun
  | gap => exact .invalid h.reported .gap
  | hop it result now sound => exact h.score hid hafter.2 result now sound

/-! ### Runs -/

theorem run_concat (inputs : List Input) (i : Input) :
    run (inputs ++ [i]) = (run inputs).step i := List.foldl_append

/-- The history and the reports fit together over every run. -/
theorem well_run (hid : ∀ n, newID n ≠ "") {inputs : List Input} (h : Ordered inputs) :
    (run inputs).Well newID (lastHop inputs) := by
  induction inputs using List.reverseRecOn with
  | nil => exact .init
  | append_singleton inputs i ih =>
      obtain ⟨hbefore, hafter⟩ := h.of_concat
      rw [run_concat, lastHop_concat]
      exact (ih hbefore).step hid hafter

/-- One input keeps an open candidate and its latest support, or closes it. -/
theorem Well.step_candidate (h : c.Well newID last) {i : Input} (hafter : i.After last)
    {cs cs' : CandidateState} (hcs : c.candidate = some cs) (hcs' : (c.step i).candidate = some cs') :
    cs'.id = cs.id ∧ cs.supportEnd ≤ cs'.supportEnd := by
  have hsame : (some cs = some cs') → cs'.id = cs.id ∧ cs.supportEnd ≤ cs'.supportEnd := by
    intro heq
    cases heq
    exact ⟨rfl, le_rfl⟩
  have hinvalid : ∀ reason (c' : Core), (c'.invalid reason).candidate = some cs' → False :=
    fun reason c' heq => Option.some_ne_none cs' (heq.symm.trans (invalid_candidate c' reason))
  cases i with
  | reset => exact (hinvalid _ _ hcs').elim
  | mute => exact (hinvalid _ _ hcs').elim
  | model m => exact (hinvalid _ { c with pending := none } hcs').elim
  | unavailable => exact (hinvalid _ { c with pending := none } hcs').elim
  | overrun => exact (hinvalid _ _ hcs').elim
  | gap => exact (hinvalid _ _ hcs').elim
  | policy p =>
      change (if c.candidate.isSome then { c with pending := some p }
        else c.applyPolicy p : Core).candidate = some cs' at hcs'
      rw [hcs, Option.isSome_some, if_pos rfl] at hcs'
      exact hsame hcs'
  | hop it result now sound =>
      obtain ⟨l, hl, hle⟩ := h.support cs hcs
      change (c.score it result now sound).candidate = some cs' at hcs'
      unfold Core.score at hcs'
      cases hm : c.model with
      | none =>
          rw [hm] at hcs'
          exact hsame (hcs.symm.trans hcs')
      | some m =>
          rw [hm] at hcs'
          cases result with
          | error => exact (hinvalid _ _ hcs').elim
          | unscored =>
              dsimp only at hcs'
              refine hsame (hcs.symm.trans (Eq.trans ?_ hcs'))
              unfold Core.unscoredHop
              dsimp only
              by_cases hclear : clearAfterUnscored ≤ c.unscored + 1
              · rw [if_pos hclear]
                rfl
              · rw [if_neg hclear]
                by_cases hne : c.scores ≠ []
                · rw [if_pos hne]
                  rfl
                · rw [if_neg hne]
          | scored raw =>
              dsimp only at hcs'
              unfold Core.scoredHop at hcs'
              dsimp only at hcs'
              rw [nearHop_candidate] at hcs'
              rcases candidateHop_candidate (closeBelow_candidate hcs') with
                ⟨old, hold, rfl⟩ | ⟨hnone, -⟩
              · have hold : c.candidate = some old := hold
                rw [hcs] at hold
                cases hold
                exact ⟨rfl, (extend_supportEnd (hle.trans (hafter.2 l hl).2.le)).1⟩
              · have hnone : c.candidate = none := hnone
                rw [hcs] at hnone
                cases hnone

end Core

/-- Over every run whose window ends increase within an epoch, every candidate is reported with
none open and the controller can judge it; every end is that of the open candidate, with the
latest support and the greatest smoothed value of its episode; and as long as a candidate is open
its latest support never decreases. -/
theorem candidates_judged (newID : ℕ → String) (hid : ∀ n, newID n ≠ "") (inputs : List Input)
    (h : Ordered inputs) :
    SoundTrace newID (Core.run inputs).trace ∧
      ((Core.run inputs).candidate.isSome = (read (Core.run inputs).trace).opened.isSome) ∧
      ∀ pre i post cs cs', inputs = pre ++ i :: post → (Core.run pre).candidate = some cs →
        (Core.run (pre ++ [i])).candidate = some cs' →
        cs'.id = cs.id ∧ cs.supportEnd ≤ cs'.supportEnd := by
  have hwell := Core.well_run hid h
  refine ⟨hwell.reported.sound, ?_, fun pre i post cs cs' heq hcs hcs' => ?_⟩
  · have ht := hwell.reported.tracks
    unfold Core.Tracks at ht
    cases hc : (Core.run inputs).candidate with
    | none =>
        rw [hc] at ht
        rw [ht]
        rfl
    | some cs =>
        rw [hc] at ht
        obtain ⟨ep, hopen, -⟩ := ht
        rw [hopen]
        rfl
  · have hpre : Ordered pre := by
      intro pre' j post' hsplit
      refine h pre' j (post' ++ i :: post) ?_
      rw [heq, hsplit, List.append_assoc, List.cons_append]
    rw [Core.run_concat] at hcs'
    exact (Core.well_run hid hpre).step_candidate (h pre i post heq) hcs hcs'

/-- The baseline rules at one half. -/
def halfPolicy : Policy where
  thresholds := { idle := 1 / 2, playback := 1 / 2, nearMiss := 1 / 4 }
  rules := { openRules := none, shadowRules := [] }
  accepted := by decide +kernel

/-- A hop of epoch 1 at a quiet moment. -/
def quietHop (end_ : ℕ) (result : ScoreResult) : Input :=
  .hop { end_, epoch := 1, profile := .idle } result 0 false

/-- A wake word over three windows, the middle one below the model's floor, and a mute. -/
def wakeWord : List Input :=
  [.model { graphSHA256 := "", policy := halfPolicy }, quietHop 23040 (.scored (2 / 5)),
    quietHop 25600 .unscored, quietHop 28160 (.scored (4 / 5)), .mute]

/-- The wake word opens one candidate, with all three hops, and the mute ends it. -/
theorem candidates_judged_wakeWord :
    SoundTrace (fun n => "candidate " ++ toString n) (Core.run wakeWord).trace ∧
      (Core.run wakeWord).candidate.isSome = false ∧
      ((Core.run wakeWord).trace.filterMap fun
        | .candidate k => some (k.hops.map (·.endSample))
        | _ => none) = [[23040, 25600, 28160]] := by
  have hid : ∀ n : ℕ, "candidate " ++ toString n ≠ "" := by
    intro n h
    have hlen := congrArg String.length h
    rw [String.length_append] at hlen
    exact absurd (Nat.eq_zero_of_add_eq_zero_right hlen) (by decide)
  have hordered : Ordered wakeWord := by
    refine ((((Ordered.nil.concat (i := .model _) trivial).concat ?_).concat ?_).concat ?_).concat
      (i := .mute) trivial
    · exact ⟨le_rfl, fun l hl => by cases hl⟩
    · refine ⟨by decide, fun l hl => ?_⟩
      cases hl
      exact ⟨rfl, by decide⟩
    · refine ⟨by decide, fun l hl => ?_⟩
      cases hl
      exact ⟨rfl, by decide⟩
  have h := candidates_judged _ hid wakeWord hordered
  exact ⟨h.1, by decide +kernel, by decide +kernel⟩

end EchoMuse.Wake
