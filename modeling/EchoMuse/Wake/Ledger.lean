import EchoMuse.Wake.Shadow
import Mathlib.Data.List.Nodup

/-!
# The Ledger of a Shadow Rule

What each operation on a shadow rule adds to its log, and that its counters, over all stats windows,
are the numbers of the notes.

## Main results

* `expireHeld_spec`, `retryHeld_spec`, `settle_spec`, `shadowHop_spec`: what an operation does;
* `Booked.adds`: the counters and the balance after it.
-/

namespace EchoMuse.Wake

namespace RuleNote

/-- The episode that a note is about. -/
def opening? : RuleNote → Option Opening
  | opened o | both o _ | closed o | abandoned o _ | dropped o | matched o | unmatched o
  | retried o => some o
  | _ => none

/-- The episode that opens. -/
def opened? : RuleNote → Option Opening
  | opened o => some o
  | _ => none

/-- The episode that a note settles. -/
def settled? : RuleNote → Option Opening
  | matched o | unmatched o | retried o | dropped o => some o
  | _ => none

/-- The episode that a note counts. -/
def counted? : RuleNote → Option Opening
  | matched o | unmatched o | retried o => some o
  | _ => none

def window? : RuleNote → Option ShadowCounts
  | window c => some c
  | _ => none

def liveOnly? : RuleNote → Option ℕ
  | liveOnly candidate => some candidate
  | _ => none

/-- The live candidate that a note names. -/
def candidate? : RuleNote → Option ℕ
  | both _ candidate | ended candidate _ | liveOnly candidate => some candidate
  | _ => none

def isDropped : RuleNote → Bool
  | dropped _ => true
  | _ => false

/-- An invalidation ended an episode that was not matched. -/
def isLost : RuleNote → Bool
  | abandoned _ false => true
  | _ => false

end RuleNote

/-- A counter of a rule. -/
inductive Counter
  | opens | matched | unmatched | retried | liveOnly

namespace Counter

def value (c : ShadowCounts) : Counter → ℕ
  | opens => c.opens
  | matched => c.matched
  | unmatched => c.unmatched
  | retried => c.retried
  | liveOnly => c.liveOnly

/-- The notes that a counter counts. -/
def marks : Counter → RuleNote → Bool
  | opens, .opened _ => true
  | matched, .matched _ => true
  | unmatched, .unmatched _ => true
  | retried, .retried _ => true
  | liveOnly, .liveOnly _ => true
  | _, _ => false

end Counter

namespace ShadowRule

/-- A counter over all stats windows. -/
def total (s : ShadowRule) (k : Counter) : ℕ :=
  ((s.log.filterMap RuleNote.window?).map fun c => k.value c).sum + k.value s.counts

/-- An episode is open that is not matched yet. -/
def pending (s : ShadowRule) : ℕ :=
  match s.current with
  | some cur => if cur.matched then 0 else 1
  | none => 0

/-! ### What an operation adds -/

/-- Notes are added, and counted. -/
structure Adds (s s' : ShadowRule) (notes : List RuleNote) : Prop where
  rule : s'.rule = s.rule
  log : s'.log = s.log ++ notes
  counts : ∀ k : Counter, k.value s'.counts = k.value s.counts + notes.countP k.marks
  plain : notes.filterMap RuleNote.window? = []

namespace Adds

variable {s s' s'' : ShadowRule} {notes notes' : List RuleNote}

theorem refl (s : ShadowRule) : Adds s s [] := ⟨rfl, (List.append_nil _).symm, fun _ => rfl, rfl⟩

theorem trans (h : Adds s s' notes) (h' : Adds s' s'' notes') : Adds s s'' (notes ++ notes') where
  rule := h'.rule.trans h.rule
  log := by rw [h'.log, h.log, List.append_assoc]
  counts k := by rw [h'.counts, h.counts, List.countP_append, Nat.add_assoc]
  plain := by rw [List.filterMap_append, h.plain, h'.plain, List.append_nil]

/-- The total is that of the notes added. -/
theorem total (h : Adds s s' notes) (k : Counter) :
    s'.total k = s.total k + notes.countP k.marks := by
  rw [ShadowRule.total, ShadowRule.total, h.log, List.filterMap_append, h.plain, List.append_nil,
    h.counts, Nat.add_assoc]

end Adds

theorem event_value (c : ShadowCounts) (e : ShadowEvent) (k : Counter) :
    k.value (event c e) = k.value c := by
  rw [event]
  split_ifs <;> cases k <;> rfl

theorem resolveOldest_spec {s : ShadowRule} {ep : ShadowEpisode} {held : List ShadowEpisode}
    (h : s.held = ep :: held) :
    Adds s (s.resolveOldest .unmatched) [.unmatched ep.opening] ∧
      Adds s (s.resolveOldest .retried) [.retried ep.opening] ∧
      ∀ kind, (s.resolveOldest kind).held = held ∧ (s.resolveOldest kind).current = s.current ∧
        (s.resolveOldest kind).overlapped = s.overlapped := by
  rw [resolveOldest, resolveOldest, h]
  refine ⟨⟨rfl, rfl, fun k => ?_, rfl⟩, ⟨rfl, rfl, fun k => ?_, rfl⟩, fun kind => ?_⟩
  · refine (event_value _ _ k).trans ?_
    cases k <;> rfl
  · refine (event_value _ _ k).trans ?_
    cases k <;> rfl
  · rw [resolveOldest, h]
    cases kind <;> exact ⟨rfl, rfl, rfl⟩

theorem note_adds (s : ShadowRule) {n : RuleNote} (hmarks : ∀ k : Counter, k.marks n = false)
    (hplain : n.window? = none) : Adds s (s.note n) [n] where
  rule := rfl
  log := rfl
  counts k := by
    rw [List.countP_singleton, hmarks k]
    rfl
  plain := List.filterMap_cons_none hplain

/-- **Those whose hold has run out are unmatched**, up to the first whose hold has not. -/
theorem expireHeld_spec (s : ShadowRule) (it : HopItem) :
    Adds s (s.expireHeld it) (.reached it ::
        (s.held.takeWhile (expired it)).map fun ep => .unmatched ep.opening) ∧
      (s.expireHeld it).held = s.held.dropWhile (expired it) ∧
      (s.expireHeld it).current = s.current ∧ (s.expireHeld it).overlapped = s.overlapped := by
  have hloop : ∀ (held : List ShadowEpisode) (s : ShadowRule), s.held = held →
      Adds s (expireLoop it held s)
          ((held.takeWhile (expired it)).map fun ep => .unmatched ep.opening) ∧
        (expireLoop it held s).held = held.dropWhile (expired it) ∧
        (expireLoop it held s).current = s.current ∧
        (expireLoop it held s).overlapped = s.overlapped := by
    intro held
    induction held with
    | nil => exact fun s hs => ⟨.refl s, hs, rfl, rfl⟩
    | cons ep held ih =>
        intro s hs
        rw [expireLoop]
        by_cases hout : expired it ep = true
        · obtain ⟨hadds, -, hfields⟩ := resolveOldest_spec hs
          obtain ⟨hheld, hcurrent, hoverlap⟩ := hfields .unmatched
          obtain ⟨hrest, hrestHeld, hrestCurrent, hrestOverlap⟩ := ih _ hheld
          rw [if_pos hout, List.takeWhile_cons_of_pos hout, List.dropWhile_cons_of_pos hout]
          exact ⟨hadds.trans hrest, hrestHeld, hrestCurrent.trans hcurrent,
            hrestOverlap.trans hoverlap⟩
        · rw [if_neg hout, List.takeWhile_cons_of_neg hout, List.dropWhile_cons_of_neg hout]
          exact ⟨.refl s, hs, rfl, rfl⟩
  obtain ⟨hadds, hfields⟩ := hloop s.held (s.note (.reached it)) rfl
  have hreached : Adds s (s.note (.reached it)) [.reached it] :=
    note_adds s (fun k => by cases k <;> rfl) rfl
  exact ⟨hreached.trans hadds, hfields⟩

/-- **A live candidate that opens takes all that wait.** -/
theorem retryHeld_spec (s : ShadowRule) (it : HopItem) :
    Adds s (s.retryHeld it) (.live it :: s.held.map fun ep => .retried ep.opening) ∧
      (s.retryHeld it).held = [] ∧ (s.retryHeld it).current = s.current ∧
      (s.retryHeld it).overlapped = false := by
  have hloop : ∀ (held : List ShadowEpisode) (s : ShadowRule), s.held = held →
      Adds s (retryLoop held s) (held.map fun ep => .retried ep.opening) ∧
        (retryLoop held s).held = [] ∧ (retryLoop held s).current = s.current ∧
        (retryLoop held s).overlapped = s.overlapped := by
    intro held
    induction held with
    | nil => exact fun s hs => ⟨.refl s, hs, rfl, rfl⟩
    | cons ep held ih =>
        intro s hs
        obtain ⟨-, hadds, hfields⟩ := resolveOldest_spec hs
        obtain ⟨hheld, hcurrent, hoverlap⟩ := hfields .retried
        obtain ⟨hrest, hrestHeld, hrestCurrent, hrestOverlap⟩ := ih _ hheld
        exact ⟨hadds.trans hrest, hrestHeld, hrestCurrent.trans hcurrent,
          hrestOverlap.trans hoverlap⟩
  obtain ⟨hadds, hfields⟩ := hloop s.held ({ s with overlapped := false }.note (.live it)) rfl
  have hlive : Adds s ({ s with overlapped := false }.note (.live it)) [.live it] :=
    ⟨rfl, rfl, fun k => by cases k <;> rfl, rfl⟩
  exact ⟨hlive.trans hadds, hfields⟩

/-- What meeting a live candidate adds. -/
def meetNotes (cur : OpenEpisode) : Option CandidateState → List RuleNote
  | none => []
  | some cs =>
    (if cur.matched then [] else [.matched cur.ep.opening]) ++ [.both cur.ep.opening cs.id]

theorem mem_meetNotes {cur : OpenEpisode} {live : Option CandidateState} {n : RuleNote}
    (hn : n ∈ meetNotes cur live) : ∃ cs, live = some cs ∧
      (n = .both cur.ep.opening cs.id ∨ (n = .matched cur.ep.opening ∧ cur.matched = false)) := by
  cases live with
  | none => exact absurd hn List.not_mem_nil
  | some cs =>
      refine ⟨cs, rfl, ?_⟩
      rcases List.mem_append.mp hn with hm | hb
      · split_ifs at hm with hc
        · exact absurd hm List.not_mem_nil
        · exact .inr ⟨List.mem_singleton.mp hm, eq_false_of_ne_true hc⟩
      · exact .inl (List.mem_singleton.mp hb)

theorem meet_spec (s : ShadowRule) (cur : OpenEpisode) (live : Option CandidateState) :
    Adds s (s.meet cur live).1 (meetNotes cur live) ∧ (s.meet cur live).1.held = s.held ∧
      (s.meet cur live).1.overlapped = (live.isSome || s.overlapped) ∧
      (s.meet cur live).2 = { cur with matched := live.isSome || cur.matched } := by
  cases live with
  | none => exact ⟨.refl s, rfl, rfl, rfl⟩
  | some cs =>
      have hboth : ∀ s' : ShadowRule, Adds s' ({ s' with overlapped := true }.note
          (.both cur.ep.opening cs.id)) [.both cur.ep.opening cs.id] := fun s' =>
        ⟨rfl, rfl, fun k => by cases k <;> rfl, rfl⟩
      rw [meet, meetNotes]
      cases hmatched : cur.matched with
      | true => exact ⟨(Adds.refl s).trans (hboth s), rfl, rfl, rfl⟩
      | false =>
          have hmatch : Adds s ({ s with
              counts :=
                { s.counts with
                  matched := s.counts.matched + 1
                  lead := s.counts.lead.modify (bucket cs.openSample cur.ep.openSample) (· + 1) }
              }.note (.matched cur.ep.opening)) [.matched cur.ep.opening] :=
            ⟨rfl, rfl, fun k => by cases k <;> rfl, rfl⟩
          exact ⟨hmatch.trans (hboth _), rfl, rfl, rfl⟩

/-- What the end of a scored hop adds. -/
def settleNotes (cur : OpenEpisode) (closing : Bool) (live : Option CandidateState) :
    List RuleNote :=
  meetNotes cur live ++ if closing then [.closed cur.ep.opening] else []

theorem mem_settleNotes {cur : OpenEpisode} {closing : Bool} {live : Option CandidateState}
    {n : RuleNote} (hn : n ∈ settleNotes cur closing live) :
    (∃ cs, live = some cs ∧ n = .both cur.ep.opening cs.id) ∨ n = .matched cur.ep.opening ∨
      n = .closed cur.ep.opening := by
  rcases List.mem_append.mp hn with hn | hn
  · obtain ⟨cs, hcs, hboth | ⟨hmatched, -⟩⟩ := mem_meetNotes hn
    · exact .inl ⟨cs, hcs, hboth⟩
    · exact .inr (.inl hmatched)
  · split_ifs at hn
    · exact .inr (.inr (List.mem_singleton.mp hn))
    · exact absurd hn List.not_mem_nil

/-- **The end of a scored hop with an open episode**, when there is room for one more to wait. -/
theorem settle_spec (s : ShadowRule) (cur : OpenEpisode) (closing : Bool)
    (live : Option CandidateState) (hroom : s.held.length ≠ maxShadowHeld) :
    Adds s (s.settle cur closing live) (settleNotes cur closing live) ∧
      (s.settle cur closing live).held =
        (if closing = true ∧ (live.isSome || cur.matched) = false then s.held ++ [cur.ep]
          else s.held) ∧
      (s.settle cur closing live).current =
        (if closing then none else some { cur with matched := live.isSome || cur.matched }) ∧
      (s.settle cur closing live).overlapped = (live.isSome || s.overlapped) := by
  obtain ⟨hadds, hheld, hoverlap, hcur⟩ := meet_spec s cur live
  rw [settle]
  cases closing with
  | false =>
      refine ⟨?_, hheld, congrArg some hcur, hoverlap⟩
      have hnotes : settleNotes cur false live = meetNotes cur live := by
        rw [settleNotes, if_neg Bool.false_ne_true, List.append_nil]
      rw [hnotes]
      exact ⟨hadds.rule, hadds.log, hadds.counts, hadds.plain⟩
  | true =>
      have hclosed : Adds (s.meet cur live).1
          ({ (s.meet cur live).1 with current := none }.note (.closed cur.ep.opening))
          [.closed cur.ep.opening] :=
        ⟨rfl, rfl, fun k => by cases k <;> rfl, rfl⟩
      dsimp only
      rw [if_pos rfl, if_pos rfl, settleNotes, if_pos rfl, hcur]
      dsimp only
      cases hmatched : (live.isSome || cur.matched) with
      | true => exact ⟨hadds.trans hclosed, hheld, rfl, hoverlap⟩
      | false =>
          rw [if_neg Bool.false_ne_true, hold, if_neg (by
            rw [note]
            dsimp only
            rw [hheld]
            exact hroom)]
          refine ⟨?_, ?_, rfl, hoverlap⟩
          · have hboth := hadds.trans hclosed
            exact ⟨hboth.rule, hboth.log, hboth.counts, hboth.plain⟩
          · rw [if_pos ⟨rfl, rfl⟩, ← hheld]
            rfl

/-- **A scored hop**: nothing is open and nothing opens, or an episode goes on or opens and the hop
settles it. -/
theorem shadowHop_spec (s : ShadowRule) (it : HopItem) (raw smoothed : ℚ) (now : ℤ)
    (scores : List ScoreEntry) (live : Option CandidateState) :
    (s.current = none ∧ Adds s (s.shadowHop it raw smoothed now scores live) [] ∧
        (s.shadowHop it raw smoothed now scores live).held = s.held ∧
        (s.shadowHop it raw smoothed now scores live).current = none ∧
        (s.shadowHop it raw smoothed now scores live).overlapped = s.overlapped) ∨
      ∃ s₁ notes cur closing, Adds s s₁ notes ∧ s₁.held = s.held ∧ s₁.overlapped = s.overlapped ∧
        s.shadowHop it raw smoothed now scores live = s₁.settle cur closing live ∧
        ((notes = [] ∧ ∃ old, s.current = some old ∧ cur.ep.opening = old.ep.opening ∧
            cur.matched = old.matched ∧ cur.below ≤ old.below + 1 ∧
            (closing = true ↔ cur.below = closeAfterBelow)) ∨
          s.current = none ∧ notes = [.opened ⟨it.epoch, it.end_⟩] ∧
            cur.ep.opening = ⟨it.epoch, it.end_⟩ ∧ cur.matched = false ∧ cur.below = 0 ∧
            closing = false) := by
  have hseen : ∃ s₁, (if s.rule.profile = it.profile then
      { s with counts := { s.counts with hops := s.counts.hops + 1 } } else s) = s₁ ∧
      Adds s s₁ [] ∧ s₁.held = s.held ∧ s₁.current = s.current ∧ s₁.overlapped = s.overlapped := by
    refine ⟨_, rfl, ?_⟩
    split_ifs
    · exact ⟨⟨rfl, (List.append_nil _).symm, fun k => by cases k <;> rfl, rfl⟩, rfl, rfl, rfl⟩
    · exact ⟨.refl s, rfl, rfl, rfl⟩
  obtain ⟨s₁, heq, hadds, hheld, hcurrent, hoverlap⟩ := hseen
  rw [shadowHop, heq]
  dsimp only
  rw [hcurrent]
  cases hs : s.current with
  | some old =>
      refine .inr ⟨s₁, [], _, _, hadds, hheld, hoverlap, rfl, .inl ⟨rfl, old, rfl, ?_⟩⟩
      have htwo : closeAfterBelow = 2 := rfl
      rw [extend]
      dsimp only
      split_ifs
      · exact ⟨rfl, rfl, Nat.zero_le _, by simp [htwo]⟩
      · exact ⟨rfl, rfl, le_rfl, decide_eq_true_iff⟩
  | none =>
      dsimp only
      split_ifs with hprofile
      · cases hfires : s₁.rule.fires scores with
        | none => exact .inl ⟨rfl, hadds, hheld, hcurrent.trans hs, hoverlap⟩
        | some oldest =>
            refine .inr ⟨_, _, _, _, hadds.trans ?_, ?_, ?_, rfl,
              .inr ⟨rfl, rfl, rfl, rfl, rfl, rfl⟩⟩
            · exact ⟨rfl, rfl, fun k => by cases k <;> rfl, rfl⟩
            · exact hheld
            · exact hoverlap
      · exact .inl ⟨rfl, hadds, hheld, hcurrent.trans hs, hoverlap⟩

theorem closeCandidate_spec (s : ShadowRule) (cs : CandidateState) :
    Adds s (s.closeCandidate cs) (.ended cs.id cs.profile ::
        if s.rule.profile = cs.profile ∧ s.overlapped = false then [.liveOnly cs.id] else []) ∧
      (s.closeCandidate cs).held = s.held ∧ (s.closeCandidate cs).current = s.current ∧
      (s.closeCandidate cs).overlapped = s.overlapped := by
  have hended : Adds s (s.note (.ended cs.id cs.profile)) [.ended cs.id cs.profile] :=
    note_adds s (fun k => by cases k <;> rfl) rfl
  rw [closeCandidate]
  dsimp only
  have hsame : (s.note (.ended cs.id cs.profile)).rule.profile = cs.profile ∧
      (s.note (.ended cs.id cs.profile)).overlapped = false ↔
      s.rule.profile = cs.profile ∧ s.overlapped = false := Iff.rfl
  by_cases halone : s.rule.profile = cs.profile ∧ s.overlapped = false
  · rw [if_pos (hsame.mpr halone), if_pos halone]
    have halone' : Adds (s.note (.ended cs.id cs.profile))
        ({ s.note (.ended cs.id cs.profile) with
          counts := { s.counts with liveOnly := s.counts.liveOnly + 1 } }.note (.liveOnly cs.id))
        [.liveOnly cs.id] :=
      ⟨rfl, rfl, fun k => by cases k <;> rfl, rfl⟩
    exact ⟨hended.trans halone', rfl, rfl, rfl⟩
  · rw [if_neg (mt hsame.mp halone), if_neg halone]
    exact ⟨hended, rfl, rfl, rfl⟩

theorem abandon_spec (s : ShadowRule) :
    Adds s s.abandon (s.current.toList.map fun cur => .abandoned cur.ep.opening cur.matched) ∧
      s.abandon.held = s.held ∧ s.abandon.current = none ∧
      s.abandon.overlapped = s.overlapped := by
  rw [abandon]
  cases hs : s.current with
  | none => exact ⟨.refl s, rfl, hs, rfl⟩
  | some cur => exact ⟨⟨rfl, rfl, fun k => by cases k <;> rfl, rfl⟩, rfl, rfl, rfl⟩

theorem renew_spec (s : ShadowRule) (hnone : s.current = none) :
    Adds s s.renew (s.held.map fun ep => .dropped ep.opening) ∧ s.renew.held = [] ∧
      s.renew.current = none ∧ s.renew.overlapped = false := by
  have habandon : s.abandon.log = s.log := by rw [abandon, hnone]
  refine ⟨⟨rfl, ?_, fun k => ?_, ?_⟩, rfl, rfl, rfl⟩
  · rw [renew, habandon]
  · have hnil : (s.held.map fun ep => RuleNote.dropped ep.opening).countP k.marks = 0 := by
      rw [List.countP_eq_zero]
      rintro n hn
      obtain ⟨ep, -, rfl⟩ := List.mem_map.mp hn
      cases k <;> exact Bool.false_ne_true
    rw [hnil]
    rfl
  · rw [List.filterMap_eq_nil_iff]
    rintro n hn
    obtain ⟨ep, -, rfl⟩ := List.mem_map.mp hn
    rfl

theorem nextWindow_log (s : ShadowRule) : s.nextWindow.log = s.log ++ [.window s.counts] := rfl

/-! ### Counters and balance -/

/-- The counters are the numbers of the notes, and what was opened is somewhere. -/
structure Booked (s : ShadowRule) : Prop where
  totals : ∀ k : Counter, s.total k = s.log.countP k.marks
  balance : s.log.countP Counter.opens.marks =
    s.log.countP Counter.matched.marks + s.log.countP Counter.unmatched.marks +
      s.log.countP Counter.retried.marks + s.log.countP RuleNote.isDropped +
      s.log.countP RuleNote.isLost + s.held.length + s.pending

namespace Booked

variable {s s' : ShadowRule} {notes : List RuleNote}

theorem new (r : OpenRule) : Booked { rule := r } := ⟨fun k => by cases k <;> rfl, rfl⟩

/-- Notes that add up. -/
theorem adds (h : Booked s) (ha : Adds s s' notes)
    (hbalance : notes.countP Counter.opens.marks + s.held.length + s.pending =
      notes.countP Counter.matched.marks + notes.countP Counter.unmatched.marks +
        notes.countP Counter.retried.marks + notes.countP RuleNote.isDropped +
        notes.countP RuleNote.isLost + s'.held.length + s'.pending) : Booked s' where
  totals k := by rw [ha.total, h.totals, ha.log, List.countP_append]
  balance := by
    have hold := h.balance
    rw [ha.log]
    simp only [List.countP_append]
    omega

theorem countP_map {f : ShadowEpisode → RuleNote} {p : RuleNote → Bool} (b : Bool)
    (h : ∀ ep, p (f ep) = b) (l : List ShadowEpisode) :
    (l.map f).countP p = if b then l.length else 0 := by
  have hcomp : p ∘ f = fun _ => b := funext h
  rw [List.countP_map, hcomp]
  cases b with
  | false => exact congrFun List.countP_false l
  | true => exact congrFun List.countP_true l

theorem pending_eq (h : s'.current = s.current) : s'.pending = s.pending := by
  rw [pending, pending, h]

theorem expireHeld (h : Booked s) (it : HopItem) : Booked (s.expireHeld it) := by
  obtain ⟨hadds, hheld, hcurrent, -⟩ := expireHeld_spec s it
  refine h.adds hadds ?_
  have hsplit := congrArg List.length
    (List.takeWhile_append_dropWhile (p := expired it) (l := s.held))
  rw [List.length_append] at hsplit
  rw [hheld, pending_eq hcurrent]
  simp only [List.countP_cons]
  rw [countP_map false fun _ => rfl, countP_map false fun _ => rfl, countP_map true fun _ => rfl,
    countP_map false fun _ => rfl, countP_map false fun _ => rfl, countP_map false fun _ => rfl]
  simp [Counter.marks, RuleNote.isDropped, RuleNote.isLost]
  omega

theorem retryHeld (h : Booked s) (it : HopItem) : Booked (s.retryHeld it) := by
  obtain ⟨hadds, hheld, hcurrent, -⟩ := retryHeld_spec s it
  refine h.adds hadds ?_
  rw [hheld, pending_eq hcurrent]
  simp only [List.countP_cons]
  rw [countP_map false fun _ => rfl, countP_map false fun _ => rfl, countP_map false fun _ => rfl,
    countP_map true fun _ => rfl, countP_map false fun _ => rfl, countP_map false fun _ => rfl]
  simp [Counter.marks, RuleNote.isDropped, RuleNote.isLost]

/-- What meeting a live candidate counts. -/
theorem countP_meetNotes (cur : OpenEpisode) (live : Option CandidateState) (p : RuleNote → Bool)
    (hboth : ∀ o candidate, p (.both o candidate) = false) :
    (meetNotes cur live).countP p =
      if live.isSome = true ∧ cur.matched = false ∧ p (.matched cur.ep.opening) = true then 1
      else 0 := by
  cases live with
  | none => rfl
  | some cs =>
      rw [meetNotes, List.countP_append, List.countP_singleton, hboth]
      cases cur.matched with
      | true => simp
      | false => simp

/-- An episode that goes on, or one that opens. -/
theorem settle {s₁ : ShadowRule} {cur : OpenEpisode} {closing : Bool}
    {live : Option CandidateState} (h : Booked s) (ha : Adds s s₁ notes) (hheld : s₁.held = s.held)
    (hroom : s₁.held.length ≠ maxShadowHeld)
    (hcase : notes = [] ∧ s.pending = (if cur.matched then 0 else 1) ∨
      s.pending = 0 ∧ notes = [.opened cur.ep.opening] ∧ cur.matched = false) :
    Booked (s₁.settle cur closing live) := by
  obtain ⟨hadds, hheld', hcurrent, -⟩ := settle_spec s₁ cur closing live hroom
  refine h.adds (ha.trans hadds) ?_
  have hmeet := countP_meetNotes cur live
  have hpending : (s₁.settle cur closing live).pending =
      if closing = true ∨ (live.isSome || cur.matched) = true then 0 else 1 := by
    rw [pending, hcurrent]
    cases closing <;> simp
  rw [hpending, hheld', hheld]
  rcases hcase with ⟨rfl, hold⟩ | ⟨hold, rfl, hmatched⟩
  · rw [hold]
    simp only [settleNotes, List.countP_append, List.countP_nil]
    rw [hmeet _ fun _ _ => rfl, hmeet _ fun _ _ => rfl, hmeet _ fun _ _ => rfl,
      hmeet _ fun _ _ => rfl, hmeet _ fun _ _ => rfl, hmeet _ fun _ _ => rfl]
    cases closing <;> cases cur.matched <;> cases live <;>
      simp [Counter.marks, RuleNote.isDropped, RuleNote.isLost, Nat.add_comm]
  · rw [hold, hmatched]
    simp only [settleNotes, List.countP_append, List.countP_singleton]
    rw [hmeet _ fun _ _ => rfl, hmeet _ fun _ _ => rfl, hmeet _ fun _ _ => rfl,
      hmeet _ fun _ _ => rfl, hmeet _ fun _ _ => rfl, hmeet _ fun _ _ => rfl, hmatched]
    cases closing <;> cases live <;>
      simp [Counter.marks, RuleNote.isDropped, RuleNote.isLost] <;> omega

theorem shadowHop (h : Booked s) (hroom : s.held.length ≠ maxShadowHeld) (it : HopItem)
    (raw smoothed : ℚ) (now : ℤ) (scores : List ScoreEntry) (live : Option CandidateState) :
    Booked (s.shadowHop it raw smoothed now scores live) := by
  rcases shadowHop_spec s it raw smoothed now scores live with
    ⟨hnone, hadds, hheld, hcurrent, -⟩ |
    ⟨s₁, notes, cur, closing, hadds, hheld, -, heq, hcase⟩
  · refine h.adds hadds ?_
    rw [hheld, pending_eq (hcurrent.trans hnone.symm)]
    simp
  · rw [heq]
    refine h.settle hadds hheld (hheld ▸ hroom) ?_
    rcases hcase with ⟨rfl, old, hold, -, hmatched, -⟩ | ⟨hnone, rfl, hopening, hmatched, -⟩
    · refine .inl ⟨rfl, ?_⟩
      rw [pending, hold, hmatched]
    · refine .inr ⟨?_, by rw [hopening], hmatched⟩
      rw [pending, hnone]

theorem closeCandidate (h : Booked s) (cs : CandidateState) : Booked (s.closeCandidate cs) := by
  obtain ⟨hadds, hheld, hcurrent, -⟩ := closeCandidate_spec s cs
  refine h.adds hadds ?_
  rw [hheld, pending_eq hcurrent]
  split_ifs <;> simp [Counter.marks, RuleNote.isDropped, RuleNote.isLost]

theorem abandon (h : Booked s) : Booked s.abandon := by
  obtain ⟨hadds, hheld, hcurrent, -⟩ := abandon_spec s
  refine h.adds hadds ?_
  rw [hheld, pending, pending, hcurrent]
  cases s.current with
  | none => simp
  | some cur =>
      cases hm : cur.matched <;>
        simp [Counter.marks, RuleNote.isDropped, RuleNote.isLost, hm, Nat.add_comm]

theorem renew (h : Booked s) (hnone : s.current = none) : Booked s.renew := by
  obtain ⟨hadds, hheld, hcurrent, -⟩ := renew_spec s hnone
  refine h.adds hadds ?_
  rw [hheld, pending_eq (hcurrent.trans hnone.symm), countP_map false fun _ => rfl,
    countP_map false fun _ => rfl, countP_map false fun _ => rfl, countP_map false fun _ => rfl,
    countP_map true fun _ => rfl, countP_map false fun _ => rfl]
  simp

theorem nextWindow (h : Booked s) : Booked s.nextWindow where
  totals k := by
    have hk := h.totals k
    rw [total] at hk
    rw [total, nextWindow_log, List.filterMap_append, List.map_append, List.sum_append,
      List.countP_append, ← hk]
    cases k <;> rfl
  balance := by
    have hold := h.balance
    rw [nextWindow_log]
    simp only [List.countP_append, List.countP_singleton]
    exact hold

end Booked

end ShadowRule

end EchoMuse.Wake
