import EchoMuse.Wake.Queue
import Mathlib.Data.List.Chain

/-!
# Contiguous Scores

The scores of a mean come from consecutive hops of one epoch and one valid stretch. The hops in the
queue follow one another on the tape, from the last scored hop on, except where a gap item stands
or something was dropped; so one more score continues the stretch, or finds the history cleared.

## Main results

* `Linked.hop`, `Linked.gap`, `Linked.dropHop`: what the queue operations do to hops in line;
* `Taped.hop`, `Taped.broken`: what the capture side puts on the tape;
* `History.hop`: one more scored hop keeps the scores in one stretch.
-/

namespace EchoMuse.Wake

/-! ### Contiguous scores -/

/-- The first sample of the valid history after the marks. -/
def startOf (tape : List Mark) : ℕ :=
  tape.foldl (fun start m => match m with
    | .hop _ => start
    | .missing to_ => to_
    | .restart at_ => at_) 0

/-- The score of a hop that was scored. -/
def Seen.entry (s : Seen) : Option ScoreEntry :=
  match s.result with
  | .scored raw => some { end_ := s.item.end_, raw }
  | _ => none

/-- One hop right after another. -/
def Seen.Next (a b : Seen) : Prop :=
  b.place = a.place + 1 ∧ b.item.epoch = a.item.epoch ∧ b.item.end_ = a.item.end_ + hopSamples

/-- Scored hops, each with its whole window valid since the last break on the tape, one right after
another, none of them an inference error, and no six unscored in a row. -/
structure Stretch (tape : List Mark) (hops : List Seen) : Prop where
  next : hops.IsChain Seen.Next
  taped : ∀ s ∈ hops, tape[s.place]? = some (.hop s.item)
  valid : ∀ s ∈ hops, startOf (tape.take s.place) + windowSamples ≤ s.item.end_
  scored : ∀ s ∈ hops, s.result ≠ .error
  short : ∀ pre run post, hops = pre ++ run ++ post → (∀ s ∈ run, s.result = .unscored) →
    run.length < clearAfterUnscored

/-- The scores are those of the last scored hops, in one stretch. -/
def Contiguous (tape : List Mark) (seen : List Seen) (scores : List ScoreEntry) : Prop :=
  ∃ before hops, seen = before ++ hops ∧ hops.filterMap Seen.entry = scores ∧ Stretch tape hops

namespace Stretch

variable {tape tape' : List Mark} {hops : List Seen} {s : Seen}

theorem nil (tape : List Mark) : Stretch tape [] where
  next := .nil
  taped := fun _ h => absurd h List.not_mem_nil
  valid := fun _ h => absurd h List.not_mem_nil
  scored := fun _ h => absurd h List.not_mem_nil
  short := fun pre run post h _ => by
    have hrun : run = [] := by
      obtain ⟨hpre, -⟩ := List.append_eq_nil_iff.mp h.symm
      exact (List.append_eq_nil_iff.mp hpre).2
    rw [hrun]
    exact Nat.zero_lt_succ _

/-- A longer tape says the same. -/
theorem grow (h : Stretch tape hops) (m : Mark) : Stretch (tape ++ [m]) hops where
  next := h.next
  taped := fun s hs => by
    have ht := h.taped s hs
    obtain ⟨hlt, -⟩ := List.getElem?_eq_some_iff.mp ht
    rw [List.getElem?_append_left hlt]
    exact ht
  valid := fun s hs => by
    obtain ⟨hlt, -⟩ := List.getElem?_eq_some_iff.mp (h.taped s hs)
    rw [List.take_append_of_le_length hlt.le]
    exact h.valid s hs
  scored := h.scored
  short := h.short

/-- The end of a stretch is one. -/
theorem drop (h : Stretch tape hops) {pre rest : List Seen} (heq : hops = pre ++ rest) :
    Stretch tape rest where
  next := (heq ▸ h.next).right_of_append
  taped := fun s hs => h.taped s (heq ▸ List.mem_append_right pre hs)
  valid := fun s hs => h.valid s (heq ▸ List.mem_append_right pre hs)
  scored := fun s hs => h.scored s (heq ▸ List.mem_append_right pre hs)
  short := fun pre' run post hsplit hrun => by
    refine h.short (pre ++ pre') run post ?_ hrun
    rw [heq, hsplit, List.append_assoc, List.append_assoc, List.append_assoc]

/-- One more hop right after the last. -/
theorem concat (h : Stretch tape hops) (hnext : ∀ l ∈ hops.getLast?, l.Next s)
    (htaped : tape[s.place]? = some (.hop s.item))
    (hvalid : startOf (tape.take s.place) + windowSamples ≤ s.item.end_)
    (hresult : s.result ≠ .error)
    (hshort : ∀ pre run, hops = pre ++ run → (∀ t ∈ run ++ [s], t.result = .unscored) →
      run.length + 1 < clearAfterUnscored) : Stretch tape (hops ++ [s]) where
  next := by
    refine h.next.append (.singleton s) fun l hl t ht => ?_
    obtain rfl : s = t := Option.some.inj ht
    exact hnext l hl
  taped := fun t ht => by
    rcases List.mem_append.mp ht with ht | ht
    · exact h.taped t ht
    · rw [List.mem_singleton.mp ht]
      exact htaped
  valid := fun t ht => by
    rcases List.mem_append.mp ht with ht | ht
    · exact h.valid t ht
    · rw [List.mem_singleton.mp ht]
      exact hvalid
  scored := fun t ht => by
    rcases List.mem_append.mp ht with ht | ht
    · exact h.scored t ht
    · rw [List.mem_singleton.mp ht]
      exact hresult
  short := fun pre run post hsplit hrun => by
    rcases List.eq_nil_or_concat post with rfl | ⟨post, t, rfl⟩
    · rw [List.append_nil] at hsplit
      rcases List.eq_nil_or_concat run with rfl | ⟨run, t, rfl⟩
      · exact Nat.zero_lt_succ _
      · rw [List.concat_eq_append, ← List.append_assoc] at hsplit
        obtain ⟨hhops, ht⟩ := List.append_inj' hsplit rfl
        obtain rfl : s = t := List.singleton_inj.mp ht
        rw [List.concat_eq_append] at hrun ⊢
        rw [List.length_append, List.length_singleton]
        exact hshort pre run hhops hrun
    · rw [List.concat_eq_append, ← List.append_assoc] at hsplit
      exact h.short pre run post (List.append_inj' hsplit rfl).1 hrun

end Stretch

/-- The scores without the oldest are those of an end of the hops. -/
theorem exists_drop_entry {hops : List Seen} {s : ScoreEntry} {scores : List ScoreEntry}
    (h : hops.filterMap Seen.entry = s :: scores) :
    ∃ pre rest, hops = pre ++ rest ∧ rest.filterMap Seen.entry = scores := by
  induction hops with
  | nil => cases h
  | cons hop hops ih =>
      cases he : hop.entry with
      | none =>
          rw [List.filterMap_cons_none he] at h
          obtain ⟨pre, rest, rfl, hrest⟩ := ih h
          exact ⟨hop :: pre, rest, rfl, hrest⟩
      | some e =>
          rw [List.filterMap_cons_some he] at h
          exact ⟨[hop], hops, rfl, (List.cons.inj h).2⟩

/-! ### The history under one input -/

namespace Core

variable {c : Core}

/-- A scored hop pushes its score. -/
theorem scoredHop_history (c : Core) (it : HopItem) (raw : ℚ) (now : ℤ) (sound : Bool) (m : Model) :
    (c.scoredHop it raw now sound m).scores = push c.scores { end_ := it.end_, raw } ∧
      (c.scoredHop it raw now sound m).unscored = 0 ∧
      (c.scoredHop it raw now sound m).model.isSome = c.model.isSome := by
  let r : HopRecord :=
    { end_ := it.end_, raw, smoothed := meanOf (push c.scores { end_ := it.end_, raw })
      scored := true, profile := it.profile }
  let c' : Core :=
    { c with unscored := 0, scores := push c.scores { end_ := it.end_, raw } }.appendRecord r
  have hsame := ((SameHistory.candidateHop c' it raw r.smoothed now sound m).trans
    (.closeBelow _)).trans (.nearHop _ it r.smoothed now)
  exact ⟨hsame.scores, hsame.unscored, hsame.model⟩

/-- What the history becomes with a hop. -/
theorem step_hop_history (c : Core) (it : HopItem) (result : ScoreResult) (now : ℤ) (sound : Bool) :
    (c.model = none ∧ c.step (.hop it result now sound) = c) ∨
      c.model.isSome = true ∧ (c.step (.hop it result now sound)).model.isSome = true ∧
      (((c.step (.hop it result now sound)).scores = [] ∧
          (c.step (.hop it result now sound)).unscored = 0) ∨
        (result = .unscored ∧ c.unscored + 1 < clearAfterUnscored ∧
          (c.step (.hop it result now sound)).scores = c.scores ∧
          (c.step (.hop it result now sound)).unscored = c.unscored + 1) ∨
        ∃ raw, result = .scored raw ∧
          (c.step (.hop it result now sound)).scores = push c.scores { end_ := it.end_, raw } ∧
          (c.step (.hop it result now sound)).unscored = 0) := by
  change _ ∧ c.score it result now sound = c ∨ _ ∧ (c.score it result now sound).model.isSome = _ ∧
    (((c.score it result now sound).scores = [] ∧ (c.score it result now sound).unscored = 0) ∨
      (_ ∧ _ ∧ (c.score it result now sound).scores = _ ∧
        (c.score it result now sound).unscored = _) ∨
      ∃ raw, _ ∧ (c.score it result now sound).scores = push c.scores { end_ := it.end_, raw } ∧
        (c.score it result now sound).unscored = 0)
  unfold Core.score
  cases hm : c.model with
  | none => exact .inl ⟨rfl, rfl⟩
  | some m =>
      refine .inr ⟨rfl, ?_⟩
      cases result with
      | error =>
          have hmodel := (SameHistory.closeCandidate c .gap).trans (.endNearMiss _ .gap)
          exact ⟨hmodel.model.trans (congrArg Option.isSome hm), .inl ⟨rfl, rfl⟩⟩
      | unscored =>
          dsimp only
          unfold unscoredHop
          dsimp only
          by_cases hclear : clearAfterUnscored ≤ c.unscored + 1
          · rw [if_pos hclear]
            exact ⟨congrArg Option.isSome hm, .inl ⟨rfl, rfl⟩⟩
          · rw [if_neg hclear]
            by_cases hne : c.scores ≠ []
            · rw [if_pos hne]
              exact ⟨congrArg Option.isSome hm, .inr (.inl ⟨rfl, not_le.mp hclear, rfl, rfl⟩)⟩
            · rw [if_neg hne]
              exact ⟨congrArg Option.isSome hm, .inr (.inl ⟨rfl, not_le.mp hclear, rfl, rfl⟩)⟩
      | scored raw =>
          obtain ⟨hscores, hunscored, hmodel⟩ := c.scoredHop_history it raw now sound m
          exact ⟨hmodel.trans (congrArg Option.isSome hm), .inr (.inr ⟨raw, rfl, hscores, hunscored⟩)⟩

/-- A control that clears leaves no scores; the others leave the history alone. -/
theorem step_control_history (c : Core) (k : Control) :
    (k.clears = true → (c.step k.input).scores = []) ∧
      (k.clears = false → SameHistory c (c.step k.input)) := by
  cases k with
  | reset => exact ⟨fun _ => rfl, fun h => by cases h⟩
  | mute => exact ⟨fun _ => rfl, fun h => by cases h⟩
  | model m => exact ⟨fun _ => rfl, fun h => by cases h⟩
  | unavailable => exact ⟨fun _ => rfl, fun h => by cases h⟩
  | policy p =>
      refine ⟨fun h => absurd h Bool.false_ne_true, fun _ => ?_⟩
      change SameHistory c (if c.candidate.isSome then { c with pending := some p }
        else c.applyPolicy p)
      by_cases hopen : c.candidate.isSome = true
      · rw [if_pos hopen]
        exact ⟨rfl, rfl, rfl, rfl, rfl⟩
      · rw [if_neg hopen]
        exact .applyPolicy c p

end Core

/-! ### Hops in line -/

/-- The hops of the queue follow one another on the tape, from the place before the first on; a gap
item starts anew. After the last of them `P` holds of its place. -/
def Linked (P : ℕ → Prop) : Option ℕ → List Item → Prop
  | last, [] => ∀ x ∈ last, P x
  | _, .gap :: rest => Linked P none rest
  | last, .hop _ _ place :: rest => (∀ x ∈ last, place = x + 1) ∧ Linked P (some place) rest

section

variable {P P' : ℕ → Prop} {last : Option ℕ} {queue : List Item}

theorem Linked.anew (h : Linked P last queue) : Linked P none queue := by
  cases queue with
  | nil => exact fun x hx => absurd hx (Option.not_mem_none x)
  | cons item rest =>
      cases item with
      | gap => exact h
      | hop it slot place => exact ⟨fun x hx => absurd hx (Option.not_mem_none x), h.2⟩

theorem Linked.mono (h : Linked P last queue) (hP : ∀ x, P x → P' x) : Linked P' last queue := by
  induction queue generalizing last with
  | nil => exact fun x hx => hP x (h x hx)
  | cons item rest ih =>
      cases item with
      | gap => exact ih h
      | hop it slot place => exact ⟨h.1, ih h.2⟩

/-- What is dropped counts as a break. -/
theorem Linked.dropHop (h : Linked P none queue) : Linked P none (dropHop queue) := by
  induction queue with
  | nil => exact h
  | cons item rest ih =>
      cases item with
      | gap => exact ih h
      | hop it slot place => exact h.2.anew

/-- Behind a gap at the end everything is new. -/
theorem Linked.gap (h : Linked P last queue) : Linked P' last (queue ++ [.gap]) := by
  induction queue generalizing last with
  | nil => exact fun x hx => absurd hx (Option.not_mem_none x)
  | cons item rest ih =>
      cases item with
      | gap => exact ih h
      | hop it slot place => exact ⟨h.1, ih h.2⟩

theorem Linked.of_gap (h : Linked P last queue) (hgap : queue.getLast? = some .gap) :
    Linked P' last queue := by
  obtain ⟨pre, item, rfl⟩ := (List.eq_nil_or_concat queue).resolve_left (by
    rintro rfl
    cases hgap)
  rw [List.concat_eq_append, List.getLast?_append] at hgap
  obtain rfl : item = .gap := Option.some.inj hgap
  rw [List.concat_eq_append] at h ⊢
  induction pre generalizing last with
  | nil => exact fun x hx => absurd hx (Option.not_mem_none x)
  | cons item rest ih =>
      cases item with
      | gap => exact ih h rfl
      | hop it slot place => exact ⟨h.1, ih h.2 rfl⟩

/-- A hop right behind the last. -/
theorem Linked.hop (h : Linked P last queue) {it : HopItem} {slot : Slot} {place : ℕ}
    (hplace : ∀ x, P x → place = x + 1) (hP : P' place) :
    Linked P' last (queue ++ [.hop it slot place]) := by
  induction queue generalizing last with
  | nil =>
      refine ⟨fun x hx => hplace x (h x hx), fun x hx => ?_⟩
      obtain rfl := Option.some.inj hx
      exact hP
  | cons item rest ih =>
      cases item with
      | gap => exact ih h
      | hop it slot place => exact ⟨h.1, ih h.2⟩

end

/-! ### The tape -/

/-- What the tape says of the history for capture, and of hops next to each other. -/
structure Taped (g : Ingest) (tape : List Mark) : Prop where
  start : g.validFrom = startOf tape
  last : ∀ it, tape.getLast? = some (.hop it) →
    g.nextHop = it.end_ + hopSamples ∧ g.epoch = it.epoch ∧ g.listens = true ∧
      g.validFrom + windowSamples ≤ it.end_
  next : ∀ i x y, tape[i]? = some (.hop x) → tape[i + 1]? = some (.hop y) →
    y.epoch = x.epoch ∧ y.end_ = x.end_ + hopSamples
  valid : ∀ i x, tape[i]? = some (.hop x) → startOf (tape.take i) + windowSamples ≤ x.end_

namespace Taped

variable {g g' : Ingest} {tape : List Mark}

theorem startOf_concat (tape : List Mark) (m : Mark) :
    startOf (tape ++ [m]) = match m with
      | .hop _ => startOf tape
      | .missing to_ => to_
      | .restart at_ => at_ := List.foldl_append

/-- One more mark says nothing new of those before it. -/
theorem concat (h : Taped g tape) {m : Mark} (hstart : g'.validFrom = startOf (tape ++ [m]))
    (hlast : ∀ it, m = .hop it →
      (g'.nextHop = it.end_ + hopSamples ∧ g'.epoch = it.epoch ∧ g'.listens = true ∧
        g'.validFrom + windowSamples ≤ it.end_) ∧
      (∀ x, tape.getLast? = some (.hop x) → it.epoch = x.epoch ∧ it.end_ = x.end_ + hopSamples) ∧
      startOf tape + windowSamples ≤ it.end_) : Taped g' (tape ++ [m]) where
  start := hstart
  last := fun it hit => by
    rw [List.getLast?_append] at hit
    exact (hlast it (Option.some.inj hit)).1
  next := fun i x y hx hy => by
    obtain ⟨hlt, -⟩ := List.getElem?_eq_some_iff.mp hy
    rw [List.length_append, List.length_singleton] at hlt
    by_cases hi : i + 1 < tape.length
    · rw [List.getElem?_append_left (by omega)] at hx
      rw [List.getElem?_append_left hi] at hy
      exact h.next i x y hx hy
    · have heq : i + 1 = tape.length := by omega
      rw [List.getElem?_append_left (by omega)] at hx
      rw [heq, List.getElem?_concat_length] at hy
      refine (hlast y (Option.some.inj hy)).2.1 x ?_
      rw [List.getLast?_eq_getElem?, ← heq]
      exact hx
  valid := fun i x hx => by
    obtain ⟨hlt, -⟩ := List.getElem?_eq_some_iff.mp hx
    rw [List.length_append, List.length_singleton] at hlt
    by_cases hi : i < tape.length
    · rw [List.getElem?_append_left hi] at hx
      rw [List.take_append_of_le_length hi.le]
      exact h.valid i x hx
    · have heq : i = tape.length := by omega
      rw [heq, List.getElem?_concat_length] at hx
      rw [heq, List.take_append_of_le_length le_rfl, List.take_length]
      exact (hlast x (Option.some.inj hx)).2.2

/-- A hop of a valid window is queued at its grid point. -/
theorem hop (h : Taped g tape) (hmuted : g.muted = false) (hgrid : firstWindowEnd ≤ g.nextHop)
    (hqueues : g.queues g.nextHop = true) (profile : Profile) :
    Taped { g with nextHop := g.nextHop + hopSamples }
      (tape ++ [.hop { end_ := g.nextHop, epoch := g.epoch, profile }]) := by
  obtain ⟨henabled, hwindow⟩ := (Bool.and_eq_true _ _).mp hqueues
  have hvalid : g.validFrom + windowSamples ≤ g.nextHop := by
    have hnot := of_decide_eq_false ((Bool.not_eq_true' _).mp hwindow)
    have hfirst : firstWindowEnd = 23040 := rfl
    have hwin : windowSamples = 22400 := rfl
    omega
  refine h.concat ?_ fun it hit => ?_
  · rw [startOf_concat]
    exact h.start
  · cases hit
    refine ⟨⟨rfl, rfl, ?_, hvalid⟩, fun x hx => ?_, h.start ▸ hvalid⟩
    · change (g.enabled && !g.muted) = true
      rw [henabled, hmuted]
      rfl
    · obtain ⟨hnext, hepoch, -⟩ := h.last x hx
      exact ⟨hepoch, hnext⟩

/-- Behind a queued hop every window is valid. -/
theorem skip (h : Taped g tape) (hqueues : g.queues g.nextHop = false) :
    Taped { g with nextHop := g.nextHop + hopSamples } tape := by
  refine ⟨h.start, fun it hit => ?_, h.next, h.valid⟩
  obtain ⟨hnext, -, hlistens, hvalid⟩ := h.last it hit
  obtain ⟨henabled, -⟩ := (Bool.and_eq_true _ _).mp hlistens
  have hwindow : decide (g.nextHop - windowSamples < g.validFrom) = false := by
    refine decide_eq_false ?_
    omega
  rw [Ingest.queues, henabled, hwindow] at hqueues
  cases hqueues

/-- A break starts the valid history anew. -/
theorem broken (h : Taped g tape) {m : Mark} (hhop : ∀ it, m ≠ .hop it)
    (hstart : g'.validFrom = startOf (tape ++ [m])) : Taped g' (tape ++ [m]) :=
  h.concat hstart fun it hit => absurd hit (hhop it)

end Taped

/-! ### The history -/

/-- The place of the last scored hop, while there are scores. -/
def lastPlace (seen : List Seen) (c : Core) : Option ℕ :=
  if c.scores = [] then none else seen.getLast?.map (·.place)

/-- The scores are in one stretch, whose unscored hops at the end are counted. -/
def History (tape : List Mark) (seen : List Seen) (c : Core) : Prop :=
  ∃ before hops, seen = before ++ hops ∧ hops.filterMap Seen.entry = c.scores ∧
    Stretch tape hops ∧
    ∀ pre run, hops = pre ++ run → (∀ s ∈ run, s.result = .unscored) → run.length ≤ c.unscored

namespace History

variable {tape : List Mark} {seen : List Seen} {c c' : Core}

theorem cleared (tape : List Mark) (seen : List Seen) (h : c.scores = []) :
    History tape seen c := by
  refine ⟨seen, [], (List.append_nil seen).symm, h.symm, .nil tape, fun pre run hsplit _ => ?_⟩
  rw [(List.append_eq_nil_iff.mp hsplit.symm).2]
  exact Nat.zero_le _

theorem same (h : History tape seen c) (hsame : Core.SameHistory c c') : History tape seen c' := by
  rw [History, hsame.scores, hsame.unscored]
  exact h

theorem grow (h : History tape seen c) (m : Mark) : History (tape ++ [m]) seen c := by
  obtain ⟨before, hops, hseen, hscores, hstretch, htrailing⟩ := h
  exact ⟨before, hops, hseen, hscores, hstretch.grow m, htrailing⟩

theorem contiguous (h : History tape seen c) : Contiguous tape seen c.scores := by
  obtain ⟨before, hops, hseen, hscores, hstretch, -⟩ := h
  exact ⟨before, hops, hseen, hscores, hstretch⟩

/-- The hop taken next comes right after the last one while there are scores. -/
theorem next {g : Ingest} (ht : Taped g tape) {before hops : List Seen} (hseen : seen = before ++ hops)
    (hstretch : Stretch tape hops) (hscores : c.scores ≠ []) {s : Seen}
    (hlast : ∀ x ∈ lastPlace seen c, s.place = x + 1)
    (htaped : tape[s.place]? = some (.hop s.item)) : ∀ l ∈ hops.getLast?, l.Next s := by
  intro l hl
  have hplace : s.place = l.place + 1 := by
    refine hlast l.place ?_
    rw [lastPlace, if_neg hscores, hseen, List.getLast?_append, Option.mem_def.mp hl]
    rfl
  have hmem := hstretch.taped l (List.mem_of_getLast? hl)
  obtain ⟨hepoch, hend⟩ := ht.next l.place l.item s.item hmem (hplace ▸ htaped)
  exact ⟨hplace, hepoch, hend⟩

/-- The hops behind the scores that a further score leaves. -/
theorem exists_push (h : History tape seen c) (e : ScoreEntry) :
    ∃ before hops, seen = before ++ hops ∧
      hops.filterMap Seen.entry ++ [e] = Core.push c.scores e ∧ Stretch tape hops ∧
      (c.scores = [] → hops = []) := by
  by_cases hnil : c.scores = []
  · refine ⟨seen, [], (List.append_nil seen).symm, ?_, .nil tape, fun _ => rfl⟩
    rw [hnil]
    rfl
  · obtain ⟨before, hops, hseen, hscores, hstretch, -⟩ := h
    unfold Core.push
    by_cases hfull : c.scores.length = smoothingWindows
    · rw [if_pos hfull]
      obtain ⟨oldest, rest, hcons⟩ := List.exists_cons_of_ne_nil hnil
      obtain ⟨pre, hops', rfl, hrest⟩ := exists_drop_entry (hscores.trans hcons)
      refine ⟨before ++ pre, hops', ?_, ?_, hstretch.drop rfl, fun h => absurd h hnil⟩
      · rw [hseen, List.append_assoc]
      · rw [hrest, hcons, List.tail_cons]
    · rw [if_neg hfull, ← hscores]
      exact ⟨before, hops, hseen, rfl, hstretch, fun h => absurd (hscores ▸ h) hnil⟩

/-- A hop right behind the last one keeps the scores in one stretch. -/
theorem hop {g : Ingest} (h : History tape seen c) (ht : Taped g tape)
    (hmodel : c.model = none → c.scores = []) {s : Seen}
    (hlast : ∀ x ∈ lastPlace seen c, s.place = x + 1)
    (htaped : tape[s.place]? = some (.hop s.item)) (now : ℤ) (sound : Bool)
    (hc' : c' = c.step (.hop s.item s.result now sound)) {seen' : List Seen}
    (hseen' : seen' = if c.model.isSome then seen ++ [s] else seen) :
    History tape seen' c' ∧ (c'.model = none → c'.scores = []) ∧
      ∀ x ∈ lastPlace seen' c', x = s.place := by
  have hnone : c'.scores = [] → ∀ x ∈ lastPlace seen' c', x = s.place := by
    intro hnil x hx
    rw [lastPlace, if_pos hnil] at hx
    cases hx
  rcases c.step_hop_history s.item s.result now sound with ⟨hm, hstep⟩ | ⟨hm, hm', hcases⟩
  · rw [hstep] at hc'
    rw [hm] at hseen'
    obtain rfl : c' = c := hc'
    exact ⟨.cleared tape seen' (hmodel hm), fun _ => hmodel hm, hnone (hmodel hm)⟩
  · rw [← hc'] at hm' hcases
    rw [hm, if_pos rfl] at hseen'
    have hsome : c'.model = none → c'.scores = [] := by
      intro hno
      rw [hno] at hm'
      cases hm'
    have hplace : ∀ x ∈ lastPlace seen' c', x = s.place := by
      intro x hx
      by_cases hnil : c'.scores = []
      · exact hnone hnil x hx
      · rw [lastPlace, if_neg hnil, hseen', List.getLast?_append] at hx
        exact (Option.some.inj hx).symm
    refine ⟨?_, hsome, hplace⟩
    have hvalid := ht.valid s.place s.item htaped
    rcases hcases with ⟨hnil, -⟩ | ⟨hresult, hshort, hscores, hcount⟩ | ⟨raw, hresult, hscores, hcount⟩
    · exact .cleared tape seen' hnil
    · by_cases hnil : c.scores = []
      · exact .cleared tape seen' (hscores.trans hnil)
      · obtain ⟨before, hops, hseen, hentries, hstretch, htrailing⟩ := h
        refine ⟨before, hops ++ [s], ?_, ?_, ?_, fun pre run hsplit hrun => ?_⟩
        · rw [hseen', hseen, List.append_assoc]
        · have hentry : s.entry = none := by rw [Seen.entry, hresult]
          rw [List.filterMap_append, hentries, hscores, List.filterMap_cons_none hentry]
          exact List.append_nil _
        · refine hstretch.concat (next ht hseen hstretch hnil hlast htaped) htaped hvalid ?_ ?_
          · rw [hresult]
            exact fun h => by cases h
          · intro pre run hsplit hrun
            have := htrailing pre run hsplit fun t ht => hrun t (List.mem_append_left _ ht)
            omega
        · rcases List.eq_nil_or_concat run with rfl | ⟨run, t, rfl⟩
          · exact Nat.zero_le _
          · rw [List.concat_eq_append, ← List.append_assoc] at hsplit
            rw [List.concat_eq_append] at hrun
            have := htrailing pre run (List.append_inj' hsplit rfl).1 fun t ht =>
              hrun t (List.mem_append_left _ ht)
            rw [List.concat_eq_append, List.length_append, List.length_singleton, hcount]
            omega
    · obtain ⟨before, hops, hseen, hpush, hstretch, hempty⟩ :=
        h.exists_push { end_ := s.item.end_, raw }
      have hentry : s.entry = some { end_ := s.item.end_, raw } := by rw [Seen.entry, hresult]
      refine ⟨before, hops ++ [s], ?_, ?_, ?_, fun pre run hsplit hrun => ?_⟩
      · rw [hseen', hseen, List.append_assoc]
      · rw [List.filterMap_append, List.filterMap_cons_some hentry, hscores, ← hpush]
        rfl
      · refine hstretch.concat ?_ htaped hvalid ?_ ?_
        · by_cases hnil : c.scores = []
          · rw [hempty hnil]
            exact fun l hl => by cases hl
          · exact next ht hseen hstretch hnil hlast htaped
        · rw [hresult]
          exact fun h => by cases h
        · intro pre run _ hrun
          have hs := hrun s (List.mem_append_right _ (List.mem_singleton_self s))
          rw [hresult] at hs
          cases hs
      · rcases List.eq_nil_or_concat run with rfl | ⟨run, t, rfl⟩
        · exact Nat.zero_le _
        · rw [List.concat_eq_append] at hsplit hrun
          rw [← List.append_assoc] at hsplit
          obtain rfl : s = t := List.singleton_inj.mp (List.append_inj' hsplit rfl).2
          have hs := hrun s (List.mem_append_right _ (List.mem_singleton_self s))
          rw [hresult] at hs
          cases hs

end History

end EchoMuse.Wake
