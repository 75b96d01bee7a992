import EchoMuse.Wake.Spacing
import Mathlib.Data.List.Pairwise
import Mathlib.Data.List.TakeWhile

/-!
# What Becomes of an Episode

An episode that closed has either met a live candidate, or a live candidate opened while it waited,
or its hold ran out at a hop that reached the rules, or it still waits. The log of a rule says which,
and says it once.

## Main results

* `Fated.expireHeld`, `Fated.retryHeld`, `Fated.shadowHop`: what a hop settles it settles once;
* `Timed.expireHeld`, `Struck.shadowHop`: and at the right time.
-/

namespace EchoMuse.Wake

/-- Two entries, one after the other, of a list in two parts. -/
theorem pair_sublist_append {α : Type*} {a b : α} {l r : List α} :
    [a, b].Sublist (l ++ r) ↔ [a, b].Sublist l ∨ (a ∈ l ∧ b ∈ r) ∨ [a, b].Sublist r := by
  constructor
  · intro h
    obtain ⟨l₁, l₂, heq, hl, hr⟩ := List.sublist_append_iff.mp h
    match l₁, heq with
    | [], heq =>
        obtain rfl : [a, b] = l₂ := heq
        exact .inr (.inr hr)
    | [x], heq =>
        obtain ⟨rfl, rfl⟩ := List.cons.inj heq
        exact .inr (.inl ⟨List.singleton_sublist.mp hl, List.singleton_sublist.mp hr⟩)
    | [x, y], heq =>
        obtain ⟨rfl, hrest⟩ := List.cons.inj heq
        obtain ⟨rfl, -⟩ := List.cons.inj hrest
        exact .inl hl
    | x :: y :: z :: rest, heq => exact absurd (congrArg List.length heq) (by simp)
  · rintro (h | ⟨ha, hb⟩ | h)
    · exact h.trans (List.sublist_append_left l r)
    · exact (List.singleton_sublist.mpr ha).append (List.singleton_sublist.mpr hb)
    · exact h.trans (List.sublist_append_right l r)

/-- What two notes of a list have in common when the list names it once. -/
theorem eq_of_nodup_filterMap {α β : Type*} {f : α → Option β} {l : List α} {a b : α} {o : β}
    (h : (l.filterMap f).Nodup) (ha : a ∈ l) (hb : b ∈ l) (hfa : f a = some o) (hfb : f b = some o) :
    a = b := by
  by_contra hne
  have hpair := List.pairwise_filterMap.mp h
  have hsymm : Std.Symm fun x y => ∀ o₁, f x = some o₁ → ∀ o₂, f y = some o₂ → o₁ ≠ o₂ :=
    ⟨fun _ _ hxy o₁ h₁ o₂ h₂ => (hxy o₂ h₂ o₁ h₁).symm⟩
  exact hpair.forall ha hb hne o hfa o hfb rfl

/-- A hop at which the hold of an episode has run out: another epoch, or later. -/
def Opening.Over (o : Opening) (it : HopItem) : Prop :=
  it.epoch ≠ o.epoch ∨ o.sample + shadowHoldSamples ≤ it.end_

/-- A hop within the hold of an episode. -/
def Opening.InTime (o : Opening) (it : HopItem) : Prop :=
  it.epoch = o.epoch ∧ o.sample ≤ it.end_ ∧ it.end_ < o.sample + shadowHoldSamples

theorem expired_iff {it : HopItem} {ep : ShadowEpisode} :
    ShadowRule.expired it ep = true ↔ ep.opening.Over it := by
  have hpos : 0 < shadowHoldSamples := by decide
  rw [ShadowRule.expired, Bool.or_eq_true, decide_eq_true_iff, decide_eq_true_iff, Opening.Over]
  have hend : shadowHoldSamples ≤ it.end_ - ep.openSample ↔
      ep.opening.sample + shadowHoldSamples ≤ it.end_ := by
    change shadowHoldSamples ≤ it.end_ - ep.openSample ↔ ep.openSample + shadowHoldSamples ≤ it.end_
    omega
  rw [hend]
  exact or_congr_left ne_comm

/-- How an episode that waits is settled. -/
inductive Fate
  | unmatched | retried | dropped

namespace RuleNote

/-- A note of a hop itself. -/
def isHop : RuleNote → Bool
  | reached _ | live _ => true
  | _ => false

/-- A note that neither closes nor settles an episode. -/
def isPlain : RuleNote → Bool
  | opened _ | abandoned _ _ | ended _ _ | liveOnly _ | window _ => true
  | _ => false

theorem names_none_of_isHop {n : RuleNote} (h : n.isHop = true) :
    n.opening? = none ∧ n.opened? = none ∧ n.settled? = none := by
  cases n with
  | reached it => exact ⟨rfl, rfl, rfl⟩
  | live it => exact ⟨rfl, rfl, rfl⟩
  | _ => exact absurd h Bool.false_ne_true

theorem opening?_of_settled? {n : RuleNote} {o : Opening} (h : n.settled? = some o) :
    n.opening? = some o := by
  cases n <;> first | exact h | exact absurd h (Option.some_ne_none o).symm

theorem opening?_of_opened? {n : RuleNote} {o : Opening} (h : n.opened? = some o) :
    n.opening? = some o := by
  cases n <;> first | exact h | exact absurd h (Option.some_ne_none o).symm

end RuleNote

namespace Fate

def note (o : Opening) : Fate → RuleNote
  | unmatched => .unmatched o
  | retried => .retried o
  | dropped => .dropped o

/-- What a log shows for it. -/
def Cause (log : List RuleNote) (o : Opening) : Fate → Prop
  | unmatched => ∃ it, [.closed o, .reached it].Sublist log ∧ o.Over it
  | retried => ∃ it, .live it ∈ log ∧ o.InTime it
  | dropped => True

variable {fate fate' : Fate} {o o' : Opening}

theorem note_inj (h : note o fate = note o' fate') : fate = fate' ∧ o = o' := by
  cases fate <;> cases fate' <;> first | exact RuleNote.noConfusion h | (injection h with h; exact ⟨rfl, h⟩)

theorem opening?_note : (note o fate).opening? = some o := by cases fate <;> rfl

theorem settled?_note : (note o fate).settled? = some o := by cases fate <;> rfl

theorem opened?_note : (note o fate).opened? = none := by cases fate <;> rfl

theorem isHop_note : (note o fate).isHop = false := by cases fate <;> rfl

theorem Cause.append {log : List RuleNote} (h : Cause log o fate) (notes : List RuleNote) :
    Cause (log ++ notes) o fate := by
  cases fate with
  | unmatched =>
      obtain ⟨it, hpair, hover⟩ := h
      exact ⟨it, hpair.trans (List.sublist_append_left _ _), hover⟩
  | retried =>
      obtain ⟨it, hlive, htime⟩ := h
      exact ⟨it, List.mem_append_left _ hlive, htime⟩
  | dropped => exact h

end Fate

namespace ShadowRule

/-! ### Settled once -/

/-- What the log tells of the episodes, of which each opened at one of the hops. -/
structure Fated (hops : List HopItem) (s : ShadowRule) : Prop where
  known : ∀ n ∈ s.log, ∀ o, n.opening? = some o → ∃ h ∈ hops, o.At h
  opens : (s.log.filterMap RuleNote.opened?).Nodup
  once : (s.log.filterMap RuleNote.settled?).Nodup
  both : ∀ o, .matched o ∈ s.log ↔ ∃ candidate, .both o candidate ∈ s.log
  /-- The open episode has not closed, and is settled when it is matched. -/
  going : ∀ cur ∈ s.current, .closed cur.ep.opening ∉ s.log ∧
    (cur.matched = true → .matched cur.ep.opening ∈ s.log) ∧
    (cur.matched = false → cur.ep.opening ∉ s.log.filterMap RuleNote.settled?)
  /-- One that waits has closed, is not settled, and its hold had not run out since. -/
  waiting : ∀ ep ∈ s.held, .closed ep.opening ∈ s.log ∧
    ep.opening ∉ s.log.filterMap RuleNote.settled? ∧
    ∀ it, [.closed ep.opening, .reached it].Sublist s.log → ¬ ep.opening.Over it
  closed : ∀ o, .closed o ∈ s.log →
    o ∈ s.log.filterMap RuleNote.settled? ∨ o ∈ s.held.map ShadowEpisode.opening
  fate : ∀ (f : Fate) o, f.note o ∈ s.log → .closed o ∈ s.log ∧ f.Cause s.log o

namespace Fated

variable {hops : List HopItem} {s s' : ShadowRule} {notes : List RuleNote}

theorem new (r : OpenRule) : Fated hops { rule := r } where
  known := fun _ h => absurd h List.not_mem_nil
  opens := .nil
  once := .nil
  both := fun _ => ⟨fun h => absurd h List.not_mem_nil, fun ⟨_, h⟩ => absurd h List.not_mem_nil⟩
  going := fun _ h => absurd h (Option.not_mem_none _)
  waiting := fun _ h => absurd h List.not_mem_nil
  closed := fun _ h => absurd h List.not_mem_nil
  fate := fun _ _ h => absurd h List.not_mem_nil

/-- More hops. -/
theorem mono (h : Fated hops s) {hops' : List HopItem} (hsub : ∀ x ∈ hops, x ∈ hops') :
    Fated hops' s where
  __ := h
  known n hn o ho := by
    obtain ⟨x, hx, hat⟩ := h.known n hn o ho
    exact ⟨x, hsub x hx, hat⟩

/-- An entry that the notes added do not have. -/
theorem mem_iff {n : RuleNote} (hlog : s'.log = s.log ++ notes) (h : n ∉ notes) :
    n ∈ s'.log ↔ n ∈ s.log := by
  rw [hlog, List.mem_append]
  exact or_iff_left h

/-- A pair of entries of which the notes added have at most the later one. -/
theorem pair_iff {a b : RuleNote} (hlog : s'.log = s.log ++ notes) (h : a ∉ notes) :
    [a, b].Sublist s'.log ↔ [a, b].Sublist s.log ∨ (a ∈ s.log ∧ b ∈ notes) := by
  rw [hlog, pair_sublist_append]
  refine or_congr_right (or_iff_left fun hpair => h (hpair.subset List.mem_cons_self))

/-- Where a note added by `resolve` comes from. -/
theorem mem_resolved {n : RuleNote} {fate : Fate} {lead : List RuleNote} {gone : List ShadowEpisode}
    (hlead : ∀ n ∈ lead, n.isHop = true)
    (hn : n ∈ lead ++ gone.map fun ep => fate.note ep.opening) :
    n.isHop = true ∨ ∃ ep ∈ gone, n = fate.note ep.opening := by
  rcases List.mem_append.mp hn with hl | hg
  · exact .inl (hlead n hl)
  · obtain ⟨ep, hep, rfl⟩ := List.mem_map.mp hg
    exact .inr ⟨ep, hep, rfl⟩

/-- **Some of those that wait are settled**, after notes of the hop. -/
theorem resolve (h : Fated hops s) (fate : Fate) (lead : List RuleNote) (gone : List ShadowEpisode)
    (hlog : s'.log = s.log ++ (lead ++ gone.map fun ep => fate.note ep.opening))
    (hheld : s.held = gone ++ s'.held) (hcurrent : s'.current = s.current)
    (hlead : ∀ n ∈ lead, n.isHop = true) (hnodup : s.openings.Nodup)
    (hkept : ∀ it, .reached it ∈ lead → ∀ ep ∈ s'.held, ¬ ep.opening.Over it)
    (hcause : ∀ ep ∈ gone, fate.Cause s'.log ep.opening) : Fated hops s' := by
  have hgone : ∀ ep ∈ gone, ep ∈ s.held := fun ep hep => hheld ▸ List.mem_append_left _ hep
  have hkeep : ∀ ep ∈ s'.held, ep ∈ s.held := fun ep hep => hheld ▸ List.mem_append_right _ hep
  rw [openings, hheld, List.map_append] at hnodup
  obtain ⟨hheldNodup, -, hcur⟩ := List.nodup_append'.mp hnodup
  obtain ⟨hgoneNodup, -, hapart⟩ := List.nodup_append'.mp hheldNodup
  have hother : ∀ n : RuleNote, n.isHop = false → (∀ o, n ≠ fate.note o) →
      n ∉ lead ++ gone.map fun ep => fate.note ep.opening := by
    intro n hhop hfate hn
    rcases mem_resolved hlead hn with hl | ⟨ep, -, heq⟩
    · exact Bool.false_ne_true (hhop.symm.trans hl)
    · exact hfate _ heq
  have hclosed : ∀ o, RuleNote.closed o ∉ lead ++ gone.map fun ep => fate.note ep.opening :=
    fun o => hother _ rfl fun _ => by cases fate <;> exact RuleNote.noConfusion
  have hold : ∀ n ∈ s.log, n ∈ s'.log := fun n hn => hlog ▸ List.mem_append_left _ hn
  have hsettled : s'.log.filterMap RuleNote.settled? =
      s.log.filterMap RuleNote.settled? ++ gone.map ShadowEpisode.opening := by
    have hfates : RuleNote.settled? ∘ (fun ep : ShadowEpisode => fate.note ep.opening) =
        some ∘ ShadowEpisode.opening := funext fun ep => Fate.settled?_note
    rw [hlog, List.filterMap_append, List.filterMap_append, List.filterMap_eq_nil_iff.mpr fun n hn =>
      (RuleNote.names_none_of_isHop (hlead n hn)).2.2, List.nil_append, List.filterMap_map, hfates,
      List.filterMap_eq_map]
  refine ⟨fun n hn o ho => ?known, ?opens, ?once, fun o => ?meets, fun cur hc => ?going,
    fun ep hep => ?waiting, fun o ho => ?closes, fun f o ho => ?fate⟩
  case known =>
    rw [hlog] at hn
    rcases List.mem_append.mp hn with hs | hn
    · exact h.known n hs o ho
    · rcases mem_resolved hlead hn with hl | ⟨ep, hep, rfl⟩
      · rw [(RuleNote.names_none_of_isHop hl).1] at ho
        exact absurd ho (Option.some_ne_none o).symm
      · rw [Fate.opening?_note] at ho
        exact h.known _ (h.waiting ep (hgone ep hep)).1 o ho
  case opens =>
    have hnil : (lead ++ gone.map fun ep => fate.note ep.opening).filterMap RuleNote.opened? = [] := by
      refine List.filterMap_eq_nil_iff.mpr fun n hn => ?_
      rcases mem_resolved hlead hn with hl | ⟨ep, hep, rfl⟩
      · exact (RuleNote.names_none_of_isHop hl).2.1
      · exact Fate.opened?_note
    rw [hlog, List.filterMap_append, hnil, List.append_nil]
    exact h.opens
  case once =>
    rw [hsettled]
    refine List.nodup_append'.mpr ⟨h.once, hgoneNodup, fun o ho hg => ?_⟩
    obtain ⟨ep, hep, rfl⟩ := List.mem_map.mp hg
    exact (h.waiting ep (hgone ep hep)).2.1 ho
  case meets =>
    rw [mem_iff hlog (hother _ rfl fun _ => by cases fate <;> exact RuleNote.noConfusion), h.both]
    exact exists_congr fun candidate => (mem_iff hlog (hother _ rfl fun _ => by
      cases fate <;> exact RuleNote.noConfusion)).symm
  case going =>
    rw [hcurrent] at hc
    obtain ⟨hnot, hmatched, hunmatched⟩ := h.going cur hc
    refine ⟨mt (mem_iff hlog (hclosed _)).mp hnot, fun hm => hold _ (hmatched hm), fun hm ho => ?_⟩
    rw [hsettled] at ho
    rcases List.mem_append.mp ho with hs | hg
    · exact hunmatched hm hs
    · refine hcur (List.mem_append_left _ hg) (List.mem_map.mpr ⟨cur, ?_, rfl⟩)
      exact Option.mem_toList.mpr hc
  case waiting =>
    obtain ⟨hc, hnot, hover⟩ := h.waiting ep (hkeep ep hep)
    refine ⟨hold _ hc, fun ho => ?_, fun it hpair => ?_⟩
    · rw [hsettled] at ho
      rcases List.mem_append.mp ho with hs | hg
      · exact hnot hs
      · exact hapart hg (List.mem_map_of_mem hep)
    · rcases (pair_iff hlog (hclosed _)).mp hpair with hpair | ⟨-, hreached⟩
      · exact hover it hpair
      · rcases List.mem_append.mp hreached with hl | hg
        · exact hkept it hl ep hep
        · obtain ⟨x, -, heq⟩ := List.mem_map.mp hg
          cases fate <;> exact RuleNote.noConfusion heq
  case closes =>
    rw [hsettled]
    rcases h.closed o ((mem_iff hlog (hclosed o)).mp ho) with hs | hw
    · exact .inl (List.mem_append_left _ hs)
    · rw [hheld, List.map_append] at hw
      exact (List.mem_append.mp hw).imp_left (List.mem_append_right _)
  case fate =>
    rw [hlog] at ho
    rcases List.mem_append.mp ho with hs | hn
    · obtain ⟨hc, hshows⟩ := h.fate f o hs
      exact ⟨hold _ hc, hlog ▸ hshows.append _⟩
    · rcases mem_resolved hlead hn with hl | ⟨ep, hep, heq⟩
      · rw [Fate.isHop_note] at hl
        exact absurd hl Bool.false_ne_true
      · obtain ⟨rfl, rfl⟩ := Fate.note_inj heq
        exact ⟨hold _ (h.waiting ep (hgone ep hep)).1, hcause ep hep⟩

/-- **Notes that neither close nor settle an episode.** -/
theorem append (h : Fated hops s) (hlog : s'.log = s.log ++ notes)
    (hplain : ∀ n ∈ notes, n.isPlain = true) (hheld : s'.held = s.held)
    (hknown : ∀ n ∈ notes, ∀ o, n.opening? = some o → ∃ h ∈ hops, o.At h)
    (hopens : (s'.log.filterMap RuleNote.opened?).Nodup)
    (hgoing : ∀ cur ∈ s'.current, .closed cur.ep.opening ∉ s.log ∧
      (cur.matched = true → .matched cur.ep.opening ∈ s.log) ∧
      (cur.matched = false → cur.ep.opening ∉ s.log.filterMap RuleNote.settled?)) :
    Fated hops s' := by
  have hother : ∀ n : RuleNote, n.isPlain = false → n ∉ notes := fun n hn hmem =>
    Bool.false_ne_true (hn.symm.trans (hplain n hmem))
  have hsettled : s'.log.filterMap RuleNote.settled? = s.log.filterMap RuleNote.settled? := by
    have hnil : notes.filterMap RuleNote.settled? = [] := by
      refine List.filterMap_eq_nil_iff.mpr fun n hn => ?_
      have := hplain n hn
      cases n <;> first | rfl | exact absurd this Bool.false_ne_true
    rw [hlog, List.filterMap_append, hnil, List.append_nil]
  refine ⟨fun n hn o ho => ?known, hopens, hsettled ▸ h.once, fun o => ?meets, fun cur hc => ?going,
    fun ep hep => ?waiting, fun o ho => ?closes, fun f o ho => ?fate⟩
  case known =>
    rw [hlog] at hn
    rcases List.mem_append.mp hn with hs | hn
    · exact h.known n hs o ho
    · exact hknown n hn o ho
  case meets =>
    rw [mem_iff hlog (hother _ rfl), h.both]
    exact exists_congr fun candidate => (mem_iff hlog (hother _ rfl)).symm
  case going =>
    rw [mem_iff hlog (hother _ rfl), mem_iff hlog (hother _ rfl), hsettled]
    exact hgoing cur hc
  case waiting =>
    rw [hheld] at hep
    obtain ⟨hc, hnot, hover⟩ := h.waiting ep hep
    rw [mem_iff hlog (hother _ rfl), hsettled]
    refine ⟨hc, hnot, fun it hpair => ?_⟩
    rcases (pair_iff hlog (hother _ rfl)).mp hpair with hpair | ⟨-, hreached⟩
    · exact hover it hpair
    · exact absurd hreached (hother _ rfl)
  case closes =>
    rw [hsettled, hheld]
    exact h.closed o ((mem_iff hlog (hother _ rfl)).mp ho)
  case fate =>
    rw [mem_iff hlog (hother _ (by cases f <;> rfl))] at ho
    rw [mem_iff hlog (hother _ rfl), hlog]
    obtain ⟨hc, hshows⟩ := h.fate f o ho
    exact ⟨hc, hshows.append notes⟩

/-- **An episode opens** at a hop after those before. -/
theorem opened (h : Fated hops s) {it : HopItem} {cur : OpenEpisode}
    (hlog : s'.log = s.log ++ [.opened cur.ep.opening]) (hheld : s'.held = s.held)
    (hcurrent : s'.current = some cur) (hat : cur.ep.opening.At it)
    (hfresh : ∀ x ∈ hops, ¬ cur.ep.opening.At x) (hmatched : cur.matched = false) :
    Fated (hops ++ [it]) s' := by
  have hunknown : ∀ n ∈ s.log, n.opening? ≠ some cur.ep.opening := by
    intro n hn ho
    obtain ⟨x, hx, hatx⟩ := h.known n hn _ ho
    exact hfresh x hx hatx
  refine (h.mono fun x hx => List.mem_append_left [it] hx).append hlog ?_ hheld ?_ ?_ ?_
  · intro n hn
    rw [List.mem_singleton.mp hn]
    rfl
  · intro n hn o ho
    rw [List.mem_singleton.mp hn] at ho
    rw [← Option.some.inj ho]
    exact ⟨it, List.mem_append_right _ (List.mem_singleton_self it), hat⟩
  · rw [hlog, List.filterMap_append]
    refine List.nodup_append'.mpr ⟨h.opens, List.nodup_singleton _, fun o ho hnew => ?_⟩
    obtain ⟨n, hn, hopened⟩ := List.mem_filterMap.mp ho
    rw [List.mem_singleton.mp hnew] at hopened
    exact hunknown n hn (RuleNote.opening?_of_opened? hopened)
  · intro x hx
    rw [hcurrent] at hx
    rw [← Option.some.inj hx, hmatched]
    refine ⟨fun hc => hunknown _ hc rfl, fun hm => absurd hm Bool.false_ne_true, fun _ ho => ?_⟩
    obtain ⟨n, hn, hs⟩ := List.mem_filterMap.mp ho
    exact hunknown n hn (RuleNote.opening?_of_settled? hs)

/-- **The open episode meets a live candidate**, if there is one. -/
theorem meet (h : Fated hops s) {cur : OpenEpisode} {live : Option CandidateState}
    (hcur : s.current = some cur) (hlog : s'.log = s.log ++ meetNotes cur live)
    (hheld : s'.held = s.held)
    (hcurrent : s'.current = some { cur with matched := live.isSome || cur.matched })
    (hat : ∃ x ∈ hops, cur.ep.opening.At x)
    (hapart : cur.ep.opening ∉ s.held.map ShadowEpisode.opening) : Fated hops s' := by
  obtain ⟨hopen, hmatched, hunmatched⟩ := h.going cur hcur
  cases live with
  | none =>
      have hsame : s'.log = s.log ++ [] := hlog
      refine h.append hsame (fun _ hn => absurd hn List.not_mem_nil) hheld
        (fun _ hn => absurd hn List.not_mem_nil) ?_ ?_
      · rw [hsame, List.append_nil]
        exact h.opens
      · have hsame : s'.current = s.current := hcurrent.trans hcur.symm
        rw [hsame]
        exact h.going
  | some cs =>
      have hnotes : ∀ n ∈ meetNotes cur (some cs), n = .both cur.ep.opening cs.id ∨
          (n = .matched cur.ep.opening ∧ cur.matched = false) := by
        intro n hn
        obtain ⟨x, hx, hcases⟩ := mem_meetNotes hn
        rwa [← Option.some.inj hx] at hcases
      have hold : ∀ n ∈ s.log, n ∈ s'.log := fun n hn => hlog ▸ List.mem_append_left _ hn
      have hboth : .both cur.ep.opening cs.id ∈ s'.log := by
        rw [hlog, meetNotes]
        exact List.mem_append_right _ (List.mem_append_right _ (List.mem_singleton_self _))
      have hnow : .matched cur.ep.opening ∈ s'.log := by
        cases hm : cur.matched with
        | true => exact hold _ (hmatched hm)
        | false =>
            rw [hlog, meetNotes, hm]
            exact List.mem_append_right _ List.mem_cons_self
      have hother : ∀ n : RuleNote, (∀ o candidate, n ≠ .both o candidate) → (∀ o, n ≠ .matched o) →
          n ∉ meetNotes cur (some cs) := by
        intro n hb hm hn
        rcases hnotes n hn with heq | ⟨heq, -⟩
        · exact hb _ _ heq
        · exact hm _ heq
      have hclosed : ∀ o, .closed o ∉ meetNotes cur (some cs) := fun o =>
        hother _ (fun _ _ => RuleNote.noConfusion) fun _ => RuleNote.noConfusion
      -- the episode is settled now, or was
      have hsettled : (s'.log.filterMap RuleNote.settled?).Nodup ∧
          ∀ o ∈ s'.log.filterMap RuleNote.settled?,
            o ∈ s.log.filterMap RuleNote.settled? ∨ o = cur.ep.opening := by
        rw [hlog, List.filterMap_append, meetNotes]
        cases hm : cur.matched with
        | true =>
            rw [if_pos rfl, List.nil_append, List.filterMap_cons_none rfl, List.filterMap_nil,
              List.append_nil]
            exact ⟨h.once, fun o ho => .inl ho⟩
        | false =>
            change (_ ++ [cur.ep.opening]).Nodup ∧ ∀ o ∈ _ ++ [cur.ep.opening], _
            refine ⟨List.nodup_append'.mpr ⟨h.once, List.nodup_singleton _, fun o ho hnew => ?_⟩,
              fun o ho => (List.mem_append.mp ho).imp_right List.mem_singleton.mp⟩
            rw [List.mem_singleton.mp hnew] at ho
            exact hunmatched hm ho
      refine ⟨fun n hn o ho => ?known, ?opens, hsettled.1, fun o => ?meets, fun x hc => ?going,
        fun ep hep => ?waiting, fun o ho => ?closes, fun f o ho => ?fate⟩
      case known =>
        rw [hlog] at hn
        rcases List.mem_append.mp hn with hs | hn
        · exact h.known n hs o ho
        · rcases hnotes n hn with rfl | ⟨rfl, -⟩ <;> rwa [← Option.some.inj ho]
      case opens =>
        have hnil : (meetNotes cur (some cs)).filterMap RuleNote.opened? = [] := by
          refine List.filterMap_eq_nil_iff.mpr fun n hn => ?_
          rcases hnotes n hn with rfl | ⟨rfl, -⟩ <;> rfl
        rw [hlog, List.filterMap_append, hnil, List.append_nil]
        exact h.opens
      case meets =>
        by_cases ho : o = cur.ep.opening
        · rw [ho]
          exact ⟨fun _ => ⟨cs.id, hboth⟩, fun _ => hnow⟩
        · have hmine : ∀ n : RuleNote, n.opening? = some o → n ∉ meetNotes cur (some cs) := by
            intro n hn hmem
            rcases hnotes n hmem with rfl | ⟨rfl, -⟩ <;> exact ho (Option.some.inj hn).symm
          rw [mem_iff hlog (hmine _ rfl), h.both]
          exact exists_congr fun candidate => (mem_iff hlog (hmine _ rfl)).symm
      case going =>
        rw [hcurrent] at hc
        rw [← Option.some.inj hc]
        exact ⟨mt (mem_iff hlog (hclosed _)).mp hopen, fun _ => hnow,
          fun hm => absurd hm Bool.true_eq_false_eq_False.elim⟩
      case waiting =>
        rw [hheld] at hep
        obtain ⟨hc, hnot, hover⟩ := h.waiting ep hep
        refine ⟨hold _ hc, fun ho => ?_, fun it hpair => ?_⟩
        · rcases hsettled.2 _ ho with hs | heq
          · exact hnot hs
          · exact hapart (heq ▸ List.mem_map_of_mem hep)
        · rcases (pair_iff hlog (hclosed _)).mp hpair with hpair | ⟨-, hreached⟩
          · exact hover it hpair
          · exact absurd hreached (hother _ (fun _ _ => RuleNote.noConfusion) fun _ =>
              RuleNote.noConfusion)
      case closes =>
        rw [hheld]
        refine (h.closed o ((mem_iff hlog (hclosed o)).mp ho)).imp_left fun hs => ?_
        rw [hlog, List.filterMap_append]
        exact List.mem_append_left _ hs
      case fate =>
        rw [mem_iff hlog (hother _ (fun _ _ => by cases f <;> exact RuleNote.noConfusion) fun _ => by
          cases f <;> exact RuleNote.noConfusion)] at ho
        obtain ⟨hc, hshows⟩ := h.fate f o ho
        exact ⟨hold _ hc, hlog ▸ hshows.append _⟩

/-- **The open episode closes**: it waits when it was not matched. -/
theorem close (h : Fated hops s) {cur : OpenEpisode} (hcur : s.current = some cur)
    (hlog : s'.log = s.log ++ [.closed cur.ep.opening])
    (hheld : s'.held = if cur.matched then s.held else s.held ++ [cur.ep])
    (hcurrent : s'.current = none) (hat : ∃ x ∈ hops, cur.ep.opening.At x) : Fated hops s' := by
  obtain ⟨hopen, hmatched, hunmatched⟩ := h.going cur hcur
  have hother : ∀ n : RuleNote, (∀ o, n ≠ .closed o) → n ∉ [RuleNote.closed cur.ep.opening] :=
    fun n hn hmem => hn _ (List.mem_singleton.mp hmem)
  have hsettled : s'.log.filterMap RuleNote.settled? = s.log.filterMap RuleNote.settled? := by
    rw [hlog, List.filterMap_append, List.filterMap_cons_none rfl, List.filterMap_nil,
      List.append_nil]
  have hnow : .closed cur.ep.opening ∈ s'.log := by
    rw [hlog]
    exact List.mem_append_right _ (List.mem_singleton_self _)
  have hold : ∀ n ∈ s.log, n ∈ s'.log := fun n hn => hlog ▸ List.mem_append_left _ hn
  refine ⟨fun n hn o ho => ?known, ?opens, hsettled ▸ h.once, fun o => ?meets, fun x hc => ?going,
    fun ep hep => ?waiting, fun o ho => ?closes, fun f o ho => ?fate⟩
  case known =>
    rw [hlog] at hn
    rcases List.mem_append.mp hn with hs | hn
    · exact h.known n hs o ho
    · rw [List.mem_singleton.mp hn] at ho
      rwa [← Option.some.inj ho]
  case opens =>
    rw [hlog, List.filterMap_append, List.filterMap_cons_none rfl, List.filterMap_nil,
      List.append_nil]
    exact h.opens
  case meets =>
    rw [mem_iff hlog (hother _ fun _ => RuleNote.noConfusion), h.both]
    exact exists_congr fun candidate =>
      (mem_iff hlog (hother _ fun _ => RuleNote.noConfusion)).symm
  case going =>
    rw [hcurrent] at hc
    exact absurd hc (Option.not_mem_none x)
  case waiting =>
    rw [hsettled]
    -- the log has nothing after the note that it closed
    have hpairs : ∀ {o it}, [.closed o, .reached it].Sublist s'.log →
        [.closed o, .reached it].Sublist s.log := by
      intro o it hpair
      rw [hlog, pair_sublist_append] at hpair
      rcases hpair with hpair | ⟨-, hr⟩ | hpair
      · exact hpair
      · exact absurd hr (hother _ fun _ => RuleNote.noConfusion)
      · exact absurd (hpair.subset (List.mem_cons_of_mem _ (List.mem_singleton_self _)))
          (hother _ fun _ => RuleNote.noConfusion)
    have hwas : ep ∈ s.held ∨ (cur.matched = false ∧ ep = cur.ep) := by
      rw [hheld] at hep
      cases hm : cur.matched with
      | true =>
          rw [hm, if_pos rfl] at hep
          exact .inl hep
      | false =>
          rw [hm, if_neg Bool.false_ne_true] at hep
          exact (List.mem_append.mp hep).imp_right fun hnew => ⟨rfl, List.mem_singleton.mp hnew⟩
    rcases hwas with hep | ⟨hm, rfl⟩
    · obtain ⟨hc, hnot, hover⟩ := h.waiting ep hep
      exact ⟨hold _ hc, hnot, fun it hpair => hover it (hpairs hpair)⟩
    · exact ⟨hnow, hunmatched hm, fun it hpair =>
        absurd ((hpairs hpair).subset List.mem_cons_self) hopen⟩
  case closes =>
    rw [hsettled, hheld]
    rw [hlog] at ho
    rcases List.mem_append.mp ho with hs | hn
    · refine (h.closed o hs).imp_right fun hw => ?_
      split_ifs
      · exact hw
      · rw [List.map_append]
        exact List.mem_append_left _ hw
    · injection List.mem_singleton.mp hn with heq
      rw [heq]
      cases hm : cur.matched with
      | true => exact .inl (List.mem_filterMap.mpr ⟨_, hmatched hm, rfl⟩)
      | false =>
          rw [if_neg Bool.false_ne_true, List.map_append]
          exact .inr (List.mem_append_right _ (List.mem_singleton_self _))
  case fate =>
    rw [mem_iff hlog (hother _ fun _ => by cases f <;> exact RuleNote.noConfusion)] at ho
    obtain ⟨hc, hshows⟩ := h.fate f o ho
    exact ⟨hold _ hc, hlog ▸ hshows.append _⟩

theorem expireHeld (h : Fated hops s) {it : HopItem} (hnodup : s.openings.Nodup)
    (hhop : AtHop (hops ++ [it]) it (s.expireHeld it)) : Fated hops (s.expireHeld it) := by
  obtain ⟨hadds, hheld, hcurrent, -⟩ := expireHeld_spec s it
  refine h.resolve .unmatched [.reached it] _ hadds.log ?_ hcurrent ?_ hnodup ?_ ?_
  · rw [hheld]
    exact List.takeWhile_append_dropWhile.symm
  · intro n hn
    rw [List.mem_singleton.mp hn]
    rfl
  · intro it' hin ep hep hover
    injection List.mem_singleton.mp hin with heq
    subst heq
    obtain ⟨hepoch, htime, -⟩ := hhop.waiting ep hep
    rcases hover with hother | hlate
    · exact hother hepoch.symm
    · exact absurd htime (Nat.not_lt.mpr hlate)
  · intro ep hep
    refine ⟨it, ?_, expired_iff.mp (List.mem_takeWhile_imp hep)⟩
    have hwaits := (h.waiting ep ((List.takeWhile_sublist _).subset hep)).1
    rw [hadds.log, pair_sublist_append]
    exact .inr (.inl ⟨hwaits, List.mem_cons_self⟩)

theorem retryHeld (h : Fated hops s) {it : HopItem} (hhop : AtHop (hops ++ [it]) it s) :
    Fated hops (s.retryHeld it) := by
  obtain ⟨hadds, hheld, hcurrent, -⟩ := retryHeld_spec s it
  refine h.resolve .retried [.live it] _ hadds.log ?_ hcurrent ?_
    (nodup_of_apart hhop.apart) ?_ ?_
  · rw [hheld, List.append_nil]
  · intro n hn
    rw [List.mem_singleton.mp hn]
    rfl
  · intro it' hin
    exact RuleNote.noConfusion (List.mem_singleton.mp hin)
  · intro ep hep
    obtain ⟨hepoch, htime, hpast⟩ := hhop.waiting ep hep
    refine ⟨it, ?_, hepoch.symm, ?_, htime⟩
    · rw [hadds.log]
      exact List.mem_append_right _ List.mem_cons_self
    · change ep.openSample ≤ it.end_
      omega

/-- **The end of a scored hop with an open episode.** -/
theorem settle (h : Fated hops s) {cur : OpenEpisode} (hcur : s.current = some cur)
    (closing : Bool) (live : Option CandidateState) (hat : ∃ x ∈ hops, cur.ep.opening.At x)
    (hapart : cur.ep.opening ∉ s.held.map ShadowEpisode.opening)
    (hlog : s'.log = s.log ++ settleNotes cur closing live)
    (hheld : s'.held = if closing = true ∧ (live.isSome || cur.matched) = false then
      s.held ++ [cur.ep] else s.held)
    (hcurrent : s'.current =
      if closing then none else some { cur with matched := live.isSome || cur.matched }) :
    Fated hops s' := by
  have hmet : Fated hops
      { s with
        log := s.log ++ meetNotes cur live
        current := some { cur with matched := live.isSome || cur.matched } } :=
    h.meet hcur rfl rfl rfl hat hapart
  cases closing with
  | false =>
      rw [settleNotes, if_neg Bool.false_ne_true, List.append_nil] at hlog
      exact h.meet hcur hlog hheld hcurrent hat hapart
  | true =>
      rw [settleNotes, if_pos rfl, ← List.append_assoc] at hlog
      refine hmet.close rfl hlog ?_ hcurrent hat
      rw [hheld]
      cases live.isSome || cur.matched <;> simp

/-- **A scored hop.** -/
theorem shadowHop (h : Fated hops s) {it : HopItem} (hhop : AtHop (hops ++ [it]) it s)
    (hnext : NextHop hops it) (raw smoothed : ℚ) (now : ℤ) (scores : List ScoreEntry)
    (live : Option CandidateState) :
    Fated (hops ++ [it]) (s.shadowHop it raw smoothed now scores live) := by
  have hmono := h.mono fun x hx => List.mem_append_left [it] hx
  rcases shadowHop_spec s it raw smoothed now scores live with
    ⟨hnone, hadds, hheld, hcurrent, -⟩ | ⟨s₁, notes, cur, closing, hadds, hheld, -, heq, hcase⟩
  · refine hmono.append hadds.log (fun _ hn => absurd hn List.not_mem_nil) hheld
      (fun _ hn => absurd hn List.not_mem_nil) ?_ ?_
    · rw [hadds.log, List.append_nil]
      exact h.opens
    · rw [hcurrent]
      exact fun x hx => absurd hx (Option.not_mem_none x)
  · rw [heq]
    obtain ⟨hnotes, hheld', hcurrent, -⟩ :=
      settle_spec s₁ cur closing live (hheld ▸ hhop.has_room.ne)
    have hopen : Fated (hops ++ [it]) { s₁ with current := some cur } ∧
        (∃ x ∈ hops ++ [it], cur.ep.opening.At x) ∧
        cur.ep.opening ∉ s.held.map ShadowEpisode.opening := by
      rcases hcase with ⟨rfl, old, hold, hsame, hmatched, -⟩ | ⟨-, rfl, hopening, hmatched, -⟩
      · refine ⟨hmono.append hadds.log (fun _ hn => absurd hn List.not_mem_nil) hheld
          (fun _ hn => absurd hn List.not_mem_nil) ?_ ?_,
          hsame ▸ hhop.origin _ (mem_openings_current hold), ?_⟩
        · rw [hadds.log, List.append_nil]
          exact h.opens
        · intro x hx
          rw [← Option.some.inj hx, hsame, hmatched]
          exact h.going old hold
        · have hnodup := nodup_of_apart hhop.apart
          rw [openings, hold] at hnodup
          rw [hsame]
          exact fun hin => (List.nodup_append'.mp hnodup).2.2 hin (List.mem_singleton_self _)
      · have hat : cur.ep.opening.At it := by
          rw [hopening]
          exact ⟨rfl, rfl⟩
        have hfresh : ∀ x ∈ hops, ¬ cur.ep.opening.At x := by
          intro x hx hatx
          rw [hopening] at hatx
          exact (hnext.later x hx hatx.1).ne hatx.2
        refine ⟨h.opened ?_ hheld rfl hat hfresh hmatched,
          ⟨it, List.mem_append_right _ (List.mem_singleton_self it), hat⟩, fun hin => ?_⟩
        · rw [hopening]
          exact hadds.log
        · obtain ⟨ep, hep, heqo⟩ := List.mem_map.mp hin
          obtain ⟨x, hx, hatx⟩ := h.known _ (h.waiting ep hep).1 _ rfl
          exact hfresh x hx (heqo ▸ hatx)
    obtain ⟨hfated, hat, hapart⟩ := hopen
    exact hfated.settle rfl closing live hat (hheld.symm ▸ hapart) hnotes.log hheld' hcurrent

/-- An end of a live candidate, or of a stats window. -/
theorem append_side (h : Fated hops s) (hlog : s'.log = s.log ++ notes)
    (hplain : ∀ n ∈ notes, n.isPlain = true ∧ n.opened? = none) (hheld : s'.held = s.held)
    (hcurrent : s'.current = s.current ∨ s'.current = none)
    (hknown : ∀ n ∈ notes, ∀ o, n.opening? = some o → ∃ x ∈ hops, o.At x) : Fated hops s' := by
  refine h.append hlog (fun n hn => (hplain n hn).1) hheld hknown ?_ fun cur hc => ?_
  · have hnil : notes.filterMap RuleNote.opened? = [] :=
      List.filterMap_eq_nil_iff.mpr fun n hn => (hplain n hn).2
    rw [hlog, List.filterMap_append, hnil, List.append_nil]
    exact h.opens
  · rcases hcurrent with hsame | hnone
    · exact h.going cur (hsame ▸ hc)
    · rw [hnone] at hc
      exact absurd hc (Option.not_mem_none cur)

theorem closeCandidate (h : Fated hops s) (cs : CandidateState) :
    Fated hops (s.closeCandidate cs) := by
  obtain ⟨hadds, hheld, hcurrent, -⟩ := closeCandidate_spec s cs
  have hmem : ∀ n ∈ (.ended cs.id cs.profile :: if s.rule.profile = cs.profile ∧ s.overlapped = false
      then [.liveOnly cs.id] else [] : List RuleNote),
      n = .ended cs.id cs.profile ∨ n = .liveOnly cs.id := by
    intro n hn
    rcases List.mem_cons.mp hn with rfl | hn
    · exact .inl rfl
    · split_ifs at hn
      · exact .inr (List.mem_singleton.mp hn)
      · exact absurd hn List.not_mem_nil
  refine h.append_side hadds.log (fun n hn => ?_) hheld (.inl hcurrent) fun n hn o ho => ?_
  · rcases hmem n hn with rfl | rfl <;> exact ⟨rfl, rfl⟩
  · rcases hmem n hn with rfl | rfl <;> exact absurd ho (Option.some_ne_none o).symm

theorem abandon (h : Fated hops s) (horigin : ∀ o ∈ s.openings, ∃ x ∈ hops, o.At x) :
    Fated hops s.abandon := by
  obtain ⟨hadds, hheld, hcurrent, -⟩ := abandon_spec s
  refine h.append_side hadds.log (fun n hn => ?_) hheld (.inr hcurrent) fun n hn o ho => ?_
  · obtain ⟨cur, -, rfl⟩ := List.mem_map.mp hn
    exact ⟨rfl, rfl⟩
  · obtain ⟨cur, hcur, rfl⟩ := List.mem_map.mp hn
    rw [← Option.some.inj ho]
    exact horigin _ (mem_openings_current (Option.mem_toList.mp hcur))

theorem nextWindow (h : Fated hops s) : Fated hops s.nextWindow := by
  refine h.append_side s.nextWindow_log (fun n hn => ?_) rfl (.inl rfl) fun n hn o ho => ?_
  · rw [List.mem_singleton.mp hn]
    exact ⟨rfl, rfl⟩
  · rw [List.mem_singleton.mp hn] at ho
    exact absurd ho (Option.some_ne_none o).symm

/-- The rules set up anew drop those that wait. -/
theorem renew (h : Fated hops s) (hnone : s.current = none) (hnodup : s.openings.Nodup) :
    Fated hops s.renew := by
  obtain ⟨hadds, hheld, hcurrent, -⟩ := renew_spec s hnone
  refine h.resolve .dropped [] _ hadds.log ?_ (hcurrent.trans hnone.symm)
    (fun _ hn => absurd hn List.not_mem_nil) hnodup (fun _ hn => absurd hn List.not_mem_nil)
    fun _ _ => trivial
  rw [hheld, List.append_nil]

end Fated

/-! ### Settled at the right time -/

/-- No live candidate has opened since the episode did. -/
def Quiet (log : List RuleNote) (o : Opening) : Prop :=
  ∀ it, .live it ∈ log → it.epoch = o.epoch → it.end_ < o.sample

/-- Those that are unmatched, at the latest hop. -/
def OutOfTime (hops : List HopItem) (log : List RuleNote) : Prop :=
  ∀ o, .unmatched o ∈ log → (∀ l ∈ hops.getLast?, o.Over l) ∧ ∀ it, .live it ∈ log → ¬ o.InTime it

/-- Between inputs. -/
structure Timed (hops : List HopItem) (s : ShadowRule) : Prop where
  lives : ∀ it, .live it ∈ s.log → it ∈ hops
  held : ∀ ep ∈ s.held, Quiet s.log ep.opening
  going : ∀ cur ∈ s.current, cur.matched = false → Quiet s.log cur.ep.opening
  unmatched : OutOfTime hops s.log

/-- At a hop, before the rules take it: with a live candidate, one may have opened just now. -/
structure Struck (hops : List HopItem) (it : HopItem) (live : Option CandidateState)
    (s : ShadowRule) : Prop where
  lives : ∀ h, .live h ∈ s.log → h ∈ hops ++ [it]
  alone : live = none → ∀ h, .live h ∈ s.log → h ∈ hops
  held : ∀ ep ∈ s.held, Quiet s.log ep.opening
  going : live = none → ∀ cur ∈ s.current, cur.matched = false → Quiet s.log cur.ep.opening
  unmatched : OutOfTime (hops ++ [it]) s.log

theorem Quiet.of_log {log log' : List RuleNote} {o : Opening} (h : Quiet log o)
    (hlive : ∀ it, .live it ∈ log' → .live it ∈ log) : Quiet log' o :=
  fun it hit => h it (hlive it hit)

theorem OutOfTime.of_log {hops : List HopItem} {log log' : List RuleNote} (h : OutOfTime hops log)
    (hlive : ∀ it, .live it ∈ log' → .live it ∈ log)
    (hunmatched : ∀ o, .unmatched o ∈ log' → .unmatched o ∈ log) : OutOfTime hops log' := by
  intro o ho
  obtain ⟨hover, hnot⟩ := h o (hunmatched o ho)
  exact ⟨hover, fun it hit => hnot it (hlive it hit)⟩

/-- A hold that has run out stays so. -/
theorem over_next {hops : List HopItem} {it x : HopItem} {o : Opening} (hnext : NextHop hops it)
    (hx : x ∈ hops) (hat : o.At x) (hover : ∀ l ∈ hops.getLast?, o.Over l) : o.Over it := by
  by_cases hepoch : it.epoch = o.epoch
  · obtain ⟨l, hl⟩ : ∃ l, hops.getLast? = some l :=
      Option.ne_none_iff_exists'.mp (mt List.getLast?_eq_none_iff.mp (List.ne_nil_of_mem hx))
    have hsame : l.epoch = it.epoch := hnext.stays x hx (hat.1.trans hepoch.symm) l hl
    have hlt := hnext.later l (List.mem_of_getLast? hl) hsame
    rcases hover l hl with hother | hlate
    · exact absurd (hsame.trans hepoch) hother
    · exact .inr (hlate.trans hlt.le)
  · exact .inl hepoch

/-- The next hop leaves those that are unmatched out of time. -/
theorem OutOfTime.next {hops : List HopItem} {it : HopItem} {s : ShadowRule}
    (h : OutOfTime hops s.log) (hfated : Fated hops s) (hnext : NextHop hops it) :
    OutOfTime (hops ++ [it]) s.log := by
  intro o ho
  obtain ⟨x, hx, hat⟩ := hfated.known _ ho o rfl
  obtain ⟨hover, hnot⟩ := h o ho
  refine ⟨fun l hl => ?_, hnot⟩
  rw [List.getLast?_concat] at hl
  rw [← Option.some.inj hl]
  exact over_next hnext hx hat hover

theorem Opening.not_inTime {o : Opening} {it : HopItem} (h : o.Over it) : ¬ o.InTime it := by
  rintro ⟨hepoch, -, htime⟩
  rcases h with hother | hlate
  · exact hother hepoch
  · exact absurd htime (Nat.not_lt.mpr hlate)

namespace Timed

variable {hops : List HopItem} {s s' : ShadowRule} {it : HopItem}

theorem new (r : OpenRule) : Timed hops { rule := r } where
  lives := fun _ h => absurd h List.not_mem_nil
  held := fun _ h => absurd h List.not_mem_nil
  going := fun _ h => absurd h (Option.not_mem_none _)
  unmatched := fun _ h => absurd h List.not_mem_nil

/-- Fewer episodes, and notes of other things. -/
theorem of_log (h : Timed hops s) (hlive : ∀ it, .live it ∈ s'.log → .live it ∈ s.log)
    (hunmatched : ∀ o, .unmatched o ∈ s'.log → .unmatched o ∈ s.log)
    (hheld : ∀ ep ∈ s'.held, ep ∈ s.held) (hcurrent : s'.current = s.current ∨ s'.current = none) :
    Timed hops s' where
  lives it hit := h.lives it (hlive it hit)
  held ep hep := (h.held ep (hheld ep hep)).of_log hlive
  going cur hc hm := by
    rcases hcurrent with hsame | hnone
    · exact (h.going cur (hsame ▸ hc) hm).of_log hlive
    · rw [hnone] at hc
      exact absurd hc (Option.not_mem_none cur)
  unmatched := h.unmatched.of_log hlive hunmatched

theorem append {notes : List RuleNote} (h : Timed hops s) (hlog : s'.log = s.log ++ notes)
    (hnotes : ∀ n ∈ notes, (∀ x, n ≠ .live x) ∧ ∀ o, n ≠ .unmatched o)
    (hheld : ∀ ep ∈ s'.held, ep ∈ s.held) (hcurrent : s'.current = s.current ∨ s'.current = none) :
    Timed hops s' :=
  h.of_log (fun _ => (Fated.mem_iff hlog fun hn => (hnotes _ hn).1 _ rfl).mp)
    (fun _ => (Fated.mem_iff hlog fun hn => (hnotes _ hn).2 _ rfl).mp) hheld hcurrent

theorem closeCandidate (h : Timed hops s) (cs : CandidateState) :
    Timed hops (s.closeCandidate cs) := by
  obtain ⟨hadds, hheld, hcurrent, -⟩ := closeCandidate_spec s cs
  refine h.append hadds.log (fun n hn => ?_) (fun ep hep => hheld ▸ hep) (.inl hcurrent)
  rcases List.mem_cons.mp hn with rfl | hn
  · exact ⟨fun _ => RuleNote.noConfusion, fun _ => RuleNote.noConfusion⟩
  · split_ifs at hn
    · rw [List.mem_singleton.mp hn]
      exact ⟨fun _ => RuleNote.noConfusion, fun _ => RuleNote.noConfusion⟩
    · exact absurd hn List.not_mem_nil

theorem abandon (h : Timed hops s) : Timed hops s.abandon := by
  obtain ⟨hadds, hheld, hcurrent, -⟩ := abandon_spec s
  refine h.append hadds.log (fun n hn => ?_) (fun ep hep => hheld ▸ hep) (.inr hcurrent)
  obtain ⟨cur, -, rfl⟩ := List.mem_map.mp hn
  exact ⟨fun _ => RuleNote.noConfusion, fun _ => RuleNote.noConfusion⟩

theorem renew (h : Timed hops s) (hnone : s.current = none) : Timed hops s.renew := by
  obtain ⟨hadds, hheld, hcurrent, -⟩ := renew_spec s hnone
  refine h.append hadds.log (fun n hn => ?_) (fun ep hep => ?_) (.inr hcurrent)
  · obtain ⟨ep, -, rfl⟩ := List.mem_map.mp hn
    exact ⟨fun _ => RuleNote.noConfusion, fun _ => RuleNote.noConfusion⟩
  · rw [hheld] at hep
    exact absurd hep List.not_mem_nil

theorem nextWindow (h : Timed hops s) : Timed hops s.nextWindow := by
  refine h.append s.nextWindow_log (fun n hn => ?_) (fun _ hep => hep) (.inl rfl)
  rw [List.mem_singleton.mp hn]
  exact ⟨fun _ => RuleNote.noConfusion, fun _ => RuleNote.noConfusion⟩

/-- A hop that does not reach the rules. -/
theorem pass (h : Timed hops s) (hfated : Fated hops s) (hnext : NextHop hops it) :
    Timed (hops ++ [it]) s where
  lives x hx := List.mem_append_left _ (h.lives x hx)
  held := h.held
  going := h.going
  unmatched := h.unmatched.next hfated hnext

/-- **Those whose hold runs out had no live candidate in time.** -/
theorem expireHeld (h : Timed hops s) (hfated : Fated hops s) (hnext : NextHop hops it) :
    Struck hops it none (s.expireHeld it) := by
  obtain ⟨hadds, hheld, hcurrent, -⟩ := expireHeld_spec s it
  have hlive : ∀ x, .live x ∈ (s.expireHeld it).log → .live x ∈ s.log := by
    intro x hx
    rw [hadds.log] at hx
    simpa using hx
  have hsub : ∀ ep ∈ (s.expireHeld it).held, ep ∈ s.held := by
    rw [hheld]
    exact (List.dropWhile_sublist _).subset
  refine ⟨fun x hx => List.mem_append_left _ (h.lives x (hlive x hx)),
    fun _ x hx => h.lives x (hlive x hx), fun ep hep => (h.held ep (hsub ep hep)).of_log hlive,
    fun _ cur hc hm => (h.going cur (hcurrent ▸ hc) hm).of_log hlive, fun o ho => ?_⟩
  rw [hadds.log] at ho
  rcases List.mem_append.mp ho with hs | hn
  · obtain ⟨hover, hnot⟩ := h.unmatched.next hfated hnext o hs
    exact ⟨hover, fun x hx => hnot x (hlive x hx)⟩
  · obtain ⟨ep, hep, heq⟩ := List.mem_map.mp ((List.mem_cons.mp hn).resolve_left
      RuleNote.noConfusion)
    injection heq with heq
    subst heq
    refine ⟨fun l hl => ?_, fun x hx htime => ?_⟩
    · rw [List.getLast?_concat] at hl
      rw [← Option.some.inj hl]
      exact expired_iff.mp (List.mem_takeWhile_imp hep)
    · have hquiet := h.held ep ((List.takeWhile_sublist _).subset hep)
      exact absurd (hquiet x (hlive x hx) htime.1) (Nat.not_lt.mpr htime.2.1)

end Timed

namespace Struck

variable {hops : List HopItem} {s : ShadowRule} {it : HopItem} {live : Option CandidateState}

/-- A candidate is open already. -/
theorem any (h : Struck hops it none s) : Struck hops it live s :=
  ⟨h.lives, fun _ => h.alone rfl, h.held, fun _ => h.going rfl, h.unmatched⟩

/-- The hop is not scored. -/
theorem timed (h : Struck hops it none s) : Timed (hops ++ [it]) s :=
  ⟨h.lives, h.held, h.going rfl, h.unmatched⟩

/-- **A live candidate that opens.** -/
theorem retryHeld (h : Struck hops it none s) (cs : CandidateState) :
    Struck hops it (some cs) (s.retryHeld it) := by
  obtain ⟨hadds, hheld, -, -⟩ := retryHeld_spec s it
  have hlive : ∀ x, .live x ∈ (s.retryHeld it).log → .live x ∈ s.log ∨ x = it := by
    intro x hx
    rw [hadds.log] at hx
    simpa using hx
  refine ⟨fun x hx => ?_, fun hn => absurd hn (Option.some_ne_none cs), ?_,
    fun hn => absurd hn (Option.some_ne_none cs), fun o ho => ?_⟩
  · rcases hlive x hx with hs | rfl
    · exact h.lives x hs
    · exact List.mem_append_right _ (List.mem_singleton_self x)
  · rw [hheld]
    exact fun _ hep => absurd hep List.not_mem_nil
  · have hs : .unmatched o ∈ s.log := by
      rw [hadds.log] at ho
      simpa using ho
    obtain ⟨hover, hnot⟩ := h.unmatched o hs
    refine ⟨hover, fun x hx => ?_⟩
    rcases hlive x hx with hs | rfl
    · exact hnot x hs
    · exact Opening.not_inTime (hover x List.getLast?_concat)

/-- **A scored hop**: without a live candidate, nothing has opened since an episode did. -/
theorem shadowHop (h : Struck hops it live s) (hroom : s.held.length ≠ maxShadowHeld)
    (hnext : NextHop hops it) (raw smoothed : ℚ) (now : ℤ) (scores : List ScoreEntry) :
    Timed (hops ++ [it]) (s.shadowHop it raw smoothed now scores live) := by
  rcases shadowHop_spec s it raw smoothed now scores live with
    ⟨hnone, hadds, hheld, hcurrent, -⟩ | ⟨s₁, notes, cur, closing, hadds, hheld, -, heq, hcase⟩
  · have hlog := hadds.log
    rw [List.append_nil] at hlog
    refine ⟨hlog ▸ h.lives, hheld ▸ hlog ▸ h.held, ?_, hlog ▸ h.unmatched⟩
    rw [hcurrent]
    exact fun cur hc => absurd hc (Option.not_mem_none cur)
  · rw [heq]
    obtain ⟨hnotes, hheld', hcurrent, -⟩ := settle_spec s₁ cur closing live (hheld ▸ hroom)
    have hother : ∀ n ∈ notes ++ settleNotes cur closing live, (∀ x, n ≠ .live x) ∧ ∀ o, n ≠ .unmatched o := by
      intro n hn
      rcases List.mem_append.mp hn with hn | hn
      · rcases hcase with ⟨rfl, -⟩ | ⟨-, rfl, -⟩
        · exact absurd hn List.not_mem_nil
        · rw [List.mem_singleton.mp hn]
          exact ⟨fun _ => RuleNote.noConfusion, fun _ => RuleNote.noConfusion⟩
      · rcases mem_settleNotes hn with ⟨cs, -, rfl⟩ | rfl | rfl <;>
          exact ⟨fun _ => RuleNote.noConfusion, fun _ => RuleNote.noConfusion⟩
    have hlive : ∀ x, .live x ∈ (s₁.settle cur closing live).log → .live x ∈ s.log := by
      intro x hx
      rw [(hadds.trans hnotes).log] at hx
      exact (List.mem_append.mp hx).resolve_right fun hn => (hother _ hn).1 x rfl
    have hunmatched : ∀ o, .unmatched o ∈ (s₁.settle cur closing live).log → .unmatched o ∈ s.log := by
      intro o ho
      rw [(hadds.trans hnotes).log] at ho
      exact (List.mem_append.mp ho).resolve_right fun hn => (hother _ hn).2 o rfl
    -- the episode of this hop, when it has met none
    have hquiet : (live.isSome || cur.matched) = false →
        Quiet (s₁.settle cur closing live).log cur.ep.opening := by
      intro hm
      obtain ⟨hnone, hmatched⟩ := Bool.or_eq_false_iff.mp hm
      have halone : live = none := Option.isNone_iff_eq_none.mp (Option.isSome_eq_false_iff.mp hnone)
      rcases hcase with ⟨-, old, hold, hsame, hold', -⟩ | ⟨-, -, hopening, -⟩
      · rw [hsame]
        exact (h.going halone old hold (hold'.symm.trans hmatched)).of_log hlive
      · rw [hopening]
        intro x hx hepoch
        exact hnext.later x (h.alone halone x (hlive x hx)) hepoch
    refine ⟨fun x hx => h.lives x (hlive x hx), fun ep hep => ?_, fun x hx hm => ?_,
      h.unmatched.of_log hlive hunmatched⟩
    · rw [hheld', hheld] at hep
      split_ifs at hep with hwaits
      · rcases List.mem_append.mp hep with hs | hn
        · exact (h.held ep hs).of_log hlive
        · rw [List.mem_singleton.mp hn]
          exact hquiet hwaits.2
      · exact (h.held ep hep).of_log hlive
    · rw [hcurrent] at hx
      split_ifs at hx
      · exact absurd hx (Option.not_mem_none x)
      · rw [← Option.some.inj hx] at hm ⊢
        exact hquiet hm

end Struck

/-! ### Live candidates -/

/-- What the log tells of live candidates, of which one may be open. -/
structure Overlaps (live : Option CandidateState) (drawn : ℕ) (s : ShadowRule) : Prop where
  ids : ∀ n ∈ s.log, ∀ id, n.candidate? = some id → id < drawn
  open_ : ∀ cs ∈ live, cs.id < drawn ∧ (∀ profile, .ended cs.id profile ∉ s.log) ∧
    (s.overlapped = true ↔ ∃ o, .both o cs.id ∈ s.log)
  liveOnly : ∀ id, .liveOnly id ∈ s.log ↔
    .ended id s.rule.profile ∈ s.log ∧ ∀ o, .both o id ∉ s.log
  once : (s.log.filterMap RuleNote.liveOnly?).Nodup

namespace Overlaps

variable {live : Option CandidateState} {drawn : ℕ} {s s' : ShadowRule} {notes : List RuleNote}

theorem new (r : OpenRule) : Overlaps none drawn { rule := r } where
  ids := fun _ h => absurd h List.not_mem_nil
  open_ := fun _ h => absurd h (Option.not_mem_none _)
  liveOnly := fun _ => ⟨fun h => absurd h List.not_mem_nil, fun h => absurd h.1 List.not_mem_nil⟩
  once := .nil

/-- Notes that name no live candidate. -/
theorem append (h : Overlaps live drawn s) (hrule : s'.rule = s.rule)
    (hlog : s'.log = s.log ++ notes) (hnotes : ∀ n ∈ notes, n.candidate? = none) {live' : Option CandidateState} {drawn' : ℕ}
    (hdrawn : drawn ≤ drawn') (hlive : ∀ cs ∈ live', cs.id < drawn' ∧
      ((∃ old ∈ live, old.id = cs.id ∧ s'.overlapped = s.overlapped) ∨
        drawn ≤ cs.id ∧ s'.overlapped = false)) :
    Overlaps live' drawn' s' := by
  have hmem : ∀ {n : RuleNote} {id}, n.candidate? = some id → (n ∈ s'.log ↔ n ∈ s.log) := by
    intro n id hn
    refine Fated.mem_iff hlog fun hin => ?_
    rw [hnotes n hin] at hn
    exact absurd hn (Option.some_ne_none id).symm
  refine ⟨fun n hn id hid => ?_, fun cs hcs => ?_, fun id => ?_, ?_⟩
  · exact (h.ids n ((hmem hid).mp hn) id hid).trans_le hdrawn
  · obtain ⟨hlt, hcase⟩ := hlive cs hcs
    refine ⟨hlt, fun profile hin => ?_, ?_⟩
    · have hs := (hmem rfl).mp hin
      rcases hcase with ⟨old, hold, hsame, -⟩ | ⟨hfresh, -⟩
      · exact (h.open_ old hold).2.1 profile (hsame ▸ hs)
      · exact absurd (h.ids _ hs _ rfl) (Nat.not_lt.mpr hfresh)
    · rcases hcase with ⟨old, hold, hsame, hoverlap⟩ | ⟨hfresh, hoverlap⟩
      · rw [hoverlap, (h.open_ old hold).2.2, hsame]
        exact exists_congr fun o => (hmem rfl).symm
      · rw [hoverlap]
        refine ⟨fun hf => absurd hf Bool.false_ne_true, fun ⟨o, ho⟩ => ?_⟩
        exact absurd (h.ids _ ((hmem rfl).mp ho) _ rfl) (Nat.not_lt.mpr hfresh)
  · rw [hmem rfl, hmem rfl, h.liveOnly, hrule]
    exact and_congr_right fun _ => forall_congr' fun o => not_congr (hmem rfl).symm
  · have hnil : notes.filterMap RuleNote.liveOnly? = [] := by
      refine List.filterMap_eq_nil_iff.mpr fun n hn => ?_
      have := hnotes n hn
      cases n <;> first | rfl | exact absurd this (Option.some_ne_none _)
    rw [hlog, List.filterMap_append, hnil, List.append_nil]
    exact h.once

/-- The candidate goes on, or none is open. -/
theorem same (h : Overlaps live drawn s) (hadds : Adds s s' notes)
    (hnotes : ∀ n ∈ notes, n.candidate? = none) (hoverlap : s'.overlapped = s.overlapped) :
    Overlaps live drawn s' :=
  h.append hadds.rule hadds.log hnotes le_rfl fun cs hcs =>
    ⟨(h.open_ cs hcs).1, .inl ⟨cs, hcs, rfl, hoverlap⟩⟩

theorem expireHeld (h : Overlaps live drawn s) (it : HopItem) :
    Overlaps live drawn (s.expireHeld it) := by
  obtain ⟨hadds, -, -, hoverlap⟩ := expireHeld_spec s it
  refine h.same hadds (fun n hn => ?_) hoverlap
  rcases List.mem_cons.mp hn with rfl | hn
  · rfl
  · obtain ⟨ep, -, rfl⟩ := List.mem_map.mp hn
    rfl

theorem abandon (h : Overlaps live drawn s) : Overlaps live drawn s.abandon := by
  obtain ⟨hadds, -, -, hoverlap⟩ := abandon_spec s
  refine h.same hadds (fun n hn => ?_) hoverlap
  obtain ⟨cur, -, rfl⟩ := List.mem_map.mp hn
  rfl

theorem renew (h : Overlaps none drawn s) (hnone : s.current = none) :
    Overlaps none drawn s.renew := by
  obtain ⟨hadds, -, -, -⟩ := renew_spec s hnone
  refine h.append hadds.rule hadds.log (fun n hn => ?_) le_rfl fun _ hcs =>
    absurd hcs (Option.not_mem_none _)
  obtain ⟨ep, -, rfl⟩ := List.mem_map.mp hn
  rfl

/-- **A live candidate opens**, under a new identifier. -/
theorem retryHeld (h : Overlaps none drawn s) (it : HopItem) {cs : CandidateState} {drawn' : ℕ}
    (hid : drawn ≤ cs.id) (hdrawn : cs.id < drawn') :
    Overlaps (some cs) drawn' (s.retryHeld it) := by
  obtain ⟨hadds, -, -, hoverlap⟩ := retryHeld_spec s it
  refine h.append hadds.rule hadds.log (fun n hn => ?_) (hid.trans hdrawn.le) fun x hx => ?_
  · rcases List.mem_cons.mp hn with rfl | hn
    · rfl
    · obtain ⟨ep, -, rfl⟩ := List.mem_map.mp hn
      rfl
  · rw [← Option.some.inj hx]
    exact ⟨hdrawn, .inr ⟨hid, hoverlap⟩⟩

theorem nextWindow (h : Overlaps live drawn s) : Overlaps live drawn s.nextWindow := by
  have hrule : s.nextWindow.rule = s.rule := rfl
  refine h.append hrule s.nextWindow_log (fun n hn => ?_) le_rfl fun cs hcs =>
    ⟨(h.open_ cs hcs).1, .inl ⟨cs, hcs, rfl, rfl⟩⟩
  rw [List.mem_singleton.mp hn]
  rfl

/-- **A scored hop**: the open episode, if there is one, overlaps the live candidate. -/
theorem shadowHop (h : Overlaps live drawn s) (hroom : s.held.length ≠ maxShadowHeld)
    (it : HopItem) (raw smoothed : ℚ) (now : ℤ) (scores : List ScoreEntry) :
    Overlaps live drawn (s.shadowHop it raw smoothed now scores live) := by
  rcases shadowHop_spec s it raw smoothed now scores live with
    ⟨-, hadds, -, -, hoverlap⟩ | ⟨s₁, notes, cur, closing, hadds, hheld, hoverlap, heq, hcase⟩
  · exact h.same hadds (fun _ hn => absurd hn List.not_mem_nil) hoverlap
  · rw [heq]
    obtain ⟨hnotes, -, -, hoverlap'⟩ := settle_spec s₁ cur closing live (hheld ▸ hroom)
    rw [hoverlap] at hoverlap'
    have hadds' := hadds.trans hnotes
    have hother : ∀ n ∈ notes ++ settleNotes cur closing live,
        n.candidate? = none ∨ ∃ cs, live = some cs ∧ n = .both cur.ep.opening cs.id := by
      intro n hn
      rcases List.mem_append.mp hn with hn | hn
      · rcases hcase with ⟨rfl, -⟩ | ⟨-, rfl, -⟩
        · exact absurd hn List.not_mem_nil
        · rw [List.mem_singleton.mp hn]
          exact .inl rfl
      · rcases mem_settleNotes hn with ⟨cs, hcs, rfl⟩ | rfl | rfl
        · exact .inr ⟨cs, hcs, rfl⟩
        · exact .inl rfl
        · exact .inl rfl
    cases live with
    | none =>
        refine h.same hadds' (fun n hn => ?_) hoverlap'
        exact (hother n hn).resolve_right fun ⟨cs, hcs, _⟩ => Option.some_ne_none cs hcs.symm
    | some cs =>
        obtain ⟨hlt, hended, -⟩ := h.open_ cs rfl
        have hmine : ∀ n ∈ notes ++ settleNotes cur closing (some cs),
            n.candidate? = none ∨ n = .both cur.ep.opening cs.id := by
          intro n hn
          refine (hother n hn).imp_right fun ⟨x, hx, heq⟩ => ?_
          rwa [Option.some.inj hx]
        have hmem : ∀ {n : RuleNote} {id}, n.candidate? = some id →
            n ≠ .both cur.ep.opening cs.id →
            (n ∈ (s₁.settle cur closing (some cs)).log ↔ n ∈ s.log) := by
          intro n id hn hne
          refine Fated.mem_iff hadds'.log fun hin => ?_
          rcases hmine n hin with hnone | heq
          · rw [hnone] at hn
            exact Option.some_ne_none id hn.symm
          · exact hne heq
        refine ⟨fun n hn id hid => ?_, fun x hx => ?_, fun id => ?_, ?_⟩
        · rw [hadds'.log] at hn
          rcases List.mem_append.mp hn with hs | hn
          · exact h.ids n hs id hid
          · rcases hmine n hn with hnone | rfl
            · rw [hnone] at hid
              exact absurd hid (Option.some_ne_none id).symm
            · rwa [← Option.some.inj hid]
        · rw [← Option.some.inj hx]
          refine ⟨hlt, fun profile => mt (hmem rfl RuleNote.noConfusion).mp (hended profile),
            fun _ => ⟨cur.ep.opening, ?_⟩, fun _ => hoverlap'⟩
          rw [hadds'.log]
          exact List.mem_append_right _ (List.mem_append_right _ (List.mem_append_left _
            (List.mem_append_right _ (List.mem_singleton_self _))))
        · rw [hmem rfl RuleNote.noConfusion, hmem rfl RuleNote.noConfusion, h.liveOnly, hadds'.rule]
          refine and_congr_right fun hin => forall_congr' fun o => not_congr ?_
          -- the candidate that is open has not ended
          refine (hmem rfl fun heq => ?_).symm
          injection heq with ho hid
          exact hended _ (hid ▸ hin)
        · have hnil : (notes ++ settleNotes cur closing (some cs)).filterMap
              RuleNote.liveOnly? = [] := by
            refine List.filterMap_eq_nil_iff.mpr fun n hn => ?_
            rcases hmine n hn with hnone | rfl
            · cases n <;> first | rfl | exact absurd hnone (Option.some_ne_none _)
            · rfl
          rw [hadds'.log, List.filterMap_append, hnil, List.append_nil]
          exact h.once

/-- **A live candidate closes**, and is counted when no episode of the rule overlapped it. -/
theorem closeCandidate {cs : CandidateState} (h : Overlaps (some cs) drawn s) :
    Overlaps none drawn (s.closeCandidate cs) := by
  obtain ⟨hadds, -, -, -⟩ := closeCandidate_spec s cs
  obtain ⟨hlt, hended, hoverlap⟩ := h.open_ cs rfl
  have hnotyet : .liveOnly cs.id ∉ s.log := fun hin => hended _ ((h.liveOnly cs.id).mp hin).1
  have hmem : ∀ n, n ∈ (s.closeCandidate cs).log ↔ n ∈ s.log ∨ n = .ended cs.id cs.profile ∨
      ((s.rule.profile = cs.profile ∧ s.overlapped = false) ∧ n = .liveOnly cs.id) := by
    intro n
    rw [hadds.log, List.mem_append, List.mem_cons]
    split_ifs with halone
    · rw [List.mem_singleton]
      exact or_congr_right (or_congr_right (and_iff_right halone).symm)
    · exact or_congr_right (or_congr_right
        ⟨fun hn => absurd hn List.not_mem_nil, fun hn => absurd hn.1 halone⟩)
  have hboth : ∀ o id, .both o id ∈ (s.closeCandidate cs).log ↔ .both o id ∈ s.log := fun o id =>
    (hmem _).trans (or_iff_left fun hn => hn.elim RuleNote.noConfusion fun hn =>
      RuleNote.noConfusion hn.2)
  refine ⟨fun n hn id hid => ?_, fun x hx => absurd hx (Option.not_mem_none x), fun id => ?_, ?_⟩
  · rcases (hmem n).mp hn with hs | rfl | ⟨-, rfl⟩
    · exact h.ids n hs id hid
    · rwa [← Option.some.inj hid]
    · rwa [← Option.some.inj hid]
  · rw [hadds.rule, hmem, hmem, h.liveOnly]
    simp only [hboth]
    by_cases hid : id = cs.id
    · subst hid
      have hnone : (∀ o, .both o cs.id ∉ s.log) ↔ s.overlapped = false := by
        rw [← not_exists, ← hoverlap, Bool.not_eq_true]
      simp [hnone, hended]
    · simp [hid]
  · have hnew : (RuleNote.ended cs.id cs.profile ::
        if s.rule.profile = cs.profile ∧ s.overlapped = false then [.liveOnly cs.id] else
          []).filterMap RuleNote.liveOnly? =
        if s.rule.profile = cs.profile ∧ s.overlapped = false then [cs.id] else [] := by
      split_ifs <;> rfl
    rw [hadds.log, List.filterMap_append, hnew]
    split_ifs
    · refine List.nodup_append'.mpr ⟨h.once, List.nodup_singleton _, fun id hid hmine => ?_⟩
      rw [List.mem_singleton.mp hmine] at hid
      obtain ⟨n, hn, heq⟩ := List.mem_filterMap.mp hid
      refine hnotyet ?_
      cases n with
      | liveOnly id' => rwa [← Option.some.inj heq]
      | _ => exact absurd heq (Option.some_ne_none _).symm
    · rw [List.append_nil]
      exact h.once

end Overlaps

end ShadowRule

end EchoMuse.Wake
