import EchoMuse.Wake.Ledger
import Mathlib.Data.List.Pairwise

/-!
# Room to Wait

The episodes of a rule open at least three hops apart, as it takes two more scored hops to close
one; those that wait are of one epoch and their hold has not run out. So they are ordered by their
open, and there is always room for one more.

## Main results

* `Spaced.expireHeld`, `AtHop.shadowHop`: a hop keeps the episodes apart;
* `AtHop.room`: there is room.
-/

namespace EchoMuse.Wake

/-- The next hop of a run: on the grid, later than the hops of its epoch, and an epoch that was left
does not come back. -/
structure NextHop (hops : List HopItem) (it : HopItem) : Prop where
  grid : hopSamples ∣ it.end_
  later : ∀ h ∈ hops, h.epoch = it.epoch → h.end_ < it.end_
  stays : ∀ h ∈ hops, h.epoch = it.epoch → ∀ l ∈ hops.getLast?, l.epoch = it.epoch

/-- Grid points of an epoch are a hop apart. -/
theorem NextHop.apart {hops : List HopItem} {it h : HopItem} (hnext : NextHop hops it)
    (hgrid : ∀ h ∈ hops, hopSamples ∣ h.end_) (hmem : h ∈ hops) (hepoch : h.epoch = it.epoch) :
    ∃ l ∈ hops.getLast?, l.epoch = it.epoch ∧ l.end_ + hopSamples ≤ it.end_ := by
  obtain ⟨l, hl⟩ : ∃ l, hops.getLast? = some l :=
    Option.ne_none_iff_exists'.mp (mt List.getLast?_eq_none_iff.mp (List.ne_nil_of_mem hmem))
  have hlast := hnext.stays h hmem hepoch l hl
  have hin := List.mem_of_getLast? hl
  have hlt := hnext.later l hin hlast
  obtain ⟨m, hm⟩ := hgrid l hin
  obtain ⟨n, hn⟩ := hnext.grid
  rw [hm, hn] at hlt
  have hmn : m + 1 ≤ n := Nat.lt_of_mul_lt_mul_left hlt
  refine ⟨l, hl, hlast, ?_⟩
  rw [hm, hn, ← Nat.mul_succ]
  exact Nat.mul_le_mul_left _ hmn

/-- An episode opened at a hop. -/
def Opening.At (o : Opening) (h : HopItem) : Prop := h.epoch = o.epoch ∧ h.end_ = o.sample

/-- One episode opened at least three hops before another. -/
def Opening.Apart (a b : Opening) : Prop :=
  a.epoch = b.epoch ∧ a.sample + 3 * hopSamples ≤ b.sample

namespace ShadowRule

/-- Where the episodes opened that wait, and the open one. -/
def openings (s : ShadowRule) : List Opening :=
  s.held.map ShadowEpisode.opening ++ s.current.toList.map (·.ep.opening)

/-- Between inputs. -/
structure Spaced (hops : List HopItem) (s : ShadowRule) : Prop where
  origin : ∀ o ∈ s.openings, ∃ h ∈ hops, Opening.At o h
  apart : s.openings.Pairwise Opening.Apart
  waiting : ∀ ep ∈ s.held, ∀ l ∈ hops.getLast?, l.epoch = ep.epoch →
    ep.openSample + 2 * hopSamples ≤ l.end_
  going : ∀ cur ∈ s.current, cur.below < closeAfterBelow ∧ ∀ l ∈ hops.getLast?,
    l.epoch = cur.ep.epoch → cur.ep.openSample + cur.below * hopSamples ≤ l.end_
  room : .overflow ∉ s.log

/-- At a hop whose expired episodes are resolved. -/
structure AtHop (hops : List HopItem) (it : HopItem) (s : ShadowRule) : Prop where
  origin : ∀ o ∈ s.openings, ∃ h ∈ hops, Opening.At o h
  apart : s.openings.Pairwise Opening.Apart
  waiting : ∀ ep ∈ s.held, ep.epoch = it.epoch ∧ it.end_ < ep.openSample + shadowHoldSamples ∧
    ep.openSample + 3 * hopSamples ≤ it.end_
  going : ∀ cur ∈ s.current, cur.below < closeAfterBelow ∧ (it.epoch = cur.ep.epoch →
    cur.ep.openSample + (cur.below + 1) * hopSamples ≤ it.end_)
  room : .overflow ∉ s.log

theorem mem_openings_held {s : ShadowRule} {ep : ShadowEpisode} (h : ep ∈ s.held) :
    ep.opening ∈ s.openings := List.mem_append_left _ (List.mem_map_of_mem h)

theorem mem_openings_current {s : ShadowRule} {cur : OpenEpisode} (h : s.current = some cur) :
    cur.ep.opening ∈ s.openings := by
  rw [openings, h]
  exact List.mem_append_right _ (List.mem_singleton_self _)

/-- Episodes that are apart differ. -/
theorem nodup_of_apart {l : List Opening} (h : l.Pairwise Opening.Apart) : l.Nodup := by
  refine h.imp fun {a b} hab heq => ?_
  have hlt := hab.2
  have hpos : hopSamples = 2560 := rfl
  rw [heq] at hlt
  omega

namespace Spaced

variable {hops : List HopItem} {s : ShadowRule} {it : HopItem}

theorem new (r : OpenRule) : Spaced hops { rule := r } where
  origin := fun _ h => absurd h List.not_mem_nil
  apart := .nil
  waiting := fun _ h => absurd h List.not_mem_nil
  going := fun _ h => absurd h (Option.not_mem_none _)
  room := List.not_mem_nil

/-- Fewer episodes, and other notes. -/
theorem of_sublist (h : Spaced hops s) {s' : ShadowRule} (hheld : s'.held.Sublist s.held)
    (hcurrent : s'.current = s.current ∨ s'.current = none) (hroom : .overflow ∉ s'.log) :
    Spaced hops s' := by
  have hsub : s'.openings.Sublist s.openings := by
    refine (hheld.map _).append ?_
    rcases hcurrent with heq | hnone
    · rw [heq]
    · rw [hnone]
      exact List.nil_sublist _
  have hcur : ∀ cur ∈ s'.current, cur ∈ s.current := by
    intro cur hcur
    rcases hcurrent with heq | hnone
    · rwa [← heq]
    · rw [hnone] at hcur
      exact absurd hcur (Option.not_mem_none _)
  exact ⟨fun o ho => h.origin o (hsub.subset ho), h.apart.sublist hsub,
    fun ep hep => h.waiting ep (hheld.subset hep), fun cur hc => h.going cur (hcur cur hc), hroom⟩

/-- The next hop is at least one hop on. -/
theorem ahead (h : Spaced hops s) (hgrid : ∀ h ∈ hops, hopSamples ∣ h.end_)
    (hnext : NextHop hops it) :
    (∀ ep ∈ s.held, it.epoch = ep.epoch → ep.openSample + 3 * hopSamples ≤ it.end_) ∧
      ∀ cur ∈ s.current, it.epoch = cur.ep.epoch →
        cur.ep.openSample + (cur.below + 1) * hopSamples ≤ it.end_ := by
  constructor
  · intro ep hep hepoch
    obtain ⟨first, hfirst, hat, -⟩ := h.origin _ (mem_openings_held hep)
    obtain ⟨l, hl, hsame, hle⟩ := hnext.apart hgrid hfirst (hat.trans hepoch.symm)
    have hpast := h.waiting ep hep l hl (hsame.trans hepoch)
    omega
  · intro cur hcur hepoch
    obtain ⟨first, hfirst, hat, -⟩ := h.origin _ (mem_openings_current hcur)
    obtain ⟨l, hl, hsame, hle⟩ := hnext.apart hgrid hfirst (hat.trans hepoch.symm)
    have hpast := (h.going cur hcur).2 l hl (hsame.trans hepoch)
    rw [Nat.add_mul, Nat.one_mul]
    omega

/-- A hop that does not reach the rules. -/
theorem pass (h : Spaced hops s) (hgrid : ∀ h ∈ hops, hopSamples ∣ h.end_)
    (hnext : NextHop hops it) : Spaced (hops ++ [it]) s := by
  obtain ⟨hwaiting, hgoing⟩ := h.ahead hgrid hnext
  have hlast : ∀ l ∈ (hops ++ [it]).getLast?, l = it := by
    intro l hl
    rw [List.getLast?_concat] at hl
    exact (Option.some.inj hl).symm
  refine ⟨fun o ho => ?_, h.apart, fun ep hep l hl hepoch => ?_, fun cur hcur => ?_, h.room⟩
  · obtain ⟨first, hfirst, hat⟩ := h.origin o ho
    exact ⟨first, List.mem_append_left _ hfirst, hat⟩
  · obtain rfl := hlast l hl
    have := hwaiting ep hep hepoch
    omega
  · refine ⟨(h.going cur hcur).1, fun l hl hepoch => ?_⟩
    obtain rfl := hlast l hl
    have := hgoing cur hcur hepoch
    rw [Nat.add_mul] at this
    omega

/-- **The hop resolves those whose hold has run out**, as they stand first. -/
theorem expireHeld (h : Spaced hops s) (hgrid : ∀ h ∈ hops, hopSamples ∣ h.end_)
    (hnext : NextHop hops it) : AtHop (hops ++ [it]) it (s.expireHeld it) := by
  obtain ⟨hadds, hheld, hcurrent, -⟩ := expireHeld_spec s it
  obtain ⟨hwaiting, hgoing⟩ := h.ahead hgrid hnext
  have hsub : (s.expireHeld it).held.Sublist s.held := hheld ▸ List.dropWhile_sublist _
  have hroom : .overflow ∉ (s.expireHeld it).log := by
    rw [hadds.log]
    intro hmem
    rcases List.mem_append.mp hmem with hold | hnew
    · exact h.room hold
    · simp at hnew
  have hpass := (h.pass hgrid hnext).of_sublist hsub (.inl hcurrent) hroom
  refine ⟨hpass.origin, hpass.apart, fun ep hep => ?_, fun cur hcur => ?_, hroom⟩
  · have hkept : ep.epoch = it.epoch ∧ it.end_ < ep.openSample + shadowHoldSamples := by
      have hapart := (List.pairwise_append.mp hpass.apart).1
      rw [hheld] at hep hapart
      cases hd : s.held.dropWhile (expired it) with
      | nil =>
          rw [hd] at hep
          exact absurd hep List.not_mem_nil
      | cons a rest =>
          -- the first one's hold has not run out, and the others opened later
          have hfirst : expired it a = false := by
            have hne : s.held.dropWhile (expired it) ≠ [] := by
              rw [hd]
              exact List.cons_ne_nil a rest
            have hnot := List.head_dropWhile_not (expired it) hne
            simpa only [hd, List.head_cons] using hnot
          rw [expired, Bool.or_eq_false_iff, decide_eq_false_iff_not, decide_eq_false_iff_not,
            not_not, Nat.not_le] at hfirst
          rw [hd] at hep hapart
          rcases List.mem_cons.mp hep with rfl | hrest
          · exact ⟨hfirst.1, by omega⟩
          · rw [List.map_cons] at hapart
            obtain ⟨hepoch, hlater⟩ := List.rel_of_pairwise_cons hapart (List.mem_map_of_mem hrest)
            refine ⟨hepoch.symm.trans hfirst.1, ?_⟩
            change a.openSample + 3 * hopSamples ≤ ep.openSample at hlater
            omega
    exact ⟨hkept.1, hkept.2, hwaiting ep (hsub.subset hep) hkept.1.symm⟩
  · rw [hcurrent] at hcur
    exact ⟨(h.going cur hcur).1, hgoing cur hcur⟩

end Spaced

namespace AtHop

variable {hops : List HopItem} {s : ShadowRule} {it : HopItem}

theorem retryHeld (h : AtHop hops it s) : AtHop hops it (s.retryHeld it) := by
  obtain ⟨hadds, hheld, hcurrent, -⟩ := retryHeld_spec s it
  have hsub : (s.retryHeld it).openings.Sublist s.openings := by
    rw [openings, openings, hheld, hcurrent]
    exact List.sublist_append_right _ _
  refine ⟨fun o ho => h.origin o (hsub.subset ho), h.apart.sublist hsub, ?_, ?_, ?_⟩
  · rw [hheld]
    exact fun _ hep => absurd hep List.not_mem_nil
  · rw [hcurrent]
    exact h.going
  · rw [hadds.log]
    intro hmem
    rcases List.mem_append.mp hmem with hold | hnew
    · exact h.room hold
    · simp at hnew

/-- The first of some openings, when the last of them lies three hops back. -/
theorem le_of_apart (bound : ℕ) {o : Opening} {l : List Opening}
    (hapart : (o :: l).Pairwise Opening.Apart)
    (hbound : ∀ a ∈ o :: l, a.sample + 3 * hopSamples ≤ bound) :
    o.sample + 3 * hopSamples * (l.length + 1) ≤ bound := by
  induction l generalizing o with
  | nil => simpa using hbound o (List.mem_singleton_self o)
  | cons b l ih =>
      have hrest := ih hapart.of_cons fun a ha => hbound a (List.mem_cons_of_mem o ha)
      have hnext := (List.rel_of_pairwise_cons hapart List.mem_cons_self).2
      rw [List.length_cons, Nat.mul_succ]
      omega

/-- **There is room for one more to wait.** -/
theorem has_room (h : AtHop hops it s) : s.held.length < maxShadowHeld := by
  have hmax : maxShadowHeld = 21 := rfl
  have hhold : shadowHoldSamples = 160000 := rfl
  have hhop : hopSamples = 2560 := rfl
  cases hheld : s.held with
  | nil => exact Nat.succ_pos _
  | cons ep rest =>
      have hapart := (List.pairwise_append.mp h.apart).1
      rw [hheld, List.map_cons] at hapart
      have hle := le_of_apart it.end_ hapart fun a ha => by
        rw [← List.map_cons] at ha
        obtain ⟨x, hx, rfl⟩ := List.mem_map.mp ha
        exact (h.waiting x (hheld ▸ hx)).2.2
      have hfirst := (h.waiting ep (hheld ▸ List.mem_cons_self)).2.1
      rw [List.length_map] at hle
      change ep.openSample + 3 * hopSamples * (rest.length + 1) ≤ it.end_ at hle
      rw [hhop] at hle
      rw [List.length_cons]
      omega

/-- A hop that reaches the rules and is not scored. -/
theorem spaced (h : AtHop (hops ++ [it]) it s) : Spaced (hops ++ [it]) s := by
  have hlast : ∀ l ∈ (hops ++ [it]).getLast?, l = it := by
    intro l hl
    rw [List.getLast?_concat] at hl
    exact (Option.some.inj hl).symm
  refine ⟨h.origin, h.apart, fun ep hep l hl _ => ?_, fun cur hcur => ?_, h.room⟩
  · obtain rfl := hlast l hl
    have := (h.waiting ep hep).2.2
    omega
  · refine ⟨(h.going cur hcur).1, fun l hl hepoch => ?_⟩
    obtain rfl := hlast l hl
    have := (h.going cur hcur).2 hepoch
    rw [Nat.add_mul] at this
    omega

/-- **A scored hop**: the episode that opens or goes on, and the one that closes. -/
theorem shadowHop (h : AtHop (hops ++ [it]) it s) (raw smoothed : ℚ) (now : ℤ)
    (scores : List ScoreEntry) (live : Option CandidateState) :
    Spaced (hops ++ [it]) (s.shadowHop it raw smoothed now scores live) := by
  rcases shadowHop_spec s it raw smoothed now scores live with
    ⟨hnone, hadds, hheld, hcurrent, -⟩ |
    ⟨s₁, notes, cur, closing, hadds, hheld, -, heq, hcase⟩
  · refine h.spaced.of_sublist (hheld ▸ List.Sublist.refl _) (.inr hcurrent) ?_
    rw [hadds.log, List.append_nil]
    exact h.room
  · rw [heq]
    have hroom : s₁.held.length ≠ maxShadowHeld := hheld ▸ h.has_room.ne
    obtain ⟨hnotes, hheld', hcurrent, -⟩ := settle_spec s₁ cur closing live hroom
    have hlast : ∀ l ∈ (hops ++ [it]).getLast?, l = it := by
      intro l hl
      rw [List.getLast?_concat] at hl
      exact (Option.some.inj hl).symm
    have hlog : .overflow ∉ (s₁.settle cur closing live).log := by
      rw [(hadds.trans hnotes).log]
      intro hmem
      rcases List.mem_append.mp hmem with hold | hnew
      · exact h.room hold
      · rcases List.mem_append.mp hnew with hopened | hsettled
        · rcases hcase with ⟨rfl, -⟩ | ⟨-, rfl, -⟩
          · exact List.not_mem_nil hopened
          · exact RuleNote.noConfusion (List.mem_singleton.mp hopened)
        · rcases mem_settleNotes hsettled with ⟨cs, -, heq⟩ | heq | heq <;>
            exact RuleNote.noConfusion heq
    -- those that wait and the one of this hop
    have hall : (∃ a ∈ hops ++ [it], Opening.At cur.ep.opening a) ∧
        (s.held.map ShadowEpisode.opening ++ [cur.ep.opening]).Pairwise Opening.Apart ∧
        cur.below ≤ closeAfterBelow ∧ (closing = true ↔ cur.below = closeAfterBelow) ∧
        (it.epoch = cur.ep.epoch → cur.ep.openSample + cur.below * hopSamples ≤ it.end_) := by
      rcases hcase with ⟨-, old, hold, hsame, -, hbelow, hclosing⟩ |
        ⟨hnone, -, hopening, -, hbelow, hclosing⟩
      · obtain ⟨hlt, hgoing⟩ := h.going old hold
        have hepoch : cur.ep.epoch = old.ep.epoch := congrArg Opening.epoch hsame
        have hsample : cur.ep.openSample = old.ep.openSample := congrArg Opening.sample hsame
        refine ⟨hsame ▸ h.origin _ (mem_openings_current hold), ?_, by omega, hclosing, ?_⟩
        · have hapart := h.apart
          rw [openings, hold] at hapart
          rw [hsame]
          exact hapart
        · intro hin
          have hgo := hgoing (hin.trans hepoch)
          have hmul := Nat.mul_le_mul_right hopSamples hbelow
          rw [hsample]
          omega
      · have hepoch : cur.ep.epoch = it.epoch := congrArg Opening.epoch hopening
        have hsample : cur.ep.openSample = it.end_ := congrArg Opening.sample hopening
        refine ⟨⟨it, List.mem_append_right _ (List.mem_singleton_self it), hepoch.symm,
          hsample.symm⟩, ?_, hbelow ▸ Nat.zero_le _, ?_, ?_⟩
        · refine List.pairwise_append.mpr ⟨(List.pairwise_append.mp h.apart).1,
            List.pairwise_singleton _ _, fun a ha b hb => ?_⟩
          obtain ⟨ep, hep, rfl⟩ := List.mem_map.mp ha
          obtain rfl := List.mem_singleton.mp hb
          obtain ⟨hin, -, hpast⟩ := h.waiting ep hep
          rw [hopening]
          exact ⟨hin, hpast⟩
        · rw [hclosing, hbelow]
          decide
        · intro _
          rw [hsample, hbelow, Nat.zero_mul, Nat.add_zero]
    obtain ⟨hat, hapart, hle, hclosing, hgoing⟩ := hall
    -- what is open after the hop is among them, and its episodes stand where they stood
    have hsub : (s₁.settle cur closing live).openings.Sublist
        (s.held.map ShadowEpisode.opening ++ [cur.ep.opening]) := by
      rw [openings, hheld', hcurrent, hheld]
      cases closing <;> cases (live.isSome || cur.matched) <;> simp
    refine ⟨fun o ho => ?_, hapart.sublist hsub, fun ep hep l hl hepoch => ?_,
      fun cur' hcur' => ?_, hlog⟩
    · rcases List.mem_append.mp (hsub.subset ho) with hold | hnew
      · obtain ⟨ep, hep, rfl⟩ := List.mem_map.mp hold
        exact h.origin _ (mem_openings_held hep)
      · rw [List.mem_singleton.mp hnew]
        exact hat
    · obtain rfl := hlast l hl
      rw [hheld', hheld] at hep
      split_ifs at hep with hclose
      · rcases List.mem_append.mp hep with hold | hnew
        · have := (h.waiting ep hold).2.2
          omega
        · obtain rfl := List.mem_singleton.mp hnew
          have hgo := hgoing hepoch
          rw [hclosing.mp hclose.1] at hgo
          exact hgo
      · have := (h.waiting ep hep).2.2
        omega
    · rw [hcurrent] at hcur'
      split_ifs at hcur' with hclose
      · exact absurd hcur' (Option.not_mem_none _)
      · obtain rfl := Option.some.inj hcur'
        refine ⟨lt_of_le_of_ne hle (mt hclosing.mpr hclose), fun l hl hepoch => ?_⟩
        obtain rfl := hlast l hl
        exact hgoing hepoch

end AtHop

namespace Spaced

variable {hops : List HopItem} {s : ShadowRule}

theorem closeCandidate (h : Spaced hops s) (cs : CandidateState) :
    Spaced hops (s.closeCandidate cs) := by
  obtain ⟨hadds, hheld, hcurrent, -⟩ := closeCandidate_spec s cs
  refine h.of_sublist (hheld ▸ List.Sublist.refl _) (.inl hcurrent) ?_
  rw [hadds.log]
  intro hmem
  rcases List.mem_append.mp hmem with hold | hnew
  · exact h.room hold
  · split_ifs at hnew <;> simp at hnew

theorem abandon (h : Spaced hops s) : Spaced hops s.abandon := by
  obtain ⟨hadds, hheld, hcurrent, -⟩ := abandon_spec s
  refine h.of_sublist (hheld ▸ List.Sublist.refl _) (.inr hcurrent) ?_
  rw [hadds.log]
  intro hmem
  rcases List.mem_append.mp hmem with hold | hnew
  · exact h.room hold
  · simp at hnew

theorem renew (h : Spaced hops s) (hnone : s.current = none) : Spaced hops s.renew := by
  obtain ⟨hadds, hheld, hcurrent, -⟩ := renew_spec s hnone
  refine h.of_sublist (hheld ▸ List.nil_sublist _) (.inr hcurrent) ?_
  rw [hadds.log]
  intro hmem
  rcases List.mem_append.mp hmem with hold | hnew
  · exact h.room hold
  · simp at hnew

theorem nextWindow (h : Spaced hops s) : Spaced hops s.nextWindow := by
  refine h.of_sublist (List.Sublist.refl _) (.inl rfl) ?_
  rw [nextWindow_log]
  intro hmem
  rcases List.mem_append.mp hmem with hold | hnew
  · exact h.room hold
  · simp at hnew

end Spaced

end ShadowRule

end EchoMuse.Wake
