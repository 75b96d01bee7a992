import EchoMuse.Wake.Windows
import Mathlib.Data.List.Rotate

/-!
# Every Full Window of the Grid

The capture side follows what was heard: the hop mark is the next grid point, and the ring holds the
last window of the valid history. The mark never goes back, so after a jump back the grid points
below it are not scored; while no such point could have been, the hops are exactly the full windows
of the grid.

## Main results

* `Tracks.step`: a call keeps the capture side and what was heard together;
* `Capture.onBlock_append`: cutting a block changes nothing;
* `Tracks.keeps_iff`: where a jump back is right for every block;
* `hops_are_due`: the hops of a run.
-/

namespace EchoMuse.Wake

/-! ### The hop grid -/

/-- The hop mark: no grid point between the position and the mark ends a full window. -/
structure Marks (nextHop start pos : ℕ) : Prop where
  grid : hopSamples ∣ nextHop
  first : firstWindowEnd ≤ nextHop
  ahead : pos < nextHop
  none_due : ∀ g, hopSamples ∣ g → firstWindowEnd ≤ g → pos < g → g < nextHop →
    g < start + windowSamples

/-- Grid points are that far apart. -/
theorem grid_apart {a b : ℕ} (ha : hopSamples ∣ a) (hb : hopSamples ∣ b) (h : a < b) :
    a + hopSamples ≤ b := by
  obtain ⟨m, rfl⟩ := ha
  obtain ⟨n, rfl⟩ := hb
  have hlt : m < n := Nat.lt_of_mul_lt_mul_left h
  rw [← Nat.mul_succ]
  exact Nat.mul_le_mul_left _ hlt

theorem dvd_gridPast {n : ℕ} (to_ : ℕ) (h : hopSamples ∣ n) : hopSamples ∣ Ingest.gridPast n to_ := by
  rw [Ingest.gridPast]
  split_ifs
  · exact Nat.dvd_add h (Nat.dvd_mul_left _ _)
  · exact h

theorem gridPast_le {n to_ : ℕ} (hn : n ≤ to_) : Ingest.gridPast n to_ ≤ to_ + hopSamples := by
  rw [Ingest.gridPast, if_pos hn, Nat.add_mul, Nat.one_mul]
  have hmul := Nat.div_mul_le_self (to_ - n) hopSamples
  omega

theorem gridPast_of_lt {n to_ : ℕ} (h : to_ < n) : Ingest.gridPast n to_ = n :=
  if_neg (by omega)

namespace Marks

variable {nextHop start pos : ℕ}

/-- The mark of a new epoch. -/
theorem epoch : Marks firstWindowEnd 0 0 where
  grid := by decide
  first := le_rfl
  ahead := by decide
  none_due := fun g _ hfirst _ hlt => absurd hlt (by omega)

/-- The history starts later. -/
theorem restart (h : Marks nextHop start pos) {start' : ℕ} (hle : start ≤ start') :
    Marks nextHop start' pos where
  grid := h.grid
  first := h.first
  ahead := h.ahead
  none_due g hg hfirst hpos hlt := by
    have hdue := h.none_due g hg hfirst hpos hlt
    omega

/-- Samples up to `to_` are missing. -/
theorem missing (h : Marks nextHop start pos) {to_ : ℕ} (hstart : start ≤ pos) (hto : pos ≤ to_) :
    Marks (Ingest.gridPast nextHop to_) to_ to_ where
  grid := dvd_gridPast to_ h.grid
  first := h.first.trans (Ingest.le_gridPast _ _)
  ahead := Ingest.lt_gridPast _ _
  none_due g hg hfirst hpos hlt := by
    by_cases hpast : nextHop ≤ to_
    · have hapart := grid_apart hg (dvd_gridPast to_ h.grid) hlt
      have hle := gridPast_le hpast
      omega
    · rw [gridPast_of_lt (by omega)] at hlt
      have hdue := h.none_due g hg hfirst (by omega) hlt
      omega

/-- A jump back to `first`, not too far. -/
theorem back (h : Marks nextHop start pos) {first : ℕ} (hback : first < pos)
    (hkeeps : nextHop = firstWindowEnd ∨ nextHop < first + windowSamples + hopSamples) :
    Marks nextHop first first where
  grid := h.grid
  first := h.first
  ahead := hback.trans h.ahead
  none_due g hg hfirst hpos hlt := by
    have hapart := grid_apart hg h.grid hlt
    rcases hkeeps with hmark | hnear <;> omega

/-- One more sample, short of the mark. -/
theorem short (h : Marks nextHop start pos) (hne : pos + 1 ≠ nextHop) :
    Marks nextHop start (pos + 1) where
  grid := h.grid
  first := h.first
  ahead := by
    have hahead := h.ahead
    omega
  none_due g hg hfirst hpos hlt := h.none_due g hg hfirst (by omega) hlt

/-- One more sample, up to the mark: it moves on. -/
theorem pass (h : Marks nextHop start pos) (heq : pos + 1 = nextHop) :
    Marks (nextHop + hopSamples) start (pos + 1) where
  grid := Nat.dvd_add h.grid (dvd_refl _)
  first := h.first.trans (Nat.le_add_right _ _)
  ahead := by
    have hpos : 0 < hopSamples := by decide
    omega
  none_due g hg hfirst hpos hlt := by
    have hapart := grid_apart h.grid hg (by omega)
    omega

end Marks

/-! ### The history and its ring -/

/-- The capture side has the history that was heard. -/
structure Holds (c : Capture) (h : Heard) : Prop where
  epoch : c.ingest.epoch = h.epoch
  haveEpoch : c.ingest.haveEpoch = h.haveEpoch
  muted : c.ingest.muted = h.muted
  enabled : c.ingest.enabled = h.enabled
  validFrom : c.ingest.validFrom = h.start
  ring : ∀ i (hi : i < h.line.length), h.line.length ≤ i + windowSamples →
    c.ring (Fin.ofNat windowSamples (h.start + i)) = h.line[i]

/-- And its hop mark is right, within a block. -/
structure Follows (c : Capture) (h : Heard) : Prop extends Holds c h where
  mark : h.haveEpoch = true → Marks c.ingest.nextHop h.start h.pos

/-- The capture side and what was heard, between calls. -/
structure Tracks (c : Capture) (h : Heard) : Prop extends Follows c h where
  expected : c.ingest.expected = h.pos

/-- One more sample. -/
def Heard.add (h : Heard) (v : Int16) : Heard := { h with line := h.line ++ [v] }

@[simp] theorem Heard.length_add (h : Heard) (v : Int16) :
    (h.add v).line.length = h.line.length + 1 := List.length_append

@[simp] theorem Heard.pos_add (h : Heard) (v : Int16) : (h.add v).pos = h.pos + 1 := by
  rw [Heard.pos, Heard.pos, length_add, ← Nat.add_assoc]
  rfl

theorem Heard.hear_line (h : Heard) (pcm : List Int16) :
    (h.hear pcm).1 = { h with line := h.line ++ pcm } := by
  induction pcm generalizing h with
  | nil => rw [hear, List.append_nil]
  | cons v pcm ih =>
      have hhear : (h.hear (v :: pcm)).1 = ((h.add v).hear pcm).1 := rfl
      rw [hhear, ih, add, List.append_assoc]
      rfl

theorem Heard.pos_hear (h : Heard) (pcm : List Int16) :
    (h.hear pcm).1.pos = h.pos + pcm.length := by
  rw [hear_line, pos, pos, List.length_append, Nat.add_assoc]

theorem Heard.pos_jump (h : Heard) (first : ℕ) : (h.jump first).pos = first := by
  rw [jump]
  split_ifs with heq
  · exact heq.symm
  · rfl

theorem Heard.muted_jump (h : Heard) (first : ℕ) : (h.jump first).muted = h.muted := by
  rw [jump]
  split_ifs <;> rfl

theorem Heard.haveEpoch_jump (h : Heard) (first : ℕ) : (h.jump first).haveEpoch = h.haveEpoch := by
  rw [jump]
  split_ifs <;> rfl

namespace Holds

variable {c : Capture} {h : Heard}

/-- The next sample goes into the ring. -/
theorem write (hf : Holds c h) (v : Int16) : Holds (c.write h.pos v) (h.add v) where
  epoch := hf.epoch
  haveEpoch := hf.haveEpoch
  muted := hf.muted
  enabled := hf.enabled
  validFrom := hf.validFrom
  ring i hi hlast := by
    rw [Heard.length_add] at hi hlast
    rw [Capture.write]
    by_cases heq : i = h.line.length
    · subst heq
      have hlast : (h.add v).line[h.line.length] = v := List.getElem_concat_length rfl _
      rw [hlast]
      exact Function.update_self _ _ _
    · have hlt : i < h.line.length := by omega
      have hinit : (h.add v).line[i] = h.line[i] := List.getElem_append_left hlt
      rw [hinit, ← hf.ring i hlt (by omega)]
      refine Function.update_of_ne (fun hslot => ?_) _ _
      have hmod : (h.start + i) % windowSamples = (h.start + h.line.length) % windowSamples :=
        congrArg Fin.val hslot
      have hsize : windowSamples = 22400 := rfl
      rw [hsize] at hmod hlast
      omega

/-- **The ring's window is the last samples that were heard.** -/
theorem window_eq (hf : Holds c h) (hfull : windowSamples ≤ h.line.length) :
    c.window h.pos = h.line.drop (h.line.length - windowSamples) := by
  have hlen : (List.ofFn c.ring).length = windowSamples := List.length_ofFn
  have hmod : (h.pos - windowSamples) % windowSamples < windowSamples := Nat.mod_lt _ (by decide)
  have hrotate : c.window h.pos =
      (List.ofFn c.ring).rotate ((h.pos - windowSamples) % windowSamples) := by
    rw [Capture.window, List.rotate_eq_drop_append_take (by omega)]
  rw [hrotate]
  refine List.ext_getElem ?_ fun k hk hk' => ?_
  · rw [List.length_rotate, hlen, List.length_drop]
    omega
  · rw [List.length_rotate, hlen] at hk
    rw [List.getElem_rotate, List.getElem_drop, List.getElem_ofFn]
    have hindex : h.line.length - windowSamples + k < h.line.length := by omega
    rw [← hf.ring _ hindex (by omega)]
    have hsum : k + (h.pos - windowSamples) =
        h.start + (h.line.length - windowSamples + k) := by
      rw [Heard.pos]
      omega
    refine congrArg c.ring (Fin.ext ?_)
    rw [Fin.val_ofNat, ← hsum]
    simp only [hlen, Nat.add_mod_mod]

/-- A window is queued at a grid point just when it is due there. -/
theorem hopLocked_eq (hf : Holds c h) (hmuted : h.muted = false) (hgrid : hopSamples ∣ h.pos)
    (hfirst : firstWindowEnd ≤ h.pos) :
    c.hopLocked h.pos = if h.Due then [.hop h.window] else [] := by
  have hsize : windowSamples < firstWindowEnd := by decide
  have hqueues : c.ingest.queues h.pos = true ↔ h.Due := by
    rw [Ingest.queues, hf.enabled, hf.validFrom, Heard.Due, Bool.and_eq_true, Bool.not_eq_true',
      decide_eq_false_iff_not]
    constructor
    · rintro ⟨henabled, hvalid⟩
      rw [Heard.pos] at hvalid hfirst
      exact ⟨hgrid, hfirst, henabled, hmuted, by omega⟩
    · rintro ⟨-, -, henabled, -, hfull⟩
      rw [Heard.pos]
      exact ⟨henabled, by omega⟩
  rw [Capture.hopLocked]
  by_cases hdue : h.Due
  · rw [if_pos (hqueues.mpr hdue), if_pos hdue, hf.epoch, hf.window_eq hdue.2.2.2.2]
    rfl
  · rw [if_neg (mt hqueues.mp hdue), if_neg hdue]

end Holds

namespace Follows

variable {c : Capture} {h : Heard}

/-- Short of the mark nothing is due. -/
theorem not_due (hm : Marks c.ingest.nextHop h.start h.pos) {v : Int16}
    (hne : h.pos + 1 ≠ c.ingest.nextHop) : ¬ (h.add v).Due := by
  rintro ⟨hgrid, hfirst, -, -, hfull⟩
  rw [Heard.pos_add] at hgrid hfirst
  rw [Heard.length_add] at hfull
  have hahead := hm.ahead
  have hdue := hm.none_due _ hgrid hfirst (Nat.lt_succ_self _) (by omega)
  rw [Heard.pos] at hdue
  omega

/-- **The loop over a block queues what is due.** -/
theorem samples (hf : Follows c h) (hepoch : h.haveEpoch = true) (hmuted : h.muted = false)
    (pcm : List Int16) :
    (c.samples h.pos pcm).2 = (h.hear pcm).2 ∧ Follows (c.samples h.pos pcm).1 (h.hear pcm).1 := by
  induction pcm generalizing c h with
  | nil => exact ⟨rfl, hf⟩
  | cons v pcm ih =>
      have hmark := hf.mark hepoch
      have hwritten := hf.write v
      have hstart : (h.add v).start = h.start := rfl
      have hhear : h.hear (v :: pcm) = (((h.add v).hear pcm).1,
        (if (h.add v).Due then [.hop (h.add v).window] else []) ++ ((h.add v).hear pcm).2) := rfl
      rw [Capture.samples, hhear]
      by_cases hhop : h.pos + 1 = c.ingest.nextHop
      · have hqueued := hwritten.hopLocked_eq hmuted
          (by rw [Heard.pos_add, hhop]; exact hmark.grid)
          (by rw [Heard.pos_add, hhop]; exact hmark.first)
        have hpassed : Follows (c.write h.pos v).passHop (h.add v) :=
          ⟨⟨hwritten.epoch, hwritten.haveEpoch, hwritten.muted, hwritten.enabled,
            hwritten.validFrom, hwritten.ring⟩, fun _ => by
              rw [Heard.pos_add]
              exact hmark.pass hhop⟩
        obtain ⟨hevents, hrest⟩ := ih hpassed hepoch hmuted
        rw [Heard.pos_add] at hqueued hevents hrest
        rw [if_pos hhop, hqueued]
        dsimp only
        rw [hevents]
        exact ⟨rfl, hrest⟩
      · have hnext : Follows (c.write h.pos v) (h.add v) :=
          ⟨hwritten, fun _ => by
            rw [Heard.pos_add]
            exact hmark.short hhop⟩
        obtain ⟨hevents, hrest⟩ := ih hnext hepoch hmuted
        rw [Heard.pos_add] at hevents hrest
        rw [if_neg hhop, if_neg (not_due hmark hhop), List.nil_append]
        exact ⟨hevents, hrest⟩

end Follows

/-! ### Calls -/

/-- The flags that a history has. -/
structure Flags (g : Ingest) (h : Heard) : Prop where
  epoch : g.epoch = h.epoch
  haveEpoch : g.haveEpoch = h.haveEpoch
  muted : g.muted = h.muted
  enabled : g.enabled = h.enabled

/-- Nothing heard yet: no sample of the ring counts. -/
theorem Tracks.restartAt {c : Capture} {h : Heard} {g : Ingest} {at_ : ℕ} (hflags : Flags g h)
    (hvalid : g.validFrom = at_) (hexpected : g.expected = at_)
    (hmark : h.haveEpoch = true → Marks g.nextHop at_ at_) :
    Tracks { c with ingest := g } (h.restartAt at_) where
  epoch := hflags.epoch
  haveEpoch := hflags.haveEpoch
  muted := hflags.muted
  enabled := hflags.enabled
  validFrom := hvalid
  ring i hi := absurd hi (Nat.not_lt_zero i)
  mark := hmark
  expected := hexpected

namespace Capture

/-- The block does not start so far back that a grid point below the mark could still end a full
window. -/
def Keeps (c : Capture) (first : ℕ) : Prop :=
  first < c.ingest.expected → c.ingest.nextHop = firstWindowEnd ∨
    c.ingest.nextHop < first + windowSamples + hopSamples

instance (c : Capture) (first : ℕ) : Decidable (c.Keeps first) :=
  inferInstanceAs (Decidable (_ → _))

/-- A call does not jump too far back. -/
def Clear (c : Capture) : CaptureCall → Prop
  | .onBlock first pcm _ => pcm ≠ [] → c.ingest.haveEpoch = true → c.Keeps first
  | _ => True

instance (c : Capture) (x : CaptureCall) : Decidable (c.Clear x) := by
  cases x
  case onBlock first pcm gap => exact inferInstanceAs (Decidable (_ → _ → _))
  all_goals exact instDecidableTrue

/-- No call of a run jumps too far back. -/
def Fair (c : Capture) : List CaptureCall → Prop
  | [] => True
  | x :: xs => c.Clear x ∧ Fair (c.step x).1 xs

end Capture

namespace Tracks

variable {c : Capture} {h : Heard}

theorem start_le (h : Heard) : h.start ≤ h.pos := Nat.le_add_right _ _

/-- A reset keeps the mark where it is. -/
theorem reset_mark (ht : Tracks c h) (hepoch : h.haveEpoch = true) :
    Marks (Ingest.gridPast (max c.ingest.nextHop firstWindowEnd) h.pos) h.pos h.pos := by
  have hmark := ht.mark hepoch
  rw [max_eq_left hmark.first, gridPast_of_lt hmark.ahead]
  exact hmark.restart (start_le h)

/-- A call that restarts the history with other flags. -/
theorem reset (ht : Tracks c h) {g : Ingest} {h' : Heard} (hflags : Flags g h')
    (hexpected : g.expected = c.ingest.expected) (hnext : g.nextHop = c.ingest.nextHop)
    (hepoch : h'.haveEpoch = h.haveEpoch) :
    Tracks { c with ingest := g.reset } (h'.restartAt h.pos) := by
  refine restartAt ⟨hflags.epoch, hflags.haveEpoch, hflags.muted, hflags.enabled⟩
    (hexpected.trans ht.expected) (hexpected.trans ht.expected) fun htrue => ?_
  rw [Ingest.reset, hnext, hexpected, ht.expected]
  exact ht.reset_mark (hepoch ▸ htrue)

/-- Samples up to `to_` are missing. -/
theorem missing (ht : Tracks c h) {to_ : ℕ} (hto : h.pos ≤ to_) :
    Tracks { c with ingest := c.ingest.missing to_ } (h.restartAt to_) :=
  restartAt ⟨ht.epoch, ht.haveEpoch, ht.muted, ht.enabled⟩ rfl rfl fun hepoch =>
    (ht.mark hepoch).missing (start_le h) hto

/-- A jump. -/
theorem jump (ht : Tracks c h) (hepoch : h.haveEpoch = true) {first : ℕ} (hkeeps : c.Keeps first) :
    Tracks (c.jump first) (h.jump first) := by
  rw [Capture.Keeps, ht.expected] at hkeeps
  rw [Capture.jump, Heard.jump, ht.expected]
  rcases Nat.lt_trichotomy first h.pos with hlt | heq | hgt
  · have hmark := ht.mark hepoch
    have hsame : ¬ ({ c.ingest with expected := first }.reset).expected < first :=
      Nat.lt_irrefl first
    rw [if_pos hlt, if_neg (Nat.ne_of_lt hlt), if_neg hsame]
    refine restartAt ⟨ht.epoch, ht.haveEpoch, ht.muted, ht.enabled⟩ rfl rfl fun _ => ?_
    rw [Ingest.reset]
    dsimp only
    rw [max_eq_left hmark.first, gridPast_of_lt (hlt.trans hmark.ahead)]
    exact hmark.back hlt (hkeeps hlt)
  · have hnot : ¬ first < h.pos := by omega
    have hnot' : ¬ h.pos < first := by omega
    rw [if_neg hnot, if_pos heq, ht.expected, if_neg hnot']
    exact ht
  · have hnot : ¬ first < h.pos := by omega
    rw [if_neg hnot, if_neg (Nat.ne_of_gt hgt), ht.expected, if_pos hgt]
    exact ht.missing hgt.le

/-- **A block.** -/
theorem onBlock (ht : Tracks c h) {first : ℕ} {pcm : List Int16} (gap : Bool)
    (hkeeps : pcm ≠ [] → c.ingest.haveEpoch = true → c.Keeps first) :
    (c.onBlock first pcm gap).2 = (h.onBlock first pcm gap).2 ∧
      Tracks (c.onBlock first pcm gap).1 (h.onBlock first pcm gap).1 := by
  rw [Capture.onBlock, Heard.onBlock, ht.haveEpoch, ht.expected]
  by_cases hnone : pcm = [] ∨ h.haveEpoch = false
  · rw [if_pos hnone, if_pos hnone]
    exact ⟨rfl, ht⟩
  · rw [if_neg hnone, if_neg hnone]
    rw [not_or, Bool.not_eq_false, ← ht.haveEpoch] at hnone
    have hepoch : h.haveEpoch = true := ht.haveEpoch ▸ hnone.2
    have hjump := ht.jump hepoch (hkeeps hnone.1 hnone.2)
    have hpos := h.pos_jump first
    dsimp only
    rw [hjump.muted, h.muted_jump]
    by_cases hmiss : gap = true ∨ h.muted = true
    · rw [if_pos hmiss, if_pos hmiss]
      refine ⟨rfl, hjump.missing ?_⟩
      rw [hpos]
      exact Nat.le_add_right _ _
    · rw [if_neg hmiss, if_neg hmiss]
      rw [not_or, Bool.not_eq_true, Bool.not_eq_true] at hmiss
      obtain ⟨hevents, hrest⟩ := hjump.toFollows.samples ((h.haveEpoch_jump first).trans hepoch)
        ((h.muted_jump first).trans hmiss.2) pcm
      rw [hpos] at hevents hrest
      refine ⟨congrArg _ hevents, ⟨⟨hrest.epoch, hrest.haveEpoch, hrest.muted, hrest.enabled,
        hrest.validFrom, hrest.ring⟩, hrest.mark⟩, ?_⟩
      rw [Heard.pos_hear, hpos]

/-- **A call.** -/
theorem step (ht : Tracks c h) {x : CaptureCall} (hclear : c.Clear x) :
    (c.step x).2 = (h.step x).2 ∧ Tracks (c.step x).1 (h.step x).1 := by
  cases x with
  | setModel valid =>
      cases valid with
      | false => exact ⟨rfl, ht⟩
      | true => exact ⟨rfl, ht.reset ⟨ht.epoch, ht.haveEpoch, ht.muted, rfl⟩ rfl rfl rfl⟩
  | setUnavailable known =>
      cases known with
      | false => exact ⟨rfl, ht⟩
      | true => exact ⟨rfl, ht.reset ⟨ht.epoch, ht.haveEpoch, ht.muted, rfl⟩ rfl rfl rfl⟩
  | setEpoch epoch =>
      rw [Capture.step, Heard.step, ht.haveEpoch, ht.epoch]
      by_cases hsame : h.haveEpoch = true ∧ h.epoch = epoch
      · rw [if_pos hsame, if_pos hsame]
        exact ⟨rfl, ht⟩
      · rw [if_neg hsame, if_neg hsame]
        exact ⟨rfl, restartAt ⟨rfl, rfl, ht.muted, ht.enabled⟩ rfl rfl fun _ => Marks.epoch⟩
  | reset => exact ⟨rfl, ht.reset ⟨ht.epoch, ht.haveEpoch, ht.muted, ht.enabled⟩ rfl rfl rfl⟩
  | setMuted muted =>
      rw [Capture.step, Heard.step, ht.muted]
      by_cases hsame : h.muted = muted
      · rw [if_pos hsame, if_pos hsame]
        exact ⟨rfl, ht⟩
      · rw [if_neg hsame, if_neg hsame]
        exact ⟨rfl, ht.reset ⟨ht.epoch, ht.haveEpoch, rfl, ht.enabled⟩ rfl rfl rfl⟩
  | onBlock first pcm gap => exact ht.onBlock gap hclear

/-- Nothing has happened yet. -/
theorem init : Tracks {} {} where
  epoch := rfl
  haveEpoch := rfl
  muted := rfl
  enabled := rfl
  validFrom := rfl
  ring i hi := absurd hi (Nat.not_lt_zero i)
  mark hepoch := absurd hepoch Bool.false_ne_true
  expected := rfl

/-- **A run.** -/
theorem run (ht : Tracks c h) {calls : List CaptureCall} (hfair : c.Fair calls) :
    (c.run calls).2 = (h.run calls).2 ∧ Tracks (c.run calls).1 (h.run calls).1 := by
  induction calls generalizing c h with
  | nil => exact ⟨rfl, ht⟩
  | cons x xs ih =>
      obtain ⟨hevents, hnext⟩ := ht.step hfair.1
      obtain ⟨hrest, hend⟩ := ih hnext hfair.2
      rw [Capture.run, Heard.run]
      dsimp only
      rw [hevents, hrest]
      exact ⟨rfl, hend⟩

end Tracks

/-! ### Jumping too far back -/

/-- Short of the mark the loop queues nothing. -/
theorem Capture.samples_short (c : Capture) (pos : ℕ) (pcm : List Int16)
    (hshort : pos + pcm.length < c.ingest.nextHop) : (c.samples pos pcm).2 = [] := by
  induction pcm generalizing c pos with
  | nil => rfl
  | cons v pcm ih =>
      rw [List.length_cons] at hshort
      rw [Capture.samples, if_neg (by omega)]
      refine ih _ _ ?_
      rw [Capture.write]
      dsimp only
      omega

theorem Heard.hear_concat (h : Heard) (pcm : List Int16) (v : Int16) :
    (h.hear (pcm ++ [v])).2 = (h.hear pcm).2 ++
      if ((h.hear pcm).1.add v).Due then [.hop ((h.hear pcm).1.add v).window] else [] := by
  induction pcm generalizing h with
  | nil => exact List.append_nil _
  | cons w pcm ih =>
      have hhear : ∀ l, h.hear (w :: l) = (((h.add w).hear l).1,
        (if (h.add w).Due then [.hop (h.add w).window] else []) ++ ((h.add w).hear l).2) :=
        fun _ => rfl
      rw [List.cons_append, hhear, hhear, ih, List.append_assoc]

/-- After a jump back, a grid point below the mark that ends a full window is not scored. -/
theorem Tracks.missed {c : Capture} {h : Heard} (ht : Tracks c h) (hepoch : h.haveEpoch = true)
    (henabled : h.enabled = true) (hmuted : h.muted = false) {first g : ℕ}
    (hback : first < c.ingest.expected) (hgrid : hopSamples ∣ g) (hfirst : firstWindowEnd ≤ g)
    (hfull : first + windowSamples ≤ g) (hbelow : g < c.ingest.nextHop) :
    (c.onBlock first (List.replicate (g - first) 0) false).2 ≠
      (h.onBlock first (List.replicate (g - first) 0) false).2 := by
  have hsize : 0 < windowSamples := by decide
  have hmark := ht.mark hepoch
  rw [ht.expected] at hback
  obtain ⟨n, hn⟩ : ∃ n, g - first = n + 1 := ⟨g - first - 1, by omega⟩
  have hsome : ¬ (List.replicate (n + 1) (0 : Int16) = [] ∨ h.haveEpoch = false) := by
    rw [hepoch, List.replicate_succ]
    simp
  have hjump : c.jump first = { c with ingest := { c.ingest with expected := first }.reset } := by
    have hsame : ¬ ({ c.ingest with expected := first }.reset).expected < first :=
      Nat.lt_irrefl first
    rw [Capture.jump, ht.expected, if_pos hback, if_neg hsame]
  have hnext : (c.jump first).ingest.nextHop = c.ingest.nextHop := by
    rw [hjump, Ingest.reset]
    dsimp only
    rw [max_eq_left hmark.first, gridPast_of_lt (hback.trans hmark.ahead)]
  have hheard : h.jump first = h.restartAt first := if_neg (Nat.ne_of_lt hback)
  have hcode : ((c.jump first).samples first (List.replicate (n + 1) 0)).2 = [] := by
    refine Capture.samples_short _ _ _ ?_
    rw [hnext, List.length_replicate]
    omega
  have hdue : (((h.restartAt first).hear (List.replicate n 0)).1.add 0).Due := by
    rw [Heard.Due, Heard.pos_add, Heard.pos_hear, Heard.length_add, Heard.hear_line,
      List.length_append, List.length_replicate]
    have hempty : (h.restartAt first).line.length = 0 := rfl
    have hstart : (h.restartAt first).pos = first := rfl
    have hpos : (h.restartAt first).pos + n + 1 = g := by omega
    rw [hpos, hempty]
    exact ⟨hgrid, hfirst, henabled, hmuted, by omega⟩
  have hspec : ((h.restartAt first).hear (List.replicate (n + 1) 0)).2 ≠ [] := by
    rw [List.replicate_succ', Heard.hear_concat, if_pos hdue]
    exact List.append_ne_nil_of_right_ne_nil _ (List.cons_ne_nil _ _)
  rw [hn, Capture.onBlock, Heard.onBlock, ht.haveEpoch, if_neg hsome, if_neg hsome]
  have hon : ¬ (false = true ∨ h.muted = true) := by
    rw [hmuted]
    simp
  have hquiet : (c.jump first).ingest.muted = h.muted := by
    rw [hjump]
    exact ht.muted
  dsimp only
  rw [hquiet, Heard.muted_jump, if_neg hon, if_neg hon, ht.expected, hheard]
  dsimp only
  rw [hcode]
  exact fun heq => hspec (List.append_cancel_left heq).symm

/-- **While the detector listens, a block's start is right for every block just when it does not
jump too far back.** -/
theorem Tracks.keeps_iff {c : Capture} {h : Heard} (ht : Tracks c h) (hepoch : h.haveEpoch = true)
    (henabled : h.enabled = true) (hmuted : h.muted = false) (first : ℕ) :
    (∀ pcm, (c.onBlock first pcm false).2 = (h.onBlock first pcm false).2) ↔ c.Keeps first := by
  constructor
  · intro hall
    by_contra hfar
    rw [Capture.Keeps, Classical.not_imp, not_or, Nat.not_lt] at hfar
    obtain ⟨hback, hne, hfar⟩ := hfar
    have hmark := ht.mark hepoch
    have hapart := grid_apart (by decide) hmark.grid (Nat.lt_of_le_of_ne hmark.first (Ne.symm hne))
    have hpos : 0 < hopSamples := by decide
    refine ht.missed hepoch henabled hmuted hback
      (Nat.dvd_sub hmark.grid (dvd_refl hopSamples)) ?_ ?_ ?_ (hall _)
    all_goals omega
  · exact fun hkeeps pcm => (ht.onBlock false fun _ _ => hkeeps).1

/-! ### The order of the hops -/

namespace Event

/-- Up to the next restart the hops end later and later, the first of them after `lo`. -/
def After (lo : ℕ) : List Event → Prop
  | [] => True
  | .hop w :: evs => lo < w.end_ ∧ After w.end_ evs
  | .restart :: evs => After 0 evs

/-- A hop ends later than every one before it since the last restart. -/
def Ascending (evs : List Event) : Prop :=
  ∀ before w between w' rest, evs = before ++ .hop w :: (between ++ .hop w' :: rest) →
    .restart ∉ between → w.end_ < w'.end_

theorem After.mono {lo lo' : ℕ} {evs : List Event} (h : After lo' evs) (hle : lo ≤ lo') :
    After lo evs := by
  cases evs with
  | nil => trivial
  | cons ev evs =>
      cases ev with
      | hop w => exact ⟨Nat.lt_of_le_of_lt hle h.1, h.2⟩
      | restart => exact h

theorem After.of_append {lo : ℕ} {before evs : List Event} (h : After lo (before ++ evs)) :
    ∃ lo', After lo' evs := by
  induction before generalizing lo with
  | nil => exact ⟨lo, h⟩
  | cons ev before ih =>
      cases ev with
      | hop w => exact ih h.2
      | restart => exact ih h

theorem After.lt {lo : ℕ} {between rest : List Event} {w : Window}
    (h : After lo (between ++ .hop w :: rest)) (hno : .restart ∉ between) : lo < w.end_ := by
  induction between generalizing lo with
  | nil => exact h.1
  | cons ev between ih =>
      rw [List.mem_cons, not_or] at hno
      cases ev with
      | hop w' => exact h.1.trans (ih h.2 hno.2)
      | restart => exact absurd rfl hno.1

theorem After.ascending {lo : ℕ} {evs : List Event} (h : After lo evs) : Ascending evs := by
  rintro before w between w' rest rfl hno
  obtain ⟨lo', hlo⟩ := h.of_append
  exact hlo.2.lt hno

end Event

namespace Capture

/-- The loop's hops end after its start, and what follows comes after its end. -/
theorem samples_after (c : Capture) {pos : ℕ} {pcm : List Int16} {evs : List Event}
    (h : Event.After (pos + pcm.length) evs) :
    Event.After pos ((c.samples pos pcm).2 ++ evs) := by
  induction pcm generalizing c pos with
  | nil => exact h
  | cons v pcm ih =>
      rw [List.length_cons, Nat.add_comm pcm.length 1, ← Nat.add_assoc] at h
      rw [samples]
      split_ifs with hhop
      · have hrest := ih (c.write pos v).passHop h
        dsimp only
        rw [hopLocked, List.append_assoc]
        split_ifs
        · exact ⟨Nat.lt_succ_self pos, hrest⟩
        · exact hrest.mono (Nat.le_succ pos)
      · exact (ih (c.write pos v) h).mono (Nat.le_succ pos)

/-- One call: what follows it may rely on where it ended. -/
theorem step_after (c : Capture) (x : CaptureCall) {evs : List Event}
    (h : Event.After (c.step x).1.ingest.expected evs) :
    Event.After c.ingest.expected ((c.step x).2 ++ evs) := by
  cases x with
  | setModel valid =>
      cases valid with
      | false => exact h
      | true => exact h.mono (Nat.zero_le _)
  | setUnavailable known =>
      cases known with
      | false => exact h
      | true => exact h.mono (Nat.zero_le _)
  | setEpoch epoch =>
      rw [step] at h ⊢
      split_ifs at h ⊢
      · exact h
      · exact h
  | reset => exact h.mono (Nat.zero_le _)
  | setMuted muted =>
      rw [step] at h ⊢
      split_ifs at h ⊢
      · exact h
      · exact h.mono (Nat.zero_le _)
  | onBlock first pcm gap =>
      rw [step, onBlock] at h ⊢
      by_cases hnone : pcm = [] ∨ c.ingest.haveEpoch = false
      · rw [if_pos hnone] at h ⊢
        exact h
      · rw [if_neg hnone] at h ⊢
        have hblock : ∀ tail, Event.After first tail → Event.After c.ingest.expected
            ((if first < c.ingest.expected then [Event.restart] else []) ++ tail) := by
          intro tail htail
          split_ifs with hback
          · exact htail.mono (Nat.zero_le _)
          · exact htail.mono (by omega)
        dsimp only at h ⊢
        by_cases hmiss : gap = true ∨ (c.jump first).ingest.muted = true
        · rw [if_pos hmiss] at h ⊢
          exact hblock _ (h.mono (Nat.le_add_right _ _))
        · rw [if_neg hmiss] at h ⊢
          dsimp only at h ⊢
          rw [List.append_assoc]
          exact hblock _ (samples_after _ h)

/-- **No grid point is queued twice without a restart in between.** -/
theorem run_after (c : Capture) (calls : List CaptureCall) :
    Event.After c.ingest.expected (c.run calls).2 := by
  induction calls generalizing c with
  | nil => trivial
  | cons x xs ih => exact c.step_after x (ih _)

end Capture

/-! ### Cutting a block -/

namespace Capture

/-- The sample that is expected next. -/
def expecting (c : Capture) (end_ : ℕ) : Capture :=
  { c with ingest := { c.ingest with expected := end_ } }

/-- The loop does not look at the sample that is expected next. -/
theorem samples_expecting (c : Capture) (end_ pos : ℕ) (pcm : List Int16) :
    (c.expecting end_).samples pos pcm =
      ((c.samples pos pcm).1.expecting end_, (c.samples pos pcm).2) := by
  induction pcm generalizing c pos with
  | nil => rfl
  | cons v pcm ih =>
      rw [samples, samples]
      have hwrite : (c.expecting end_).write pos v = (c.write pos v).expecting end_ := rfl
      have hpass : ((c.write pos v).expecting end_).passHop =
        (c.write pos v).passHop.expecting end_ := rfl
      have hmark : (c.expecting end_).ingest.nextHop = c.ingest.nextHop := rfl
      rw [hwrite, hmark, hpass, ih, ih]
      split_ifs <;> rfl

theorem samples_append (c : Capture) (pos : ℕ) (x y : List Int16) :
    c.samples pos (x ++ y) =
      (((c.samples pos x).1.samples (pos + x.length) y).1,
        (c.samples pos x).2 ++ ((c.samples pos x).1.samples (pos + x.length) y).2) := by
  induction x generalizing c pos with
  | nil => rfl
  | cons v x ih =>
      rw [List.cons_append, samples, samples, List.length_cons, Nat.add_comm x.length 1,
        ← Nat.add_assoc, ih, ih]
      split_ifs
      · rw [List.append_assoc]
      · rfl

theorem haveEpoch_samples (c : Capture) (pos : ℕ) (pcm : List Int16) :
    (c.samples pos pcm).1.ingest.haveEpoch = c.ingest.haveEpoch := by
  induction pcm generalizing c pos with
  | nil => rfl
  | cons v pcm ih =>
      rw [samples]
      split_ifs <;> exact ih _ _

theorem muted_samples (c : Capture) (pos : ℕ) (pcm : List Int16) :
    (c.samples pos pcm).1.ingest.muted = c.ingest.muted := by
  induction pcm generalizing c pos with
  | nil => rfl
  | cons v pcm ih =>
      rw [samples]
      split_ifs <;> exact ih _ _

theorem haveEpoch_jump (c : Capture) (first : ℕ) :
    (c.jump first).ingest.haveEpoch = c.ingest.haveEpoch := by
  rw [jump]
  dsimp only
  split_ifs <;> rfl

end Capture

/-- Steps of the loop that are still due change nothing. -/
theorem gridPast_add {n to_ : ℕ} (k : ℕ) (h : n + k * hopSamples ≤ to_ + hopSamples) :
    Ingest.gridPast (n + k * hopSamples) to_ = Ingest.gridPast n to_ := by
  induction k with
  | zero => rw [Nat.zero_mul, Nat.add_zero]
  | succ k ih =>
      rw [Nat.succ_mul, ← Nat.add_assoc] at h ⊢
      rw [← Ingest.gridPast_loop (by omega), ih (by omega)]

/-- The mark passes two bounds as it passes the second. -/
theorem gridPast_gridPast {n mid to_ : ℕ} (h : mid ≤ to_) :
    Ingest.gridPast (Ingest.gridPast n mid) to_ = Ingest.gridPast n to_ := by
  by_cases hpast : n ≤ mid
  · have hle := gridPast_le hpast
    have hmid : Ingest.gridPast n mid = n + ((mid - n) / hopSamples + 1) * hopSamples :=
      if_pos hpast
    rw [hmid] at hle ⊢
    exact gridPast_add _ (by omega)
  · rw [gridPast_of_lt (Nat.lt_of_not_le hpast)]

theorem Ingest.missing_missing (g : Ingest) {mid to_ : ℕ} (h : mid ≤ to_) :
    (g.missing mid).missing to_ = g.missing to_ := by
  rw [missing, missing, missing]
  dsimp only
  rw [gridPast_gridPast h]

namespace Capture

variable {c : Capture} {first : ℕ} {pcm : List Int16} {gap : Bool}

/-- What a jump back does to the queue. -/
def restarts (c : Capture) (first : ℕ) : List Event :=
  if first < c.ingest.expected then [.restart] else []

theorem onBlock_missing (hsome : pcm ≠ []) (hepoch : c.ingest.haveEpoch ≠ false)
    (hmiss : gap = true ∨ (c.jump first).ingest.muted = true) :
    c.onBlock first pcm gap =
      ({ c.jump first with ingest := (c.jump first).ingest.missing (first + pcm.length) },
        c.restarts first) := by
  rw [onBlock, if_neg (not_or.mpr ⟨hsome, hepoch⟩)]
  exact if_pos hmiss

theorem onBlock_heard (hsome : pcm ≠ []) (hepoch : c.ingest.haveEpoch ≠ false)
    (hmiss : ¬ (gap = true ∨ (c.jump first).ingest.muted = true)) :
    c.onBlock first pcm gap =
      (((c.jump first).samples first pcm).1.expecting (first + pcm.length),
        c.restarts first ++ ((c.jump first).samples first pcm).2) := by
  rw [onBlock, if_neg (not_or.mpr ⟨hsome, hepoch⟩)]
  exact if_neg hmiss

/-- At the expected sample there is no jump. -/
theorem jump_self (c : Capture) : c.jump c.ingest.expected = c := by
  rw [jump, if_neg (Nat.lt_irrefl _), if_neg (Nat.lt_irrefl _)]

theorem restarts_self (c : Capture) : c.restarts c.ingest.expected = [] :=
  if_neg (Nat.lt_irrefl _)

/-- **Cutting a block changes nothing.** -/
theorem onBlock_append (c : Capture) (first : ℕ) (x y : List Int16) (gap : Bool) :
    c.onBlock first (x ++ y) gap =
      (((c.onBlock first x gap).1.onBlock (first + x.length) y gap).1,
        (c.onBlock first x gap).2 ++
          ((c.onBlock first x gap).1.onBlock (first + x.length) y gap).2) := by
  by_cases hepoch : c.ingest.haveEpoch = false
  · have hidle : ∀ first pcm, c.onBlock first pcm gap = (c, []) :=
      fun _ _ => if_pos (.inr hepoch)
    rw [hidle, hidle, hidle]
    rfl
  by_cases hx : x = []
  · subst hx
    have hidle : c.onBlock first [] gap = (c, []) := if_pos (.inl rfl)
    rw [hidle]
    rfl
  by_cases hy : y = []
  · subst hy
    have hidle : ∀ (d : Capture) at_, d.onBlock at_ [] gap = (d, []) := fun _ _ => if_pos (.inl rfl)
    rw [hidle, List.append_nil, List.append_nil]
  have hboth : x ++ y ≠ [] := List.append_ne_nil_of_left_ne_nil hx y
  have hjumped : (c.jump first).ingest.haveEpoch ≠ false := by
    rwa [haveEpoch_jump]
  by_cases hmiss : gap = true ∨ (c.jump first).ingest.muted = true
  · -- both halves are missing: the mark passes the cut on its way
    rw [onBlock_missing hboth hepoch hmiss, onBlock_missing hx hepoch hmiss]
    set mid : Capture :=
      { c.jump first with ingest := (c.jump first).ingest.missing (first + x.length) } with hmid
    have hself : mid.jump (first + x.length) = mid := mid.jump_self
    have hquiet : mid.restarts (first + x.length) = [] := mid.restarts_self
    have hmidEpoch : mid.ingest.haveEpoch ≠ false := hjumped
    have hmissing : gap = true ∨ (mid.jump (first + x.length)).ingest.muted = true := by
      rw [hself]
      exact hmiss
    dsimp only
    rw [onBlock_missing hy hmidEpoch hmissing, hself, hquiet, List.append_nil, List.length_append,
      ← Nat.add_assoc, hmid]
    dsimp only
    rw [Ingest.missing_missing _ (Nat.le_add_right _ _)]
  · -- both halves are heard: the loop goes on where it was cut
    rw [onBlock_heard hboth hepoch hmiss, onBlock_heard hx hepoch hmiss]
    set mid := ((c.jump first).samples first x).1.expecting (first + x.length) with hmid
    have hself : mid.jump (first + x.length) = mid := mid.jump_self
    have hquiet : mid.restarts (first + x.length) = [] := mid.restarts_self
    have hmidEpoch : mid.ingest.haveEpoch ≠ false := by
      have hsame : mid.ingest.haveEpoch = (c.jump first).ingest.haveEpoch := haveEpoch_samples _ _ _
      rwa [hsame]
    have hheard : ¬ (gap = true ∨ (mid.jump (first + x.length)).ingest.muted = true) := by
      have hsame : mid.ingest.muted = (c.jump first).ingest.muted := muted_samples _ _ _
      rwa [hself, hsame]
    rw [onBlock_heard hy hmidEpoch hheard, hself, hquiet, List.nil_append, samples_append,
      List.length_append, ← Nat.add_assoc, List.append_assoc, hmid, samples_expecting]
    rfl

theorem run_append (c : Capture) (xs ys : List CaptureCall) :
    c.run (xs ++ ys) = (((c.run xs).1.run ys).1, (c.run xs).2 ++ ((c.run xs).1.run ys).2) := by
  induction xs generalizing c with
  | nil => rfl
  | cons x xs ih =>
      rw [List.cons_append, run, run, ih]
      dsimp only
      rw [List.append_assoc]

/-- **Nor in a run.** -/
theorem run_cut (c : Capture) (before after : List CaptureCall) (first : ℕ) (x y : List Int16)
    (gap : Bool) :
    c.run (before ++ .onBlock first (x ++ y) gap :: after) =
      c.run (before ++ .onBlock first x gap :: .onBlock (first + x.length) y gap :: after) := by
  rw [run_append, run_append]
  have hcut : ∀ d : Capture, d.run (.onBlock first (x ++ y) gap :: after) =
      d.run (.onBlock first x gap :: .onBlock (first + x.length) y gap :: after) := by
    intro d
    rw [run, run, run, step, step, step, onBlock_append]
    dsimp only
    rw [List.append_assoc]
  rw [hcut]

end Capture

theorem Heard.run_append (h : Heard) (xs ys : List CaptureCall) :
    h.run (xs ++ ys) = (((h.run xs).1.run ys).1, (h.run xs).2 ++ ((h.run xs).1.run ys).2) := by
  induction xs generalizing h with
  | nil => rfl
  | cons x xs ih =>
      rw [List.cons_append, run, run, ih]
      dsimp only
      rw [List.append_assoc]

/-! ### Every run -/

/-- **While no block jumps too far back, a run queues the windows that are due and no others**, in
their order, however its audio is cut; and for a detector that listens, a block's start is right for
every block just when it does not jump too far back. -/
theorem hops_are_due (calls : List CaptureCall) (hfair : Capture.Fair {} calls) :
    (Capture.run {} calls).2 = (Heard.run {} calls).2 ∧
      Event.Ascending (Capture.run {} calls).2 ∧
      (∀ before first x y gap after, calls = before ++ .onBlock first (x ++ y) gap :: after →
        Capture.run {} calls =
          Capture.run {} (before ++ .onBlock first x gap :: .onBlock (first + x.length) y gap ::
            after)) ∧
      ∀ first, (Capture.run {} calls).1.ingest.haveEpoch = true →
        (Capture.run {} calls).1.ingest.listens = true →
        ((∀ pcm, ((Capture.run {} calls).1.onBlock first pcm false).2 =
            ((Heard.run {} calls).1.onBlock first pcm false).2) ↔
          (Capture.run {} calls).1.Keeps first) := by
  obtain ⟨hevents, htracks⟩ := Tracks.init.run hfair
  refine ⟨hevents, (Capture.run_after {} calls).ascending, ?_, ?_⟩
  · rintro before first x y gap after rfl
    exact Capture.run_cut {} before after first x y gap
  · intro first hepoch hlistens
    rw [Ingest.listens, Bool.and_eq_true, Bool.not_eq_true', htracks.enabled, htracks.muted]
      at hlistens
    exact htracks.keeps_iff (htracks.haveEpoch ▸ hepoch) hlistens.1 hlistens.2 first

/-- A jump back before the first window. -/
theorem hops_are_due_before_first :
    let calls := [CaptureCall.setEpoch 1, .setModel true, .onBlock 0 [1, 2] false,
      .onBlock 1 [3] false]
    Capture.Fair {} calls ∧ (Capture.run {} calls).2 = (Heard.run {} calls).2 := by
  intro calls
  have hfair : Capture.Fair {} calls :=
    ⟨trivial, trivial, by decide, by decide, trivial⟩
  exact ⟨hfair, (hops_are_due calls hfair).1⟩

/-- A minute on and then back to the start: the first full window is not scored. -/
theorem deaf_after_jump_back :
    let calls := [CaptureCall.setEpoch 1, .setModel true, .onBlock 1000000 [0] false]
    let back := CaptureCall.onBlock 0 (List.replicate firstWindowEnd 0) false
    (Capture.run {} (calls ++ [back])).2 ≠ (Heard.run {} (calls ++ [back])).2 := by
  intro calls back heq
  have hfair : Capture.Fair {} calls := ⟨trivial, trivial, by decide, trivial⟩
  obtain ⟨hevents, htracks⟩ := Tracks.init.run hfair
  have hmissed : ((Capture.run {} calls).1.onBlock 0 (List.replicate (firstWindowEnd - 0) 0)
      false).2 ≠ _ :=
    htracks.missed rfl rfl rfl (by decide) (by decide) le_rfl (by decide) (by decide)
  rw [Nat.sub_zero] at hmissed
  rw [Capture.run_append, Heard.run_append, hevents] at heq
  have hback := List.append_cancel_left heq
  rw [Capture.run, Heard.run] at hback
  exact hmissed (List.append_cancel_right hback)

end EchoMuse.Wake
