import EchoMuse.Grammar.Idempotence

/-!
# The Words That Change Again

Which words of a text the first run leaves so that a second run changes them. The first run makes
new words where it splits letters off a number, where it writes a contraction out and where it makes
a clock word; only the letters and the stem of a contraction can be anything.

## Main results

* `settled_iff_stable`: what the words must be for the passes to leave nothing to change;
* `normalize_idempotent_iff`: normalizing twice is normalizing once for the texts of such words, and
  for no others.
-/

namespace EchoMuse.Grammar

open Fields (fields join trim)

variable {u : Unicode}

/-- The word leaves no word that a second run changes: it is no number with the letters `oclock`,
nor a contraction of such a number, of a contraction, of `oclock` or of a word in apostrophes. -/
def StableWord (u : Unicode) (w : Word) : Prop :=
  (∀ d s, splitMeridiemSuffix u w = some (d, s) → s ≠ "oclock".toList) ∧
    (splitMeridiemSuffix u w = none → ∀ s, stem w = some s → ¬ Loose u s)

/-- The word ends in `o` when the passes are through with it. -/
def LeavesO (u : Unicode) (w : Word) : Prop :=
  w = "o".toList ∨ ∃ d, splitMeridiemSuffix u w = some (d, "o".toList)

/-- The word starts with `clock` then. -/
def LeavesClock (w : Word) : Prop := w = "clock".toList ∨ stem w = some "clock".toList

/-- Two words that leave no clock word cut in two; one that is cut in two is made one. -/
def StablePair (u : Unicode) (v w : Word) : Prop :=
  LeavesO u v → LeavesClock w → v = "o".toList ∧ w = "clock".toList

def Stable (u : Unicode) (ws : List Word) : Prop :=
  (∀ w ∈ ws, StableWord u w) ∧ ws.IsChain (StablePair u)

/-! ### Words written out -/

/-- The words of the table, and the words they are written out in. -/
theorem table_spec {p : Word × Word} (hp : p ∈ contractionTable) :
    (∀ x ∈ p.2.splitOn ' ', x ≠ "oclock".toList ∧ x ≠ "clock".toList) ∧
      (p.2.splitOn ' ').getLast? ≠ some "o".toList ∧ p.1 ≠ "o".toList ∧ p.1 ≠ "clock".toList ∧
      p.2.splitOn ' ' ≠ [] := by
  have hkeys : ∀ p ∈ contractionTable, p.1 ≠ "o".toList ∧ p.1 ≠ "clock".toList := by decide
  have hwords : ∀ x ∈ p.2.splitOn ' ', x ∈ plainWords := fun x hx =>
    List.mem_append_left _ (List.mem_append_right _ (List.mem_flatMap.mpr ⟨p, hp, hx⟩))
  have hspec := fun x hx => plainWords_spec x (hwords x hx)
  refine ⟨fun x hx => ⟨(hspec x hx).2.2.2.2.2, (hspec x hx).2.2.2.2.1⟩, fun hlast => ?_,
    (hkeys p hp).1, (hkeys p hp).2, List.splitOn_ne_nil ' ' p.2⟩
  exact (hspec _ (List.mem_of_getLast? hlast)).2.2.2.1 rfl

/-- No second run changes them. -/
theorem table_not_loose {p : Word × Word} (hp : p ∈ contractionTable) :
    ∀ x ∈ p.2.splitOn ' ', ¬ Loose u x := by
  intro x hx
  obtain ⟨-, hstill, hquote⟩ := table_full (u := u) hp hx
  rintro (hend | rfl | hnot)
  · exact hquote (List.mem_of_getLast? hend)
  · exact ((table_spec hp).1 _ hx).1 rfl
  · exact hnot hstill

/-- Nor is the word for an ending changed. -/
theorem suffix_not_loose {p : Word × Word} (hp : p ∈ suffixes) : ¬ Loose u p.2 := by
  obtain ⟨-, -, -, hquote, -, -, hoclock, hexpand, hhead⟩ := suffix_spec hp
  rintro (hend | hoclock' | hnot)
  · exact hquote (List.mem_of_getLast? hend)
  · exact hoclock hoclock'
  · exact hnot ⟨split_eq_none hhead, hexpand⟩

theorem not_mem_of_alphabetic {s : Word} (h : ∀ c ∈ s, u.isAlphabetic c = true) : '\'' ∉ s := by
  intro hc
  have := h _ hc
  rw [not_alphabetic_apostrophe] at this
  cases this

/-- A word with a stem has an apostrophe. -/
theorem mem_of_stem {w s : Word} (h : stem w = some s) : '\'' ∈ w := by
  obtain ⟨hstem, -⟩ | ⟨hstem, -⟩ | ⟨p, hp, s', -, hw, -, -⟩ := expand_cases w
  · rw [hstem] at h
    cases h
  · rw [hstem] at h
    cases h
  · obtain ⟨⟨hpos, -⟩, -⟩ := suffix_spec hp
    rw [hw]
    exact List.mem_append_right _ (List.count_pos_iff.mp hpos)

/-- The words a word is written out as are not changed again if its stem is not. -/
theorem expand_not_loose_iff {w : Word} (hsplit : splitMeridiemSuffix u w = none)
    (hoclock : w ≠ "oclock".toList) (hlast : w.getLast? ≠ some '\'') :
    (∀ x ∈ expand w, ¬ Loose u x) ↔ ∀ s, stem w = some s → ¬ Loose u s := by
  obtain ⟨hstem, heq⟩ | ⟨hstem, p, hp, -, heq⟩ | ⟨p, hp, s, -, -, hstem, heq⟩ := expand_cases w
  · refine iff_of_true (fun x hx => ?_) fun s hs => ?_
    · rw [heq] at hx
      rw [List.mem_singleton.mp hx]
      rintro (hend | hw | hnot)
      · exact hlast hend
      · exact hoclock hw
      · exact hnot ⟨hsplit, heq⟩
    · rw [hstem] at hs
      cases hs
  · refine iff_of_true (fun x hx => ?_) fun s hs => ?_
    · rw [heq] at hx
      exact table_not_loose hp x hx
    · rw [hstem] at hs
      cases hs
  · rw [heq, hstem]
    constructor
    · rintro h s' hs
      cases hs
      exact h s List.mem_cons_self
    · intro h x hx
      obtain rfl | hx := List.mem_cons.mp hx
      · exact h _ rfl
      · rw [List.mem_singleton.mp hx]
        exact suffix_not_loose hp

/-- No clock word is cut in two by writing a word out. -/
theorem expand_apart (w : Word) : (expand w).IsChain Apart := by
  obtain ⟨-, heq⟩ | ⟨-, p, hp, -, heq⟩ | ⟨p, hp, s, -, -, -, heq⟩ := expand_cases w
  · rw [heq]
    exact .singleton w
  · rw [heq]
    refine List.Pairwise.isChain (List.pairwise_of_forall_mem_list fun a _ b hb => ?_)
    rintro ⟨-, rfl⟩
    exact ((table_spec hp).1 _ hb).2 rfl
  · obtain ⟨-, -, -, -, -, hclock, -⟩ := suffix_spec hp
    rw [heq, List.isChain_pair]
    exact fun h => hclock h.2

theorem expand_ne_nil (w : Word) : expand w ≠ [] := by
  obtain ⟨-, heq⟩ | ⟨-, p, hp, -, heq⟩ | ⟨p, hp, s, -, -, -, heq⟩ := expand_cases w
  · rw [heq]
    exact List.cons_ne_nil _ _
  · rw [heq]
    exact (table_spec hp).2.2.2.2
  · rw [heq]
    exact List.cons_ne_nil _ _

theorem expand_getLast?_iff (w : Word) :
    (expand w).getLast? = some "o".toList ↔ w = "o".toList := by
  obtain ⟨-, heq⟩ | ⟨-, p, hp, hw, heq⟩ | ⟨p, hp, s, -, hw, -, heq⟩ := expand_cases w
  · rw [heq]
    exact Option.some_inj
  · obtain ⟨-, hlast, ho, -⟩ := table_spec hp
    rw [heq, hw]
    exact iff_of_false hlast ho
  · obtain ⟨⟨hpos, -⟩, -, -, -, ho, -⟩ := suffix_spec hp
    rw [heq]
    refine iff_of_false (fun h => ho (Option.some.inj h)) fun h => ?_
    have hmem : '\'' ∈ w := hw ▸ List.mem_append_right _ (List.count_pos_iff.mp hpos)
    rw [h] at hmem
    exact absurd hmem (by decide)

theorem expand_head?_iff (w : Word) : (expand w).head? = some "clock".toList ↔ LeavesClock w := by
  rw [LeavesClock]
  obtain ⟨hstem, heq⟩ | ⟨hstem, p, hp, hw, heq⟩ | ⟨p, hp, s, -, hw, hstem, heq⟩ := expand_cases w
  · rw [heq, hstem]
    simp
  · obtain ⟨hwords, -, -, hclock, -⟩ := table_spec hp
    rw [heq, hstem, hw]
    refine iff_of_false (fun hhead => ?_) (by rintro (h | h); exacts [hclock h, nomatch h])
    exact (hwords _ (List.mem_of_mem_head? hhead)).2 rfl
  · obtain ⟨⟨hpos, -⟩, -⟩ := suffix_spec hp
    have hne : w ≠ "clock".toList := by
      intro h
      have hmem : '\'' ∈ w := hw ▸ List.mem_append_right _ (List.count_pos_iff.mp hpos)
      rw [h] at hmem
      exact absurd hmem (by decide)
    rw [heq, hstem]
    exact ⟨.inr, fun h => h.resolve_left hne⟩

/-! ### What the passes leave of a word -/

/-- The words the clock step and the contraction step leave of a word by itself. -/
def leaves (u : Unicode) (w : Word) : List Word := contractions (clockWord u w)

/-- The digits of a split word. -/
theorem inert_digits {d : Word} (hne : d ≠ []) (h : ∀ c ∈ d, c.isDigit = true) : Inert u d := by
  have hlower : ∀ c ∈ d, lowerAscii c = true := fun c hc => by rw [lowerAscii, h c hc, Bool.or_true]
  have hquote : '\'' ∉ d := fun hc => absurd (h _ hc) (by decide)
  have hletter : ∀ {w : Word}, (∃ c ∈ w, c.isDigit = false) → d ≠ w := by
    rintro w ⟨c, hc, hfalse⟩ rfl
    rw [h c hc] at hfalse
    cases hfalse
  refine ⟨clean_of_lowerAscii hne hlower, ⟨split_digits h, ?_⟩, hquote, hletter (by decide),
    hletter (by decide), hletter (by decide)⟩
  cases d with
  | nil => exact absurd rfl hne
  | cons c t =>
    exact expand_of_none (find_contraction_digit (h c List.mem_cons_self)) (findSuffix_eq_none hquote)

/-- A word is split, made a clock word, or written out. -/
theorem leaves_cases (u : Unicode) (w : Word) :
    (∃ d s, splitMeridiemSuffix u w = some (d, s) ∧ leaves u w = d :: expand s ∧ Inert u d ∧
      '\'' ∉ s ∧ splitMeridiemSuffix u s = none) ∨
    (splitMeridiemSuffix u w = none ∧ w = "oclock".toList ∧ leaves u w = ["o'clock".toList]) ∨
    (splitMeridiemSuffix u w = none ∧ w ≠ "oclock".toList ∧ leaves u w = expand w) := by
  cases hsplit : splitMeridiemSuffix u w with
  | some p =>
    obtain ⟨-, hd, hdigits, -, hhead, halpha⟩ := split_eq_some hsplit
    have hinert := inert_digits (u := u) hd hdigits
    refine .inl ⟨p.1, p.2, rfl, ?_, hinert, not_mem_of_alphabetic halpha, split_eq_none hhead⟩
    rw [leaves, clockWord, hsplit, contractions, List.flatMap_cons, hinert.still.2,
      List.flatMap_singleton]
    rfl
  | none =>
    by_cases hoclock : w = "oclock".toList
    · refine .inr (.inl ⟨rfl, hoclock, ?_⟩)
      rw [leaves, clockWord, hsplit, hoclock, contractions]
      exact oClock_expand
    · refine .inr (.inr ⟨rfl, hoclock, ?_⟩)
      rw [leaves, clockWord_of_still hsplit hoclock, contractions, List.flatMap_singleton]

theorem oClock_not_loose : ¬ Loose u "o'clock".toList := by
  rintro (hend | hoclock | hnot)
  · exact absurd hend (by decide)
  · exact absurd hoclock (by decide)
  · exact hnot ⟨split_eq_none rfl, oClock_expand⟩

/-- A word is left as words no second run changes exactly when it is stable. -/
theorem leaves_not_loose_iff {w : Word} (hlast : w.getLast? ≠ some '\'') :
    (∀ x ∈ leaves u w, ¬ Loose u x) ↔ StableWord u w := by
  rw [StableWord]
  obtain ⟨d, s, hsplit, heq, hd, hquote, hs⟩ | ⟨hsplit, hw, heq⟩ | ⟨hsplit, hw, heq⟩ :=
    leaves_cases u w
  · have hlasts : s.getLast? ≠ some '\'' := fun h => hquote (List.mem_of_getLast? h)
    rw [heq, List.forall_mem_cons, hsplit]
    constructor
    · refine fun h => ⟨?_, fun hnone => by cases hnone⟩
      rintro d' s' hsome rfl
      cases hsome
      exact h.2 _ (by decide) (.inr (.inl rfl))
    · refine fun h => ⟨hd.not_loose, ?_⟩
      rw [expand_not_loose_iff hs (h.1 d s rfl) hlasts]
      exact fun s' hs' => absurd (mem_of_stem hs') hquote
  · rw [heq, hsplit]
    refine iff_of_true (fun x hx => ?_) ⟨fun d s h => (nomatch h), fun _ s hs => ?_⟩
    · rw [List.mem_singleton.mp hx]
      exact oClock_not_loose
    · rw [hw] at hs
      exact absurd (mem_of_stem hs) (by decide)
  · rw [heq, hsplit, expand_not_loose_iff hsplit hw hlast]
    exact ⟨fun h => ⟨fun d s h => (nomatch h), fun _ => h⟩, fun h => h.2 rfl⟩

theorem leaves_apart (u : Unicode) (w : Word) : (leaves u w).IsChain Apart := by
  obtain ⟨d, s, -, heq, hd, -⟩ | ⟨-, -, heq⟩ | ⟨-, -, heq⟩ := leaves_cases u w
  · rw [heq, List.isChain_cons]
    exact ⟨fun y _ h => hd.ne_o h.1, expand_apart s⟩
  · rw [heq]
    exact .singleton _
  · rw [heq]
    exact expand_apart w

theorem leaves_ne_nil (u : Unicode) (w : Word) : leaves u w ≠ [] := by
  obtain ⟨d, s, -, heq, -⟩ | ⟨-, -, heq⟩ | ⟨-, -, heq⟩ := leaves_cases u w
  · rw [heq]
    exact List.cons_ne_nil _ _
  · rw [heq]
    exact List.cons_ne_nil _ _
  · rw [heq]
    exact expand_ne_nil w

theorem leaves_getLast?_iff (w : Word) :
    (leaves u w).getLast? = some "o".toList ↔ LeavesO u w := by
  rw [LeavesO]
  obtain ⟨d, s, hsplit, heq, hd, -⟩ | ⟨hsplit, hw, heq⟩ | ⟨hsplit, -, heq⟩ := leaves_cases u w
  · have ho : w ≠ "o".toList := by
      rintro rfl
      rw [o_still.1] at hsplit
      cases hsplit
    rw [heq, List.getLast?_cons_of_ne_nil (expand_ne_nil s), expand_getLast?_iff, hsplit]
    constructor
    · rintro rfl
      exact .inr ⟨d, rfl⟩
    · rintro (h | ⟨d', h⟩)
      · exact absurd h ho
      · cases h
        rfl
  · rw [heq, hsplit, hw]
    refine iff_of_false (by decide) ?_
    rintro (h | ⟨d, h⟩)
    · exact absurd h (by decide)
    · cases h
  · rw [heq, hsplit, expand_getLast?_iff]
    refine ⟨.inl, ?_⟩
    rintro (h | ⟨d, h⟩)
    · exact h
    · cases h

theorem leaves_head?_iff (w : Word) : (leaves u w).head? = some "clock".toList ↔ LeavesClock w := by
  obtain ⟨d, s, hsplit, heq, hd, -⟩ | ⟨-, hw, heq⟩ | ⟨-, -, heq⟩ := leaves_cases u w
  · rw [heq, LeavesClock]
    refine iff_of_false (fun h => hd.ne_clock (Option.some.inj h)) ?_
    obtain ⟨hw, hne, hdigits, -⟩ := split_eq_some hsplit
    have hhead : w.head? ≠ some 'c' := by
      rw [hw]
      match d, hne with
      | c :: d, _ =>
        intro h
        cases h
        exact absurd (hdigits _ List.mem_cons_self) (by decide)
    rintro (rfl | h)
    · exact hhead rfl
    · obtain ⟨hstem, -⟩ | ⟨hstem, -⟩ | ⟨p, -, s', -, hw', hstem, -⟩ := expand_cases w
      · rw [hstem] at h
        cases h
      · rw [hstem] at h
        cases h
      · rw [hstem] at h
        cases h
        rw [hw'] at hhead
        exact hhead rfl
  · rw [heq, hw, LeavesClock]
    refine iff_of_false (by decide) ?_
    rintro (h | h)
    · exact absurd h (by decide)
    · exact absurd (mem_of_stem h) (by decide)
  · rw [heq, expand_head?_iff]

/-! ### What the passes leave of all words -/

theorem contractions_append (ws ws' : List Word) :
    contractions (ws ++ ws') = contractions ws ++ contractions ws' := List.flatMap_append

/-- What the passes leave starts as what they leave of the first word does. -/
theorem head?_contractions_clockWords (w : Word) (ws : List Word) :
    (contractions (clockWords u (w :: ws))).head? = some "clock".toList ↔ LeavesClock w := by
  rw [← leaves_head?_iff (u := u)]
  match ws with
  | [] => rfl
  | v :: ws =>
    rw [clockWords]
    split_ifs with hif
    · rw [contractions, List.flatMap_cons, oClock_expand, hif.1]
      exact iff_of_false (by simp) (by rw [leaves_head?_iff, LeavesClock]; decide)
    · rw [contractions_append]
      change (leaves u w ++ contractions (clockWords u (v :: ws))).head? = _ ↔ _
      rw [List.head?_append_of_ne_nil _ (leaves_ne_nil u w)]

/-- Stretches of words stand as each does, and their ends. -/
theorem settled_append {as bs : List Word} : Settled u (as ++ bs) ↔
    (Settled u as ∧ Settled u bs) ∧
      ¬ (as.getLast? = some "o".toList ∧ bs.head? = some "clock".toList) := by
  have hends : (∀ a ∈ as.getLast?, ∀ b ∈ bs.head?, Apart a b) ↔
      ¬ (as.getLast? = some "o".toList ∧ bs.head? = some "clock".toList) := by
    constructor
    · exact fun h heq => h _ heq.1 _ heq.2 ⟨rfl, rfl⟩
    · rintro h a ha b hb ⟨rfl, rfl⟩
      exact h ⟨ha, hb⟩
  rw [Settled, Settled, Settled, List.forall_mem_append, List.isChain_append, hends]
  tauto

theorem settled_oClock {ts : List Word} :
    Settled u ("o'clock".toList :: ts) ↔ Settled u ts := by
  rw [Settled, Settled, List.forall_mem_cons, List.isChain_cons]
  refine and_congr (and_iff_right oClock_not_loose) (and_iff_right fun y _ h => ?_)
  exact absurd h.1 (by decide)

theorem stable_o_clock {ws : List Word} :
    Stable u ("o".toList :: "clock".toList :: ws) ↔ Stable u ws := by
  have hplain : ∀ {w : Word}, Still u w → '\'' ∉ w → StableWord u w := by
    refine fun hstill hquote => ⟨fun d s h => ?_, fun _ s h => absurd (mem_of_stem h) hquote⟩
    rw [hstill.1] at h
    cases h
  have hclock : ¬ LeavesO u "clock".toList := by
    rintro (h | ⟨d, h⟩)
    · exact absurd h (by decide)
    · rw [clock_still.1] at h
      cases h
  rw [Stable, Stable, List.forall_mem_cons, List.forall_mem_cons, List.isChain_cons_cons,
    List.isChain_cons, and_iff_right (hplain o_still (by decide)),
    and_iff_right (hplain clock_still (by decide))]
  refine and_congr_right fun _ => ?_
  have hpair : StablePair u "o".toList "clock".toList := fun _ _ => ⟨rfl, rfl⟩
  rw [and_iff_right hpair]
  exact and_iff_right fun y _ h => absurd h hclock

/-- What the words must be for the passes to leave nothing to change. -/
theorem settled_contractions_clockWords {ws : List Word} (h : ∀ w ∈ ws, w.getLast? ≠ some '\'') :
    Settled u (contractions (clockWords u ws)) ↔ Stable u ws := by
  have hone : ∀ w, w.getLast? ≠ some '\'' → (Settled u (leaves u w) ↔ StableWord u w) := fun w hw =>
    (and_iff_left (leaves_apart u w)).trans (leaves_not_loose_iff hw)
  fun_induction clockWords u ws with
  | case1 => exact iff_of_true ⟨by simp [contractions], .nil⟩ ⟨by simp, .nil⟩
  | case2 w =>
    rw [Stable, List.forall_mem_singleton, and_iff_left (.singleton w)]
    exact hone w (h w List.mem_cons_self)
  | case3 word next rest hif ih =>
    obtain ⟨rfl, rfl⟩ := hif
    rw [List.forall_mem_cons, List.forall_mem_cons] at h
    have ih := ih h.2.2
    rw [contractions, List.flatMap_cons, oClock_expand, List.singleton_append, settled_oClock,
      stable_o_clock]
    exact ih
  | case4 word next rest hif ih =>
    rw [List.forall_mem_cons] at h
    have ih : Settled u (contractions (clockWords u (next :: rest))) ↔ Stable u (next :: rest) :=
      ih h.2
    rw [contractions_append, settled_append, ih]
    have hword : Settled u (contractions (clockWord u word)) ↔ StableWord u word := hone word h.1
    have hlast : (contractions (clockWord u word)).getLast? = some "o".toList ↔ LeavesO u word :=
      leaves_getLast?_iff word
    have hpair : StablePair u word next ↔ ¬ (LeavesO u word ∧ LeavesClock next) :=
      ⟨fun h hleaves => hif (h hleaves.1 hleaves.2), fun h ho hclock => absurd ⟨ho, hclock⟩ h⟩
    have hstable : Stable u (word :: next :: rest) ↔
        (StableWord u word ∧ Stable u (next :: rest)) ∧ StablePair u word next := by
      rw [Stable, Stable, List.forall_mem_cons, List.isChain_cons_cons]
      tauto
    rw [hword, hlast, head?_contractions_clockWords, hstable, hpair]

/-! ### Normalizing twice -/

/-- A letter in lower case is as it is. -/
theorem toLower_toLower (c : Char) : c.toLower.toLower = c.toLower := by
  by_cases h : c.val ≥ 'A'.val ∧ c.val ≤ 'Z'.val
  · have hlow : c.toLower.val = c.val + ('a'.val - 'A'.val) := by
      rw [Char.toLower, dif_pos h]
    rw [Char.toLower, dif_neg]
    rw [hlow]
    intro h'
    have hfirst := UInt32.le_iff_toNat_le.mp h.1
    have hlast := UInt32.le_iff_toNat_le.mp h.2
    have hagain := UInt32.le_iff_toNat_le.mp h'.2
    rw [UInt32.toNat_add] at hagain
    simp at hfirst hlast hagain
    omega
  · have hsame : c.toLower = c := by rw [Char.toLower, dif_neg h]
    rw [hsame, hsame]

theorem not_alphanumeric_of_blank (c : Char)
    (hc : (decide (c = ' ') || decide (9 ≤ c.val) && decide (c.val ≤ 13)) = true) :
    c.isAlpha = false ∧ c.isDigit = false := by
  simp only [Bool.or_eq_true, decide_eq_true_eq, Bool.and_eq_true] at hc
  obtain rfl | hc := hc
  · decide
  · have hle : c.val ≤ 13 := hc.2
    have := UInt32.le_iff_toNat_le.mp hle
    simp only [Char.isAlpha, Char.isUpper, Char.isLower, Char.isDigit, UInt32.le_iff_toNat_le,
      ge_iff_le]
    simp at this ⊢
    omega

/-- The tables of the letters of English. -/
def ascii : Unicode where
  toLowercase c := [c.toLower]
  isAlphabetic c := c.isAlpha
  isNumeric c := c.isDigit
  isWhitespace c := c = ' ' || 9 ≤ c.val && c.val ≤ 13
  lower_lower c d hd := by rw [List.mem_singleton.mp hd, toLower_toLower]
  lower_ascii _ _ := rfl
  alphabetic_ascii _ _ := rfl
  numeric_ascii _ _ := rfl
  whitespace_ascii _ _ := rfl
  whitespace_not := not_alphanumeric_of_blank

/-- A text without number words. -/
theorem normalize_of_plain {text : List Char} {es : List Word}
    (hes : contractions (clockWords u (words u text)) = es)
    (hplain : ∀ w ∈ es, numberWord w = none) :
    normalize u text = some (joinMeridiem none es) := by
  rw [normalize, hes, numbers_eq_self hplain, Option.map_some]

/-- Normalizing twice is normalizing once exactly when the words of the text are stable. -/
theorem normalize_idempotent_iff {u : Unicode} {text : List Char} {out : List Word}
    (h : normalize u text = some out) :
    normalize u (join ' ' out) = some out ↔ Stable u (words u text) := by
  rw [normalize_join_iff h]
  obtain ⟨ns, hns, rfl⟩ := normalize_eq_some h
  obtain ⟨hnumbers, hjoin⟩ := last_merged (u := u) hns
  rw [hjoin.settled_iff, hnumbers.settled_iff]
  exact settled_contractions_clockWords fun w hw hlast => (words_clean hw).2 _ hlast rfl

theorem normalize_idempotent_tv :
    normalize ascii "Turn off the TV.".toList = some (["turn", "off", "the", "tv"].map String.toList) ∧
      (normalize ascii (join ' ' (["turn", "off", "the", "tv"].map String.toList)) =
          some (["turn", "off", "the", "tv"].map String.toList) ↔
        Stable ascii (words ascii "Turn off the TV.".toList)) := by
  have h : normalize ascii "Turn off the TV.".toList =
      some (["turn", "off", "the", "tv"].map String.toList) :=
    @normalize_of_plain ascii _ (["turn", "off", "the", "tv"].map String.toList) (by decide)
      (by decide)
  exact ⟨h, normalize_idempotent_iff h⟩

/-- A contraction of a contraction is written out in two runs. -/
theorem contraction_written_out_twice :
    normalize ascii "I'd've".toList = some (["i'd", "have"].map String.toList) ∧
      normalize ascii (join ' ' (["i'd", "have"].map String.toList)) =
        some (["i", "would", "have"].map String.toList) ∧
      ¬ ∀ text out, normalize ascii text = some out → normalize ascii (join ' ' out) = some out := by
  have honce : normalize ascii "I'd've".toList = some (["i'd", "have"].map String.toList) :=
    @normalize_of_plain ascii _ (["i'd", "have"].map String.toList) (by decide) (by decide)
  have htwice : normalize ascii (join ' ' (["i'd", "have"].map String.toList)) =
      some (["i", "would", "have"].map String.toList) :=
    @normalize_of_plain ascii _ (["i", "would", "have"].map String.toList) (by decide) (by decide)
  refine ⟨honce, htwice, fun h => ?_⟩
  have hsame := h _ _ honce
  rw [htwice] at hsame
  exact absurd (Option.some.inj hsame) (by decide)

end EchoMuse.Grammar
