import EchoMuse.Grammar.Spelling

/-!
# Normalizing Twice

When the words of a normalized text, normalized again, are the same words. A second run changes the
words where one of them would be split, written out or stripped of apostrophes by a pass, or where
`o` and `clock` have come to stand together: the first run leaves such words behind only as the stem
of a contraction or the letters split off a number.

## Main results

* `normalize_join_iff`: the words stay the same exactly when none is left that a pass changes.
-/

namespace EchoMuse.Grammar

open Fields (fields join trim)

variable {u : Unicode}

/-! ### Words no pass changes -/

/-- The word is neither split nor written out. -/
def Still (u : Unicode) (t : Word) : Prop := splitMeridiemSuffix u t = none ∧ expand t = [t]

/-- A second run changes the word. -/
def Loose (u : Unicode) (t : Word) : Prop :=
  t.getLast? = some '\'' ∨ t = "oclock".toList ∨ ¬ Still u t

/-- Two words that are no clock word cut in two. -/
def Apart (a b : Word) : Prop := ¬ (a = "o".toList ∧ b = "clock".toList)

/-- No word is left that a second run changes. -/
def Settled (u : Unicode) (ts : List Word) : Prop := (∀ t ∈ ts, ¬ Loose u t) ∧ ts.IsChain Apart

/-- A word that takes no part in what a second run changes. -/
structure Inert (u : Unicode) (t : Word) : Prop where
  clean : Clean u t
  still : Still u t
  apostrophe : '\'' ∉ t
  ne_o : t ≠ "o".toList
  ne_clock : t ≠ "clock".toList
  ne_oclock : t ≠ "oclock".toList

theorem Inert.not_loose {t : Word} (h : Inert u t) : ¬ Loose u t := by
  rintro (hlast | hoclock | hstill)
  · exact h.apostrophe (List.mem_of_getLast? hlast)
  · exact h.ne_oclock hoclock
  · exact hstill h.still

/-- A word that does not start with a digit is not split. -/
theorem split_eq_none {t : Word} (h : t.head?.any Char.isDigit = false) :
    splitMeridiemSuffix u t = none := by
  have hdigits : t.takeWhile Char.isDigit = [] := by
    cases t with
    | nil => rfl
    | cons c t => exact List.takeWhile_cons_of_neg (by simpa using h)
  rw [splitMeridiemSuffix, hdigits]
  split_ifs with h1 h2
  · rfl
  · exact absurd rfl h2.1
  · rfl

/-- A number is not split. -/
theorem split_digits {t : Word} (h : ∀ c ∈ t, c.isDigit = true) : splitMeridiemSuffix u t = none := by
  have hsuffix : t.dropWhile Char.isDigit = [] := List.dropWhile_eq_nil_iff.mpr h
  rw [splitMeridiemSuffix, hsuffix]
  rfl

/-- What a split word was. -/
theorem split_eq_some {t d s : Word} (h : splitMeridiemSuffix u t = some (d, s)) :
    t = d ++ s ∧ d ≠ [] ∧ (∀ c ∈ d, c.isDigit = true) ∧ s ≠ [] ∧
      s.head?.any Char.isDigit = false ∧ ∀ c ∈ s, u.isAlphabetic c = true := by
  rw [splitMeridiemSuffix] at h
  split_ifs at h with hnil hif
  cases h
  refine ⟨List.takeWhile_append_dropWhile.symm, hif.1, fun c hc => List.mem_takeWhile_imp hc, hnil,
    ?_, fun c hc => List.all_eq_true.mp hif.2.2 c hc⟩
  have := List.head?_dropWhile_not Char.isDigit t
  cases hd : t.dropWhile Char.isDigit with
  | nil => rfl
  | cons c s =>
    rw [hd] at this
    simpa using this

theorem not_alphabetic_apostrophe : u.isAlphabetic '\'' = false := by
  rw [u.alphabetic_ascii '\'' (by decide)]
  rfl

/-- Without an apostrophe a word has no ending that is written out. -/
theorem findSuffix_eq_none {t : Word} (h : '\'' ∉ t) : findSuffix t = none := by
  rw [findSuffix, List.findSome?_eq_none_iff]
  intro p hp
  have hquote : '\'' ∈ p.1 := by
    have hall : ∀ p ∈ suffixes, '\'' ∈ p.1 := by decide
    exact hall p hp
  rw [stripSuffix, if_neg]
  · rfl
  · intro hsuffix
    exact h (hsuffix.mem hquote)

theorem expand_of_none {t : Word} (htable : contractionTable.find? (·.1 = t) = none)
    (hsuffix : findSuffix t = none) : expand t = [t] := by
  rw [expand, htable, hsuffix]

/-- The words of the tables are in lower case. -/
theorem clean_of_lowerAscii {t : Word} (hne : t ≠ []) (h : ∀ c ∈ t, lowerAscii c = true) :
    Clean u t := by
  refine ⟨hne, fun c hc => ?_, fun c hc => ?_, .plain fun c hc => u.alphanumeric_lowerAscii (h c hc)⟩
  · rintro rfl
    exact absurd (h _ (List.mem_of_mem_head? hc)) (by decide)
  · obtain ⟨hlower, hstraight⟩ := u.lower_lowerAscii (h c hc)
    exact ⟨hlower, hstraight, u.not_whitespace (u.alphanumeric_lowerAscii (h c hc))⟩

theorem head_of_letters {t : Word} (h : ∀ c ∈ t, c.isLower = true) :
    t.head?.any Char.isDigit = false := by
  cases t with
  | nil => rfl
  | cons c t =>
    have hc := h c List.mem_cons_self
    simp only [Char.isLower, Bool.and_eq_true, decide_eq_true_eq] at hc
    rw [List.head?_cons, Option.any_some, Char.isDigit, Bool.and_eq_false_iff]
    right
    rw [decide_eq_false_iff_not]
    exact fun hle => absurd (UInt32.le_trans hc.1 hle) (by decide)

theorem inert_of_letters {t : Word} (hne : t ≠ []) (h : ∀ c ∈ t, c.isLower = true)
    (hexpand : expand t = [t]) (ho : t ≠ "o".toList) (hclock : t ≠ "clock".toList)
    (hoclock : t ≠ "oclock".toList) : Inert u t where
  clean := clean_of_lowerAscii hne fun c hc => by rw [lowerAscii, h c hc, Bool.true_or]
  still := ⟨split_eq_none (head_of_letters h), hexpand⟩
  apostrophe hc := absurd (h _ hc) (by decide)
  ne_o := ho
  ne_clock := hclock
  ne_oclock := hoclock

/-- The words the halves of the day are joined of, and what they are joined to. -/
def halves : List Word := ["a", "p", "m", "am", "pm"].map String.toList

/-- The words the steps say numbers and times with, and those they write others out in. -/
def plainWords : List Word :=
  numericWords ++ halves ++ contractionTable.flatMap (·.2.splitOn ' ') ++ suffixes.map Prod.snd

theorem plainWords_spec : ∀ w ∈ plainWords, w ≠ [] ∧ (∀ c ∈ w, c.isLower = true) ∧
    expand w = [w] ∧ w ≠ "o".toList ∧ w ≠ "clock".toList ∧ w ≠ "oclock".toList := by
  decide +kernel

/-- The words of the tables are inert. -/
theorem inert_plain {w : Word} (h : w ∈ plainWords) : Inert u w := by
  obtain ⟨hne, hlower, hexpand, ho, hclock, hoclock⟩ := plainWords_spec w h
  exact inert_of_letters hne hlower hexpand ho hclock hoclock

theorem inert_numeric {w : Word} (h : w ∈ numericWords) : Inert u w :=
  inert_plain (by simp [plainWords, h])

/-- A word that starts with a digit is in no table. -/
theorem find_contraction_digit {c : Char} {t : Word} (h : c.isDigit = true) :
    contractionTable.find? (·.1 = c :: t) = none := by
  rw [List.find?_eq_none]
  intro p hp heq
  have hall : ∀ p ∈ contractionTable, p.1.head?.any Char.isDigit = false := by decide
  have := hall p hp
  rw [of_decide_eq_true heq, List.head?_cons, Option.any_some, h] at this
  cases this

/-- A number in digits is inert. -/
theorem inert_numberText (o : Bool) (n : ℕ) : Inert u (numberText o n) := by
  have hdigits : ∀ c ∈ Nat.toDigits 10 n, c.isDigit = true := fun c hc =>
    Nat.isDigit_of_mem_toDigits (by decide) (by decide) hc
  obtain ⟨c, t, ht⟩ : ∃ c t, Nat.toDigits 10 n = c :: t :=
    List.exists_cons_of_ne_nil Nat.toDigits_ne_nil
  have hc : c.isDigit = true := hdigits c (ht ▸ List.mem_cons_self)
  have hsuffix : ordinalSuffix n ∈ ["st", "nd", "rd", "th"].map String.toList := by
    rw [ordinalSuffix]
    split_ifs
    · decide
    · split <;> decide
  have hsuffixLetters : ∀ c ∈ ordinalSuffix n, c.isLower = true := by
    have hall : ∀ s ∈ ["st", "nd", "rd", "th"].map String.toList, ∀ c ∈ s, c.isLower = true := by
      decide
    exact hall _ hsuffix
  have hlower : ∀ d ∈ numberText o n, lowerAscii d = true := by
    intro d hd
    rw [numberText] at hd
    obtain hd | hd := List.mem_append.mp hd
    · rw [lowerAscii, hdigits d hd, Bool.or_true]
    · split_ifs at hd
      · rw [lowerAscii, hsuffixLetters d hd, Bool.true_or]
      · exact absurd hd List.not_mem_nil
  have hhead : ∃ t', numberText o n = c :: t' := by
    rw [numberText, ht]
    exact ⟨_, rfl⟩
  obtain ⟨t', ht'⟩ := hhead
  have hquote : '\'' ∉ numberText o n := fun h => absurd (hlower _ h) (by decide)
  have hne : ∀ d w, d.isDigit = false → numberText o n ≠ d :: w := by
    intro d w hd heq
    rw [ht'] at heq
    cases heq
    rw [hc] at hd
    cases hd
  refine ⟨clean_of_lowerAscii (by rw [ht']; simp) hlower, ⟨?_, ?_⟩, hquote, hne _ _ (by decide),
    hne _ _ (by decide), hne _ _ (by decide)⟩
  · rw [numberText]
    cases o with
    | false =>
      rw [if_neg Bool.false_ne_true, List.append_nil]
      exact split_digits hdigits
    | true =>
      have hdrop : (Nat.toDigits 10 n ++ ordinalSuffix n).dropWhile Char.isDigit =
          ordinalSuffix n := by
        have hall : ∀ s ∈ ["st", "nd", "rd", "th"].map String.toList,
            s.dropWhile Char.isDigit = s := by decide
        rw [List.dropWhile_append_of_pos hdigits]
        exact hall _ hsuffix
      rw [if_pos rfl, splitMeridiemSuffix, hdrop]
      split_ifs with hnil hif
      · rfl
      · exact absurd hsuffix hif.2.1
      · rfl
  · exact expand_of_none (ht' ▸ find_contraction_digit hc) (findSuffix_eq_none hquote)

/-! ### Stretches made one word -/

/-- Words of which some stretches are made one word each; the words of the stretches, and what they
are made, have `I`. -/
inductive Merged (I : Word → Prop) : List Word → List Word → Prop
  | nil : Merged I [] []
  | keep {w ws out} (h : Merged I ws out) : Merged I (w :: ws) (w :: out)
  | merge {l t ws out} (hne : l ≠ []) (hl : ∀ w ∈ l, I w) (ht : I t) (h : Merged I ws out) :
      Merged I (l ++ ws) (t :: out)

section Merged

variable {I : Word → Prop} {ws out : List Word}

theorem Merged.mono {I' : Word → Prop} (h : Merged I ws out) (hI : ∀ t, I t → I' t) :
    Merged I' ws out := by
  induction h with
  | nil => exact .nil
  | keep _ ih => exact .keep ih
  | merge hne hl ht _ ih => exact .merge hne (fun w hw => hI w (hl w hw)) (hI _ ht) ih

theorem Merged.forall_iff (h : Merged I ws out) {P : Word → Prop} (hP : ∀ t, I t → P t) :
    (∀ t ∈ out, P t) ↔ ∀ t ∈ ws, P t := by
  induction h with
  | nil => exact Iff.rfl
  | keep _ ih => rw [List.forall_mem_cons, List.forall_mem_cons, ih]
  | merge _ hl ht _ ih =>
    rw [List.forall_mem_cons, List.forall_mem_append, ih]
    exact ⟨fun h => ⟨fun w hw => hP w (hl w hw), h.2⟩, fun h => ⟨hP _ ht, h.2⟩⟩

theorem Merged.head?_iff (h : Merged I ws out) {x : Word} (hx : ¬ I x) :
    out.head? = some x ↔ ws.head? = some x := by
  cases h with
  | nil => exact Iff.rfl
  | keep => exact Iff.rfl
  | @merge l t ws out hne hl ht _ =>
    refine iff_of_false ?_ ?_
    · intro heq
      cases heq
      exact hx ht
    · intro heq
      match l, hne with
      | w :: l, _ =>
        cases heq
        exact hx (hl _ List.mem_cons_self)

theorem Merged.count_eq (h : Merged I ws out) {x : Word} (hx : ¬ I x) :
    out.count x = ws.count x := by
  induction h with
  | nil => rfl
  | keep _ ih => rw [List.count_cons, List.count_cons, ih]
  | @merge l t ws out hne hl ht _ ih =>
    rw [List.count_cons_of_ne (by rintro rfl; exact hx ht), List.count_append,
      List.count_eq_zero_of_not_mem fun h => hx (hl x h), Nat.zero_add, ih]

/-- Words that stand apart do so after stretches of others are made one word. -/
theorem Merged.apart_iff (h : Merged I ws out) (ho : ¬ I "o".toList) (hclock : ¬ I "clock".toList) :
    out.IsChain Apart ↔ ws.IsChain Apart := by
  induction h with
  | nil => exact Iff.rfl
  | @keep w ws out h ih =>
    have hhead := h.head?_iff hclock
    rw [List.isChain_cons, List.isChain_cons, ih]
    refine and_congr_left fun _ => ⟨fun hlink y hy => ?_, fun hlink y hy => ?_⟩
    · rintro ⟨rfl, rfl⟩
      exact hlink _ (hhead.mpr hy) ⟨rfl, rfl⟩
    · rintro ⟨rfl, rfl⟩
      exact hlink _ (hhead.mp hy) ⟨rfl, rfl⟩
  | @merge l t ws out hne hl ht h ih =>
    have hleft : ∀ {w : Word} (y : Word), I w → Apart w y := by
      rintro w y hw ⟨rfl, -⟩
      exact ho hw
    have hchain : l.IsChain Apart := by
      clear hne h
      induction l with
      | nil => exact .nil
      | cons w l ihl =>
        rw [List.isChain_cons]
        exact ⟨fun y _ => hleft y (hl w List.mem_cons_self),
          ihl fun v hv => hl v (List.mem_cons_of_mem _ hv)⟩
    rw [List.isChain_cons, List.isChain_append, ih]
    exact ⟨fun h => ⟨hchain, h.2, fun x hx y _ => hleft y (hl x (List.mem_of_getLast? hx))⟩,
      fun h => ⟨fun y _ => hleft y ht, h.2.1⟩⟩

end Merged

/-- The apostrophes of some words. -/
def quotes (ts : List Word) : ℕ := ts.flatten.count '\''

theorem quotes_cons (t : Word) (ts : List Word) : quotes (t :: ts) = t.count '\'' + quotes ts := by
  rw [quotes, List.flatten_cons, List.count_append, quotes]

theorem quotes_append (ts ts' : List Word) : quotes (ts ++ ts') = quotes ts + quotes ts' := by
  rw [quotes, List.flatten_append, List.count_append, quotes, quotes]

theorem Merged.quotes_eq {ws out : List Word} (h : Merged (Inert u) ws out) :
    quotes out = quotes ws := by
  induction h with
  | nil => rfl
  | keep _ ih => rw [quotes_cons, quotes_cons, ih]
  | @merge l t ws out hne hl ht _ ih =>
    have hzero : quotes l = 0 := by
      refine List.count_eq_zero_of_not_mem fun hc => ?_
      obtain ⟨w, hw, hc⟩ := List.mem_flatten.mp hc
      exact (hl w hw).apostrophe hc
    rw [quotes_cons, quotes_append, List.count_eq_zero_of_not_mem ht.apostrophe, hzero, ih]

theorem Merged.settled_iff {ws out : List Word} (h : Merged (Inert u) ws out) :
    Settled u out ↔ Settled u ws :=
  and_congr (h.forall_iff fun _ ht => ht.not_loose)
    (h.apart_iff (fun h => h.ne_o rfl) fun h => h.ne_clock rfl)

/-! ### The number step -/

theorem numberWord_numberText (o : Bool) (n : ℕ) : numberWord (numberText o n) = none := by
  obtain ⟨c, t, ht⟩ : ∃ c t, Nat.toDigits 10 n = c :: t :=
    List.exists_cons_of_ne_nil Nat.toDigits_ne_nil
  have hc : c.isDigit = true :=
    Nat.isDigit_of_mem_toDigits (by decide) (by decide) (ht ▸ List.mem_cons_self)
  cases hw : numberWord (numberText o n) with
  | none => rfl
  | some k =>
    have := (numberWords_spec _ (mem_numberWords hw)).2.2.2.2
    rw [numberText, ht, List.cons_append, List.head?_cons, Option.any_some, hc] at this
    cases this

/-- The number step makes its stretches one word each, and leaves no number word. -/
theorem numbers_merged {ws out : List Word} (h : numbers ws = some out) :
    Merged (Inert u) ws out ∧ ∀ t ∈ out, numberWord t = none := by
  match ws with
  | [] =>
    rw [numbers] at h
    cases h
    exact ⟨.nil, fun t ht => absurd ht List.not_mem_nil⟩
  | word :: rest =>
    rw [numbers] at h
    split at h
    next => cases h
    next text used hread =>
      obtain ⟨out', hout, rfl⟩ := Option.map_eq_some_iff.mp h
      have hused := used_readNumber hread
      obtain ⟨hmerged, hnone⟩ := numbers_merged hout
      obtain ⟨⟨o, n, rfl⟩, hwords⟩ := readNumber_numeric hread
      constructor
      · rw [← List.take_append_drop used (word :: rest)]
        refine .merge ?_ (fun w hw => inert_numeric (hwords w hw)) (inert_numberText o n) hmerged
        rw [ne_eq, List.take_eq_nil_iff]
        rintro (h | h)
        · omega
        · cases h
      · rw [List.forall_mem_cons]
        exact ⟨numberWord_numberText o n, hnone⟩
    next hread =>
      obtain ⟨out', hout, rfl⟩ := Option.map_eq_some_iff.mp h
      obtain ⟨hmerged, hnone⟩ := numbers_merged hout
      rw [List.forall_mem_cons]
      exact ⟨.keep hmerged, numberWord_of_kept hread, hnone⟩
termination_by ws.length
decreasing_by
  · rw [List.length_drop, List.length_cons]
    rw [List.length_cons] at hused
    omega
  · exact Nat.lt_succ_self _

/-- Without number words the step changes nothing. -/
theorem numbers_eq_self {ws : List Word} (h : ∀ w ∈ ws, numberWord w = none) :
    numbers ws = some ws := by
  induction ws with
  | nil => rw [numbers]
  | cons w ws ih =>
    rw [List.forall_mem_cons] at h
    have hread : readNumber (w :: ws) = some none := by
      rw [readNumber, if_neg]
      · rw [read_none h.1 (fun h => by cases h.2) (fun h => by obtain ⟨-, h | h, -⟩ := h <;> cases h)]
        rfl
      · rintro ⟨-, hnext⟩
        cases ws with
        | nil => obtain hnext | hnext := hnext <;> cases hnext
        | cons v ws =>
          have hv := h.2 v List.mem_cons_self
          obtain hnext | hnext := hnext
          · rw [numberWord_eq_hundred.mpr (Option.some.inj hnext)] at hv
            cases hv
          · rw [numberWord_eq_thousand.mpr (Option.some.inj hnext)] at hv
            cases hv
    rw [numbers]
    split
    next hread' =>
      rw [hread] at hread'
      cases hread'
    next hread' =>
      rw [hread] at hread'
      cases hread'
    next =>
      rw [ih h.2]
      rfl

/-! ### The halves of the day -/

theorem inert_halves {t : Word} (h : t ∈ halves) : Inert u t :=
  inert_plain (by simp [plainWords, h])

theorem join_merged (prev : Option Word) (ws : List Word) :
    Merged (· ∈ halves) ws (joinMeridiem prev ws) := by
  fun_induction joinMeridiem prev ws with
  | case1 => exact .nil
  | case2 => exact .keep .nil
  | case3 prev word next rest hif ih =>
    obtain ⟨-, hword, rfl⟩ := hif
    refine @Merged.merge _ [word, "m".toList] _ rest _ (by simp) ?_ ?_ ih
    · obtain rfl | rfl := hword <;> decide
    · obtain rfl | rfl := hword <;> decide
  | case4 prev word next rest hif ih => exact .keep ih

theorem joinMeridiem_cons {prev : Option Word} {w : Word} {ws : List Word}
    (h : ¬ (afterTime prev = true ∧ (w = "a".toList ∨ w = "p".toList) ∧
      ws.head? = some "m".toList)) :
    joinMeridiem prev (w :: ws) = w :: joinMeridiem (some w) ws := by
  cases ws with
  | nil => rfl
  | cons v ws =>
    rw [joinMeridiem, if_neg]
    rintro ⟨htime, hw, rfl⟩
    exact h ⟨htime, hw, rfl⟩

theorem joinMeridiem_head {prev : Option Word} {w : Word} {ws : List Word}
    (h : (joinMeridiem prev (w :: ws)).head? = some "m".toList) : w = "m".toList := by
  cases ws with
  | nil => exact Option.some.inj h
  | cons v ws =>
    rw [joinMeridiem] at h
    split_ifs at h with hif
    · obtain ⟨-, rfl | rfl, -⟩ := hif <;> exact absurd (Option.some.inj h) (by decide)
    · exact Option.some.inj h

/-- What was joined is not joined with more. -/
theorem joinMeridiem_joinMeridiem (prev : Option Word) (ws : List Word) :
    joinMeridiem prev (joinMeridiem prev ws) = joinMeridiem prev ws := by
  fun_induction joinMeridiem prev ws with
  | case1 => rfl
  | case2 => rfl
  | case3 prev word next rest hif ih =>
    rw [joinMeridiem_cons, ih]
    rintro ⟨-, hword, -⟩
    obtain ⟨-, rfl | rfl, -⟩ := hif <;> exact absurd hword (by decide)
  | case4 prev word next rest hif ih =>
    rw [joinMeridiem_cons, ih]
    rintro ⟨htime, hword, hnext⟩
    exact hif ⟨htime, hword, joinMeridiem_head hnext⟩

/-! ### The clock words -/

theorem o_still : Still u "o".toList := ⟨split_eq_none rfl, by decide⟩

theorem clock_still : Still u "clock".toList := ⟨split_eq_none rfl, by decide⟩

theorem oClock_expand : expand "o'clock".toList = ["o'clock".toList] := by decide

theorem clockWord_of_still {t : Word} (h : splitMeridiemSuffix u t = none)
    (hoclock : t ≠ "oclock".toList) : clockWord u t = [t] := by
  rw [clockWord, h]
  split_ifs with hif
  · rw [hif.resolve_left hoclock]
  · rfl

/-- Words of which no two make a clock word are taken one by one. -/
theorem clockWords_of_apart {ts : List Word} (h : ts.IsChain Apart) :
    clockWords u ts = ts.flatMap (clockWord u) := by
  fun_induction clockWords u ts with
  | case1 => rfl
  | case2 => rw [List.flatMap_singleton]
  | case3 word next rest hif ih =>
    exact absurd hif (List.isChain_cons_cons.mp h).1
  | case4 word next rest hif ih =>
    rw [ih (List.isChain_cons_cons.mp h).2, @List.flatMap_cons _ _ word (next :: rest)]

/-- No word is split twice. -/
theorem split_clockWords {ts : List Word} {t : Word} (h : t ∈ clockWords u ts) :
    splitMeridiemSuffix u t = none := by
  have hone : ∀ w, t ∈ clockWord u w → splitMeridiemSuffix u t = none := by
    intro w hw
    rw [clockWord] at hw
    split at hw
    next d s hsplit =>
      obtain ⟨-, -, hd, -, hs, -⟩ := split_eq_some hsplit
      obtain rfl | hw := List.mem_cons.mp hw
      · exact split_digits hd
      · rw [List.mem_singleton.mp hw]
        exact split_eq_none hs
    next hsplit =>
      split_ifs at hw
      · rw [List.mem_singleton.mp hw]
        exact split_eq_none rfl
      · rw [List.mem_singleton.mp hw]
        exact hsplit
  fun_induction clockWords u ts with
  | case1 => exact absurd h List.not_mem_nil
  | case2 w => exact hone w h
  | case3 word next rest hif ih =>
    obtain rfl | h := List.mem_cons.mp h
    · exact split_eq_none rfl
    · exact ih h
  | case4 word next rest hif ih =>
    obtain h | h := List.mem_append.mp h
    · exact hone word h
    · exact ih h

/-- The words `o'clock` only become more, and do where two words, or one, are made it. -/
theorem count_clockWord (w : Word) :
    [w].count "o'clock".toList ≤ (clockWord u w).count "o'clock".toList ∧
      ((clockWord u w).count "o'clock".toList ≤ [w].count "o'clock".toList → w ≠ "oclock".toList) := by
  by_cases hw : w = "oclock".toList
  · subst hw
    have hcount : (clockWord u "oclock".toList).count "o'clock".toList = 1 := by
      rw [clockWord, split_eq_none rfl]
      rfl
    rw [hcount]
    exact ⟨by decide, fun h => absurd h (by decide)⟩
  · refine ⟨?_, fun _ => hw⟩
    by_cases hclock : w = "o'clock".toList
    · subst hclock
      rw [clockWord_of_still (split_eq_none rfl) hw]
    · rw [List.count_singleton, if_neg (by simpa using hclock)]
      exact Nat.zero_le _

theorem count_clockWords (ts : List Word) :
    ts.count "o'clock".toList ≤ (clockWords u ts).count "o'clock".toList ∧
      ((clockWords u ts).count "o'clock".toList ≤ ts.count "o'clock".toList →
        "oclock".toList ∉ ts ∧ ts.IsChain Apart) := by
  fun_induction clockWords u ts with
  | case1 => exact ⟨le_rfl, fun _ => ⟨List.not_mem_nil, .nil⟩⟩
  | case2 w =>
    have hw := count_clockWord (u := u) w
    exact ⟨hw.1, fun h => ⟨by simpa using (hw.2 h).symm, .singleton w⟩⟩
  | case3 word next rest hif ih =>
    obtain ⟨rfl, rfl⟩ := hif
    have hcount : ("o".toList :: "clock".toList :: rest).count "o'clock".toList =
        rest.count "o'clock".toList := by
      rw [List.count_cons_of_ne (by decide), List.count_cons_of_ne (by decide)]
    rw [hcount, List.count_cons_self]
    exact ⟨by omega, fun h => by omega⟩
  | case4 word next rest hif ih =>
    have hw := count_clockWord (u := u) word
    have hcount : (word :: next :: rest).count "o'clock".toList =
        [word].count "o'clock".toList + (next :: rest).count "o'clock".toList := by
      rw [← List.count_append, List.singleton_append]
    rw [hcount, List.count_append]
    refine ⟨by omega, fun h => ?_⟩
    obtain ⟨hrest, hchain⟩ := ih.2 (by omega)
    have hne := hw.2 (by omega)
    exact ⟨fun h => (List.mem_cons.mp h).elim (fun h => hne h.symm) hrest,
      List.isChain_cons_cons.mpr ⟨hif, hchain⟩⟩


/-! ### What the contraction step does to a word -/

/-- The words of the table are written out in words nothing changes. -/
theorem table_full {p : Word × Word} (h : p ∈ contractionTable) {x : Word}
    (hx : x ∈ p.2.splitOn ' ') : Clean u x ∧ Still u x ∧ '\'' ∉ x := by
  have hmem : x ∈ contractionTable.flatMap (·.2.splitOn ' ') := List.mem_flatMap.mpr ⟨p, h, hx⟩
  have hinert : Inert u x := inert_plain (by simp [plainWords, hmem])
  exact ⟨hinert.clean, hinert.still, hinert.apostrophe⟩

/-- A word with an ending is what stands before it and the ending. -/
theorem findSuffix_eq_some {t stem full : Word} (h : findSuffix t = some (stem, full)) :
    ∃ p ∈ suffixes, t = stem ++ p.1 ∧ full = p.2 := by
  obtain ⟨p, hp, hsome⟩ := List.exists_of_findSome?_eq_some h
  rw [stripSuffix] at hsome
  split_ifs at hsome with hsuffix
  · obtain ⟨a, rfl⟩ := hsuffix
    cases hsome
    refine ⟨p, hp, ?_, rfl⟩
    rw [List.length_append, Nat.add_sub_cancel, List.take_left']
    rfl
  · cases hsome

/-- The endings, and the words for them. -/
theorem suffix_spec {p : Word × Word} (h : p ∈ suffixes) :
    (1 ≤ p.1.count '\'' ∧ p.1.head?.any Char.isDigit = false) ∧
      p.2 ≠ [] ∧ (∀ c ∈ p.2, lowerAscii c = true) ∧ '\'' ∉ p.2 ∧ p.2 ≠ "o".toList ∧
      p.2 ≠ "clock".toList ∧ p.2 ≠ "oclock".toList ∧ expand p.2 = [p.2] ∧
      p.2.head?.any Char.isDigit = false := by
  have hall : ∀ p ∈ suffixes, 1 ≤ p.1.count '\'' ∧ p.1.head?.any Char.isDigit = false := by
    decide
  have hmem : p.2 ∈ plainWords := List.mem_append_right _ (List.mem_map_of_mem h)
  obtain ⟨hne, hlower, hexpand, ho, hclock, hoclock⟩ := plainWords_spec p.2 hmem
  refine ⟨hall p h, hne, fun c hc => ?_, fun hc => absurd (hlower _ hc) (by decide), ho, hclock,
    hoclock, hexpand, head_of_letters hlower⟩
  rw [lowerAscii, hlower c hc, Bool.true_or]

/-- What stands before the ending of a contraction that no table has. -/
def stem (w : Word) : Option Word :=
  if (contractionTable.find? (·.1 = w)).isSome then none
  else (findSuffix w).bind fun p => if p.1 ≠ [] then some p.1 else none

/-- How a word is written out. -/
theorem expand_cases (t : Word) : (stem t = none ∧ expand t = [t]) ∨
    (stem t = none ∧ ∃ p ∈ contractionTable, t = p.1 ∧ expand t = p.2.splitOn ' ') ∨
    ∃ p ∈ suffixes, ∃ s, s ≠ [] ∧ t = s ++ p.1 ∧ stem t = some s ∧ expand t = [s, p.2] := by
  rw [expand, stem]
  cases hfind : contractionTable.find? (·.1 = t) with
  | some p =>
    have hkey := List.find?_some hfind
    exact .inr (.inl ⟨rfl, p, List.mem_of_find?_eq_some hfind, (of_decide_eq_true hkey).symm, rfl⟩)
  | none =>
    cases hsuffix : findSuffix t with
    | none => exact .inl ⟨rfl, rfl⟩
    | some q =>
      obtain ⟨p, hp, ht, hfull⟩ := findSuffix_eq_some hsuffix
      by_cases hne : q.1 = []
      · left
        simp [hne]
      · right
        right
        refine ⟨p, hp, q.1, hne, ht, ?_, ?_⟩
        · simp [hne]
        · simp [hne, hfull]

theorem clean_expand {t : Word} (h : Clean u t) : ∀ x ∈ expand t, Clean u x := by
  obtain ⟨-, heq⟩ | ⟨-, p, hp, -, heq⟩ | ⟨p, hp, stem, hne, ht, -, heq⟩ := expand_cases t
  · intro x hx
    rw [heq] at hx
    rwa [List.mem_singleton.mp hx]
  · intro x hx
    rw [heq] at hx
    exact (table_full hp hx).1
  · obtain ⟨⟨-, hhead⟩, hfull, hlower, -⟩ := suffix_spec hp
    have hstem : Clean u stem := by
      refine ⟨hne, fun c hc => h.head c ?_, fun c hc => h.chars c ?_, ?_⟩
      · rw [ht]
        exact List.mem_head?_append_of_mem_head? hc
      · rw [ht]
        exact List.mem_append_left _ hc
      · exact (ht ▸ h.marked).of_append hhead
    intro x hx
    rw [heq] at hx
    obtain rfl | hx := List.mem_cons.mp hx
    · exact hstem
    · rw [List.mem_singleton.mp hx]
      exact clean_of_lowerAscii hfull hlower

/-- Writing a word out loses apostrophes, or leaves words nothing changes. -/
theorem quotes_expand (u : Unicode) (t : Word) : quotes (expand t) ≤ t.count '\'' ∧
    (t.count '\'' ≤ quotes (expand t) → ∀ x ∈ expand t, x = t ∧ expand t = [t] ∨ Still u x) := by
  obtain ⟨-, heq⟩ | ⟨-, p, hp, -, heq⟩ | ⟨p, hp, stem, hne, ht, -, heq⟩ := expand_cases t
  · have hquotes : quotes (expand t) = t.count '\'' := by rw [heq, quotes_cons]; rfl
    refine ⟨hquotes.le, fun _ x hx => .inl ⟨?_, heq⟩⟩
    rw [heq] at hx
    exact List.mem_singleton.mp hx
  · have hzero : quotes (expand t) = 0 := by
      refine List.count_eq_zero_of_not_mem fun hc => ?_
      obtain ⟨x, hx, hc⟩ := List.mem_flatten.mp hc
      rw [heq] at hx
      exact (table_full (u := u) hp hx).2.2 hc
    refine ⟨by omega, fun _ x hx => .inr ?_⟩
    rw [heq] at hx
    exact (table_full hp hx).2.1
  · obtain ⟨⟨hpos, -⟩, -, -, hfull, -⟩ := suffix_spec hp
    have hquotes : quotes (expand t) = stem.count '\'' := by
      rw [heq, quotes_cons, quotes_cons, List.count_eq_zero_of_not_mem hfull]
      rfl
    have hcount : t.count '\'' = stem.count '\'' + p.1.count '\'' := by rw [ht, List.count_append]
    exact ⟨by omega, fun h => by omega⟩

/-- The words of the contraction step that are not those it was given. -/
theorem quotes_contractions (u : Unicode) (ts : List Word) : quotes (contractions ts) ≤ quotes ts ∧
    (quotes ts ≤ quotes (contractions ts) →
      ∀ x ∈ contractions ts, x ∈ ts ∧ expand x = [x] ∨ Still u x) := by
  induction ts with
  | nil => exact ⟨le_rfl, fun _ x hx => absurd hx List.not_mem_nil⟩
  | cons t ts ih =>
    have hcons : contractions (t :: ts) = expand t ++ contractions ts := List.flatMap_cons
    have ht := quotes_expand u t
    rw [hcons, quotes_append, quotes_cons]
    refine ⟨by omega, fun h x hx => ?_⟩
    obtain hx | hx := List.mem_append.mp hx
    · obtain ⟨rfl, hexpand⟩ | hstill := ht.2 (by omega) x hx
      · exact .inl ⟨List.mem_cons_self, hexpand⟩
      · exact .inr hstill
    · exact (ih.2 (by omega) x hx).imp_left fun hx => ⟨List.mem_cons_of_mem _ hx.1, hx.2⟩

theorem count_contractions (ts : List Word) :
    ts.count "o'clock".toList ≤ (contractions ts).count "o'clock".toList := by
  induction ts with
  | nil => exact le_rfl
  | cons t ts ih =>
    have hcons : contractions (t :: ts) = expand t ++ contractions ts := List.flatMap_cons
    rw [hcons, List.count_append, List.count_cons]
    split_ifs with ht
    · rw [beq_iff_eq.mp ht, oClock_expand, List.count_singleton_self]
      omega
    · omega

theorem contractions_eq_self {ts : List Word} (h : ∀ t ∈ ts, expand t = [t]) :
    contractions ts = ts := by
  rw [contractions, List.flatMap_congr (g := fun t => [t]) h]
  exact List.flatMap_singleton' ts

/-! ### What the clock step does to a word -/

theorem quotes_clockWord {t : Word} (h : t ≠ "oclock".toList) :
    quotes (clockWord u t) = t.count '\'' := by
  rw [clockWord]
  split
  next d s hsplit =>
    rw [(split_eq_some hsplit).1, quotes_cons, quotes_cons, List.count_append]
    rfl
  next =>
    split_ifs with hif
    · rw [hif.resolve_left h]
      rfl
    · rw [quotes_cons]
      rfl

theorem quotes_flatMap_clockWord {ts : List Word} (h : "oclock".toList ∉ ts) :
    quotes (ts.flatMap (clockWord u)) = quotes ts := by
  induction ts with
  | nil => rfl
  | cons t ts ih =>
    rw [List.mem_cons, not_or] at h
    rw [List.flatMap_cons, quotes_append, quotes_clockWord fun heq => h.1 heq.symm, ih h.2, quotes_cons]

theorem oClock_clean : Clean u "o'clock".toList := by
  refine ⟨by decide, fun c hc => by cases hc; decide, fun c hc => ?_, ?_⟩
  · have hall : ∀ c ∈ "o'clock".toList, c = '\'' ∨ lowerAscii c = true := by decide
    obtain rfl | hlower := hall c hc
    · refine ⟨u.lower_ascii '\'' (by decide), rfl, ?_⟩
      rw [u.whitespace_ascii '\'' (by decide)]
      rfl
    · obtain ⟨hlow, hstraight⟩ := u.lower_lowerAscii hlower
      exact ⟨hlow, hstraight, u.not_whitespace (u.alphanumeric_lowerAscii hlower)⟩
  · have halpha : ∀ c, lowerAscii c = true → u.isAlphanumeric c = true := fun c hc =>
      u.alphanumeric_lowerAscii hc
    exact ⟨.inr (.inl (halpha _ (by decide))), .inr (.inr (.inl rfl)),
      .plain fun c hc => halpha c (by revert c; decide)⟩

theorem clean_clockWord {t : Word} (h : Clean u t) : ∀ x ∈ clockWord u t, Clean u x := by
  intro x hx
  rw [clockWord] at hx
  split at hx
  next d s hsplit =>
    obtain ⟨rfl, hd, hdigits, hs, -, halpha⟩ := split_eq_some hsplit
    obtain rfl | hx := List.mem_cons.mp hx
    · exact clean_of_lowerAscii hd fun c hc => by rw [lowerAscii, hdigits c hc, Bool.or_true]
    · rw [List.mem_singleton.mp hx]
      refine ⟨hs, fun c hc => ?_, fun c hc => h.chars c (List.mem_append_right _ hc),
        .plain fun c hc => by rw [Unicode.isAlphanumeric, halpha c hc, Bool.true_or]⟩
      rintro rfl
      have := halpha _ (List.mem_of_mem_head? hc)
      rw [not_alphabetic_apostrophe] at this
      cases this
  next =>
    split_ifs at hx
    · rw [List.mem_singleton.mp hx]
      exact oClock_clean
    · rwa [List.mem_singleton.mp hx]

theorem clean_clockWords {ts : List Word} (h : ∀ t ∈ ts, Clean u t) :
    ∀ t ∈ clockWords u ts, Clean u t := by
  fun_induction clockWords u ts with
  | case1 => exact fun t ht => absurd ht List.not_mem_nil
  | case2 w => exact clean_clockWord (h w List.mem_cons_self)
  | case3 word next rest hif ih =>
    rw [List.forall_mem_cons] at h ⊢
    exact ⟨oClock_clean, ih fun t ht => h.2 t (List.mem_cons_of_mem _ ht)⟩
  | case4 word next rest hif ih =>
    rw [List.forall_mem_cons] at h
    rw [List.forall_mem_append]
    exact ⟨clean_clockWord h.1, ih h.2⟩

/-! ### The apostrophes at the ends -/

theorem quotes_trim (t : Word) : (trim (· = '\'') t).count '\'' ≤ t.count '\'' ∧
    (t.count '\'' ≤ (trim (· = '\'') t).count '\'' → trim (· = '\'') t = t) := by
  obtain ⟨a, b, ht, ha, hb⟩ := Fields.trim_append (p := (· = '\'')) t
  have hcount : ∀ {l : List Char}, (∀ c ∈ l, decide (c = '\'') = true) → l.count '\'' = l.length :=
    fun hl => List.count_eq_length.mpr fun c hc => (of_decide_eq_true (hl c hc)).symm
  have hsum : t.count '\'' = a.length + (trim (· = '\'') t).count '\'' + b.length := by
    conv_lhs => rw [ht]
    rw [List.count_append, List.count_append, hcount ha, hcount hb]
  refine ⟨by omega, fun h => ?_⟩
  have hnil : a = [] ∧ b = [] :=
    ⟨List.eq_nil_of_length_eq_zero (by omega), List.eq_nil_of_length_eq_zero (by omega)⟩
  rw [hnil.1, hnil.2, List.nil_append, List.append_nil] at ht
  exact ht.symm

theorem quotes_map_trim (ts : List Word) : quotes (ts.map (trim (· = '\''))) ≤ quotes ts ∧
    (quotes ts ≤ quotes (ts.map (trim (· = '\''))) → ts.map (trim (· = '\'')) = ts) := by
  induction ts with
  | nil => exact ⟨le_rfl, fun _ => rfl⟩
  | cons t ts ih =>
    have ht := quotes_trim t
    rw [List.map_cons, quotes_cons, quotes_cons]
    refine ⟨by omega, fun h => ?_⟩
    rw [ht.2 (by omega), ih.2 (by omega)]

/-! ### A run over the words of a run -/

/-- What the passes make of some words. -/
theorem normalize_eq_some {text : List Char} {out : List Word} (h : normalize u text = some out) :
    ∃ ns, numbers (contractions (clockWords u (words u text))) = some ns ∧
      out = joinMeridiem none ns := by
  obtain ⟨ns, hns, hout⟩ := Option.map_eq_some_iff.mp h
  exact ⟨ns, hns, hout.symm⟩

/-- The last two passes. -/
theorem last_merged {es ns : List Word} (h : numbers es = some ns) :
    Merged (Inert u) es ns ∧ Merged (Inert u) ns (joinMeridiem none ns) :=
  ⟨(numbers_merged h).1, (join_merged none ns).mono fun _ => inert_halves⟩

/-- The words of a normalized text are clean. -/
theorem normalize_clean {text : List Char} {out : List Word} (h : normalize u text = some out) :
    ∀ t ∈ out, Clean u t := by
  obtain ⟨ns, hns, rfl⟩ := normalize_eq_some h
  obtain ⟨hnumbers, hjoin⟩ := last_merged (u := u) hns
  rw [hjoin.forall_iff fun _ ht => ht.clean, hnumbers.forall_iff fun _ ht => ht.clean]
  intro t ht
  obtain ⟨w, hw, ht⟩ := List.mem_flatMap.mp ht
  exact clean_expand (clean_clockWords (fun w hw => (words_clean hw).1) w hw) t ht

/-- Nor is a number word among them. -/
theorem normalize_numberWord {text : List Char} {out : List Word} (h : normalize u text = some out) :
    ∀ t ∈ out, numberWord t = none := by
  obtain ⟨ns, hns, rfl⟩ := normalize_eq_some h
  have hhalves : ∀ t ∈ halves, numberWord t = none := by decide
  rw [(join_merged none ns).forall_iff hhalves]
  exact (numbers_merged (u := u) hns).2

theorem trim_of_settled {t : Word} (hclean : Clean u t) (h : ¬ Loose u t) :
    trim (· = '\'') t = t := by
  refine Fields.trim_eq_self (fun c hc => decide_eq_false (hclean.head c hc)) fun c hc =>
    decide_eq_false ?_
  rintro rfl
  exact h (.inl hc)

/-- Words nothing changes are what a second run makes of them. -/
theorem normalize_of_settled {text : List Char} {out : List Word}
    (h : normalize u text = some out) (hsettled : Settled u out) :
    normalize u (join ' ' out) = some out := by
  have hclean := normalize_clean h
  have hnumber := normalize_numberWord h
  obtain ⟨ns, -, hout⟩ := normalize_eq_some h
  have hstill : ∀ t ∈ out, Still u t := fun t ht =>
    not_not.mp fun hnot => hsettled.1 t ht (.inr (.inr hnot))
  have htrim : out.map (trim (· = '\'')) = out :=
    (List.map_congr_left fun t ht => trim_of_settled (hclean t ht) (hsettled.1 t ht)).trans
      (List.map_id _)
  have hclock : clockWords u out = out := by
    rw [clockWords_of_apart hsettled.2, List.flatMap_congr (g := fun t => [t])]
    · exact List.flatMap_singleton' out
    · exact fun t ht => clockWord_of_still (hstill t ht).1 fun heq => hsettled.1 t ht (.inr (.inl heq))
  rw [normalize, words_join hclean, htrim, hclock, contractions_eq_self fun t ht => (hstill t ht).2,
    numbers_eq_self hnumber, Option.map_some]
  conv_lhs => rw [hout, joinMeridiem_joinMeridiem]
  rw [← hout]

/-- Words a second run leaves as they are, nothing changes. -/
theorem settled_of_normalize {out : List Word} (hclean : ∀ t ∈ out, Clean u t)
    (h : normalize u (join ' ' out) = some out) : Settled u out := by
  obtain ⟨ns, hns, hout⟩ := normalize_eq_some h
  rw [words_join hclean] at hns
  obtain ⟨hnumbers, hjoin⟩ := last_merged (u := u) hns
  rw [← hout] at hjoin
  have hoClock : ¬ Inert u "o'clock".toList := fun h => h.apostrophe (by decide)
  -- The words `o'clock` are as many after each pass as before it: no clock word was made.
  have hcount : out.count "o'clock".toList ≤
      (out.map (trim (· = '\''))).count "o'clock".toList :=
    @List.count_le_count_map _ _ _ _ _ _ out (trim (· = '\'')) "o'clock".toList
  have hcountClock := count_clockWords (u := u) (out.map (trim (· = '\'')))
  have hcountContractions := count_contractions (clockWords u (out.map (trim (· = '\''))))
  have hcountNumbers := hnumbers.count_eq hoClock
  have hcountJoin := hjoin.count_eq hoClock
  obtain ⟨hoclock, hapart⟩ := hcountClock.2 (by omega)
  -- Nor is an apostrophe lost.
  have hquotesTrim := quotes_map_trim out
  have hquotesClock := quotes_flatMap_clockWord (u := u) hoclock
  rw [← clockWords_of_apart hapart] at hquotesClock
  have hquotes := quotes_contractions u (clockWords u (out.map (trim (· = '\''))))
  have hquotesNumbers := hnumbers.quotes_eq
  have hquotesJoin := hjoin.quotes_eq
  have htrim := hquotesTrim.2 (by omega)
  have hstill : ∀ t ∈ out, Still u t := by
    rw [hjoin.forall_iff fun _ ht => ht.still, hnumbers.forall_iff fun _ ht => ht.still]
    intro t ht
    obtain ⟨hmem, hexpand⟩ | hstill := hquotes.2 (by omega) t ht
    · exact ⟨split_clockWords hmem, hexpand⟩
    · exact hstill
  rw [htrim] at hoclock hapart
  refine ⟨fun t ht => ?_, hapart⟩
  rintro (hlast | rfl | hnot)
  · have hself : trim (· = '\'') t = t :=
      List.map_inj_left.mp (htrim.trans (List.map_id out).symm) t ht
    rw [← hself] at hlast
    exact absurd (Fields.trim_getLast? t '\'' hlast) (by decide)
  · exact hoclock ht
  · exact hnot (hstill t ht)

/-- The words stay the same exactly when none is left that a pass changes. -/
theorem normalize_join_iff {text : List Char} {out : List Word} (h : normalize u text = some out) :
    normalize u (join ' ' out) = some out ↔ Settled u out :=
  ⟨settled_of_normalize (normalize_clean h), normalize_of_settled h⟩

end EchoMuse.Grammar
