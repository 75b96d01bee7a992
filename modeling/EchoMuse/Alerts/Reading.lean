import EchoMuse.Alerts.Canonical
import EchoMuse.Alerts.Parser

/-!
# What Is Read

The readers against the grammar of texts. A reader that accepts only spellings of strings and
numbers reads only texts of the grammar (`Reader.Sound`); one that accepts every spelling reads
every text of the grammar (`Reader.Complete`). The controller's parser is both, up to the numbers
and surrogates it refuses; the firmware's decoder is complete.

## Main results

* `Reader.Sound.value`: what is read is a text of the grammar;
* `Reader.Complete.value`: a text of the grammar is read, nested no deeper than allowed;
* `parser_sound`, `parser_complete`, `decoder_complete`: the readers of the two sides.
-/

namespace EchoMuse.Alerts

/-! ### Whitespace -/

theorem blank_nil : Blank [] := rfl

theorem whitespace_split (rest : Text) :
    ∃ a, Blank a ∧ rest = a ++ Reader.whitespace rest :=
  ⟨rest.takeWhile isSpace, List.all_takeWhile, List.takeWhile_append_dropWhile.symm⟩

/-- Whitespace is skipped up to the next token. -/
theorem whitespace_append {a rest : Text} (ha : Blank a)
    (hrest : ∀ c ∈ rest.head?, isSpace c = false) : Reader.whitespace (a ++ rest) = rest := by
  have hdrop : (a ++ rest).dropWhile isSpace = rest.dropWhile isSpace :=
    List.dropWhile_append_of_pos fun c hc => List.all_eq_true.mp ha c hc
  rw [Reader.whitespace, hdrop]
  cases rest with
  | nil => rfl
  | cons c rest =>
      rw [List.dropWhile_cons_of_neg]
      rw [hrest c rfl]
      exact Bool.false_ne_true

/-! ### Number literals -/

/-- Digits stop before any other character. -/
theorem dropWhile_digits {ds rest : Text} (hds : ds.all Char.isDigit = true)
    (hrest : ∀ c ∈ rest.head?, c.isDigit = false) :
    (ds ++ rest).dropWhile Char.isDigit = rest := by
  rw [List.dropWhile_append_of_pos fun c hc => List.all_eq_true.mp hds c hc]
  cases rest with
  | nil => rfl
  | cons c rest =>
      rw [List.dropWhile_cons_of_neg]
      rw [hrest c rfl]
      exact Bool.false_ne_true

theorem takeWhile_digits_length (rest : Text) {ds : Text} (hds : IsDigits ds) :
    ((ds ++ rest).takeWhile Char.isDigit).length ≠ 0 := by
  obtain ⟨hne, hall⟩ := hds
  cases ds with
  | nil => exact absurd rfl hne
  | cons d ds =>
      rw [List.all_cons, Bool.and_eq_true] at hall
      rw [List.cons_append, List.takeWhile_cons_of_pos hall.1]
      exact Nat.succ_ne_zero _

/-- What a run of digits leaves. -/
theorem digits_split {rest : Text} (h : (rest.takeWhile Char.isDigit).length ≠ 0) :
    ∃ ds, IsDigits ds ∧ rest = ds ++ rest.dropWhile Char.isDigit := by
  refine ⟨rest.takeWhile Char.isDigit, ⟨?_, List.all_takeWhile⟩,
    List.takeWhile_append_dropWhile.symm⟩
  rintro hnil
  rw [hnil] at h
  exact h rfl

/-- Digits are no float marks. -/
theorem any_isFloatMark_digits {ds : Text} (h : ds.all Char.isDigit = true) :
    ds.any isFloatMark = false :=
  List.any_eq_false.mpr fun c hc => by
    rw [isFloatMark_of_isDigit (List.all_eq_true.mp h c hc)]
    exact Bool.false_ne_true

/-- An exponent mark is a float mark. -/
theorem isFloatMark_exponent {c : Char} (h : c = 'e' ∨ c = 'E') : isFloatMark c = true := by
  rcases h with rfl | rfl <;> decide

theorem skipSign_split (rest : Text) : ∃ s, IsSign s ∧ rest = s ++ skipSign rest := by
  unfold skipSign
  split
  · exact ⟨['+'], .inr (.inl rfl), rfl⟩
  · exact ⟨['-'], .inr (.inr rfl), rfl⟩
  · exact ⟨[], .inl rfl, rfl⟩

theorem skipMinus_split (rest : Text) :
    ∃ s, (s = [] ∨ s = ['-']) ∧ rest = s ++ skipMinus rest := by
  unfold skipMinus
  split
  · exact ⟨['-'], .inr rfl, rfl⟩
  · exact ⟨[], .inl rfl, rfl⟩

/-- Digits are no sign. -/
theorem skipSign_append {s ds rest : Text} (hs : IsSign s) (hds : IsDigits ds) :
    skipSign (s ++ (ds ++ rest)) = ds ++ rest := by
  obtain ⟨hne, hall⟩ := hds
  rcases hs with rfl | rfl | rfl
  · cases ds with
    | nil => exact absurd rfl hne
    | cons d ds =>
        rw [List.all_cons, Bool.and_eq_true] at hall
        unfold skipSign
        split
        · next heq =>
            cases heq
            exact absurd hall.1 (by decide)
        · next heq =>
            cases heq
            exact absurd hall.1 (by decide)
        · rfl
  · rfl
  · rfl

theorem skipMinus_append {s ds rest : Text} (hs : s = [] ∨ s = ['-']) (hds : IsDigits ds) :
    skipMinus (s ++ (ds ++ rest)) = ds ++ rest := by
  obtain ⟨hne, hall⟩ := hds
  rcases hs with rfl | rfl
  · cases ds with
    | nil => exact absurd rfl hne
    | cons d ds =>
        rw [List.all_cons, Bool.and_eq_true] at hall
        unfold skipMinus
        split
        · next heq =>
            cases heq
            exact absurd hall.1 (by decide)
        · rfl
  · rfl

/-- A character that cannot go on with a number. -/
def Stops (rest : Text) : Prop :=
  ∀ c ∈ rest.head?, c.isDigit = false ∧ isFloatMark c = false

section

variable {ε : Type} {bad : String → Text → ε}

theorem exponentEnd_sound {float g : Bool} {rest rest' : Text}
    (h : exponentEnd bad float rest = .ok (g, rest')) :
    ∃ e, IsExponent e ∧ g = (float || e.any isFloatMark) ∧ rest = e ++ rest' := by
  have hnone : g = float → rest' = rest →
      ∃ e, IsExponent e ∧ g = (float || e.any isFloatMark) ∧ rest = e ++ rest' := by
    rintro rfl rfl
    exact ⟨[], .inl rfl, by simp, rfl⟩
  cases rest with
  | nil =>
      cases h
      exact hnone rfl rfl
  | cons c rest =>
      simp only [exponentEnd] at h
      by_cases hc : c = 'e' ∨ c = 'E'
      · rw [if_pos hc] at h
        -- the sign, if there is one, and what follows it
        obtain ⟨s, hs, hr⟩ := skipSign_split rest
        by_cases hd : ((skipSign rest).takeWhile Char.isDigit).length = 0
        · rw [if_pos hd] at h
          cases h
        · rw [if_neg hd] at h
          obtain ⟨ds, hds, hsplit⟩ := digits_split hd
          simp only [Except.ok.injEq, Prod.mk.injEq] at h
          obtain ⟨rfl, rfl⟩ := h
          refine ⟨c :: (s ++ ds), .inr ⟨c, s, ds, hc, hs, hds, rfl⟩, ?_, ?_⟩
          · simp [isFloatMark_exponent hc]
          · rw [List.cons_append, List.append_assoc, ← hsplit, ← hr]
      · rw [if_neg hc] at h
        simp only [Except.ok.injEq, Prod.mk.injEq] at h
        exact hnone h.1.symm h.2.symm

variable (bad) in
theorem exponentEnd_complete {float : Bool} {e rest : Text} (he : IsExponent e)
    (hrest : Stops rest) :
    exponentEnd bad float (e ++ rest) = .ok (float || e.any isFloatMark, rest) := by
  rcases he with rfl | ⟨c, s, ds, hc, hs, hds, rfl⟩
  · cases rest with
    | nil => simp [exponentEnd]
    | cons c rest =>
        have hmark := (hrest c rfl).2
        simp only [isFloatMark, decide_eq_false_iff_not, not_or] at hmark
        simp [exponentEnd, hmark.2]
  · have hdrop := dropWhile_digits hds.2 fun c hc => (hrest c hc).1
    have htake := takeWhile_digits_length rest hds
    rw [List.cons_append, List.append_assoc, exponentEnd, if_pos hc, skipSign_append hs hds,
      if_neg htake, hdrop]
    simp [isFloatMark_exponent hc]

theorem fractionEnd_sound {g : Bool} {rest rest' : Text}
    (h : fractionEnd bad rest = .ok (g, rest')) :
    ∃ f e, IsFraction f ∧ IsExponent e ∧ g = (f.any isFloatMark || e.any isFloatMark) ∧
      rest = f ++ (e ++ rest') := by
  unfold fractionEnd at h
  split at h
  · next rest =>
      by_cases hd : (rest.takeWhile Char.isDigit).length = 0
      · rw [if_pos hd] at h
        cases h
      · rw [if_neg hd] at h
        obtain ⟨ds, hds, hsplit⟩ := digits_split hd
        obtain ⟨e, he, rfl, hrest⟩ := exponentEnd_sound h
        refine ⟨'.' :: ds, e, .inr ⟨ds, hds, rfl⟩, he, rfl, ?_⟩
        rw [List.cons_append, ← hrest, ← hsplit]
  · obtain ⟨e, he, rfl, hrest⟩ := exponentEnd_sound h
    exact ⟨[], e, .inl rfl, he, rfl, hrest⟩

/-- An exponent or what follows a number is no digit. -/
theorem exponent_head {e rest : Text} (he : IsExponent e) (hrest : Stops rest) :
    ∀ c ∈ (e ++ rest).head?, c.isDigit = false ∧ c ≠ '.' := by
  rcases he with rfl | ⟨c, s, ds, hc, -, -, rfl⟩
  · intro c hc
    have hstop := hrest c hc
    refine ⟨hstop.1, ?_⟩
    rintro rfl
    cases hstop.2
  · rintro d hd
    cases hd
    rcases hc with rfl | rfl <;> decide

variable (bad) in
theorem fractionEnd_complete {f e rest : Text} (hf : IsFraction f) (he : IsExponent e)
    (hrest : Stops rest) :
    fractionEnd bad (f ++ (e ++ rest)) = .ok (f.any isFloatMark || e.any isFloatMark, rest) := by
  have hhead := exponent_head he hrest
  rcases hf with rfl | ⟨ds, hds, rfl⟩
  · have hfloat : exponentEnd bad false (e ++ rest) = _ := exponentEnd_complete bad he hrest
    rw [List.nil_append]
    unfold fractionEnd
    split
    · next heq =>
        rw [heq] at hhead
        exact absurd rfl (hhead _ rfl).2
    · rw [hfloat]
      rfl
  · rw [List.cons_append, fractionEnd, if_neg (takeWhile_digits_length _ hds),
      dropWhile_digits hds.2 fun c hc => (hhead c hc).1, exponentEnd_complete bad he hrest]
    rfl

theorem numberEnd_sound {g : Bool} {rest rest' : Text}
    (h : numberEnd bad rest = .ok (g, rest')) :
    ∃ l, IsNumber l ∧ g = l.any isFloatMark ∧ rest = l ++ rest' := by
  obtain ⟨s, hs, hr⟩ := skipMinus_split rest
  have hsmark : s.any isFloatMark = false := by
    rcases hs with rfl | rfl <;> decide
  generalize hrest : skipMinus rest = r at hr
  unfold numberEnd at h
  rw [hrest] at h
  -- the digits before the fraction, and what follows them
  obtain ⟨i, u, hi, hu, hfraction⟩ : ∃ i u, IsInteger i ∧ r = i ++ u ∧
      fractionEnd bad u = .ok (g, rest') := by
    split at h
    · exact ⟨['0'], _, ⟨⟨nofun, rfl⟩, fun _ => rfl⟩, rfl, h⟩
    · next c r hzero =>
        by_cases hc : c.isDigit = true
        · rw [if_pos hc] at h
          refine ⟨c :: r.takeWhile Char.isDigit, _, ⟨⟨nofun, ?_⟩, ?_⟩, ?_, h⟩
          · rw [List.all_cons, hc, List.all_takeWhile]
            rfl
          · intro hhead
            cases hhead
            exact absurd rfl hzero
          · rw [List.cons_append, List.takeWhile_append_dropWhile]
        · rw [if_neg hc] at h
          cases h
    · cases h
  obtain ⟨f, e, hf, he, rfl, hu'⟩ := fractionEnd_sound hfraction
  refine ⟨s ++ (i ++ (f ++ e)), ⟨s, i, f, e, hs, hi, hf, he, rfl⟩, ?_, ?_⟩
  · simp [hsmark, any_isFloatMark_digits hi.1.2]
  · rw [hr, hu, hu']
    simp only [List.append_assoc]

theorem numberEnd_complete {l rest : Text} (hl : IsNumber l) (hrest : Stops rest) :
    numberEnd bad (l ++ rest) = .ok (l.any isFloatMark, rest) := by
  obtain ⟨s, i, f, e, hs, ⟨⟨hne, hdigits⟩, hzero⟩, hf, he, rfl⟩ := hl
  have hsmark : s.any isFloatMark = false := by
    rcases hs with rfl | rfl <;> decide
  have hfraction := fractionEnd_complete bad hf he hrest
  have hhead : ∀ c ∈ (f ++ (e ++ rest)).head?, c.isDigit = false := by
    rcases hf with rfl | ⟨ds, -, rfl⟩
    · exact fun c hc => (exponent_head he hrest c hc).1
    · rintro c hc
      cases hc
      rfl
  have hmarks : (s ++ (i ++ (f ++ e))).any isFloatMark =
      (f.any isFloatMark || e.any isFloatMark) := by
    simp [hsmark, any_isFloatMark_digits hdigits]
  have hsplit : s ++ (i ++ (f ++ e)) ++ rest = s ++ (i ++ (f ++ (e ++ rest))) := by
    simp only [List.append_assoc]
  rw [hmarks, hsplit, numberEnd, skipMinus_append hs ⟨hne, hdigits⟩]
  cases i with
  | nil => exact absurd rfl hne
  | cons d ds =>
      rw [List.all_cons, Bool.and_eq_true] at hdigits
      rw [List.cons_append]
      split
      · next heq =>
          cases heq
          have hds : ds = [] := (List.cons.inj (hzero rfl)).2
          rw [hds, List.nil_append]
          exact hfraction
      · next heq =>
          cases heq
          rw [if_pos hdigits.1, dropWhile_digits hdigits.2 hhead]
          exact hfraction
      · next heq => cases heq

/-- The literal of a number is what was read. -/
theorem take_literal (l rest : Text) :
    (l ++ rest).take ((l ++ rest).length - rest.length) = l := by
  rw [List.length_append, Nat.add_sub_cancel, List.take_left]

end

/-! ### Loops over spellings -/

section

variable {ε α : Type} {spent : ε} {step : Text → Except ε (List α × Bool × Text)}

/-- What holds of a last step and is carried back over the others holds of a loop. -/
theorem loop_sound {P : Text → List α → Text → Prop}
    (hlast : ∀ rest as rest', step rest = .ok (as, false, rest') → P rest as rest')
    (hmore : ∀ rest as mid bs rest', step rest = .ok (as, true, mid) → P mid bs rest' →
      P rest (as ++ bs) rest')
    {n : ℕ} {rest rest' : Text} {as : List α} (h : loop spent step n rest = .ok (as, rest')) :
    P rest as rest' := by
  induction n generalizing rest as with
  | zero => cases h
  | succ n ih =>
      simp only [loop] at h
      rcases hs : step rest with e | ⟨cs, more, mid⟩
      · rw [hs] at h
        cases h
      · rw [hs] at h
        cases more with
        | false =>
            cases h
            exact hlast _ _ _ hs
        | true =>
            dsimp only at h
            rcases hl : loop spent step n mid with e | ⟨bs, last⟩
            · rw [hl] at h
              cases h
            · rw [hl] at h
              cases h
              exact hmore _ _ _ _ _ hs (ih hl)

theorem loop_last {n : ℕ} {rest rest' : Text} {as : List α} (hn : 0 < n)
    (h : step rest = .ok (as, false, rest')) : loop spent step n rest = .ok (as, rest') := by
  obtain ⟨n, rfl⟩ : ∃ m, n = m + 1 := ⟨n - 1, by omega⟩
  simp only [loop, h]

theorem loop_more {n : ℕ} {rest mid rest' : Text} {as bs : List α}
    (h : step rest = .ok (as, true, mid)) (hrest : loop spent step n mid = .ok (bs, rest')) :
    loop spent step (n + 1) rest = .ok (as ++ bs, rest') := by
  simp only [loop, h, hrest]

end

/-! ### Strings -/

/-- A step that reads one character of a string or its closing quote. -/
structure CharStep {ε : Type} (step : Text → Except ε (Text × Bool × Text)) : Prop where
  quote : ∀ rest, step ('"' :: rest) = .ok ([], false, rest)
  spelled : ∀ c t rest, SpellsChar c t → step (t ++ rest) = .ok ([c], true, rest)

/-- Such a step reads every spelling of a string. -/
theorem CharStep.loop {ε : Type} {spent : ε} {step : Text → Except ε (Text × Bool × Text)}
    (hstep : CharStep step) {s t rest : Text} (h : SpellsChars s t) {n : ℕ} (hn : s.length < n) :
    loop spent step n (t ++ '"' :: rest) = .ok (s, rest) := by
  induction h generalizing n with
  | nil => exact loop_last (by omega) (hstep.quote rest)
  | @cons c s t u hc hs ih =>
      obtain ⟨n, rfl⟩ : ∃ m, n = m + 1 := ⟨n - 1, by omega⟩
      rw [List.length_cons] at hn
      rw [List.append_assoc]
      exact loop_more (hstep.spelled c t _ hc) (ih (by omega))

/-- A character is spelled with at least one. -/
theorem SpellsChar.length_pos {c : Char} {t : Text} (h : SpellsChar c t) : 0 < t.length := by
  cases h <;> simp

theorem SpellsChars.length_le {s t : Text} (h : SpellsChars s t) : s.length ≤ t.length := by
  induction h with
  | nil => exact le_rfl
  | cons hc hs ih =>
      have hpos := hc.length_pos
      rw [List.length_cons, List.length_append]
      omega

theorem take_hex4 (rest : Text) {hex : Text} (h : IsHex4 hex) :
    (hex ++ rest).take 4 = hex ∧ (hex ++ rest).drop 4 = rest := by
  rw [← h.1]
  exact ⟨List.take_left, List.drop_left⟩

theorem not_isLowSurrogate {unit : ℕ} (h : isHighSurrogate unit = true) :
    isLowSurrogate unit = false := by
  simp only [isHighSurrogate, decide_eq_true_eq] at h
  simp only [isLowSurrogate, decide_eq_false_iff_not]
  omega

/-- No letter of a one-letter escape is the `u` of the others. -/
theorem shortEscape_ne {e c : Char} (h : shortEscape e = some c) : e ≠ 'u' := by
  rintro rfl
  cases h

/-- A character is read however it is spelled when its `u` escapes are. -/
theorem charStep_of_unicode {ε : Type} {unclosed : ε} {bad : String → Text → ε}
    {unicode : Text → Text → Except ε (Char × Text)}
    (hu : ∀ escape rest u c, SpellsChar c ('\\' :: 'u' :: u) →
      unicode escape (u ++ rest) = .ok (c, rest)) :
    CharStep (stringChar unclosed bad unicode) where
  quote _ := rfl
  spelled c t rest h := by
    cases h with
    | plain c hquote hslash hcontrol =>
        rw [List.singleton_append]
        unfold stringChar
        split
        · next heq => cases heq
        · next heq =>
            cases heq
            exact absurd rfl hquote
        · next heq =>
            cases heq
            exact absurd rfl hslash
        · next heq =>
            cases heq
            exact absurd rfl hslash
        · next heq =>
            cases heq
            exact absurd rfl hslash
        · next heq =>
            cases heq
            rw [if_neg (by omega)]
    | @short e c he =>
        have hne := shortEscape_ne he
        change stringChar unclosed bad unicode ('\\' :: e :: rest) = _
        unfold stringChar
        split
        · next heq => cases heq
        · next heq => cases heq
        · next heq => cases heq
        · next heq =>
            cases heq
            exact absurd rfl hne
        · next heq =>
            cases heq
            rw [he]
        · next hslash _ hshort heq =>
            cases heq
            exact absurd rfl (hshort e rest rfl)
    | unit hhex hhigh hlow =>
        have hread := fun escape => hu escape rest _ _ (.unit hhex hhigh hlow)
        simp only [List.cons_append, stringChar, hread]
    | pair hh hl hhigh hlow =>
        have hread := fun escape => hu escape rest _ _ (.pair hh hl hhigh hlow)
        simp only [List.cons_append, stringChar, hread]

namespace Parser

variable {text : Text}

theorem hex4_complete {hex rest : Text} (h : IsHex4 hex) :
    hex4 text (hex ++ rest) = .ok (ofHex hex, rest) := by
  obtain ⟨htake, hdrop⟩ := take_hex4 rest h
  have hhex : hex.length = 4 ∧ hex.all isHexDigit = true := h
  rw [hex4, htake, hdrop, if_pos hhex]

theorem hex4_sound {rest rest' : Text} {unit : ℕ} (h : hex4 text rest = .ok (unit, rest')) :
    ∃ hex, IsHex4 hex ∧ unit = ofHex hex ∧ rest = hex ++ rest' := by
  unfold hex4 at h
  by_cases hhex : (rest.take 4).length = 4 ∧ (rest.take 4).all isHexDigit = true
  · rw [if_pos hhex] at h
    cases h
    exact ⟨rest.take 4, hhex, rfl, (List.take_append_drop 4 rest).symm⟩
  · rw [if_neg hhex] at h
    cases h

theorem unicode_sound {escape rest rest' : Text} {c : Char}
    (h : unicode text escape rest = .ok (c, rest')) :
    ∃ t, SpellsChar c ('\\' :: 'u' :: t) ∧ rest = t ++ rest' := by
  unfold unicode at h
  rcases hhex : hex4 text rest with e | ⟨unit, mid⟩
  · rw [hhex] at h
    cases h
  · rw [hhex] at h
    obtain ⟨hex, hhex4, rfl, rfl⟩ := hex4_sound hhex
    dsimp only at h
    by_cases hhigh : isHighSurrogate (ofHex hex) = true
    · rw [if_pos hhigh] at h
      split at h
      · next next =>
          rcases hlow4 : hex4 text next with e | ⟨low, last⟩
          · rw [hlow4] at h
            cases h
          · rw [hlow4] at h
            obtain ⟨hex', hhex4', rfl, rfl⟩ := hex4_sound hlow4
            dsimp only at h
            by_cases hlow : isLowSurrogate (ofHex hex') = true
            · rw [if_pos hlow, Except.ok.injEq, Prod.mk.injEq] at h
              obtain ⟨rfl, rfl⟩ := h
              exact ⟨hex ++ '\\' :: 'u' :: hex', .pair hhex4 hhex4' hhigh hlow, by simp⟩
            · rw [if_neg hlow] at h
              cases h
      · cases h
    · rw [if_neg hhigh] at h
      by_cases hlow : isLowSurrogate (ofHex hex) = true
      · rw [if_pos hlow] at h
        cases h
      · rw [if_neg hlow, Except.ok.injEq, Prod.mk.injEq] at h
        obtain ⟨rfl, rfl⟩ := h
        exact ⟨hex, .unit hhex4 (by simpa using hhigh) (by simpa using hlow), rfl⟩

/-- What the parser takes for a character spells it. -/
theorem char_sound {rest rest' s : Text} {more : Bool}
    (h : char text rest = .ok (s, more, rest')) :
    (more = false ∧ s = [] ∧ rest = '"' :: rest') ∨
      ∃ c t, more = true ∧ s = [c] ∧ SpellsChar c t ∧ rest = t ++ rest' := by
  unfold char stringChar at h
  split at h
  · cases h
  · cases h
    exact .inl ⟨rfl, rfl, rfl⟩
  · cases h
  · next rest =>
      rcases hu : unicode text ('\\' :: 'u' :: rest) rest with e | ⟨c, last⟩
      · rw [hu] at h
        cases h
      · rw [hu] at h
        cases h
        obtain ⟨t, ht, rfl⟩ := unicode_sound hu
        exact .inr ⟨c, _, rfl, rfl, ht, rfl⟩
  · next e rest hne =>
      rcases he : shortEscape e with _ | c
      · rw [he] at h
        cases h
      · rw [he] at h
        cases h
        exact .inr ⟨c, _, rfl, rfl, .short he, rfl⟩
  · next c rest hquote hslash hu hshort =>
      by_cases hc : c.toNat < 0x20
      · rw [if_pos hc] at h
        cases h
      · rw [if_neg hc] at h
        cases h
        refine .inr ⟨c, [c], rfl, rfl, .plain c ?_ ?_ (by omega), rfl⟩
        · rintro rfl
          exact hquote rfl
        · rintro rfl
          cases rest' with
          | nil => exact hslash rfl rfl
          | cons e rest' => exact hshort e rest' rfl rfl

theorem unicode_complete (escape rest u : Text) (c : Char)
    (h : SpellsChar c ('\\' :: 'u' :: u)) : unicode text escape (u ++ rest) = .ok (c, rest) := by
  cases h with
  | short h => exact absurd h nofun
  | unit hhex hhigh hlow =>
      rw [unicode, hex4_complete hhex]
      dsimp only
      rw [if_neg (by simp [hhigh]), if_neg (by simp [hlow])]
  | @pair high low hh hl hhigh hlow =>
      rw [List.append_assoc, unicode, hex4_complete hh]
      simp only [hhigh, if_true, List.cons_append, hex4_complete hl, hlow]

/-- The parser reads every spelling of a character. -/
theorem charStep : CharStep (char text) := charStep_of_unicode fun _ => unicode_complete _

end Parser

/-! ### What is read is a text of the grammar -/

/-- A value starts with a character that is neither whitespace nor a closing bracket. -/
theorem Spells.head {w : Json Text} {t : Text} (h : Spells w t) :
    ∃ c u, t = c :: u ∧ isSpace c = false ∧ c ≠ ']' := by
  cases h with
  | null => exact ⟨_, _, rfl, by decide⟩
  | bool b =>
      cases b
      · exact ⟨_, _, rfl, by decide⟩
      · exact ⟨_, _, rfl, by decide⟩
  | num h =>
      obtain ⟨s, i, f, e, hs, ⟨⟨hne, hdigits⟩, -⟩, -, -, rfl⟩ := h
      rcases hs with rfl | rfl
      · cases i with
        | nil => exact absurd rfl hne
        | cons d ds =>
            rw [List.all_cons, Bool.and_eq_true] at hdigits
            refine ⟨d, _, rfl, ?_, ?_⟩
            · rw [isSpace, decide_eq_false_iff_not]
              rintro (rfl | rfl | rfl | rfl)
              all_goals exact absurd hdigits.1 (by decide)
            · rintro rfl
              exact absurd hdigits.1 (by decide)
      · exact ⟨_, _, rfl, by decide⟩
  | str h => exact ⟨_, _, rfl, by decide⟩
  | arrNil h => exact ⟨_, _, rfl, by decide⟩
  | arr h => exact ⟨_, _, rfl, by decide⟩
  | objNil h => exact ⟨_, _, rfl, by decide⟩
  | obj h => exact ⟨_, _, rfl, by decide⟩

/-- The first token of a list of items is no closing bracket. -/
theorem SpellsItems.head {vs : List (Json Text)} {t : Text} (h : SpellsItems vs t) :
    ∃ b d u, Blank b ∧ t = b ++ d :: u ∧ isSpace d = false ∧ d ≠ ']' ∧
      SpellsItems vs (d :: u) := by
  cases h with
  | @last v a b t ha hb h =>
      obtain ⟨c, u, rfl, hc, hne⟩ := h.head
      exact ⟨a, c, u ++ b, ha, rfl, hc, hne, .last blank_nil hb h⟩
  | @cons v w vs a b t s ha hb h hs =>
      obtain ⟨c, u, rfl, hc, hne⟩ := h.head
      exact ⟨a, c, u ++ (b ++ ',' :: s), ha, rfl, hc, hne, .cons blank_nil hb h hs⟩

/-- The first token of a list of members is a quote. -/
theorem SpellsMembers.head {ms : List (Text × Json Text)} {t : Text} (h : SpellsMembers ms t) :
    ∃ b u, Blank b ∧ t = b ++ '"' :: u ∧ SpellsMembers ms ('"' :: u) := by
  cases h with
  | last ha hb hc hd hk h => exact ⟨_, _, ha, rfl, .last blank_nil hb hc hd hk h⟩
  | cons ha hb hc hd hk h hs => exact ⟨_, _, ha, rfl, .cons blank_nil hb hc hd hk h hs⟩

theorem blank_append {a b : Text} (ha : Blank a) (hb : Blank b) : Blank (a ++ b) := by
  rw [Blank, List.all_append, ha, hb]
  rfl

/-- More whitespace before the first item. -/
theorem SpellsItems.blank {vs : List (Json Text)} {a t : Text} (ha : Blank a)
    (h : SpellsItems vs t) : SpellsItems vs (a ++ t) := by
  cases h with
  | last hb hc h =>
      rw [← List.append_assoc]
      exact .last (blank_append ha hb) hc h
  | cons hb hc h hs =>
      rw [← List.append_assoc]
      exact .cons (blank_append ha hb) hc h hs

theorem SpellsMembers.blank {ms : List (Text × Json Text)} {a t : Text} (ha : Blank a)
    (h : SpellsMembers ms t) : SpellsMembers ms (a ++ t) := by
  cases h with
  | last hb hc hd he hk h =>
      rw [← List.append_assoc]
      exact .last (blank_append ha hb) hc hd he hk h
  | cons hb hc hd he hk h hs =>
      rw [← List.append_assoc]
      exact .cons (blank_append ha hb) hc hd he hk h hs

section

variable {ε ν : Type} {R : Reader ε ν} {r : ν → Text → Prop}

/-- A reader that accepts spellings of strings and numbers only; `r` says which number it makes of
a literal. -/
structure Reader.Sound (R : Reader ε ν) (r : ν → Text → Prop) : Prop where
  string : ∀ {rest s rest'}, R.string rest = .ok (s, rest') →
    ∃ t, SpellsChars s t ∧ rest = t ++ '"' :: rest'
  number : ∀ {rest n rest'}, R.number rest = .ok (n, rest') →
    ∃ l, IsNumber l ∧ r n l ∧ rest = l ++ rest'

/-- A function that reads values of the grammar, nested no deeper than `depth`. -/
def ReadsValues (r : ν → Text → Prop) (depth : ℕ)
    (value : Text → Except ε (Json ν × Text)) : Prop :=
  ∀ {rest v rest'}, value rest = .ok (v, rest') → ∃ a w t, Blank a ∧ Spells w t ∧
    Json.Rel r v w ∧ w.depth ≤ depth ∧ rest = a ++ (t ++ rest')

namespace Reader

theorem literal_sound {word : String} {node v : Json ν} {rest rest' : Text}
    (h : R.literal word node rest = .ok (v, rest')) :
    v = node ∧ rest = word.toList ++ rest' := by
  unfold literal at h
  by_cases hword : word.toList <+: rest
  · rw [if_pos hword] at h
    cases h
    obtain ⟨u, rfl⟩ := hword
    rw [List.drop_left]
    exact ⟨rfl, rfl⟩
  · rw [if_neg hword] at h
    cases h

namespace Sound

theorem items {depth : ℕ} {value : Text → Except ε (Json ν × Text)}
    (hvalue : ReadsValues r depth value) {spent : ε} {n : ℕ} {rest rest' : Text}
    {vs : List (Json ν)} (h : loop spent (R.item value) n rest = .ok (vs, rest')) :
    ∃ w ws t, SpellsItems (w :: ws) t ∧ RelItems r vs (w :: ws) ∧
      depthItems (w :: ws) ≤ depth ∧ rest = t ++ ']' :: rest' := by
  refine loop_sound (P := fun rest vs rest' => ∃ w ws t, SpellsItems (w :: ws) t ∧
    RelItems r vs (w :: ws) ∧ depthItems (w :: ws) ≤ depth ∧ rest = t ++ ']' :: rest') ?_ ?_ h
  · intro rest vs rest' hitem
    unfold item at hitem
    rcases hv : value rest with e | ⟨v, mid⟩
    · rw [hv] at hitem
      cases hitem
    · rw [hv] at hitem
      obtain ⟨a, w, t, ha, hw, hrel, hdepth, rfl⟩ := hvalue hv
      obtain ⟨b, hb, hmid⟩ := whitespace_split mid
      dsimp only at hitem
      split at hitem
      · cases hitem
      · next hend =>
          cases hitem
          refine ⟨w, [], _, .last ha hb hw, .cons hrel .nil, ?_, ?_⟩
          · simpa [depthItems] using hdepth
          · rw [hmid, hend]
            simp only [List.append_assoc]
      · cases hitem
  · rintro rest vs mid' us rest' hitem ⟨w', ws, u, hu, hrels, hdepths, rfl⟩
    unfold item at hitem
    rcases hv : value rest with e | ⟨v, mid⟩
    · rw [hv] at hitem
      cases hitem
    · rw [hv] at hitem
      obtain ⟨a, w, t, ha, hw, hrel, hdepth, rfl⟩ := hvalue hv
      obtain ⟨b, hb, hmid⟩ := whitespace_split mid
      dsimp only at hitem
      split at hitem
      · next hend =>
          cases hitem
          refine ⟨w, w' :: ws, _, .cons ha hb hw hu, .cons hrel hrels, ?_, ?_⟩
          · rw [depthItems]
            omega
          · rw [hmid, hend]
            simp only [List.append_assoc, List.cons_append]
      · cases hitem
      · cases hitem

theorem array {depth : ℕ} {value : Text → Except ε (Json ν × Text)}
    (hvalue : ReadsValues r depth value) {rest rest' : Text} {v : Json ν}
    (h : R.array value rest = .ok (v, rest')) :
    ∃ w t, Spells w ('[' :: t) ∧ Json.Rel r v w ∧ w.depth ≤ depth + 1 ∧ rest = t ++ rest' := by
  obtain ⟨a, ha, hrest⟩ := whitespace_split rest
  unfold Reader.array at h
  split at h
  · next hend =>
      cases h
      refine ⟨.arr [], a ++ [']'], .arrNil ha, .arr .nil, ?_, ?_⟩
      · simp [Json.depth, depthItems]
      · rw [hrest, hend]
        simp
  · next hopen =>
      generalize whitespace rest = mid at *
      rcases hl : loop (R.bad "',' or ']'" mid) (R.item value) (mid.length + 1) mid with
        e | ⟨vs, last⟩
      · rw [hl] at h
        cases h
      · rw [hl] at h
        cases h
        obtain ⟨w, ws, t, hspell, hrel, hdepth, rfl⟩ := items hvalue hl
        have hblank : SpellsItems (w :: ws) (a ++ t) := hspell.blank ha
        refine ⟨.arr (w :: ws), (a ++ t) ++ [']'], .arr hblank, .arr hrel, ?_, ?_⟩
        · rw [Json.depth]
          omega
        · rw [hrest]
          simp

theorem key (hR : R.Sound r) {rest rest' k : Text} (h : R.key rest = .ok (k, rest')) :
    ∃ a b s, Blank a ∧ Blank b ∧ SpellsChars k s ∧
      rest = a ++ '"' :: (s ++ '"' :: (b ++ ':' :: rest')) := by
  obtain ⟨a, ha, hrest⟩ := whitespace_split rest
  unfold Reader.key at h
  split at h
  · next start hquote =>
      rcases hs : R.string start with e | ⟨k, mid⟩
      · rw [hs] at h
        cases h
      · rw [hs] at h
        obtain ⟨s, hspell, rfl⟩ := hR.string hs
        obtain ⟨b, hb, hmid⟩ := whitespace_split mid
        dsimp only at h
        split at h
        · next hcolon =>
            cases h
            refine ⟨a, b, s, ha, hb, hspell, ?_⟩
            rw [hrest, hquote, ← hcolon, ← hmid]
        · cases h
  · cases h

/-- A member, up to what follows its value. -/
theorem member {depth : ℕ} {value : Text → Except ε (Json ν × Text)} (hR : R.Sound r)
    (hvalue : ReadsValues r depth value) {rest rest' : Text} {ms : List (Text × Json ν)}
    {more : Bool} (h : R.member value rest = .ok (ms, more, rest')) :
    ∃ a b c d k v w s t, Blank a ∧ Blank b ∧ Blank c ∧ Blank d ∧ SpellsChars k s ∧
      Spells w t ∧ Json.Rel r v w ∧ w.depth ≤ depth ∧ ms = [(k, v)] ∧
      rest = a ++ '"' :: (s ++ '"' :: (b ++ ':' :: (c ++ (t ++ (d ++
        (if more then ',' else '\x7d') :: rest'))))) := by
  unfold Reader.member at h
  rcases hk : R.key rest with e | ⟨k, start⟩
  · rw [hk] at h
    cases h
  · rw [hk] at h
    obtain ⟨a, b, s, ha, hb, hs, rfl⟩ := hR.key hk
    dsimp only at h
    rcases hv : value start with e | ⟨v, mid⟩
    · rw [hv] at h
      cases h
    · rw [hv] at h
      obtain ⟨c, w, t, hc, hw, hrel, hdepth, rfl⟩ := hvalue hv
      obtain ⟨d, hd, hmid⟩ := whitespace_split mid
      dsimp only at h
      split at h
      · next hend =>
          cases h
          refine ⟨a, b, c, d, k, v, w, s, t, ha, hb, hc, hd, hs, hw, hrel, hdepth, rfl, ?_⟩
          rw [if_pos rfl, ← hend, ← hmid]
      · next hend =>
          cases h
          refine ⟨a, b, c, d, k, v, w, s, t, ha, hb, hc, hd, hs, hw, hrel, hdepth, rfl, ?_⟩
          rw [if_neg Bool.false_ne_true, ← hend, ← hmid]
      · cases h

theorem members {depth : ℕ} {value : Text → Except ε (Json ν × Text)} (hR : R.Sound r)
    (hvalue : ReadsValues r depth value) {spent : ε} {n : ℕ} {rest rest' : Text}
    {ms : List (Text × Json ν)} (h : loop spent (R.member value) n rest = .ok (ms, rest')) :
    ∃ w ws t, SpellsMembers (w :: ws) t ∧ RelMembers r ms (w :: ws) ∧
      depthMembers (w :: ws) ≤ depth ∧ rest = t ++ '\x7d' :: rest' := by
  refine loop_sound (P := fun rest ms rest' => ∃ w ws t, SpellsMembers (w :: ws) t ∧
    RelMembers r ms (w :: ws) ∧ depthMembers (w :: ws) ≤ depth ∧
    rest = t ++ '\x7d' :: rest') ?_ ?_ h
  · intro rest ms rest' hmember
    obtain ⟨a, b, c, d, k, v, w, s, t, ha, hb, hc, hd, hs, hw, hrel, hdepth, rfl, rfl⟩ :=
      hR.member hvalue hmember
    refine ⟨(k, w), [], _, .last ha hb hc hd hs hw, .cons k hrel .nil, ?_, ?_⟩
    · simpa [depthMembers] using hdepth
    · simp
  · rintro rest ms mid ms' rest' hmember ⟨w', ws, u, hu, hrels, hdepths, rfl⟩
    obtain ⟨a, b, c, d, k, v, w, s, t, ha, hb, hc, hd, hs, hw, hrel, hdepth, rfl, rfl⟩ :=
      hR.member hvalue hmember
    refine ⟨(k, w), w' :: ws, _, .cons ha hb hc hd hs hw hu, .cons k hrel hrels, ?_, ?_⟩
    · rw [depthMembers]
      omega
    · simp

theorem object {depth : ℕ} {value : Text → Except ε (Json ν × Text)} (hR : R.Sound r)
    (hvalue : ReadsValues r depth value) {rest rest' : Text} {v : Json ν}
    (h : R.object value rest = .ok (v, rest')) :
    ∃ w t, Spells w ('\x7b' :: t) ∧ Json.Rel r v w ∧ w.depth ≤ depth + 1 ∧
      rest = t ++ rest' := by
  obtain ⟨a, ha, hrest⟩ := whitespace_split rest
  unfold Reader.object at h
  split at h
  · next hend =>
      cases h
      refine ⟨.obj [], a ++ ['\x7d'], .objNil ha, .obj .nil, ?_, ?_⟩
      · simp [Json.depth, depthMembers]
      · rw [hrest, hend]
        simp
  · next hopen =>
      generalize whitespace rest = mid at *
      rcases hl : loop (R.bad "',' or '\x7d'" mid) (R.member value) (mid.length + 1) mid with
        e | ⟨ms, last⟩
      · rw [hl] at h
        cases h
      · rw [hl] at h
        cases h
        obtain ⟨w, ws, t, hspell, hrel, hdepth, rfl⟩ := hR.members hvalue hl
        have hblank : SpellsMembers (w :: ws) (a ++ t) := hspell.blank ha
        refine ⟨.obj (w :: ws), (a ++ t) ++ ['\x7d'], .obj hblank, .obj hrel, ?_, ?_⟩
        · rw [Json.depth]
          omega
        · rw [hrest]
          simp

/-- A value, when the values inside it are texts of the grammar. -/
theorem value_step (hR : R.Sound r) (depth : ℕ)
    (hinner : ∀ inner, depth = inner + 1 → ReadsValues r inner (R.value inner)) :
    ReadsValues r depth (R.value depth) := by
  intro rest v rest' h
  obtain ⟨a, ha, hrest⟩ := whitespace_split rest
  have hliteral : ∀ {word : String} {node : Json ν} {w : Json Text} {mid : Text},
      R.literal word node mid = .ok (v, rest') → rest = a ++ mid → Json.Rel r node w →
      Spells w word.toList → w.depth = 0 → ∃ a w t, Blank a ∧ Spells w t ∧
        Json.Rel r v w ∧ w.depth ≤ depth ∧ rest = a ++ (t ++ rest') := by
    intro word node w mid hword hmid hrel hspell hdepth
    obtain ⟨rfl, rfl⟩ := literal_sound hword
    exact ⟨a, w, word.toList, ha, hspell, hrel, hdepth ▸ Nat.zero_le _, hmid⟩
  unfold Reader.value at h
  split at h
  · next hhead => exact hliteral h (hhead ▸ hrest) .null .null rfl
  · next hhead => exact hliteral h (hhead ▸ hrest) (.bool true) (.bool true) rfl
  · next hhead => exact hliteral h (hhead ▸ hrest) (.bool false) (.bool false) rfl
  · next start hhead =>
      rcases hs : R.string start with e | ⟨s, mid⟩
      · rw [hs] at h
        cases h
      · rw [hs] at h
        cases h
        obtain ⟨t, ht, rfl⟩ := hR.string hs
        refine ⟨a, .str s, _, ha, .str ht, .str s, Nat.zero_le _, ?_⟩
        rw [hrest, hhead]
        simp
  · next start hhead =>
      cases depth with
      | zero => cases h
      | succ depth =>
          obtain ⟨w, t, hspell, hrel, hdepth, rfl⟩ := array (hinner depth rfl) h
          refine ⟨a, w, _, ha, hspell, hrel, hdepth, ?_⟩
          rw [hrest, hhead, List.cons_append]
  · next start hhead =>
      cases depth with
      | zero => cases h
      | succ depth =>
          obtain ⟨w, t, hspell, hrel, hdepth, rfl⟩ := hR.object (hinner depth rfl) h
          refine ⟨a, w, _, ha, hspell, hrel, hdepth, ?_⟩
          rw [hrest, hhead, List.cons_append]
  · next c start _ _ _ _ _ _ hhead =>
      by_cases hc : c = '-' ∨ c.isDigit = true
      · rw [if_pos hc] at h
        rcases hn : R.number (c :: start) with e | ⟨n, last⟩
        · rw [hn] at h
          cases h
        · rw [hn] at h
          cases h
          obtain ⟨l, hl, hnum, hsplit⟩ := hR.number hn
          refine ⟨a, .num l, l, ha, .num hl, .num hnum, Nat.zero_le _, ?_⟩
          rw [hrest, hhead, hsplit]
      · rw [if_neg hc] at h
        cases h
  · cases h

/-- What a sound reader reads is a text of the grammar. -/
theorem value (hR : R.Sound r) (depth : ℕ) : ReadsValues r depth (R.value depth) := by
  induction depth with
  | zero => exact hR.value_step 0 nofun
  | succ depth ih => exact hR.value_step (depth + 1) fun _ h => by cases h; exact ih

/-- Reading an item goes forward, so that the bound on the loop over them does not matter. -/
theorem item_shortens (hR : R.Sound r) (depth : ℕ) : Shortens (R.item (R.value depth)) := by
  intro rest vs rest' h
  unfold item at h
  rcases hv : R.value depth rest with e | ⟨v, mid⟩
  · rw [hv] at h
    cases h
  · rw [hv] at h
    obtain ⟨a, w, t, -, hw, -, -, rfl⟩ := hR.value depth hv
    obtain ⟨b, -, hmid⟩ := whitespace_split mid
    obtain ⟨c, u, rfl, -⟩ := hw.head
    dsimp only at h
    split at h
    · next hend =>
        cases h
        rw [hmid, hend]
        simp only [List.length_append, List.length_cons]
        omega
    · cases h
    · cases h

theorem member_shortens (hR : R.Sound r) (depth : ℕ) : Shortens (R.member (R.value depth)) := by
  intro rest ms rest' h
  obtain ⟨a, b, c, d, k, v, w, s, t, -, -, -, -, -, -, -, -, -, rfl⟩ :=
    hR.member (hR.value depth) h
  simp only [List.length_append, List.length_cons]
  omega

end Sound

end Reader

/-! ### Every text of the grammar is read -/

/-- A character other than digits and float marks ends a number, whitespace before it too. -/
theorem stops_append (rest : Text) (c : Char) {b : Text} (hb : Blank b)
    (hc : c.isDigit = false ∧ isFloatMark c = false) : Stops (b ++ c :: rest) := by
  intro d hd
  cases b with
  | nil =>
      cases hd
      exact hc
  | cons e b =>
      cases hd
      rw [Blank, List.all_cons, Bool.and_eq_true, isSpace, decide_eq_true_eq] at hb
      rcases hb.1 with rfl | rfl | rfl | rfl <;> decide

/-- A reader that accepts every spelling of strings and numbers. -/
structure Reader.Complete (R : Reader ε ν) (r : ν → Text → Prop) : Prop where
  string : ∀ {s t} (rest), SpellsChars s t → R.string (t ++ '"' :: rest) = .ok (s, rest)
  number : ∀ {n l rest}, IsNumber l → r n l → Stops rest → R.number (l ++ rest) = .ok (n, rest)

namespace Reader

theorem literal_complete {word : String} {node : Json ν} (rest : Text) :
    R.literal word node (word.toList ++ rest) = .ok (node, rest) := by
  rw [literal, if_pos ⟨rest, rfl⟩, List.drop_left]

/-- A value that starts like a number is read as one. -/
theorem value_number {depth : ℕ} {rest u : Text} {c : Char} (hc : c = '-' ∨ c.isDigit = true)
    (hrest : whitespace rest = c :: u) : R.value depth rest =
      match R.number (c :: u) with
      | .error e => .error e
      | .ok (n, rest) => .ok (.num n, rest) := by
  unfold value
  rw [hrest]
  split
  all_goals try (next heq => cases heq; exact absurd hc (by decide))
  · next heq =>
      cases heq
      exact (if_pos hc).trans rfl
  · next heq => cases heq

theorem value_string {depth : ℕ} {rest u : Text} (hrest : whitespace rest = '"' :: u) :
    R.value depth rest =
      match R.string u with
      | .error e => .error e
      | .ok (s, rest) => .ok (.str s, rest) := by
  unfold value
  rw [hrest]
  rfl

theorem value_array {depth : ℕ} {rest u : Text} (hrest : whitespace rest = '[' :: u) :
    R.value (depth + 1) rest = R.array (R.value depth) u := by
  conv_lhs => unfold value
  rw [hrest]
  rfl

theorem value_object {depth : ℕ} {rest u : Text} (hrest : whitespace rest = '\x7b' :: u) :
    R.value (depth + 1) rest = R.object (R.value depth) u := by
  conv_lhs => unfold value
  rw [hrest]
  rfl

/-- An array that is not empty is read item by item. -/
theorem array_items {value : Text → Except ε (Json ν × Text)} {rest c u : Text} {d : Char}
    (hrest : whitespace rest = d :: u) (hd : d ≠ ']') {vs : List (Json ν)}
    (h : ∀ spent, loop spent (R.item value) ((d :: u).length + 1) (d :: u) = .ok (vs, c)) :
    R.array value rest = .ok (.arr vs, c) := by
  unfold array
  rw [hrest]
  split
  · next heq =>
      cases heq
      exact absurd rfl hd
  · rw [h]

/-- An object that is not empty is read member by member. -/
theorem object_members {value : Text → Except ε (Json ν × Text)} {rest c u : Text} {d : Char}
    (hrest : whitespace rest = d :: u) (hd : d ≠ '\x7d') {ms : List (Text × Json ν)}
    (h : ∀ spent, loop spent (R.member value) ((d :: u).length + 1) (d :: u) = .ok (ms, c)) :
    R.object value rest = .ok (.obj ms, c) := by
  unfold object
  rw [hrest]
  split
  · next heq =>
      cases heq
      exact absurd rfl hd
  · rw [h]

/-- A number starts with its sign or a digit. -/
theorem number_head {l : Text} (hl : IsNumber l) :
    ∃ c u, l = c :: u ∧ (c = '-' ∨ c.isDigit = true) := by
  obtain ⟨s, i, f, e, hs, ⟨⟨hne, hdigits⟩, -⟩, -, -, rfl⟩ := hl
  rcases hs with rfl | rfl
  · cases i with
    | nil => exact absurd rfl hne
    | cons d ds =>
        rw [List.all_cons, Bool.and_eq_true] at hdigits
        exact ⟨d, _, rfl, .inr hdigits.1⟩
  · exact ⟨'-', _, rfl, .inl rfl⟩

namespace Complete

theorem key (hR : R.Complete r) {a b k s : Text} (ha : Blank a) (hb : Blank b)
    (hk : SpellsChars k s) (rest : Text) :
    R.key (a ++ '"' :: (s ++ '"' :: (b ++ ':' :: rest))) = .ok (k, rest) := by
  unfold Reader.key
  rw [whitespace_append ha (by rintro c hc; cases hc; decide)]
  change (match R.string (s ++ '"' :: (b ++ ':' :: rest)) with
    | .error e => _
    | .ok (k, rest) => _) = _
  rw [hR.string _ hk]
  dsimp only
  rw [whitespace_append hb (by rintro c hc; cases hc; decide)]
  rfl

mutual

/-- A complete reader reads every text of the grammar nested no deeper than allowed. -/
theorem value (hR : R.Complete r) {w : Json Text} {t : Text} (h : Spells w t) {v : Json ν}
    (hrel : Json.Rel r v w) (depth : ℕ) (hdepth : w.depth ≤ depth) {a rest : Text}
    (ha : Blank a) (hrest : Stops rest) :
    R.value depth (a ++ (t ++ rest)) = .ok (v, rest) := by
  have hskip : whitespace (a ++ (t ++ rest)) = t ++ rest := by
    refine whitespace_append ha fun c hc => ?_
    obtain ⟨d, u, rfl, hd, -⟩ := h.head
    cases hc
    exact hd
  cases h with
  | null =>
      cases hrel
      unfold Reader.value
      rw [hskip]
      exact literal_complete rest
  | bool b =>
      cases hrel
      unfold Reader.value
      rw [hskip]
      cases b
      · exact literal_complete rest
      · exact literal_complete rest
  | num h =>
      cases hrel with
      | num hn =>
          obtain ⟨c, u, rfl, hc⟩ := number_head h
          have hnumber : R.number (c :: (u ++ rest)) = .ok (_, rest) := hR.number h hn hrest
          rw [value_number hc hskip]
          change (match R.number (c :: (u ++ rest)) with | .error e => _ | .ok (n, rest) => _) = _
          rw [hnumber]
  | @str s t h =>
      cases hrel
      rw [List.append_assoc] at hskip ⊢
      rw [value_string hskip]
      change (match R.string (t ++ '"' :: rest) with | .error e => _ | .ok (s, rest) => _) = _
      rw [hR.string rest h]
  | @arrNil b h =>
      cases hrel with
      | arr hs =>
          cases hs
          obtain ⟨depth, rfl⟩ : ∃ d, depth = d + 1 :=
            ⟨depth - 1, by simp only [Json.depth] at hdepth; omega⟩
          rw [List.append_assoc] at hskip ⊢
          rw [value_array hskip]
          change R.array (R.value depth) (b ++ ']' :: rest) = _
          unfold Reader.array
          rw [whitespace_append h (by rintro c hc; cases hc; decide)]
          rfl
  | @arr w ws t h =>
      cases hrel with
      | arr hs =>
          rw [Json.depth] at hdepth
          obtain ⟨depth, rfl⟩ : ∃ d, depth = d + 1 := ⟨depth - 1, by omega⟩
          rw [List.append_assoc] at hskip ⊢
          rw [value_array hskip]
          change R.array (R.value depth) (t ++ ']' :: rest) = _
          obtain ⟨b, d, u, hb, rfl, hd, hne, hu⟩ := h.head
          rw [List.append_assoc]
          have hitems := fun spent => items hR hu hs depth (by omega)
            spent (n := ((d :: u) ++ ']' :: rest).length + 1)
            (by rw [List.length_append]; omega) rest
          exact array_items (whitespace_append hb (by rintro c hc; cases hc; exact hd)) hne hitems
  | @objNil b h =>
      cases hrel with
      | obj hs =>
          cases hs
          obtain ⟨depth, rfl⟩ : ∃ d, depth = d + 1 :=
            ⟨depth - 1, by simp only [Json.depth] at hdepth; omega⟩
          rw [List.append_assoc] at hskip ⊢
          rw [value_object hskip]
          change R.object (R.value depth) (b ++ '\x7d' :: rest) = _
          unfold Reader.object
          rw [whitespace_append h (by rintro c hc; cases hc; decide)]
          rfl
  | @obj m ms t h =>
      cases hrel with
      | obj hs =>
          rw [Json.depth] at hdepth
          obtain ⟨depth, rfl⟩ : ∃ d, depth = d + 1 := ⟨depth - 1, by omega⟩
          rw [List.append_assoc] at hskip ⊢
          rw [value_object hskip]
          change R.object (R.value depth) (t ++ '\x7d' :: rest) = _
          obtain ⟨b, u, hb, rfl, hu⟩ := h.head
          rw [List.append_assoc]
          have hmembers := fun spent => members hR hu hs depth (by omega)
            spent (n := (('"' :: u) ++ '\x7d' :: rest).length + 1)
            (by rw [List.length_append]; omega) rest
          exact object_members (whitespace_append hb (by rintro c hc; cases hc; decide))
            (by decide) hmembers

theorem items (hR : R.Complete r) {ws : List (Json Text)} {t : Text} (h : SpellsItems ws t)
    {vs : List (Json ν)} (hrel : RelItems r vs ws) (depth : ℕ) (hdepth : depthItems ws ≤ depth)
    (spent : ε) {n : ℕ} (hn : t.length < n) (rest : Text) :
    loop spent (R.item (R.value depth)) n (t ++ ']' :: rest) = .ok (vs, rest) := by
  cases h with
  | @last w a b t ha hb h =>
      cases hrel with
      | @cons v _ _ _ hv hs =>
      cases hs
      refine loop_last (by omega) ?_
      have hw : w.depth ≤ depth := by
        rw [depthItems] at hdepth
        omega
      have hvalue := value hR h hv depth hw ha (stops_append rest ']' hb (by decide))
      rw [List.append_assoc, List.append_assoc, item, hvalue]
      dsimp only
      rw [whitespace_append hb (by rintro c hc; cases hc; decide)]
      rfl
  | @cons w w' ws a b t u ha hb h hs =>
      cases hrel with
      | @cons v _ _ _ hv hvs =>
      obtain ⟨n, rfl⟩ : ∃ m, n = m + 1 := ⟨n - 1, by omega⟩
      rw [depthItems] at hdepth
      have hvalue := value hR h hv depth (by omega) ha
        (stops_append (u ++ ']' :: rest) ',' hb (by decide))
      have hlength : u.length < n := by
        simp only [List.length_append, List.length_cons] at hn
        omega
      have hitems := items hR hs hvs depth (by omega) spent hlength rest
      have hitem : R.item (R.value depth) (a ++ (t ++ (b ++ ',' :: (u ++ ']' :: rest)))) =
          .ok ([v], true, u ++ ']' :: rest) := by
        rw [item, hvalue]
        dsimp only
        rw [whitespace_append hb (by rintro c hc; cases hc; decide)]
        rfl
      simp only [List.append_assoc, List.cons_append]
      exact loop_more hitem hitems

theorem members (hR : R.Complete r) {ws : List (Text × Json Text)} {t : Text}
    (h : SpellsMembers ws t) {ms : List (Text × Json ν)} (hrel : RelMembers r ms ws) (depth : ℕ)
    (hdepth : depthMembers ws ≤ depth) (spent : ε) {n : ℕ} (hn : t.length < n) (rest : Text) :
    loop spent (R.member (R.value depth)) n (t ++ '\x7d' :: rest) = .ok (ms, rest) := by
  cases h with
  | @last k w a b c d s t ha hb hc hd hk h =>
      cases hrel with
      | @cons _ v _ _ _ hv hs =>
      cases hs
      refine loop_last (by omega) ?_
      have hw : w.depth ≤ depth := by
        rw [depthMembers] at hdepth
        omega
      have hvalue := value hR h hv depth hw hc
        (stops_append rest '\x7d' hd (by decide))
      simp only [List.append_assoc, List.cons_append]
      rw [Reader.member, key hR ha hb hk]
      dsimp only
      rw [hvalue]
      dsimp only
      rw [whitespace_append hd (by rintro c hc; cases hc; decide)]
      rfl
  | @cons k w m ws a b c d s t u ha hb hc hd hk h hs =>
      cases hrel with
      | @cons _ v _ _ _ hv hvs =>
      obtain ⟨n, rfl⟩ : ∃ m, n = m + 1 := ⟨n - 1, by omega⟩
      rw [depthMembers] at hdepth
      have hvalue := value hR h hv depth (by omega) hc
        (stops_append (u ++ '\x7d' :: rest) ',' hd (by decide))
      have hlength : u.length < n := by
        simp only [List.length_append, List.length_cons] at hn
        omega
      have hmembers := members hR hs hvs depth (by omega) spent hlength rest
      have hmember : R.member (R.value depth) (a ++ '"' :: (s ++ '"' :: (b ++ ':' :: (c ++ (t ++
          (d ++ ',' :: (u ++ '\x7d' :: rest))))))) = .ok ([(k, v)], true, u ++ '\x7d' :: rest) := by
        rw [Reader.member, key hR ha hb hk]
        dsimp only
        rw [hvalue]
        dsimp only
        rw [whitespace_append hd (by rintro c hc; cases hc; decide)]
        rfl
      simp only [List.append_assoc, List.cons_append]
      exact loop_more hmember hmembers

end

end Complete

end Reader

end

/-! ### The controller -/

/-- The number the parser makes of a literal. -/
def NodeNumber.Reads (F : FloatText) : NodeNumber → Text → Prop
  | .integer digits, l => IsNumber l ∧ l.any isFloatMark = false ∧
    digits = if l = "-0".toList then "0".toList else l
  | .float d, l => IsNumber l ∧ l.any isFloatMark = true ∧ F.parse l = some d ∧ d.finite

namespace Parser

variable {text : Text}

/-- Reading a character goes forward. -/
theorem char_shortens : Shortens (char text) := by
  intro rest s rest' h
  rcases char_sound h with ⟨hmore, -⟩ | ⟨c, t, -, -, ht, rfl⟩
  · cases hmore
  · have hpos := ht.length_pos
    rw [List.length_append]
    omega

/-- A longer bound gives the same string, or the same error. -/
theorem string_bound {rest : Text} {n : ℕ} (hn : rest.length < n) :
    string text rest = loop (.badSyntax (utf8Size text) "'\"'") (char text) n rest :=
  loop_fuel char_shortens (Nat.lt_succ_self _) hn

theorem string_sound {rest rest' s : Text} (h : string text rest = .ok (s, rest')) :
    ∃ t, SpellsChars s t ∧ rest = t ++ '"' :: rest' := by
  refine loop_sound (P := fun rest s rest' => ∃ t, SpellsChars s t ∧ rest = t ++ '"' :: rest')
    ?_ ?_ h
  · intro rest s rest' hchar
    rcases char_sound hchar with ⟨-, rfl, rfl⟩ | ⟨c, t, hmore, -⟩
    · exact ⟨[], .nil, rfl⟩
    · cases hmore
  · rintro rest s mid s' rest' hchar ⟨u, hu, rfl⟩
    rcases char_sound hchar with ⟨hmore, -⟩ | ⟨c, t, -, rfl, ht, rfl⟩
    · cases hmore
    · exact ⟨t ++ u, .cons ht hu, (List.append_assoc _ _ _).symm⟩

theorem number_sound {F : FloatText} {rest rest' : Text} {n : NodeNumber}
    (h : number text F rest = .ok (n, rest')) :
    ∃ l, IsNumber l ∧ n.Reads F l ∧ rest = l ++ rest' := by
  unfold number at h
  rcases hend : numberEnd (bad text) rest with e | ⟨float, last⟩
  · rw [hend] at h
    cases h
  · rw [hend] at h
    obtain ⟨l, hl, rfl, rfl⟩ := numberEnd_sound hend
    dsimp only at h
    rw [take_literal] at h
    by_cases hfloat : l.any isFloatMark = false
    · rw [if_pos hfloat] at h
      cases h
      exact ⟨l, hl, ⟨hl, hfloat, rfl⟩, rfl⟩
    · rw [if_neg hfloat] at h
      rw [Bool.not_eq_false] at hfloat
      rcases hd : F.parse l with _ | d
      · rw [hd] at h
        cases h
      · rw [hd] at h
        dsimp only at h
        by_cases hfinite : d.finite
        · rw [if_pos hfinite] at h
          cases h
          exact ⟨l, hl, ⟨hl, hfloat, hd, hfinite⟩, rfl⟩
        · rw [if_neg hfinite] at h
          cases h

end Parser

/-- The controller's parser accepts texts of the grammar only. -/
theorem parser_sound (F : FloatText) (text : Text) :
    (parser F text).Sound (NodeNumber.Reads F) where
  string := Parser.string_sound
  number := Parser.number_sound

/-- It accepts them all, but for floats too large for a double. -/
theorem parser_complete (F : FloatText) (text : Text) :
    (parser F text).Complete (NodeNumber.Reads F) where
  string {s t} rest h := by
    have hlength := h.length_le
    refine Parser.charStep.loop h ?_
    rw [List.length_append]
    omega
  number {n l rest} hl hn hrest := by
    change Parser.number text F (l ++ rest) = _
    rw [Parser.number, numberEnd_complete hl hrest]
    dsimp only
    rw [take_literal]
    cases n with
    | integer digits =>
        obtain ⟨-, hfloat, rfl⟩ := hn
        rw [if_pos hfloat]
    | float d =>
        obtain ⟨-, hfloat, hparse, hfinite⟩ := hn
        rw [if_neg (by simp [hfloat]), hparse]
        dsimp only
        rw [if_pos hfinite]

/-! ### The firmware -/

namespace Decoder

theorem getu4_complete {hex rest : Text} (h : IsHex4 hex) :
    getu4 (hex ++ rest) = some (ofHex hex) := by
  have hhex : hex.length = 4 ∧ hex.all isHexDigit = true := h
  rw [getu4, (take_hex4 _ h).1, if_pos hhex]

theorem unicode_complete (rest u : Text) (c : Char)
    (h : SpellsChar c ('\\' :: 'u' :: u)) : unicode (u ++ rest) = .ok (c, rest) := by
  cases h with
  | short h => exact absurd h nofun
  | unit hhex hhigh hlow =>
      rw [unicode, getu4_complete hhex]
      dsimp only
      rw [if_neg (by simp [hhigh, hlow]), (take_hex4 _ hhex).2]
  | @pair high low hh hl hhigh hlow =>
      rw [List.append_assoc, unicode, getu4_complete hh]
      dsimp only
      rw [if_pos (.inl hhigh), (take_hex4 _ hh).2]
      simp only [List.cons_append, getu4_complete hl, hhigh, hlow, and_self, if_true,
        (take_hex4 _ hl).2]

/-- The decoder reads every spelling of a character. -/
theorem charStep : CharStep char := charStep_of_unicode fun _ => unicode_complete

end Decoder

/-- The firmware's decoder accepts every text of the grammar and keeps its literals. -/
theorem decoder_complete : decoder.Complete (fun n l => n = l) where
  string {s t} rest h := by
    have hlength := h.length_le
    refine Decoder.charStep.loop h ?_
    rw [List.length_append]
    omega
  number {n l rest} hl hn hrest := by
    subst hn
    change Decoder.number (n ++ rest) = _
    rw [Decoder.number, numberEnd_complete hl hrest]
    dsimp only
    rw [take_literal]

end EchoMuse.Alerts
