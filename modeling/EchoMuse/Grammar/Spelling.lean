import Mathlib
import EchoMuse.Grammar.Normalize

/-!
# Words in Their Canonical Spelling

What the first pass leaves of a text: lower case, and no character but letters, digits, apostrophes
and the marks between two digits. Words so spelled, with one space between them, are what the first
pass makes of them, but for the apostrophes at their ends.

## Main results

* `words_clean`: the words of a text are so spelled;
* `words_join`: the words of words so spelled are those words.
-/

namespace EchoMuse.Grammar

open Fields (fields join trim)

variable {u : Unicode}

/-! ### Characters -/

theorem Unicode.not_alphanumeric {c : Char} (h : u.isWhitespace c = true) :
    u.isAlphanumeric c = false := by
  rw [Unicode.isAlphanumeric, (u.whitespace_not c h).1, (u.whitespace_not c h).2]
  rfl

theorem Unicode.not_whitespace {c : Char} (h : u.isAlphanumeric c = true) :
    u.isWhitespace c = false := by
  cases hw : u.isWhitespace c with
  | false => rfl
  | true =>
    rw [u.not_alphanumeric hw] at h
    cases h

theorem Unicode.alphanumeric_of_digit {c : Char} (h : c.isDigit = true) :
    u.isAlphanumeric c = true := by
  have hlt : c.val < 128 := by
    simp only [Char.isDigit, Bool.and_eq_true, decide_eq_true_eq] at h
    exact UInt32.lt_of_le_of_lt h.2 (by decide : '9'.val < 128)
  rw [Unicode.isAlphanumeric, u.numeric_ascii c hlt, h, Bool.or_true]

theorem Unicode.not_digit {c : Char} (h : u.isWhitespace c = true) : c.isDigit = false := by
  cases hc : c.isDigit with
  | false => rfl
  | true =>
    have := u.not_alphanumeric h
    rw [u.alphanumeric_of_digit hc] at this
    cases this

theorem Unicode.whitespace_space : u.isWhitespace ' ' = true := by
  rw [u.whitespace_ascii ' ' (by decide)]
  rfl

/-- The letters the words of the tables are written in. -/
def lowerAscii (c : Char) : Bool := c.isLower || c.isDigit

theorem Unicode.alphanumeric_lowerAscii {c : Char} (h : lowerAscii c = true) :
    u.isAlphanumeric c = true := by
  rw [lowerAscii, Bool.or_eq_true] at h
  obtain h | h := h
  · have hlt : c.val < 128 := by
      simp only [Char.isLower, Bool.and_eq_true, decide_eq_true_eq] at h
      exact UInt32.lt_of_le_of_lt h.2 (by decide : 'z'.val < 128)
    rw [Unicode.isAlphanumeric, u.alphabetic_ascii c hlt, Char.isAlpha, h, Bool.or_true,
      Bool.true_or]
  · exact u.alphanumeric_of_digit h

theorem betweenDigits_eq_false {prev : Option Char} {rest : List Char}
    (h : prev.any Char.isDigit = false) : betweenDigits prev rest = false := by
  rw [betweenDigits, h, Bool.false_and]

/-! ### Marked texts -/

/-- Every character is white space or part of a word, or a mark between two digits. -/
def Marked (u : Unicode) : Option Char → List Char → Prop
  | _, [] => True
  | prev, c :: rest =>
    (u.isWhitespace c = true ∨ u.isAlphanumeric c = true ∨ c = '\'' ∨
      (c = '.' ∨ c = '/') ∧ betweenDigits prev rest = true) ∧ Marked u (some c) rest

/-- What stands before a text matters only where it is a digit. -/
theorem Marked.congr {prev prev' : Option Char} {t : List Char} (h : Marked u prev t)
    (hprev : prev.any Char.isDigit = false) : Marked u prev' t := by
  cases t with
  | nil => trivial
  | cons c t =>
    obtain ⟨hc, ht⟩ := h
    refine ⟨?_, ht⟩
    rw [betweenDigits_eq_false hprev] at hc
    obtain hc | hc | hc | ⟨-, hc⟩ := hc
    · exact .inl hc
    · exact .inr (.inl hc)
    · exact .inr (.inr (.inl hc))
    · cases hc

/-- A text that ends before something other than a digit. -/
theorem Marked.of_append {prev : Option Char} {a b : List Char} (h : Marked u prev (a ++ b))
    (hb : b.head?.any Char.isDigit = false) : Marked u prev a := by
  induction a generalizing prev with
  | nil => trivial
  | cons c a ih =>
    obtain ⟨hc, ha⟩ := h
    refine ⟨?_, ih ha⟩
    obtain hc | hc | hc | ⟨hmark, hc⟩ := hc
    · exact .inl hc
    · exact .inr (.inl hc)
    · exact .inr (.inr (.inl hc))
    · refine .inr (.inr (.inr ⟨hmark, ?_⟩))
      cases a with
      | nil =>
        change betweenDigits prev b = true at hc
        rw [betweenDigits, hb, Bool.and_false] at hc
        cases hc
      | cons d a => exact hc

/-- A text that starts behind something. -/
theorem Marked.append_right {prev : Option Char} {a b : List Char} {c : Char}
    (h : Marked u prev (a ++ c :: b)) : Marked u (some c) b := by
  induction a generalizing prev with
  | nil => exact h.2
  | cons d a ih => exact ih h.2

/-- Letters and white space are marked wherever they stand. -/
theorem Marked.append_plain {prev : Option Char} {a t : List Char}
    (ha : ∀ c ∈ a, u.isWhitespace c = true ∨ u.isAlphanumeric c = true)
    (ht : ∀ q, Marked u q t) : Marked u prev (a ++ t) := by
  induction a generalizing prev with
  | nil => exact ht prev
  | cons c a ih =>
    refine ⟨(ha c List.mem_cons_self).imp_right .inl, ih fun d hd => ha d (List.mem_cons_of_mem _ hd)⟩

theorem Marked.plain {prev : Option Char} {a : List Char}
    (ha : ∀ c ∈ a, u.isAlphanumeric c = true) : Marked u prev a := by
  have := @Marked.append_plain u prev a [] (fun c hc => .inr (ha c hc)) fun _ => trivial
  rwa [List.append_nil] at this

/-- A digit is kept. -/
theorem mark_digit {prev : Option Char} {c : Char} {rest : List Char} (h : c.isDigit = true) :
    mark u prev c rest = [c] := by
  rw [mark, if_pos (by rw [u.alphanumeric_of_digit h, Bool.true_or])]

/-- The letters of the words that stand for characters. -/
theorem plain_literal {t : List Char} (h : ∀ c ∈ t, c = ' ' ∨ lowerAscii c = true) :
    ∀ c ∈ t, u.isWhitespace c = true ∨ u.isAlphanumeric c = true := by
  intro c hc
  obtain rfl | hc := h c hc
  · exact .inl u.whitespace_space
  · exact .inr (u.alphanumeric_lowerAscii hc)

/-- What the first pass leaves is marked. -/
theorem marks_marked {cs : List Char} {prev q : Option Char}
    (hq : prev.any Char.isDigit = true → q = prev) : Marked u q (marks u prev cs) := by
  induction cs generalizing prev q with
  | nil => trivial
  | cons c cs ih =>
    rw [marks, mark]
    split_ifs with hword hmark hcomma hpercent hdegree hand
    · rw [Bool.or_eq_true, decide_eq_true_eq] at hword
      exact ⟨.inr (hword.imp_right .inl), ih fun _ => rfl⟩
    · rw [Bool.and_eq_true, Bool.or_eq_true, decide_eq_true_eq, decide_eq_true_eq] at hmark
      refine ⟨.inr (.inr (.inr ⟨hmark.1, ?_⟩)), ih fun _ => rfl⟩
      have hbetween := hmark.2
      rw [betweenDigits, Bool.and_eq_true] at hbetween ⊢
      refine ⟨by rw [hq hbetween.1]; exact hbetween.1, ?_⟩
      match cs, hbetween.2 with
      | d :: cs, hd =>
        rw [marks, mark_digit hd]
        exact hd
    · have hc : c = ',' := by
        rw [Bool.and_eq_true, decide_eq_true_eq] at hcomma
        exact hcomma.1
      exact ih fun h => absurd h (by rw [hc]; decide)
    · exact .append_plain (plain_literal (by decide)) fun q => ih fun h =>
        absurd h (by rw [hpercent]; decide)
    · exact .append_plain (plain_literal (by decide)) fun q => ih fun h =>
        absurd h (by rw [hdegree]; decide)
    · exact .append_plain (plain_literal (by decide)) fun q => ih fun h =>
        absurd h (by rw [hand]; decide)
    · refine .append_plain (plain_literal (by decide)) fun q => ih fun h => ?_
      have hdigit : c.isDigit = true := h
      rw [u.alphanumeric_of_digit hdigit, Bool.true_or] at hword
      exact absurd rfl hword

/-- A marked word is kept as it is. -/
theorem marks_word {w rest : List Char} {prev : Option Char} (h : Marked u prev w)
    (hwhite : ∀ c ∈ w, u.isWhitespace c = false) :
    ∃ q, marks u prev (w ++ rest) = w ++ marks u q rest := by
  induction w generalizing prev with
  | nil => exact ⟨prev, rfl⟩
  | cons c w ih =>
    obtain ⟨hc, hw⟩ := h
    obtain ⟨q, hq⟩ := ih hw fun d hd => hwhite d (List.mem_cons_of_mem _ hd)
    have hkept : mark u prev c (w ++ rest) = [c] := by
      rw [mark]
      obtain hc | hc | hc | ⟨hmark, hbetween⟩ := hc
      · rw [hwhite c List.mem_cons_self] at hc
        cases hc
      · rw [if_pos (by rw [hc, Bool.true_or])]
      · rw [if_pos (by rw [hc]; simp)]
      · have hbetween' : betweenDigits prev (w ++ rest) = true := by
          cases w with
          | nil => simp [betweenDigits] at hbetween
          | cons d w => exact hbetween
        split_ifs with h1 h2
        · rfl
        · rfl
        all_goals
          refine absurd ?_ h2
          rw [hbetween', Bool.and_true, Bool.or_eq_true, decide_eq_true_eq, decide_eq_true_eq]
          exact hmark
    refine ⟨q, ?_⟩
    rw [List.cons_append, marks, hkept, hq]
    rfl

/-! ### Clean words -/

/-- A word in lower case, marked, that does not start with an apostrophe. -/
structure Clean (u : Unicode) (w : Word) : Prop where
  ne : w ≠ []
  head : ∀ c ∈ w.head?, c ≠ '\''
  chars : ∀ c ∈ w, u.toLowercase c = [c] ∧ straight c = c ∧ u.isWhitespace c = false
  marked : Marked u none w

theorem marks_space {prev : Option Char} {rest : List Char} :
    marks u prev (' ' :: rest) = ' ' :: marks u (some ' ') rest := by
  rw [marks, mark, if_neg (by rw [u.not_alphanumeric u.whitespace_space]; decide),
    if_neg (by simp), if_neg (by simp), if_neg (by decide), if_neg (by decide), if_neg (by decide)]
  rfl

/-- The first pass leaves clean words as they are. -/
theorem marks_join {ws : List Word} (h : ∀ w ∈ ws, Clean u w) {prev : Option Char}
    (hprev : prev.any Char.isDigit = false) : marks u prev (join ' ' ws) = join ' ' ws := by
  induction ws generalizing prev with
  | nil => rfl
  | cons w ws ih =>
    have hw := h w List.mem_cons_self
    have hmarked : Marked u prev w := hw.marked.congr rfl
    have hwhite : ∀ c ∈ w, u.isWhitespace c = false := fun c hc => (hw.chars c hc).2.2
    cases ws with
    | nil =>
      obtain ⟨q, hq⟩ := @marks_word u w [] prev hmarked hwhite
      rw [List.append_nil, marks, List.append_nil] at hq
      rw [join, List.intercalate_singleton]
      exact hq
    | cons v ws =>
      obtain ⟨q, hq⟩ := @marks_word u w (' ' :: join ' ' (v :: ws)) prev hmarked hwhite
      rw [marks_space, ih (fun x hx => h x (List.mem_cons_of_mem _ hx)) (by decide)] at hq
      rw [join, List.intercalate_cons_cons, List.append_assoc, List.singleton_append]
      exact hq

theorem prepare_join {ws : List Word} (h : ∀ w ∈ ws, Clean u w) :
    prepare u (join ' ' ws) = join ' ' ws := by
  have hchars : ∀ c ∈ join ' ' ws, u.toLowercase c = [c] ∧ straight c = c := by
    intro c hc
    obtain rfl | ⟨w, hw, hc⟩ := Fields.mem_join hc
    · exact ⟨u.lower_ascii ' ' (by decide), rfl⟩
    · exact ⟨((h w hw).chars c hc).1, ((h w hw).chars c hc).2.1⟩
  have hlower : (join ' ' ws).flatMap u.toLowercase = join ' ' ws := by
    rw [List.flatMap_congr (g := fun c => [c]) fun c hc => (hchars c hc).1]
    exact List.flatMap_singleton' _
  have hstraight : (join ' ' ws).map straight = join ' ' ws :=
    (List.map_congr_left fun c hc => (hchars c hc).2).trans (List.map_id _)
  rw [prepare, hlower, hstraight, marks_join h rfl]

theorem Clean.trim_ne {w : Word} (h : Clean u w) : trim (· = '\'') w ≠ [] := by
  intro hnil
  obtain ⟨a, b, hw, ha, hb⟩ := Fields.trim_append (p := (· = '\'')) w
  rw [hnil, List.append_nil] at hw
  match hc : w, h.ne with
  | c :: w', _ =>
    have : c ∈ a ++ b := hw ▸ List.mem_cons_self
    refine h.head c rfl ?_
    obtain hc | hc := List.mem_append.mp this
    · simpa using ha c hc
    · simpa using hb c hc

/-- The words of clean words are those words, without the apostrophes at their ends. -/
theorem words_join {ws : List Word} (h : ∀ w ∈ ws, Clean u w) :
    words u (join ' ' ws) = ws.map (trim (· = '\'')) := by
  rw [words, prepare_join h, Fields.fields_join u.whitespace_space fun w hw =>
    ⟨(h w hw).ne, fun c hc => ((h w hw).chars c hc).2.2⟩, List.filter_eq_self]
  intro t ht
  obtain ⟨w, hw, rfl⟩ := List.mem_map.mp ht
  exact decide_eq_true (h w hw).trim_ne

theorem straight_straight (c : Char) : straight (straight c) = straight c := by
  by_cases h : c = '\u2019' ∨ c = '\u2018' ∨ c = '\u02bc' ∨ c.toNat = 0x60
  · rw [show straight c = '\'' from if_pos h]
    rfl
  · rw [show straight c = c from if_neg h, show straight c = c from if_neg h]

/-- The characters the first pass leaves. -/
theorem mem_marks {cs : List Char} {prev : Option Char} {c : Char} (h : c ∈ marks u prev cs) :
    c ∈ cs ∨ c = ' ' ∨ lowerAscii c = true := by
  induction cs generalizing prev with
  | nil => exact absurd h List.not_mem_nil
  | cons d cs ih =>
    rw [marks, List.mem_append] at h
    obtain h | h := h
    · have hliteral : ∀ t : List Char, (∀ c ∈ t, c = ' ' ∨ lowerAscii c = true) → c ∈ t →
          c ∈ d :: cs ∨ c = ' ' ∨ lowerAscii c = true := fun t ht hc => .inr (ht c hc)
      rw [mark] at h
      split_ifs at h
      · exact .inl (List.mem_singleton.mp h ▸ List.mem_cons_self)
      · exact .inl (List.mem_singleton.mp h ▸ List.mem_cons_self)
      · exact absurd h List.not_mem_nil
      · exact hliteral _ (by decide) h
      · exact hliteral _ (by decide) h
      · exact hliteral _ (by decide) h
      · exact hliteral _ (by decide) h
    · exact (ih h).imp_left (List.mem_cons_of_mem _)

theorem Unicode.lower_lowerAscii {c : Char} (h : lowerAscii c = true) :
    u.toLowercase c = [c] ∧ straight c = c := by
  have hrange : c.val < 128 ∧ c.toLower = c := by
    simp only [lowerAscii, Bool.or_eq_true, Char.isLower, Char.isDigit, Bool.and_eq_true,
      decide_eq_true_eq] at h
    obtain h | h := h
    · refine ⟨UInt32.lt_of_le_of_lt h.2 (by decide : 'z'.val < 128), ?_⟩
      rw [Char.toLower, dif_neg]
      exact fun hupper => absurd (UInt32.le_trans h.1 hupper.2) (by decide)
    · refine ⟨UInt32.lt_of_le_of_lt h.2 (by decide : '9'.val < 128), ?_⟩
      rw [Char.toLower, dif_neg]
      exact fun hupper => absurd (UInt32.le_trans hupper.1 h.2) (by decide)
  refine ⟨by rw [u.lower_ascii c hrange.1, hrange.2], if_neg ?_⟩
  rintro (rfl | rfl | rfl | hc)
  · exact absurd h (by decide)
  · exact absurd h (by decide)
  · exact absurd h (by decide)
  · have : c = Char.ofNat 0x60 := by rw [← hc, Char.ofNat_toNat]
    rw [this] at h
    exact absurd h (by decide)

/-- The characters of a prepared text are in lower case. -/
theorem lower_of_mem_prepare {text : List Char} {c : Char} (h : c ∈ prepare u text) :
    u.toLowercase c = [c] ∧ straight c = c := by
  obtain h | rfl | h := mem_marks h
  · obtain ⟨d, hd, rfl⟩ := List.mem_map.mp h
    obtain ⟨e, -, hd⟩ := List.mem_flatMap.mp hd
    refine ⟨?_, straight_straight d⟩
    rw [straight]
    split_ifs
    · exact u.lower_ascii '\'' (by decide)
    · exact u.lower_lower e d hd
  · exact ⟨u.lower_ascii ' ' (by decide), rfl⟩
  · exact u.lower_lowerAscii h

theorem marked_split (a : List Char) (sep : Char) (b : List Char) (hsep : u.isWhitespace sep = true)
    (h : Marked u none (a ++ sep :: b)) : Marked u none a ∧ Marked u none b := by
  have hdigit : (some sep).any Char.isDigit = false := u.not_digit hsep
  exact ⟨h.of_append hdigit, h.append_right.congr hdigit⟩

/-- The words of a text are clean, and have no apostrophes at their ends. -/
theorem words_clean {text : List Char} {w : Word} (h : w ∈ words u text) :
    Clean u w ∧ ∀ c ∈ w.getLast?, c ≠ '\'' := by
  obtain ⟨hw, hne⟩ := List.mem_filter.mp h
  obtain ⟨f, hf, rfl⟩ := List.mem_map.mp hw
  obtain ⟨a, b, hab, ha, hb⟩ := Fields.trim_append (p := (· = '\'')) f
  have hmem : ∀ c ∈ trim (· = '\'') f, c ∈ f := fun c hc => by
    rw [hab]
    exact List.mem_append_left _ (List.mem_append_right _ hc)
  have hfield := Fields.mem_fields hf
  have hmarked : Marked u none f := Fields.fields_forall marked_split (marks_marked fun _ => rfl) f hf
  refine ⟨⟨of_decide_eq_true hne, fun c hc => ?_, fun c hc => ?_, ?_⟩, fun c hc => ?_⟩
  · simpa using Fields.trim_head? f c hc
  · have hprepared := (hfield.2 c (hmem c hc)).1
    exact ⟨(lower_of_mem_prepare hprepared).1, (lower_of_mem_prepare hprepared).2,
      (hfield.2 c (hmem c hc)).2⟩
  · rw [hab, List.append_assoc] at hmarked
    have hnodigit : b.head?.any Char.isDigit = false := by
      cases b with
      | nil => rfl
      | cons c b =>
        have : c = '\'' := by simpa using hb c List.mem_cons_self
        rw [this]
        rfl
    obtain rfl | ⟨a', c, rfl⟩ := List.eq_nil_or_concat a
    · exact Marked.of_append (a := trim (· = '\'') f) hmarked hnodigit
    · have hc : c = '\'' := by simpa using ha c (by simp)
      rw [List.concat_eq_append, List.append_assoc, List.singleton_append] at hmarked
      exact (hmarked.append_right.of_append hnodigit).congr (by rw [hc]; decide)
  · simpa using Fields.trim_getLast? f c hc

end EchoMuse.Grammar
