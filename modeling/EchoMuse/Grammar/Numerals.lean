import Mathlib.Order.Lattice
import Mathlib.Tactic.Common
import Mathlib.Algebra.Ring.Nat

/-!
# Numerals in Words

The English numerals below a million as a grammar over the number words: an optional part up to 999
with `thousand`, and a part after it; a part is an optional number of hundreds and a rest below a
hundred; an ordinal is only the last word. The number of hundreds is up to ninety nine, as in
`twelve hundred`, where no thousand is said. Zero is said alone, and `a` is one before `hundred`
and `thousand`.

A numeral is read word by word: `Spoken` is what has been said, and `step` what one more word
makes of it.

## Main results

* `numeral_iff`: the numerals are what the steps read;
* `Numeral.lt`: a numeral is below a million;
* `longest_isLongest`: the longest numeral at a place, read step by step.
-/

namespace EchoMuse.Grammar

/-- A word of a transcript. -/
abbrev Word := List Char

/-! ### Number words -/

def units : List Word :=
  ["zero", "one", "two", "three", "four", "five", "six", "seven", "eight", "nine"].map String.toList

def teens : List Word :=
  ["ten", "eleven", "twelve", "thirteen", "fourteen", "fifteen", "sixteen", "seventeen", "eighteen",
    "nineteen"].map String.toList

def tens : List Word :=
  ["twenty", "thirty", "forty", "fifty", "sixty", "seventy", "eighty", "ninety"].map String.toList

/-- Ordinal words 1 to 19 (`second` is handled apart). -/
def ordinalSmall : List (Word × ℕ) :=
  [("first".toList, 1), ("third".toList, 3), ("fourth".toList, 4), ("fifth".toList, 5),
    ("sixth".toList, 6), ("seventh".toList, 7), ("eighth".toList, 8), ("ninth".toList, 9),
    ("tenth".toList, 10), ("eleventh".toList, 11), ("twelfth".toList, 12),
    ("thirteenth".toList, 13), ("fourteenth".toList, 14), ("fifteenth".toList, 15),
    ("sixteenth".toList, 16), ("seventeenth".toList, 17), ("eighteenth".toList, 18),
    ("nineteenth".toList, 19)]

def ordinalTens : List (Word × ℕ) :=
  [("twentieth".toList, 20), ("thirtieth".toList, 30), ("fortieth".toList, 40),
    ("fiftieth".toList, 50), ("sixtieth".toList, 60), ("seventieth".toList, 70),
    ("eightieth".toList, 80), ("ninetieth".toList, 90)]

inductive NumberWord
  | unit (n : ℕ)
  | teen (n : ℕ)
  | tens (n : ℕ)
  | hundred
  | thousand
  | ordinal (n : ℕ)
deriving DecidableEq

def numberWord (word : Word) : Option NumberWord :=
  match units.findIdx? (· = word) with
  | some i => some (.unit i)
  | none =>
    match teens.findIdx? (· = word) with
    | some i => some (.teen (10 + i))
    | none =>
      match tens.findIdx? (· = word) with
      | some i => some (.tens (20 + 10 * i))
      | none =>
        if word = "hundred".toList then some .hundred
        else if word = "thousand".toList then some .thousand
        else ((ordinalSmall ++ ordinalTens).find? (·.1 = word)).map (.ordinal ·.2)

/-- Every number word. -/
def numberWords : List Word :=
  units ++ teens ++ tens ++ ["hundred".toList, "thousand".toList] ++
    (ordinalSmall ++ ordinalTens).map Prod.fst

theorem mem_numberWords {w : Word} {k : NumberWord} (h : numberWord w = some k) :
    w ∈ numberWords := by
  have hmem : ∀ {l : List Word} {i : ℕ}, l.findIdx? (· = w) = some i → w ∈ l := by
    intro l i hi
    obtain ⟨hlt, heq, -⟩ := List.findIdx?_eq_some_iff_getElem.mp hi
    exact of_decide_eq_true heq ▸ List.getElem_mem hlt
  rw [numberWords]
  simp only [List.mem_append]
  rw [numberWord] at h
  split at h
  next hi => exact .inl (.inl (.inl (.inl (hmem hi))))
  next =>
    split at h
    next hi => exact .inl (.inl (.inl (.inr (hmem hi))))
    next =>
      split at h
      next hi => exact .inl (.inl (.inr (hmem hi)))
      next =>
        split_ifs at h with hhundred hthousand
        · exact .inl (.inr (by simp [hhundred]))
        · exact .inl (.inr (by simp [hthousand]))
        · obtain ⟨p, hp, -⟩ := Option.map_eq_some_iff.mp h
          refine .inr (List.mem_map.mpr ⟨p, List.mem_of_find?_eq_some hp, ?_⟩)
          have := List.find?_some hp
          exact of_decide_eq_true this

/-- The values of the number words. -/
def NumberWord.Valid : NumberWord → Prop
  | .unit n => n < 10
  | .teen n => 10 ≤ n ∧ n < 20
  | .tens n => 20 ≤ n ∧ n ≤ 90 ∧ n % 10 = 0
  | .hundred | .thousand => True
  | .ordinal n => 0 < n ∧ n ≤ 90

instance : DecidablePred NumberWord.Valid
  | .unit _ => inferInstanceAs (Decidable (_ < _))
  | .teen _ => inferInstanceAs (Decidable (_ ∧ _))
  | .tens _ => inferInstanceAs (Decidable (_ ∧ _))
  | .hundred | .thousand => inferInstanceAs (Decidable True)
  | .ordinal _ => inferInstanceAs (Decidable (_ ∧ _))

/-- What each number word means, read off the tables once. -/
theorem numberWords_spec : ∀ w ∈ numberWords, (∀ k ∈ numberWord w, k.Valid) ∧
    (numberWord w = some .hundred → w = "hundred".toList) ∧
    (numberWord w = some .thousand → w = "thousand".toList) ∧
    (numberWord w = some (.unit 0) → w = "zero".toList) ∧
    w.head?.any Char.isDigit = false := by
  decide +kernel

theorem numberWord_valid {w : Word} {k : NumberWord} (h : numberWord w = some k) : k.Valid :=
  (numberWords_spec w (mem_numberWords h)).1 k h

theorem numberWord_eq_hundred {w : Word} : numberWord w = some .hundred ↔ w = "hundred".toList := by
  refine ⟨fun h => (numberWords_spec w (mem_numberWords h)).2.1 h, ?_⟩
  rintro rfl
  decide

theorem numberWord_eq_thousand {w : Word} :
    numberWord w = some .thousand ↔ w = "thousand".toList := by
  refine ⟨fun h => (numberWords_spec w (mem_numberWords h)).2.2.1 h, ?_⟩
  rintro rfl
  decide

theorem numberWord_eq_zero {w : Word} : numberWord w = some (.unit 0) ↔ w = "zero".toList := by
  refine ⟨fun h => (numberWords_spec w (mem_numberWords h)).2.2.2.1 h, ?_⟩
  rintro rfl
  decide

@[simp] theorem numberWord_and : numberWord "and".toList = none := by decide

@[simp] theorem numberWord_a : numberWord "a".toList = none := by decide

@[simp] theorem numberWord_second : numberWord "second".toList = none := by decide

/-! ### The grammar -/

/-- One to ninety nine; `more` tells that it is a tens word, which a unit may follow. -/
inductive Small : Bool → List Word → ℕ → Prop
  | unit {w n} (h : numberWord w = some (.unit n)) (hn : n ≠ 0) : Small false [w] n
  | teen {w n} (h : numberWord w = some (.teen n)) : Small false [w] n
  | tens {w n} (h : numberWord w = some (.tens n)) : Small true [w] n
  | both {w w' n m} (h : numberWord w = some (.tens n)) (h' : numberWord w' = some (.unit m))
      (hm : m ≠ 0) : Small false [w, w'] (n + m)

/-- An ordinal below a hundred. -/
inductive SmallOrdinal : List Word → ℕ → Prop
  | word {w n} (h : numberWord w = some (.ordinal n)) : SmallOrdinal [w] n
  | both {w w' n m} (h : numberWord w = some (.tens n)) (h' : numberWord w' = some (.ordinal m))
      (hm : m < 10) : SmallOrdinal [w, w'] (n + m)
  | second {w n} (h : numberWord w = some (.tens n)) : SmallOrdinal [w, "second".toList] (n + 2)

/-- The rest of a part, an ordinal when `ordinal` is true. -/
inductive Rest : Bool → List Word → ℕ → Prop
  | small {more ws n} (h : Small more ws n) : Rest false ws n
  | ordinal {ws n} (h : SmallOrdinal ws n) : Rest true ws n

/-- An `and` that may be left out. -/
inductive Joint : List Word → Prop
  | nothing : Joint []
  | and : Joint ["and".toList]

/-- A number of hundreds, one when it is left out. -/
inductive Hundreds : List Word → ℕ → Prop
  | one : Hundreds ["hundred".toList] 100
  | times {more ws n} (h : Small more ws n) : Hundreds (ws ++ ["hundred".toList]) (n * 100)

/-- Hundreds and a rest, either of which may be left out. -/
inductive Part : Bool → List Word → ℕ → Prop
  | rest {o ws n} (h : Rest o ws n) : Part o ws n
  | hundreds {ws n} (h : Hundreds ws n) : Part false ws n
  | both {o ws js rs n m} (h : Hundreds ws n) (hj : Joint js) (hr : Rest o rs m) :
      Part o (ws ++ js ++ rs) (n + m)

/-- A number of thousands, one when it is left out. -/
inductive Thousands : List Word → ℕ → Prop
  | one : Thousands ["thousand".toList] 1000
  | times {ws n} (h : Part false ws n) (hn : n ≤ 999) :
      Thousands (ws ++ ["thousand".toList]) (n * 1000)

/-- The numerals, ordinals when `ordinal` is true. -/
inductive Numeral : Bool → List Word → ℕ → Prop
  | zero {w} (h : numberWord w = some (.unit 0)) : Numeral false [w] 0
  | part {o ws n} (h : Part o ws n) : Numeral o ws n
  | thousands {ws n} (h : Thousands ws n) : Numeral false ws n
  | both {o ws js ps n m} (h : Thousands ws n) (hj : Joint js) (hp : Part o ps m) (hm : m ≤ 999) :
      Numeral o (ws ++ js ++ ps) (n + m)
  | article {o w ws n} (hw : w = "hundred".toList ∨ w = "thousand".toList)
      (h : Numeral o (w :: ws) n) : Numeral o ("a".toList :: w :: ws) n

theorem Small.bounds {more : Bool} {ws : List Word} {n : ℕ} (h : Small more ws n) :
    0 < n ∧ n < 100 ∧ (more = true → n % 10 = 0) := by
  cases h with
  | unit h hn =>
    have := numberWord_valid h
    simp only [NumberWord.Valid] at this
    exact ⟨by omega, by omega, by simp⟩
  | teen h =>
    have := numberWord_valid h
    simp only [NumberWord.Valid] at this
    exact ⟨by omega, by omega, by simp⟩
  | tens h =>
    have := numberWord_valid h
    simp only [NumberWord.Valid] at this
    exact ⟨by omega, by omega, by omega⟩
  | both h h' hm =>
    have := numberWord_valid h
    have := numberWord_valid h'
    simp only [NumberWord.Valid] at *
    exact ⟨by omega, by omega, by simp⟩

theorem Rest.lt {o : Bool} {ws : List Word} {n : ℕ} (h : Rest o ws n) : n < 100 := by
  cases h with
  | small h => exact h.bounds.2.1
  | ordinal h =>
    cases h with
    | word h =>
      have := numberWord_valid h
      simp only [NumberWord.Valid] at this
      omega
    | both h h' hm =>
      have := numberWord_valid h
      simp only [NumberWord.Valid] at this
      omega
    | second h =>
      have := numberWord_valid h
      simp only [NumberWord.Valid] at this
      omega

theorem Hundreds.bounds {ws : List Word} {n : ℕ} (h : Hundreds ws n) :
    0 < n ∧ n ≤ 9900 ∧ n % 100 = 0 := by
  cases h with
  | one => decide
  | times h =>
    have := h.bounds
    omega

theorem Part.lt {o : Bool} {ws : List Word} {n : ℕ} (h : Part o ws n) : n < 10000 := by
  cases h with
  | rest h => exact h.lt.trans (by decide)
  | hundreds h => exact h.bounds.2.1.trans_lt (by decide)
  | both h _ hr =>
    have := h.bounds
    have := hr.lt
    omega

theorem Thousands.le {ws : List Word} {n : ℕ} (h : Thousands ws n) : n ≤ 999000 := by
  cases h with
  | one => decide
  | times _ hn => omega

/-- Numerals are below a million. -/
theorem Numeral.lt {o : Bool} {ws : List Word} {n : ℕ} (h : Numeral o ws n) : n < 1000000 := by
  induction h with
  | zero => decide
  | part h => exact h.lt.trans (by decide)
  | thousands h => exact h.le.trans_lt (by decide)
  | both h _ _ hm =>
    have := h.le
    omega
  | article _ _ ih => exact ih

/-! ### Reading word by word -/

/-- What has been said of a numeral. -/
inductive Spoken
  | start
  /-- `a`, before a hundred or a thousand. -/
  | article
  | zero
  /-- The thousands, the hundreds after them, and the rest with whether a unit may follow. -/
  | said (high hundreds : Option ℕ) (rest : Option (Bool × ℕ))
  /-- An `and`, before a part or a rest. -/
  | joined (high hundreds : Option ℕ)
  | ordinal (n : ℕ)
deriving DecidableEq

/-- The value of a part. -/
def partValue (hundreds : Option ℕ) (rest : Option (Bool × ℕ)) : ℕ :=
  hundreds.getD 0 + (rest.map Prod.snd).getD 0

/-- What a number word in a part makes of it. -/
def partStep (high hundreds : Option ℕ) (rest : Option (Bool × ℕ)) : NumberWord → Option Spoken
  | .unit n =>
    if n = 0 then none
    else
      match rest with
      | none => some (.said high hundreds (some (false, n)))
      | some (true, m) => some (.said high hundreds (some (false, m + n)))
      | some (false, _) => none
  | .teen n => if rest = none then some (.said high hundreds (some (false, n))) else none
  | .tens n => if rest = none then some (.said high hundreds (some (true, n))) else none
  | .hundred =>
    let n := (rest.map Prod.snd).getD 1
    if hundreds = none ∧ (high = none ∨ n ≤ 9) then some (.said high (some (n * 100)) none) else none
  | .thousand =>
    let n := if hundreds = none ∧ rest = none then 1 else partValue hundreds rest
    if high = none ∧ n ≤ 999 then some (.said (some (n * 1000)) none none) else none
  | .ordinal n =>
    match rest with
    | none => some (.ordinal (high.getD 0 + hundreds.getD 0 + n))
    | some (true, m) => if n < 10 then some (.ordinal (high.getD 0 + hundreds.getD 0 + (m + n))) else none
    | some (false, _) => none

/-- What one more word makes of a numeral; nothing when it is no part of it. -/
def step : Spoken → Word → Option Spoken
  | .start, w =>
    if w = "a".toList then some .article
    else if w = "zero".toList then some .zero
    else (numberWord w).bind (partStep none none none)
  | .article, w =>
    if w = "hundred".toList ∨ w = "thousand".toList then
      (numberWord w).bind (partStep none none none)
    else none
  | .said high hundreds rest, w =>
    if w = "second".toList then
      match rest with
      | some (true, m) => some (.ordinal (high.getD 0 + hundreds.getD 0 + (m + 2)))
      | _ => none
    else if w = "and".toList then
      if rest = none then some (.joined high hundreds) else none
    else (numberWord w).bind (partStep high hundreds rest)
  | .joined high hundreds, w =>
    if w = "thousand".toList then none
    else (numberWord w).bind (partStep high hundreds none)
  | .zero, _ | .ordinal _, _ => none

/-- What words make of it. -/
def reach (s : Spoken) (ws : List Word) : Option Spoken := ws.foldlM step s

/-- The numeral that has been said: its value, and whether it is an ordinal. -/
def Spoken.numeral : Spoken → Option (Bool × ℕ)
  | .zero => some (false, 0)
  | .said high hundreds rest => some (false, high.getD 0 + partValue hundreds rest)
  | .ordinal n => some (true, n)
  | .start | .article | .joined .. => none

@[simp] theorem reach_nil (s : Spoken) : reach s [] = some s := rfl

@[simp] theorem reach_cons (s : Spoken) (w : Word) (ws : List Word) :
    reach s (w :: ws) = (step s w).bind (reach · ws) := rfl

theorem reach_append (s : Spoken) (ws ws' : List Word) :
    reach s (ws ++ ws') = (reach s ws).bind (reach · ws') := List.foldlM_append

/-! ### What the steps read is a numeral -/

/-- Thousands and hundreds, before a rest. -/
inductive Before : Option ℕ → Option ℕ → List Word → Prop
  | nothing : Before none none []
  | thousands {ws n} (h : Thousands ws n) : Before (some n) none ws
  | hundreds {ws n} (h : Hundreds ws n) : Before none (some n) ws
  | both {ws js hs n m} (h : Thousands ws n) (hj : Joint js) (hh : Hundreds hs m) (hm : m ≤ 900) :
      Before (some n) (some m) (ws ++ js ++ hs)

/-- The words before a rest, with an `and` or without. -/
def Lead (high hundreds : Option ℕ) (ws : List Word) : Prop :=
  ∃ pre js, Before high hundreds pre ∧ Joint js ∧ (pre = [] → js = []) ∧ ws = pre ++ js

theorem Before.lead {high hundreds : Option ℕ} {ws : List Word} (h : Before high hundreds ws) :
    Lead high hundreds ws := ⟨ws, [], h, .nothing, fun _ => rfl, (List.append_nil ws).symm⟩

theorem Before.numeral {high hundreds : Option ℕ} {ws : List Word} (h : Before high hundreds ws)
    (hne : ws ≠ []) : Numeral false ws (high.getD 0 + hundreds.getD 0) := by
  cases h with
  | nothing => exact absurd rfl hne
  | thousands h => exact .thousands h
  | hundreds h =>
    rw [Option.getD_none, Option.getD_some, Nat.zero_add]
    exact .part (.hundreds h)
  | both h hj hh hm => exact .both h hj (.hundreds hh) (hm.trans (by decide))

theorem Lead.numeral {high hundreds : Option ℕ} {ws rs : List Word} {o : Bool} {m : ℕ}
    (h : Lead high hundreds ws) (hr : Rest o rs m) :
    Numeral o (ws ++ rs) (high.getD 0 + hundreds.getD 0 + m) := by
  obtain ⟨pre, js, hpre, hj, hnil, rfl⟩ := h
  have hlt := hr.lt
  cases hpre with
  | nothing =>
    rw [hnil rfl, Option.getD_none, Nat.zero_add]
    exact .part (.rest hr)
  | thousands h => exact .both h hj (.rest hr) (by omega)
  | hundreds h =>
    rw [Option.getD_none, Option.getD_some, Nat.zero_add]
    exact .part (.both h hj hr)
  | @both ws js' hs n m' h hj' hh hm =>
    have := Numeral.both h hj' (.both hh hj hr) (by omega)
    simpa only [List.append_assoc, Option.getD_some, Nat.add_assoc] using this

theorem Lead.hundreds {high : Option ℕ} {ws hs : List Word} {m : ℕ} (h : Lead high none ws)
    (hh : Hundreds hs m) (hm : high = none ∨ m ≤ 900) : Before high (some m) (ws ++ hs) := by
  obtain ⟨pre, js, hpre, hj, hnil, rfl⟩ := h
  cases hpre with
  | nothing =>
    rw [hnil rfl]
    exact .hundreds hh
  | thousands h => exact .both h hj hh (hm.resolve_left nofun)

/-- What the words said so far are. -/
def Derived : Spoken → List Word → Prop
  | .start, ws => ws = []
  | .article, ws => ws = ["a".toList]
  | .zero, ws => ws = ["zero".toList]
  | .said high hundreds none, ws => Before high hundreds ws ∧ ws ≠ []
  | .said high hundreds (some (more, n)), ws =>
    ∃ pre rs, Lead high hundreds pre ∧ Small more rs n ∧ ws = pre ++ rs
  | .joined high hundreds, ws => Lead high hundreds ws
  | .ordinal n, ws => Numeral true ws n

theorem Derived.numeral {s : Spoken} {ws : List Word} {o : Bool} {n : ℕ} (h : Derived s ws)
    (hn : s.numeral = some (o, n)) : Numeral o ws n := by
  cases s with
  | start => cases hn
  | article => cases hn
  | zero =>
    cases hn
    rw [show ws = ["zero".toList] from h]
    exact .zero (by decide)
  | said high hundreds rest =>
    cases hn
    cases rest with
    | none => exact h.1.numeral h.2
    | some r =>
      obtain ⟨pre, rs, hlead, hsmall, rfl⟩ := h
      have := hlead.numeral (.small hsmall)
      rwa [Nat.add_assoc] at this
  | joined high hundreds => cases hn
  | ordinal m =>
    cases hn
    exact h

/-- A number word after the words before a rest. -/
theorem derived_partStep {high hundreds : Option ℕ} {ws : List Word} {w : Word} {k : NumberWord}
    {s : Spoken} (h : Lead high hundreds ws) (hw : numberWord w = some k) (hk : k ≠ .thousand)
    (hs : partStep high hundreds none k = some s) : Derived s (ws ++ [w]) := by
  cases k with
  | unit n =>
    simp only [partStep] at hs
    split_ifs at hs with hn
    cases hs
    exact ⟨ws, [w], h, .unit hw hn, rfl⟩
  | teen n =>
    cases hs
    exact ⟨ws, [w], h, .teen hw, rfl⟩
  | tens n =>
    cases hs
    exact ⟨ws, [w], h, .tens hw, rfl⟩
  | hundred =>
    simp only [partStep, Option.map_none, Option.getD_none] at hs
    split_ifs at hs with hif
    cases hs
    obtain ⟨rfl, -⟩ := hif
    rw [numberWord_eq_hundred.mp hw]
    exact ⟨h.hundreds .one (.inr (by decide)), by simp⟩
  | thousand => exact absurd rfl hk
  | ordinal n =>
    cases hs
    exact h.numeral (.ordinal (.word hw))

/-- The part said so far, when it has no thousand. -/
theorem derived_part {hundreds : Option ℕ} {rest : Option (Bool × ℕ)} {ws : List Word}
    (h : Derived (.said none hundreds rest) ws) : Part false ws (partValue hundreds rest) := by
  match rest, h with
  | none, ⟨hbefore, hne⟩ =>
    cases hbefore with
    | nothing => exact absurd rfl hne
    | hundreds h => exact .hundreds h
  | some (more, n), h =>
    obtain ⟨pre, rs, ⟨pre', js, hbefore, hj, hnil, rfl⟩, hsmall, rfl⟩ := h
    cases hbefore with
    | nothing =>
      rw [hnil rfl, partValue, Option.getD_none, Nat.zero_add]
      exact .rest (.small hsmall)
    | hundreds h => exact .both h hj (.small hsmall)

/-- A number word after a part. -/
theorem derived_said {high hundreds : Option ℕ} {rest : Option (Bool × ℕ)} {ws : List Word}
    {w : Word} {k : NumberWord} {s : Spoken} (h : Derived (.said high hundreds rest) ws)
    (hw : numberWord w = some k) (hs : partStep high hundreds rest k = some s) :
    Derived s (ws ++ [w]) := by
  by_cases hk : k = .thousand
  · subst hk
    simp only [partStep] at hs
    have hne : ¬ (hundreds = none ∧ rest = none ∧ high = none) := by
      rintro ⟨rfl, rfl, rfl⟩
      obtain ⟨hbefore, hne⟩ := h
      cases hbefore
      exact hne rfl
    split_ifs at hs with hnothing hif hif
    · exact absurd ⟨hnothing.1, hnothing.2, hif.1⟩ hne
    · cases hs
      obtain ⟨rfl, hle⟩ := hif
      rw [numberWord_eq_thousand.mp hw]
      exact ⟨.thousands (.times (derived_part h) hle), by simp⟩
  · match rest, h with
    | none, h => exact derived_partStep h.1.lead hw hk hs
    | some (more, n), h =>
      obtain ⟨pre, rs, hlead, hsmall, rfl⟩ := h
      cases k with
      | unit m =>
        simp only [partStep] at hs
        split_ifs at hs with hm
        cases more with
        | false => cases hs
        | true =>
          cases hs
          cases hsmall with
          | tens ht => exact ⟨pre, _, hlead, .both ht hw hm, List.append_assoc ..⟩
      | teen m => cases hs
      | tens m => cases hs
      | hundred =>
        simp only [partStep, Option.map_some, Option.getD_some] at hs
        split_ifs at hs with hif
        cases hs
        obtain ⟨rfl, hif⟩ := hif
        rw [numberWord_eq_hundred.mp hw, List.append_assoc]
        refine ⟨hlead.hundreds (.times hsmall) (hif.imp_right fun _ => by omega), by simp⟩
      | thousand => exact absurd rfl hk
      | ordinal m =>
        cases more with
        | false => cases hs
        | true =>
          simp only [partStep] at hs
          split_ifs at hs with hm
          cases hs
          cases hsmall with
          | tens ht =>
            have := hlead.numeral (.ordinal (.both ht hw hm))
            rw [List.append_assoc]
            exact this

theorem derived_step {s s' : Spoken} {ws : List Word} {w : Word} (h : Derived s ws)
    (hs : step s w = some s') (ha : s ≠ .article) : Derived s' (ws ++ [w]) := by
  match s, h with
  | .start, h =>
    rw [show ws = [] from h]
    simp only [step] at hs
    split_ifs at hs with hart hzero
    · cases hs
      exact congrArg ([·]) hart
    · cases hs
      exact congrArg ([·]) hzero
    · obtain ⟨k, hk, hs⟩ := Option.bind_eq_some_iff.mp hs
      by_cases hthousand : k = .thousand
      · subst hthousand
        cases hs
        rw [numberWord_eq_thousand.mp hk]
        exact ⟨.thousands .one, by simp⟩
      · exact derived_partStep Before.nothing.lead hk hthousand hs
  | .article, _ => exact absurd rfl ha
  | .said high hundreds rest, h =>
    simp only [step] at hs
    split_ifs at hs with hsecond hand hrest
    · match rest, h with
      | none, _ => cases hs
      | some (false, _), _ => cases hs
      | some (true, n), ⟨pre, rs, hlead, hsmall, hws⟩ =>
        cases hs
        cases hsmall with
        | tens ht =>
          have := hlead.numeral (.ordinal (.second ht))
          rw [hws, hsecond, List.append_assoc]
          exact this
    · cases hs
      subst hrest
      exact ⟨ws, _, h.1, .and, fun hnil => absurd hnil h.2, by rw [hand]⟩
    · obtain ⟨k, hk, hs⟩ := Option.bind_eq_some_iff.mp hs
      exact derived_said h hk hs
  | .joined high hundreds, h =>
    simp only [step] at hs
    split_ifs at hs with hthousand
    obtain ⟨k, hk, hs⟩ := Option.bind_eq_some_iff.mp hs
    refine derived_partStep h hk ?_ hs
    rintro rfl
    exact hthousand (numberWord_eq_thousand.mp hk)
  | .zero, _ | .ordinal _, _ => cases hs

/-- A number word ends a numeral. -/
theorem partStep_numeral {high hundreds : Option ℕ} {rest : Option (Bool × ℕ)} {k : NumberWord}
    {s : Spoken} (h : partStep high hundreds rest k = some s) : s.numeral.isSome = true := by
  cases k <;> simp only [partStep] at h <;> (repeat' split at h) <;> cases h <;> rfl

/-- A word ends a numeral, or is an `a` or an `and` within one. -/
theorem step_cases {s s' : Spoken} {w : Word} (h : step s w = some s') :
    s'.numeral.isSome = true ∨ (s = .start ∧ w = "a".toList ∧ s' = .article) ∨
      ∃ high hundreds, s = .said high hundreds none ∧ w = "and".toList ∧
        s' = .joined high hundreds := by
  have hbind : ∀ {high hundreds rest}, (numberWord w).bind (partStep high hundreds rest) = some s' →
      s'.numeral.isSome = true := by
    intro high hundreds rest h
    obtain ⟨k, -, hk⟩ := Option.bind_eq_some_iff.mp h
    exact partStep_numeral hk
  match s with
  | .start =>
    simp only [step] at h
    split_ifs at h with hart hzero
    · cases h
      exact .inr (.inl ⟨rfl, hart, rfl⟩)
    · cases h
      exact .inl rfl
    · exact .inl (hbind h)
  | .article =>
    simp only [step] at h
    split_ifs at h
    exact .inl (hbind h)
  | .said high hundreds rest =>
    simp only [step] at h
    split_ifs at h with hsecond hand hrest
    · split at h <;> cases h
      exact .inl rfl
    · cases h
      subst hrest
      exact .inr (.inr ⟨high, hundreds, rfl, hand, rfl⟩)
    · exact .inl (hbind h)
  | .joined high hundreds =>
    simp only [step] at h
    split_ifs at h
    exact .inl (hbind h)
  | .zero | .ordinal _ => cases h

theorem derived_reach {s s' : Spoken} {ws vs : List Word} (h : Derived s ws)
    (hs : s ≠ .start) (ha : s ≠ .article) (hr : reach s vs = some s') : Derived s' (ws ++ vs) := by
  induction vs generalizing s ws with
  | nil =>
    cases hr
    rwa [List.append_nil]
  | cons v vs ih =>
    obtain ⟨t, ht, hr⟩ := Option.bind_eq_some_iff.mp hr
    have htail : t ≠ .start ∧ t ≠ .article := by
      obtain hnum | ⟨rfl, -⟩ | ⟨high, hundreds, -, -, rfl⟩ := step_cases ht
      · constructor <;> rintro rfl <;> cases hnum
      · exact absurd rfl hs
      · exact ⟨nofun, nofun⟩
    have := ih (derived_step h ht ha) htail.1 htail.2 hr
    rwa [List.append_assoc] at this

/-- What the steps read is a numeral. -/
theorem numeral_of_reach {ws : List Word} {s : Spoken} {o : Bool} {n : ℕ}
    (hr : reach .start ws = some s) (hn : s.numeral = some (o, n)) : Numeral o ws n := by
  -- Without an article in front the first word leads past the start.
  have hplain : ∀ {w : Word} {vs : List Word}, w ≠ "a".toList → reach .start (w :: vs) = some s →
      Numeral o (w :: vs) n := by
    intro w vs hw hr
    obtain ⟨t, ht, hr⟩ := Option.bind_eq_some_iff.mp hr
    have hnum : t.numeral.isSome = true := by
      obtain hnum | ⟨-, ha, -⟩ | ⟨high, hundreds, hstart, -⟩ := step_cases ht
      · exact hnum
      · exact absurd ha hw
      · cases hstart
    have hd : Derived t [w] := @derived_step .start t [] w rfl ht nofun
    have hne : t ≠ .start ∧ t ≠ .article := by constructor <;> rintro rfl <;> cases hnum
    exact (derived_reach hd hne.1 hne.2 hr).numeral hn
  match ws with
  | [] =>
    cases hr
    cases hn
  | w :: vs =>
    by_cases hw : w = "a".toList
    · subst hw
      match vs with
      | [] =>
        cases hr
        cases hn
      | v :: vs =>
        rw [reach_cons, show step .start "a".toList = some .article from rfl, Option.bind_some,
          reach_cons] at hr
        obtain ⟨t, ht, hr⟩ := Option.bind_eq_some_iff.mp hr
        simp only [step] at ht
        split_ifs at ht with hv
        refine .article hv (hplain (by rintro rfl; exact absurd hv (by decide)) ?_)
        have hstart : step .start v = some t := by
          simp only [step]
          rw [if_neg (by rintro rfl; exact absurd hv (by decide)),
            if_neg (by rintro rfl; exact absurd hv (by decide)), ht]
        rw [reach_cons, hstart]
        exact hr
    · exact hplain hw hr

/-! ### The steps read every numeral -/

/-- The state is one before a rest. -/
inductive Ready : Spoken → Option ℕ → Option ℕ → Prop
  | start : Ready .start none none
  | said {high hundreds} : Ready (.said high hundreds none) high hundreds
  | joined {high hundreds} : Ready (.joined high hundreds) high hundreds

theorem step_said {high hundreds : Option ℕ} {rest : Option (Bool × ℕ)} {w : Word} {k : NumberWord}
    (hw : numberWord w = some k) :
    step (.said high hundreds rest) w = partStep high hundreds rest k := by
  simp only [step]
  rw [if_neg (by rintro rfl; rw [numberWord_second] at hw; cases hw),
    if_neg (by rintro rfl; rw [numberWord_and] at hw; cases hw), hw]
  rfl

theorem Ready.step {s : Spoken} {high hundreds : Option ℕ} {w : Word} {k : NumberWord}
    (h : Ready s high hundreds) (hw : numberWord w = some k) (hk : k ≠ .thousand)
    (hz : k ≠ .unit 0) : step s w = partStep high hundreds none k := by
  cases h with
  | start =>
    simp only [Grammar.step]
    rw [if_neg (by rintro rfl; rw [numberWord_a] at hw; cases hw), if_neg, hw]
    · rfl
    · intro heq
      rw [numberWord_eq_zero.mpr heq] at hw
      cases hw
      exact hz rfl
  | said => exact step_said hw
  | joined =>
    simp only [Grammar.step]
    rw [if_neg, hw]
    · rfl
    · intro heq
      rw [numberWord_eq_thousand.mpr heq] at hw
      cases hw
      exact hk rfl

theorem reach_small {s : Spoken} {high hundreds : Option ℕ} {more : Bool} {ws : List Word} {n : ℕ}
    (h : Ready s high hundreds) (hs : Small more ws n) :
    reach s ws = some (.said high hundreds (some (more, n))) := by
  cases hs with
  | unit hw hn =>
    rw [reach_cons, h.step hw nofun (by simpa using hn), partStep, if_neg hn]
    rfl
  | teen hw =>
    rw [reach_cons, h.step hw nofun nofun]
    rfl
  | tens hw =>
    rw [reach_cons, h.step hw nofun nofun]
    rfl
  | both hw hw' hm =>
    rw [reach_cons, h.step hw nofun nofun]
    simp only [partStep, reach_cons, Option.bind_some, step_said hw', if_neg hm, if_true]
    rfl

theorem reach_ordinal {s : Spoken} {high hundreds : Option ℕ} {ws : List Word} {n : ℕ}
    (h : Ready s high hundreds) (hs : SmallOrdinal ws n) :
    reach s ws = some (.ordinal (high.getD 0 + hundreds.getD 0 + n)) := by
  cases hs with
  | word hw =>
    rw [reach_cons, h.step hw nofun nofun]
    rfl
  | both hw hw' hm =>
    rw [reach_cons, h.step hw nofun nofun]
    simp only [partStep, reach_cons, Option.bind_some, step_said hw', if_pos hm, if_true]
    rfl
  | second hw =>
    rw [reach_cons, h.step hw nofun nofun]
    rfl

theorem reach_hundreds {s : Spoken} {high : Option ℕ} {ws : List Word} {n : ℕ}
    (h : Ready s high none) (hh : Hundreds ws n) (hn : high = none ∨ n ≤ 999) :
    reach s ws = some (.said high (some n) none) := by
  have hw := numberWord_eq_hundred.mpr rfl
  cases hh with
  | one =>
    rw [reach_cons, h.step hw nofun nofun]
    simp [partStep]
  | times hs =>
    rw [reach_append, reach_small h hs, Option.bind_some, reach_cons, step_said hw]
    simp only [partStep, Option.map_some, Option.getD_some]
    rw [if_pos ⟨trivial, hn.imp_right fun _ => by omega⟩]
    rfl

theorem reach_joint {high hundreds : Option ℕ} {js : List Word} (h : Joint js) :
    ∃ s, reach (.said high hundreds none) js = some s ∧ Ready s high hundreds := by
  cases h with
  | nothing => exact ⟨_, rfl, .said⟩
  | and => exact ⟨_, rfl, .joined⟩

/-- The states at the end of a part. -/
def PartEnd (high : Option ℕ) (s : Spoken) : Bool → ℕ → Prop
  | false, n => ∃ hundreds rest, s = .said high hundreds rest ∧ partValue hundreds rest = n ∧
      ¬ (hundreds = none ∧ rest = none)
  | true, n => s = .ordinal (high.getD 0 + n)

theorem PartEnd.numeral {high : Option ℕ} {s : Spoken} {o : Bool} {n : ℕ}
    (h : PartEnd high s o n) : s.numeral = some (o, high.getD 0 + n) := by
  match o, h with
  | false, ⟨_, _, hs, hn, _⟩ => rw [hs, Spoken.numeral, hn]
  | true, h => rw [show s = _ from h, Spoken.numeral]

theorem reach_rest {s : Spoken} {high hundreds : Option ℕ} {o : Bool} {ws : List Word} {n : ℕ}
    (h : Ready s high hundreds) (hr : Rest o ws n) :
    ∃ s', reach s ws = some s' ∧ PartEnd high s' o (hundreds.getD 0 + n) := by
  cases hr with
  | small hs => exact ⟨_, reach_small h hs, _, _, rfl, rfl, by simp⟩
  | ordinal hs => exact ⟨_, reach_ordinal h hs, by rw [PartEnd, Nat.add_assoc]⟩

theorem reach_part {s : Spoken} {high : Option ℕ} {o : Bool} {ws : List Word} {n : ℕ}
    (h : Ready s high none) (hp : Part o ws n) (hn : high = none ∨ n ≤ 999) :
    ∃ s', reach s ws = some s' ∧ PartEnd high s' o n := by
  cases hp with
  | rest hr => exact (reach_rest h hr).imp fun s' hs => by simpa using hs
  | hundreds hh => exact ⟨_, reach_hundreds h hh hn, _, _, rfl, rfl, by simp⟩
  | @both o ws js rs n m hh hj hr =>
    obtain ⟨t, ht, hready⟩ := @reach_joint high (some n) _ hj
    obtain ⟨s', hs', hend⟩ := reach_rest hready hr
    refine ⟨s', ?_, hend⟩
    rw [List.append_assoc, reach_append, reach_hundreds h hh (hn.imp_right fun _ => by omega),
      Option.bind_some, reach_append, ht]
    exact hs'

theorem reach_thousands {ws : List Word} {n : ℕ} (h : Thousands ws n) :
    reach .start ws = some (.said (some n) none none) := by
  cases h with
  | one => rfl
  | times hp hn =>
    obtain ⟨s, hs, hundreds, rest, rfl, hvalue, hne⟩ := reach_part .start hp (.inl rfl)
    rw [reach_append, hs, Option.bind_some, reach_cons, step_said (numberWord_eq_thousand.mpr rfl)]
    simp only [partStep]
    rw [if_neg hne, if_pos ⟨trivial, hvalue ▸ hn⟩, hvalue]
    rfl

/-- The steps read every numeral. -/
theorem reach_numeral {o : Bool} {ws : List Word} {n : ℕ} (h : Numeral o ws n) :
    ∃ s, reach .start ws = some s ∧ s.numeral = some (o, n) := by
  induction h with
  | zero h =>
    rw [numberWord_eq_zero.mp h]
    exact ⟨.zero, by decide, rfl⟩
  | part h =>
    obtain ⟨s, hs, hend⟩ := reach_part .start h (.inl rfl)
    exact ⟨s, hs, by simpa using hend.numeral⟩
  | thousands h => exact ⟨_, reach_thousands h, rfl⟩
  | @both o ws js ps n m h hj hp hm =>
    obtain ⟨t, ht, hready⟩ := @reach_joint (some n) none _ hj
    obtain ⟨s, hs, hend⟩ := reach_part hready hp (.inr hm)
    refine ⟨s, ?_, hend.numeral⟩
    rw [List.append_assoc, reach_append, reach_thousands h, Option.bind_some, reach_append, ht]
    exact hs
  | @article o w ws n hw h ih =>
    obtain ⟨s, hs, hn⟩ := ih
    refine ⟨s, ?_, hn⟩
    rw [reach_cons] at hs ⊢
    obtain rfl | rfl := hw <;> exact hs

/-- The numerals are what the steps read. -/
theorem numeral_iff {o : Bool} {ws : List Word} {n : ℕ} :
    Numeral o ws n ↔ ∃ s, reach .start ws = some s ∧ s.numeral = some (o, n) :=
  ⟨reach_numeral, fun ⟨_, hr, hn⟩ => numeral_of_reach hr hn⟩

/-! ### The longest numeral -/

/-- The words of the longest numeral, and what has been said with them. -/
def longest : Spoken → List Word → Option (ℕ × Spoken)
  | s, [] => if s.numeral.isSome then some (0, s) else none
  | s, w :: ws =>
    match (step s w).bind (longest · ws) with
    | some (k, f) => some (k + 1, f)
    | none => if s.numeral.isSome then some (0, s) else none

theorem longest_some {s f : Spoken} {ws : List Word} {k : ℕ} (h : longest s ws = some (k, f)) :
    k ≤ ws.length ∧ reach s (ws.take k) = some f ∧ f.numeral.isSome = true := by
  induction ws generalizing s k with
  | nil =>
    rw [longest] at h
    split_ifs at h with hs
    cases h
    exact ⟨le_rfl, rfl, hs⟩
  | cons w ws ih =>
    rw [longest] at h
    split at h
    next k' f' hnext =>
      cases h
      obtain ⟨t, ht, hlongest⟩ := Option.bind_eq_some_iff.mp hnext
      obtain ⟨hle, hreach, hf⟩ := ih hlongest
      refine ⟨Nat.succ_le_succ hle, ?_, hf⟩
      rw [List.take_succ_cons, reach_cons, ht]
      exact hreach
    next =>
      split_ifs at h with hs
      cases h
      exact ⟨Nat.zero_le _, rfl, hs⟩

/-- No prefix with more words is a numeral. -/
theorem le_longest {s g : Spoken} {ws : List Word} {j : ℕ} (hj : j ≤ ws.length)
    (hg : reach s (ws.take j) = some g) (hn : g.numeral.isSome = true) :
    ∃ k f, longest s ws = some (k, f) ∧ j ≤ k := by
  induction ws generalizing s j with
  | nil =>
    have : j = 0 := Nat.le_zero.mp hj
    subst this
    cases hg
    rw [longest, if_pos hn]
    exact ⟨0, g, rfl, le_rfl⟩
  | cons w ws ih =>
    rw [longest]
    cases j with
    | zero =>
      cases hg
      split
      next k f _ => exact ⟨k + 1, f, rfl, Nat.zero_le _⟩
      next => exact ⟨0, g, by rw [if_pos hn], le_rfl⟩
    | succ j =>
      rw [List.take_succ_cons] at hg
      obtain ⟨t, ht, hg⟩ := Option.bind_eq_some_iff.mp hg
      obtain ⟨k, f, hk, hle⟩ := ih (Nat.le_of_succ_le_succ hj) hg
      rw [ht, Option.bind_some, hk]
      exact ⟨k + 1, f, rfl, Nat.succ_le_succ hle⟩

/-- The longest numeral at the start of `ws` has `k` words and the value `n`. -/
structure Longest (ws : List Word) (k : ℕ) (o : Bool) (n : ℕ) : Prop where
  le : k ≤ ws.length
  numeral : Numeral o (ws.take k) n
  greatest : ∀ j ≤ ws.length, ∀ o' n', Numeral o' (ws.take j) n' → j ≤ k

theorem longest_isLongest {ws : List Word} {k n : ℕ} {f : Spoken} {o : Bool}
    (h : longest .start ws = some (k, f)) (hf : f.numeral = some (o, n)) : Longest ws k o n := by
  obtain ⟨hle, hreach, -⟩ := longest_some h
  refine ⟨hle, numeral_of_reach hreach hf, fun j hj o' n' hn => ?_⟩
  obtain ⟨g, hg, hnum⟩ := reach_numeral hn
  obtain ⟨k', f', hlongest, hle'⟩ := le_longest hj hg (by rw [hnum]; rfl)
  rw [h] at hlongest
  cases hlongest
  exact hle'

/-- Without a longest numeral there is none at all. -/
theorem not_numeral_of_longest {ws : List Word} (h : longest .start ws = none) {j : ℕ}
    (hj : j ≤ ws.length) {o : Bool} {n : ℕ} : ¬ Numeral o (ws.take j) n := by
  intro hn
  obtain ⟨g, hg, hnum⟩ := reach_numeral hn
  obtain ⟨k, f, hlongest, -⟩ := le_longest hj hg (by rw [hnum]; rfl)
  rw [h] at hlongest
  cases hlongest

/-- The longest numeral is one. -/
theorem Longest.unique {ws : List Word} {k k' n n' : ℕ} {o o' : Bool} (h : Longest ws k o n)
    (h' : Longest ws k' o' n') : k = k' ∧ o = o' ∧ n = n' := by
  have hk : k = k' := le_antisymm (h'.greatest k h.le o n h.numeral) (h.greatest k' h'.le o' n' h'.numeral)
  subst hk
  obtain ⟨s, hs, hn⟩ := reach_numeral h.numeral
  obtain ⟨s', hs', hn'⟩ := reach_numeral h'.numeral
  rw [hs] at hs'
  cases hs'
  rw [hn] at hn'
  cases hn'
  exact ⟨rfl, rfl, rfl⟩

/-- A state at the end of a numeral has a longest one. -/
theorem longest_isSome {s : Spoken} (h : s.numeral.isSome = true) (ws : List Word) :
    ∃ k f, longest s ws = some (k, f) := by
  obtain ⟨k, f, hk, -⟩ := @le_longest s s ws 0 (Nat.zero_le _) rfl h
  exact ⟨k, f, hk⟩

end EchoMuse.Grammar
