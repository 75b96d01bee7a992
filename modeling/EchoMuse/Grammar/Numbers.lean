import EchoMuse.Grammar.Numerals

/-!
# Number Words to Digits

The number step of the normalization: from each place it reads number words with accumulators for
the thousands and for what follows them, decides by the last word alone what may come next, and
writes what it read in digits. The accumulators are 64 bits wide; a reading that overflows them has
no result.

## Main results

* `right_iff`: the step reads the longest numeral of a place exactly when the accumulators do not
  run on behind it or stop within it;
* `numbersMeet_iff`: the step is right at every place it comes to exactly when that holds there.
-/

namespace EchoMuse.Grammar

/-! ### Reading a number -/

/-- A sum of 64 bits. -/
def add64 (a b : ℕ) : Option ℕ := if a + b < 2 ^ 64 then some (a + b) else none

/-- A product of 64 bits. -/
def mul64 (a b : ℕ) : Option ℕ := if a * b < 2 ^ 64 then some (a * b) else none

theorem add64_eq {a b : ℕ} (h : a + b < 2 ^ 64) : add64 a b = some (a + b) := if_pos h

theorem mul64_eq {a b : ℕ} (h : a * b < 2 ^ 64) : mul64 a b = some (a * b) := if_pos h

def ordinalSuffix (value : ℕ) : Word :=
  if 11 ≤ value % 100 ∧ value % 100 ≤ 13 then "th".toList
  else
    match value % 10 with
    | 1 => "st".toList
    | 2 => "nd".toList
    | 3 => "rd".toList
    | _ => "th".toList

/-- A number in digits, with its suffix when it is an ordinal. -/
def numberText (ordinal : Bool) (value : ℕ) : Word :=
  Nat.toDigits 10 value ++ if ordinal then ordinalSuffix value else []

/-- The state of a number being read: what the last word was. -/
inductive Last
  | start | unit | teen | tens | hundred | thousand
deriving DecidableEq

structure Reading where
  total : ℕ
  current : ℕ
  last : Last
  used : ℕ

/-- What a number word does to a reading. -/
inductive Outcome
  | stop
  | next (r : Reading)
  | done (text : Word) (used : ℕ)

namespace Reading

/-- Whether a unit, or an ordinal below ten, may come next. -/
def fitsUnit (r : Reading) : Bool :=
  match r.last with
  | .start | .hundred | .thousand => true
  | .tens => r.current % 10 = 0
  | .unit | .teen => false

/-- Whether a teen or a tens word may come next. -/
def fitsTens (r : Reading) : Bool := r.last = .start || r.last = .hundred || r.last = .thousand

/-- Whether `hundred` may come next. -/
def fitsHundred (r : Reading) : Bool :=
  (r.last = .start || r.last = .unit || r.last = .teen || r.last = .tens) && r.current % 100 ≠ 0 ||
    r.last = .start

def accept (r : Reading) : NumberWord → Option Outcome
  | .unit n =>
    if n = 0 then
      if r.last ≠ .start then some .stop
      else some (.next { r with last := .unit, used := r.used + 1 })
    else if r.fitsUnit then
      (add64 r.current n).map fun current =>
        .next { r with current := current, last := .unit, used := r.used + 1 }
    else some .stop
  | .teen n =>
    if r.fitsTens then
      (add64 r.current n).map fun current =>
        .next { r with current := current, last := .teen, used := r.used + 1 }
    else some .stop
  | .tens n =>
    if r.fitsTens then
      (add64 r.current n).map fun current =>
        .next { r with current := current, last := .tens, used := r.used + 1 }
    else some .stop
  | .hundred =>
    if r.fitsHundred then
      (mul64 (max r.current 1) 100).map fun current =>
        .next { r with current := current, last := .hundred, used := r.used + 1 }
    else some .stop
  | .thousand =>
    if r.last ≠ .thousand then
      ((mul64 (max r.current 1) 1000).bind (add64 r.total)).map fun total =>
        .next { total := total, current := 0, last := .thousand, used := r.used + 1 }
    else some .stop
  | .ordinal n =>
    let fits : Bool :=
      match r.last with
      | .start | .hundred | .thousand => true
      | .tens => n < 10 && r.current % 10 = 0
      | .unit | .teen => false
    if fits then
      ((add64 r.total r.current).bind (add64 · n)).map fun value =>
        .done (numberText true value) (r.used + 1)
    else some .stop

/-- The number read, where no word more belongs to it. -/
def finish (r : Reading) : Option (Option (Word × ℕ)) :=
  if r.used > 0 ∧ r.last ≠ .start then
    (add64 r.total r.current).map fun value => some (numberText false value, r.used)
  else some none

/-- Reads on with a number word; `on` reads what follows. -/
def follow (r : Reading) (on : Reading → Option (Option (Word × ℕ))) :
    Option NumberWord → Option (Option (Word × ℕ))
  | none => r.finish
  | some kind =>
    match r.accept kind with
    | none => none
    | some .stop => r.finish
    | some (.next r) => on r
    | some (.done text used) => some (some (text, used))

end Reading

/-- Whether a number goes on behind an `and`. -/
def followsAnd (rest : List Word) : Bool :=
  match rest.head?.bind numberWord with
  | none | some .hundred | some .thousand => false
  | some _ => true

/-- Reads on; `none` when an accumulator overflows. -/
def read : List Word → Reading → Option (Option (Word × ℕ))
  | [], r => r.finish
  | word :: rest, r =>
    if word = "second".toList ∧ r.last = .tens then r.follow (read rest) (some (.ordinal 2))
    else if word = "and".toList ∧ (r.last = .hundred ∨ r.last = .thousand) ∧
        followsAnd rest = true then
      read rest { r with used := r.used + 1 }
    else r.follow (read rest) (numberWord word)

/-- Reads the number at the start of `words`; its text and the number of words it used. -/
def readNumber (words : List Word) : Option (Option (Word × ℕ)) :=
  -- "a hundred", "a thousand".
  if words.head? = some "a".toList ∧ (words.tail.head? = some "hundred".toList ∨
      words.tail.head? = some "thousand".toList) then
    read words.tail ⟨0, 1, .unit, 1⟩
  else read words ⟨0, 0, .start, 0⟩

/-! ### Words used -/

theorem used_finish {r : Reading} {text : Word} {used : ℕ}
    (h : r.finish = some (some (text, used))) : used = r.used ∧ 0 < used := by
  rw [Reading.finish] at h
  split_ifs at h with hused
  · obtain ⟨value, -, hv⟩ := Option.map_eq_some_iff.mp h
    cases hv
    exact ⟨rfl, hused.1⟩
  · cases h

/-- A number word stops a reading, is used and the last one, or ends it as an ordinal. -/
theorem accept_cases {r : Reading} {kind : NumberWord} {o : Outcome} (h : r.accept kind = some o) :
    o = .stop ∨ (∃ r', o = .next r' ∧ r'.used = r.used + 1 ∧ r'.last ≠ .start) ∨
      ∃ value, o = .done (numberText true value) (r.used + 1) := by
  cases kind <;> simp only [Reading.accept] at h <;> (repeat' split at h) <;>
    first
    | (obtain ⟨v, -, rfl⟩ := Option.map_eq_some_iff.mp h; simp)
    | (cases h; simp)

/-- A reading uses the words it has used so far, and none that are not there. -/
theorem used_read {ws : List Word} {r : Reading} {text : Word} {used : ℕ}
    (h : read ws r = some (some (text, used))) :
    r.used ≤ used ∧ used ≤ r.used + ws.length ∧ 0 < used := by
  induction ws generalizing r with
  | nil =>
    rw [read] at h
    have := used_finish h
    simp only [List.length_nil]
    omega
  | cons w ws ih =>
    rw [List.length_cons]
    have hfollow : ∀ kind, r.follow (read ws) kind = some (some (text, used)) →
        r.used ≤ used ∧ used ≤ r.used + (ws.length + 1) ∧ 0 < used := by
      intro kind h
      cases kind with
      | none =>
        have := used_finish h
        omega
      | some kind =>
        rw [Reading.follow] at h
        split at h
        next => cases h
        next =>
          have := used_finish h
          omega
        next r' hr' =>
          obtain hstop | ⟨r'', hnext, hused, -⟩ | ⟨t, hdone⟩ := accept_cases hr'
          · cases hstop
          · cases hnext
            have := ih h
            omega
          · cases hdone
        next t u hu =>
          cases h
          obtain hstop | ⟨r'', hnext, -⟩ | ⟨t, hdone⟩ := accept_cases hu
          · cases hstop
          · cases hnext
          · cases hdone
            omega
    rw [read] at h
    split_ifs at h
    · exact hfollow _ h
    · have hread := ih h
      simp only at hread
      omega
    · exact hfollow _ h

theorem accept_hundred {r : Reading} (h : r.fitsHundred = true) :
    r.accept .hundred ≠ some .stop := by
  rw [Reading.accept, if_pos h]
  cases mul64 (max r.current 1) 100 <;> nofun

theorem accept_thousand {r : Reading} (h : r.last ≠ .thousand) :
    r.accept .thousand ≠ some .stop := by
  rw [Reading.accept, if_pos h]
  cases (mul64 (max r.current 1) 1000).bind (add64 r.total) <;> nofun

/-- A number word that is not refused is used. -/
theorem follow_ne {r : Reading} {kind : NumberWord} {ws : List Word} {text : Word}
    (h : r.accept kind ≠ some .stop) :
    r.follow (read ws) (some kind) ≠ some (some (text, r.used)) := by
  intro hread
  rw [Reading.follow] at hread
  split at hread
  next => cases hread
  next hstop => exact h hstop
  next r' hr' =>
    obtain hstop | ⟨r'', hnext, hused, -⟩ | ⟨t, hdone⟩ := accept_cases hr'
    · cases hstop
    · cases hnext
      have := used_read hread
      omega
    · cases hdone
  next t u hu =>
    obtain hstop | ⟨r'', hnext, -⟩ | ⟨t, hdone⟩ := accept_cases hu
    · cases hstop
    · cases hnext
    · cases hdone
      simp at hread

/-- The words numbers are said with. -/
def numericWords : List Word := numberWords ++ ["a".toList, "and".toList, "second".toList]

theorem numeric_of_numberWord {w : Word} {k : NumberWord} (h : numberWord w = some k) :
    w ∈ numericWords := List.mem_append_left _ (mem_numberWords h)

theorem text_finish {r : Reading} {text : Word} {used : ℕ}
    (h : r.finish = some (some (text, used))) : ∃ o n, text = numberText o n := by
  rw [Reading.finish] at h
  split_ifs at h
  · obtain ⟨value, -, hv⟩ := Option.map_eq_some_iff.mp h
    cases hv
    exact ⟨false, value, rfl⟩
  · cases h

/-- A number is written in digits, and the words it uses are those of numbers. -/
theorem read_numeric {ws : List Word} {r : Reading} {text : Word} {used : ℕ}
    (h : read ws r = some (some (text, used))) :
    (∃ o n, text = numberText o n) ∧ ∀ w ∈ ws.take (used - r.used), w ∈ numericWords := by
  induction ws generalizing r with
  | nil =>
    rw [read] at h
    exact ⟨text_finish h, by simp⟩
  | cons w ws ih =>
    have hfinish : r.finish = some (some (text, used)) →
        (∃ o n, text = numberText o n) ∧ ∀ v ∈ (w :: ws).take (used - r.used), v ∈ numericWords := by
      intro h
      rw [(used_finish h).1, Nat.sub_self, List.take_zero]
      exact ⟨text_finish h, fun v hv => absurd hv List.not_mem_nil⟩
    -- One word more, of those of numbers.
    have hnext : ∀ {r' : Reading}, r'.used = r.used + 1 → w ∈ numericWords →
        read ws r' = some (some (text, used)) →
        (∃ o n, text = numberText o n) ∧ ∀ v ∈ (w :: ws).take (used - r.used), v ∈ numericWords := by
      intro r' hused hw h
      have hle := used_read h
      obtain ⟨htext, hwords⟩ := ih h
      refine ⟨htext, fun v hv => ?_⟩
      rw [show used - r.used = used - r'.used + 1 by omega, List.take_succ_cons] at hv
      obtain rfl | hv := List.mem_cons.mp hv
      · exact hw
      · exact hwords v hv
    have hfollow : ∀ kind, (∀ k, kind = some k → w ∈ numericWords) →
        r.follow (read ws) kind = some (some (text, used)) →
        (∃ o n, text = numberText o n) ∧ ∀ v ∈ (w :: ws).take (used - r.used), v ∈ numericWords := by
      intro kind hw h
      cases kind with
      | none => exact hfinish h
      | some kind =>
        rw [Reading.follow] at h
        split at h
        next => cases h
        next => exact hfinish h
        next r' hr' =>
          obtain hstop | ⟨r'', heq, hused, -⟩ | ⟨t, hdone⟩ := accept_cases hr'
          · cases hstop
          · cases heq
            exact hnext hused (hw kind rfl) h
          · cases hdone
        next t u hu =>
          cases h
          obtain hstop | ⟨r'', heq, -⟩ | ⟨value, hdone⟩ := accept_cases hu
          · cases hstop
          · cases heq
          · cases hdone
            refine ⟨⟨true, value, rfl⟩, fun v hv => ?_⟩
            rw [show r.used + 1 - r.used = 1 by omega, List.take_succ_cons, List.take_zero,
              List.mem_singleton] at hv
            rw [hv]
            exact hw kind rfl
    rw [read] at h
    split_ifs at h with hsecond hand
    · refine hfollow _ (fun k _ => ?_) h
      rw [hsecond.1]
      decide
    · refine hnext rfl ?_ h
      rw [hand.1]
      decide
    · exact hfollow _ (fun k hk => numeric_of_numberWord hk) h

/-- A number uses one word at least: the loop over the words advances. -/
theorem used_readNumber {ws : List Word} {text : Word} {used : ℕ}
    (h : readNumber ws = some (some (text, used))) : 0 < used ∧ used ≤ ws.length := by
  rw [readNumber] at h
  split_ifs at h with ha
  · have := used_read h
    match ws, ha with
    | w :: ws, _ =>
      simp only [List.tail_cons] at this
      rw [List.length_cons]
      omega
  · have := used_read h
    simp only at this
    omega

theorem readNumber_numeric {ws : List Word} {text : Word} {used : ℕ}
    (h : readNumber ws = some (some (text, used))) :
    (∃ o n, text = numberText o n) ∧ ∀ w ∈ ws.take used, w ∈ numericWords := by
  rw [readNumber] at h
  split_ifs at h with ha
  · have hused := used_read h
    obtain ⟨htext, hwords⟩ := read_numeric h
    refine ⟨htext, fun w hw => ?_⟩
    match ws, ha.1 with
    | _ :: ws, heq =>
      cases heq
      rw [show used = used - 1 + 1 by omega, List.take_succ_cons] at hw
      obtain rfl | hw := List.mem_cons.mp hw
      · decide
      · exact hwords w hw
  · exact read_numeric h

/-- A reading that has a number has one to the end. -/
theorem read_ne_none {ws : List Word} {r : Reading} (hused : 0 < r.used) (hlast : r.last ≠ .start) :
    read ws r ≠ some none := by
  have hfinish : ∀ r : Reading, 0 < r.used → r.last ≠ .start → r.finish ≠ some none := by
    intro r hused hlast h
    rw [Reading.finish, if_pos ⟨hused, hlast⟩] at h
    cases hadd : add64 r.total r.current <;> rw [hadd] at h <;> cases h
  induction ws generalizing r with
  | nil => exact hfinish r hused hlast
  | cons w ws ih =>
    have hfollow : ∀ kind, r.follow (read ws) kind ≠ some none := by
      intro kind h
      cases kind with
      | none => exact hfinish r hused hlast h
      | some kind =>
        rw [Reading.follow] at h
        split at h
        next => cases h
        next => exact hfinish r hused hlast h
        next r' hr' =>
          obtain hstop | ⟨r'', heq, hused', hlast'⟩ | ⟨t, hdone⟩ := accept_cases hr'
          · cases hstop
          · cases heq
            exact ih (hused' ▸ Nat.succ_pos _) hlast' h
          · cases hdone
        next => cases h
    intro h
    rw [read] at h
    split_ifs at h
    · exact hfollow _ h
    · exact ih (r := { r with used := r.used + 1 }) (Nat.succ_pos _) hlast h
    · exact hfollow _ h

/-- A word that is kept is no number word. -/
theorem numberWord_of_kept {w : Word} {ws : List Word} (h : readNumber (w :: ws) = some none) :
    numberWord w = none := by
  cases hw : numberWord w with
  | none => rfl
  | some kind =>
    exfalso
    rw [readNumber, if_neg] at h
    · have hread : read (w :: ws) ⟨0, 0, .start, 0⟩ =
          (⟨0, 0, .start, 0⟩ : Reading).follow (read ws) (some kind) := by
        rw [read, if_neg (fun h => by cases h.2), if_neg (fun h => by obtain ⟨-, h | h, -⟩ := h <;> cases h), hw]
      rw [hread, Reading.follow] at h
      have hstop : (⟨0, 0, .start, 0⟩ : Reading).accept kind ≠ some .stop := by
        cases kind with
        | unit n =>
          rw [Reading.accept]
          split_ifs with hn hstart hfits
          · exact absurd rfl hstart
          · nofun
          · cases add64 0 n <;> nofun
          · exact absurd rfl hfits
        | teen n | tens n =>
          have hfits : (⟨0, 0, .start, 0⟩ : Reading).fitsTens = true := rfl
          rw [Reading.accept, if_pos hfits]
          cases add64 0 n <;> nofun
        | hundred => exact accept_hundred rfl
        | thousand => exact accept_thousand (by decide)
        | ordinal n =>
          simp only [Reading.accept, if_true]
          cases (add64 0 0).bind (add64 · n) <;> nofun
      split at h
      next => cases h
      next heq => exact hstop heq
      next r' hr' =>
        obtain heq | ⟨r'', heq, hused, hlast⟩ | ⟨t, hdone⟩ := accept_cases hr'
        · cases heq
        · cases heq
          exact read_ne_none (hused ▸ Nat.succ_pos _) hlast h
        · cases hdone
      next => cases h
    · rintro ⟨heq, -⟩
      cases heq
      rw [numberWord_a] at hw
      cases hw

/-- Step 5: number words become digits. -/
def numbers : List Word → Option (List Word)
  | [] => some []
  | word :: rest =>
    match _h : readNumber (word :: rest) with
    | none => none
    | some (some (text, used)) => (numbers ((word :: rest).drop used)).map (text :: ·)
    | some none => (numbers rest).map (word :: ·)
termination_by words => words.length
decreasing_by
  · have := used_readNumber ‹readNumber (word :: rest) = some (some (text, used))›
    rw [List.length_drop]
    omega
  · exact Nat.lt_succ_self _

/-! ### Readings of numerals -/

/-- What the last word was, of what has been said. -/
def LastOf (high hundreds : Option ℕ) : Option (Bool × ℕ) → Last → Prop
  | some (true, _), last => last = .tens
  | some (false, _), last => last = .unit ∨ last = .teen
  | none, last =>
    last = if hundreds.isSome then .hundred else if high.isSome then .thousand else .start

/-- A reading that is at what has been said. -/
structure Tracks (high hundreds : Option ℕ) (rest : Option (Bool × ℕ)) (r : Reading) : Prop where
  total : r.total = high.getD 0
  current : r.current = partValue hundreds rest
  last : LastOf high hundreds rest r.last
  high_le : high.getD 0 ≤ 999000
  hundreds_le : hundreds.getD 0 ≤ 9900
  hundreds_mod : hundreds.getD 0 % 100 = 0
  hundreds_pos : ∀ n, hundreds = some n → 0 < n
  rest_bounds : ∀ more n, rest = some (more, n) → 0 < n ∧ n < 100 ∧ (more = true → n % 10 = 0)

theorem Tracks.used {high hundreds : Option ℕ} {rest : Option (Bool × ℕ)} {r : Reading}
    (h : Tracks high hundreds rest r) (used : ℕ) :
    Tracks high hundreds rest { r with used := used } :=
  ⟨h.total, h.current, h.last, h.high_le, h.hundreds_le, h.hundreds_mod, h.hundreds_pos,
    h.rest_bounds⟩

theorem Tracks.start : Tracks none none none ⟨0, 0, .start, 0⟩ :=
  ⟨rfl, rfl, rfl, by decide, by decide, rfl, nofun, nofun⟩

section Fits

variable {high hundreds : Option ℕ} {rest : Option (Bool × ℕ)} {r : Reading}

/-- Before a rest the last word was no rest. -/
theorem Tracks.last_of_none (h : Tracks high hundreds none r) :
    r.last = .hundred ∨ r.last = .thousand ∨ r.last = .start := by
  have hlast := h.last
  rw [LastOf] at hlast
  split_ifs at hlast
  · exact .inl hlast
  · exact .inr (.inl hlast)
  · exact .inr (.inr hlast)

theorem Tracks.fitsUnit (h : Tracks high hundreds rest r) :
    r.fitsUnit = true ↔ ∀ n, rest ≠ some (false, n) := by
  rw [Reading.fitsUnit]
  match rest, h with
  | none, h =>
    obtain hlast | hlast | hlast := h.last_of_none <;> simp [hlast]
  | some (true, n), h =>
    have hten := (h.rest_bounds true n rfl).2.2 rfl
    have hmod := h.hundreds_mod
    rw [show r.last = .tens from h.last, h.current, partValue, Option.map_some, Option.getD_some]
    simp only [decide_eq_true_eq, ne_eq, Option.some.injEq, Prod.mk.injEq, Bool.true_eq_false,
      false_and, not_false_eq_true, implies_true, iff_true]
    omega
  | some (false, n), h =>
    obtain hlast | hlast := (h.last : _ ∨ _) <;> simp [hlast]

theorem Tracks.fitsTens (h : Tracks high hundreds rest r) : r.fitsTens = true ↔ rest = none := by
  rw [Reading.fitsTens]
  match rest, h with
  | none, h => obtain hlast | hlast | hlast := h.last_of_none <;> simp [hlast]
  | some (true, n), h => simp [show r.last = .tens from h.last]
  | some (false, n), h => obtain hlast | hlast := (h.last : _ ∨ _) <;> simp [hlast]

theorem Tracks.fitsHundred (h : Tracks high hundreds rest r) :
    r.fitsHundred = true ↔ rest ≠ none ∨ hundreds = none ∧ high = none := by
  rw [Reading.fitsHundred]
  match rest, h with
  | none, h =>
    have hlast := h.last
    rw [LastOf] at hlast
    cases hundreds <;> cases high <;> simp at hlast <;> simp [hlast]
  | some (more, n), h =>
    have hn := (h.rest_bounds more n rfl)
    have hmod := h.hundreds_mod
    have hcurrent : r.current % 100 ≠ 0 := by
      rw [h.current, partValue, Option.map_some, Option.getD_some]
      omega
    cases more with
    | true => simp [show r.last = .tens from h.last, hcurrent]
    | false => obtain hlast | hlast := (h.last : _ ∨ _) <;> simp [hlast, hcurrent]

theorem Tracks.last_thousand (h : Tracks high hundreds rest r) :
    r.last = .thousand ↔ rest = none ∧ hundreds = none ∧ high.isSome = true := by
  match rest, h with
  | none, h =>
    have hlast := h.last
    rw [LastOf] at hlast
    cases hundreds <;> cases high <;> simp at hlast <;> simp [hlast]
  | some (true, n), h => simp [show r.last = .tens from h.last]
  | some (false, n), h => obtain hlast | hlast := (h.last : _ ∨ _) <;> simp [hlast]

/-- What has been read is far below the accumulators' bound. -/
theorem Tracks.current_le (h : Tracks high hundreds rest r) : r.current ≤ 9999 := by
  have hhundreds := h.hundreds_le
  rw [h.current, partValue]
  rcases rest with _ | ⟨more, n⟩
  · rw [Option.map_none, Option.getD_none]
    omega
  · have := (h.rest_bounds more n rfl).2.1
    rw [Option.map_some, Option.getD_some]
    omega

/-- A part that was said is at least one. -/
theorem Tracks.partValue_pos (h : Tracks high hundreds rest r)
    (hsaid : ¬ (hundreds = none ∧ rest = none)) : 0 < partValue hundreds rest := by
  rw [partValue]
  cases hundreds with
  | some n => exact Nat.add_pos_left (h.hundreds_pos n rfl) _
  | none =>
    rcases rest with _ | ⟨more, n⟩
    · exact absurd ⟨rfl, rfl⟩ hsaid
    · exact Nat.add_pos_right _ (h.rest_bounds more n rfl).1

end Fits

/-- What one more word makes of a reading: the next, or the text of an ordinal. -/
def Follows (r : Reading) (o : Option Outcome) : Spoken → Prop
  | .said high hundreds rest => ∃ r', o = some (.next r') ∧ Tracks high hundreds rest r' ∧
      r'.used = r.used + 1
  | .ordinal n => o = some (.done (numberText true n) (r.used + 1))
  | _ => False

/-- A rest is said. -/
theorem Tracks.say {high hundreds : Option ℕ} {r : Reading} (h : Tracks high hundreds none r)
    {more : Bool} {n used : ℕ} {last : Last} (hlast : LastOf high hundreds (some (more, n)) last)
    (hn : 0 < n ∧ n < 100 ∧ (more = true → n % 10 = 0)) :
    Tracks high hundreds (some (more, n)) ⟨r.total, r.current + n, last, used⟩ where
  total := h.total
  current := by rw [h.current]; rfl
  last := hlast
  high_le := h.high_le
  hundreds_le := h.hundreds_le
  hundreds_mod := h.hundreds_mod
  hundreds_pos := h.hundreds_pos
  rest_bounds := by
    intro more' n' heq
    cases heq
    exact hn

/-- A number word that goes on goes on in the reading, but for a hundred right after thousands. -/
theorem accept_follows {high hundreds : Option ℕ} {rest : Option (Bool × ℕ)} {r : Reading}
    {k : NumberWord} {s : Spoken} (h : Tracks high hundreds rest r) (hv : k.Valid)
    (hs : partStep high hundreds rest k = some s)
    (hbare : ¬ (k = .hundred ∧ rest = none ∧ high.isSome = true)) :
    Follows r (r.accept k) s := by
  have hcurrent := h.current_le
  have htotal : r.total ≤ 999000 := h.total ▸ h.high_le
  cases k with
  | unit n =>
    have hn10 : n < 10 := hv
    simp only [partStep] at hs
    split_ifs at hs with hn
    have hfits : r.fitsUnit = true := by
      rw [h.fitsUnit]
      rintro m rfl
      cases hs
    rw [Reading.accept, if_neg hn, if_pos hfits, add64_eq (by omega)]
    rcases rest with _ | ⟨_ | _, m⟩
    · cases hs
      exact ⟨_, rfl, h.say (.inl rfl) ⟨by omega, by omega, by simp⟩, rfl⟩
    · cases hs
    · cases hs
      have hm := h.rest_bounds true m rfl
      refine ⟨_, rfl, ⟨h.total, ?_, .inl rfl, h.high_le, h.hundreds_le, h.hundreds_mod,
        h.hundreds_pos, ?_⟩, rfl⟩
      · change r.current + n = _
        rw [h.current, partValue, partValue, Nat.add_assoc]
        rfl
      · intro more' n' heq
        cases heq
        have hten := hm.2.2 rfl
        exact ⟨by omega, by omega, by simp⟩
  | teen n =>
    simp only [NumberWord.Valid] at hv
    simp only [partStep] at hs
    split_ifs at hs with hrest
    subst hrest
    cases hs
    rw [Reading.accept, if_pos (h.fitsTens.mpr rfl), add64_eq (by omega)]
    exact ⟨_, rfl, h.say (.inr rfl) ⟨by omega, by omega, by simp⟩, rfl⟩
  | tens n =>
    simp only [NumberWord.Valid] at hv
    simp only [partStep] at hs
    split_ifs at hs with hrest
    subst hrest
    cases hs
    rw [Reading.accept, if_pos (h.fitsTens.mpr rfl), add64_eq (by omega)]
    exact ⟨_, rfl, h.say rfl ⟨by omega, by omega, fun _ => hv.2.2⟩, rfl⟩
  | hundred =>
    simp only [partStep] at hs
    split_ifs at hs with hif
    cases hs
    obtain ⟨rfl, hhigh⟩ := hif
    have hmax : max r.current 1 = (rest.map Prod.snd).getD 1 ∧ (rest.map Prod.snd).getD 1 ≤ 99 := by
      rw [h.current, partValue, Option.getD_none, Nat.zero_add]
      rcases rest with _ | ⟨more, n⟩
      · exact ⟨rfl, by decide⟩
      · have := h.rest_bounds more n rfl
        simp only [Option.map_some, Option.getD_some]
        omega
    have hfits : r.fitsHundred = true := by
      rw [h.fitsHundred]
      by_cases hrest : rest = none
      · refine .inr ⟨rfl, ?_⟩
        rw [← Option.not_isSome_iff_eq_none]
        exact fun hsome => hbare ⟨rfl, hrest, hsome⟩
      · exact .inl hrest
    rw [Reading.accept, if_pos hfits, mul64_eq (by omega), hmax.1]
    have hpos : 0 < max r.current 1 := by omega
    refine ⟨_, rfl, ⟨h.total, rfl, rfl, h.high_le, ?_, ?_, ?_, ?_⟩, rfl⟩
    · rw [Option.getD_some]
      omega
    · rw [Option.getD_some]
      omega
    · intro n heq
      cases heq
      omega
    · intro more n heq
      cases heq
  | thousand =>
    simp only [partStep] at hs
    generalize hvalue : (if hundreds = none ∧ rest = none then 1 else partValue hundreds rest) = n at hs
    split_ifs at hs with hif
    cases hs
    obtain ⟨rfl, hn⟩ := hif
    have hmax : max r.current 1 = n := by
      rw [h.current, ← hvalue]
      split_ifs with hnothing
      · rw [hnothing.1, hnothing.2]
        rfl
      · exact max_eq_left (h.partValue_pos hnothing)
    have hlast : r.last ≠ .thousand := by
      rw [ne_eq, h.last_thousand]
      simp
    have hzero : r.total = 0 := h.total
    rw [Reading.accept, if_pos hlast, hmax, mul64_eq (by omega), Option.bind_some,
      add64_eq (by omega), hzero, Nat.zero_add]
    refine ⟨_, rfl, ⟨rfl, rfl, rfl, ?_, by simp, rfl, ?_, ?_⟩, rfl⟩
    · rw [Option.getD_some]
      omega
    · intro m heq
      cases heq
    · intro more m heq
      cases heq
  | ordinal n =>
    simp only [NumberWord.Valid] at hv
    have hvalue : ∀ {v}, high.getD 0 + hundreds.getD 0 + v = r.total + r.current + n →
        ((add64 r.total r.current).bind (add64 · n)).map (fun value =>
          Outcome.done (numberText true value) (r.used + 1)) =
        some (.done (numberText true (high.getD 0 + hundreds.getD 0 + v)) (r.used + 1)) := by
      intro v hv
      rw [add64_eq (by omega), Option.bind_some, add64_eq (by omega), hv]
      rfl
    rw [Reading.accept]
    rcases rest with _ | ⟨_ | _, m⟩
    · cases hs
      have hfits : (match r.last with
          | .start | .hundred | .thousand => true
          | .tens => decide (n < 10) && decide (r.current % 10 = 0)
          | .unit | .teen => false) = true := by
        obtain hlast | hlast | hlast := h.last_of_none <;> rw [hlast]
      simp only [hfits, if_true]
      exact hvalue (by rw [h.total, h.current, partValue]; rfl)
    · cases hs
    · simp only [partStep] at hs
      split_ifs at hs with hn
      cases hs
      have hunit := h.fitsUnit.mpr (by simp)
      rw [Reading.fitsUnit, show r.last = .tens from h.last] at hunit
      simp only [show r.last = .tens from h.last, hn, decide_true, Bool.true_and, hunit, if_true]
      refine hvalue ?_
      rw [h.total, h.current, partValue, Option.map_some, Option.getD_some]
      omega

/-! ### Where readings run on -/

/-- One to ninety nine, in one word. -/
def smallWord (w : Word) : Bool :=
  match numberWord w with
  | some (.unit n) => n ≠ 0
  | some (.teen _) | some (.tens _) => true
  | _ => false

/-- Behind a numeral whose last word is `last`, words the accumulators take though no numeral goes
on with them: a hundred, or a thousand, that belongs to the next number, or an `and` before a
zero. -/
def RunsOn (last : Word) (rest : List Word) : Prop :=
  (rest.head? = some "hundred".toList ∧ smallWord last = true) ∨
  (rest.head? = some "thousand".toList ∧
    (smallWord last = true ∨ last = "zero".toList ∨ last = "hundred".toList)) ∨
  (["and".toList, "zero".toList] <+: rest ∧
    (last = "hundred".toList ∨ last = "thousand".toList))

/-- A hundred without a number right after a thousand. -/
def Bare (ws : List Word) : Prop :=
  ["thousand".toList, "hundred".toList] <:+: ws ∨
    ["thousand".toList, "and".toList, "hundred".toList] <:+: ws

/-- The words of a numeral, and those behind it, that the accumulators read rightly. -/
def Clear (ws rest : List Word) : Prop :=
  ¬ Bare ws ∧ ∀ last ∈ ws.getLast?, ¬ RunsOn last rest

/-- What the last word was of a numeral that has been said. -/
def EndsIn : Spoken → Word → Prop
  | .said _ _ (some _), w => smallWord w = true
  | .said _ (some _) none, w => w = "hundred".toList
  | .said (some _) none none, w => w = "thousand".toList
  | .zero, w => w = "zero".toList
  | .ordinal _, w => smallWord w = false ∧ w ≠ "zero".toList ∧ w ≠ "hundred".toList ∧
      w ≠ "thousand".toList
  | _, _ => True

theorem partStep_endsIn {high hundreds : Option ℕ} {rest : Option (Bool × ℕ)} {k : NumberWord}
    {w : Word} {s : Spoken} (hw : numberWord w = some k)
    (h : partStep high hundreds rest k = some s) : EndsIn s w := by
  cases k with
  | unit n =>
    simp only [partStep] at h
    split_ifs at h with hn
    have hsmall : smallWord w = true := by
      rw [smallWord, hw]
      exact decide_eq_true hn
    split at h <;> cases h <;> exact hsmall
  | teen n | tens n =>
    simp only [partStep] at h
    split_ifs at h
    cases h
    change smallWord w = true
    rw [smallWord, hw]
  | hundred =>
    simp only [partStep] at h
    split_ifs at h
    cases h
    exact numberWord_eq_hundred.mp hw
  | thousand =>
    simp only [partStep] at h
    split_ifs at h <;> cases h <;> exact numberWord_eq_thousand.mp hw
  | ordinal n =>
    have hends : smallWord w = false ∧ w ≠ "zero".toList ∧ w ≠ "hundred".toList ∧
        w ≠ "thousand".toList := by
      refine ⟨by rw [smallWord, hw], ?_, ?_, ?_⟩ <;> rintro rfl
      · rw [numberWord_eq_zero.mpr rfl] at hw
        cases hw
      · rw [numberWord_eq_hundred.mpr rfl] at hw
        cases hw
      · rw [numberWord_eq_thousand.mpr rfl] at hw
        cases hw
    simp only [partStep] at h
    split at h
    · cases h
      exact hends
    · split_ifs at h
      cases h
      exact hends
    · cases h

theorem step_endsIn {s s' : Spoken} {w : Word} (h : step s w = some s') : EndsIn s' w := by
  have hbind : ∀ {high hundreds rest}, (numberWord w).bind (partStep high hundreds rest) = some s' →
      EndsIn s' w := by
    intro high hundreds rest h
    obtain ⟨k, hk, hs⟩ := Option.bind_eq_some_iff.mp h
    exact partStep_endsIn hk hs
  match s with
  | .start =>
    simp only [step] at h
    split_ifs at h with hart hzero
    · cases h
      trivial
    · cases h
      exact hzero
    · exact hbind h
  | .article =>
    simp only [step] at h
    split_ifs at h
    exact hbind h
  | .said high hundreds rest =>
    simp only [step] at h
    split_ifs at h with hsecond
    · subst hsecond
      split at h <;> cases h
      exact ⟨by decide, by decide, by decide, by decide⟩
    · cases h
      trivial
    · exact hbind h
  | .joined high hundreds =>
    simp only [step] at h
    split_ifs at h
    exact hbind h
  | .zero | .ordinal _ => cases h

/-- A reading that is at a numeral. -/
def At : Spoken → Reading → Prop
  | .zero, r => r.total = 0 ∧ r.current = 0 ∧ r.last = .unit
  | .said high hundreds rest, r => Tracks high hundreds rest r ∧
      ¬ (high = none ∧ hundreds = none ∧ rest = none)
  | _, _ => False

theorem finish_at {s : Spoken} {r : Reading} {o : Bool} {n : ℕ} (h : At s r) (hused : 0 < r.used)
    (hn : s.numeral = some (o, n)) : r.finish = some (some (numberText o n, r.used)) := by
  match s, h with
  | .zero, h =>
    cases hn
    rw [Reading.finish, if_pos ⟨hused, by rw [h.2.2]; decide⟩, h.1, h.2.1]
    rfl
  | .said high hundreds rest, ⟨h, hsaid⟩ =>
    cases hn
    have hlast : r.last ≠ .start := by
      match rest, h with
      | some (true, _), h =>
        rw [show r.last = .tens from h.last]
        decide
      | some (false, _), h => obtain hlast | hlast := (h.last : _ ∨ _) <;> rw [hlast] <;> decide
      | none, h =>
        have hlast := h.last
        rw [LastOf] at hlast
        cases hundreds <;> cases high <;> simp at hlast hsaid <;> simp [hlast]
    have := h.current_le
    have := h.high_le
    have htotal := h.total
    rw [Reading.finish, if_pos ⟨hused, hlast⟩, add64_eq (by omega), htotal, h.current]
    rfl

theorem read_kind {w : Word} {ws : List Word} {r : Reading} {k : NumberWord}
    (h : numberWord w = some k) : read (w :: ws) r = r.follow (read ws) (some k) := by
  rw [read, if_neg, if_neg, h]
  · rintro ⟨rfl, -⟩
    rw [numberWord_and] at h
    cases h
  · rintro ⟨rfl, -⟩
    rw [numberWord_second] at h
    cases h

theorem read_none {w : Word} {ws : List Word} {r : Reading} (h : numberWord w = none)
    (hsecond : ¬ (w = "second".toList ∧ r.last = .tens))
    (hand : ¬ (w = "and".toList ∧ (r.last = .hundred ∨ r.last = .thousand) ∧
      followsAnd ws = true)) : read (w :: ws) r = r.finish := by
  rw [read, if_neg hsecond, if_neg hand, h]
  rfl

/-- The accumulators do not run on before a word that is none of theirs. -/
theorem not_runsOn {last w : Word} {ws : List Word} (hhundred : w ≠ "hundred".toList)
    (hthousand : w ≠ "thousand".toList) (hand : w ≠ "and".toList) : ¬ RunsOn last (w :: ws) := by
  rintro (⟨h, -⟩ | ⟨h, -⟩ | ⟨h, -⟩)
  · exact hhundred (Option.some.inj h)
  · exact hthousand (Option.some.inj h)
  · exact hand (List.cons_prefix_cons.mp h).1.symm

/-- A word behind zero. -/
theorem stop_zero {r : Reading} {w : Word} {ws : List Word} {o : Bool} {n : ℕ}
    (h : At .zero r) (hused : 0 < r.used) (hn : Spoken.zero.numeral = some (o, n)) :
    read (w :: ws) r = some (some (numberText o n, r.used)) ↔ ¬ RunsOn "zero".toList (w :: ws) := by
  have hfinish := finish_at h hused hn
  obtain ⟨-, hcurrent, hlast⟩ := h
  cases hw : numberWord w with
  | none =>
    rw [read_none hw (by simp [hlast]) (by simp [hlast])]
    refine iff_of_true hfinish ?_
    rintro (⟨h, -⟩ | ⟨h, -⟩ | ⟨-, h | h⟩)
    · rw [List.head?_cons, Option.some.injEq] at h
      rw [numberWord_eq_hundred.mpr h] at hw
      cases hw
    · rw [List.head?_cons, Option.some.injEq] at h
      rw [numberWord_eq_thousand.mpr h] at hw
      cases hw
    · exact absurd h (by decide)
    · exact absurd h (by decide)
  | some k =>
    rw [read_kind hw]
    by_cases hk : k = .thousand
    · subst hk
      refine iff_of_false (follow_ne ?_) (not_not.mpr (.inr (.inl ⟨?_, .inr (.inl rfl)⟩)))
      · exact accept_thousand (by rw [hlast]; decide)
      · rw [numberWord_eq_thousand.mp hw]
        rfl
    · have hstop : r.accept k = some .stop := by
        cases k with
        | unit m => simp [Reading.accept, Reading.fitsUnit, hlast]
        | teen m | tens m => simp [Reading.accept, Reading.fitsTens, hlast]
        | hundred => simp [Reading.accept, Reading.fitsHundred, hlast, hcurrent]
        | thousand => exact absurd rfl hk
        | ordinal m => simp [Reading.accept, hlast]
      rw [Reading.follow, hstop]
      refine iff_of_true hfinish ?_
      rintro (⟨-, h⟩ | ⟨h, -⟩ | ⟨-, h | h⟩)
      · exact absurd h (by decide)
      · rw [List.head?_cons, Option.some.injEq] at h
        rw [numberWord_eq_thousand.mpr h] at hw
        cases hw
        exact hk rfl
      · exact absurd h (by decide)
      · exact absurd h (by decide)

/-- A number word that does not go on is refused, but for the hundreds and thousands the
accumulators take. -/
theorem accept_stop {high hundreds : Option ℕ} {rest : Option (Bool × ℕ)} {r : Reading}
    {k : NumberWord} (h : Tracks high hundreds rest r)
    (hsaid : ¬ (high = none ∧ hundreds = none ∧ rest = none))
    (hs : partStep high hundreds rest k = none) (hhundred : k = .hundred → rest = none)
    (hthousand : k = .thousand → rest = none ∧ hundreds = none) :
    r.accept k = some .stop := by
  cases k with
  | unit n =>
    rw [Reading.accept]
    split_ifs with hn hstart hfits
    · rfl
    · exfalso
      rw [ne_eq, not_not] at hstart
      have hlast := h.last
      rw [hstart] at hlast
      rcases rest with _ | ⟨_ | _, m⟩
      · rw [LastOf] at hlast
        cases hundreds <;> cases high <;> simp at hlast hsaid
      · exact absurd hlast (by rintro (h | h) <;> cases h)
      · cases hlast
    · exfalso
      rw [h.fitsUnit] at hfits
      simp only [partStep] at hs
      rw [if_neg hn] at hs
      split at hs <;> cases hs
      exact hfits _ rfl
    · rfl
  | teen n =>
    simp only [partStep] at hs
    split_ifs at hs with hrest
    rw [Reading.accept, if_neg (by rwa [h.fitsTens])]
  | tens n =>
    simp only [partStep] at hs
    split_ifs at hs with hrest
    rw [Reading.accept, if_neg (by rwa [h.fitsTens])]
  | hundred =>
    obtain rfl := hhundred rfl
    simp only [partStep] at hs
    rw [Reading.accept, if_neg]
    rw [h.fitsHundred]
    rintro (hne | ⟨rfl, rfl⟩)
    · exact hne rfl
    · exact hsaid ⟨rfl, rfl, rfl⟩
  | thousand =>
    obtain ⟨rfl, rfl⟩ := hthousand rfl
    have hhigh : high.isSome = true := by
      rw [Option.isSome_iff_ne_none]
      rintro rfl
      exact hsaid ⟨rfl, rfl, rfl⟩
    rw [Reading.accept, if_neg (by simpa using h.last_thousand.mpr ⟨rfl, rfl, hhigh⟩)]
  | ordinal n =>
    rw [Reading.accept]
    rcases rest with _ | ⟨_ | _, m⟩
    · cases hs
    · obtain hlast | hlast := (h.last : _ ∨ _) <;> simp [hlast]
    · simp only [partStep] at hs
      split_ifs at hs with hn
      simp only [show r.last = .tens from h.last, hn, decide_false, Bool.false_and]
      rfl

/-- A word behind what has been said that does not go on. -/
theorem stop_said {high hundreds : Option ℕ} {rest : Option (Bool × ℕ)} {r : Reading}
    {last w : Word} {ws : List Word} {o : Bool} {n : ℕ} (h : At (.said high hundreds rest) r)
    (hused : 0 < r.used) (hn : (Spoken.said high hundreds rest).numeral = some (o, n))
    (hlast : EndsIn (.said high hundreds rest) last)
    (hs : step (.said high hundreds rest) w = none) :
    read (w :: ws) r = some (some (numberText o n, r.used)) ↔ ¬ RunsOn last (w :: ws) := by
  have hfinish := finish_at h hused hn
  obtain ⟨htracks, hsaid⟩ := h
  simp only [step] at hs
  split_ifs at hs with hsecond hand hrest
  · -- `second` is a word of its own, but after a tens word.
    have htens : r.last ≠ .tens := by
      intro hlast
      have h := htracks.last
      rw [hlast] at h
      rcases rest with _ | ⟨_ | _, m⟩
      · rw [LastOf] at h
        split_ifs at h
      · exact absurd h (by rintro (h | h) <;> cases h)
      · cases hs
    subst hsecond
    rw [read_none numberWord_second (fun h => htens h.2) (fun h => absurd h.1 (by decide))]
    exact iff_of_true hfinish (not_runsOn (by decide) (by decide) (by decide))
  · -- An `and` after the rest is no part of the numeral.
    subst hand
    have hnot : ¬ (r.last = .hundred ∨ r.last = .thousand) := by
      have h := htracks.last
      rcases rest with _ | ⟨_ | _, m⟩
      · exact absurd rfl hrest
      · obtain h | h := (h : _ ∨ _) <;> rw [h] <;> decide
      · rw [show r.last = .tens from h]
        decide
    rw [read_none numberWord_and (fun h => absurd h.1 (by decide)) (fun h => hnot h.2.1)]
    refine iff_of_true hfinish ?_
    have hsmall : smallWord last = true := by
      rcases rest with _ | r
      · exact absurd rfl hrest
      · exact hlast
    rintro (⟨h, -⟩ | ⟨h, -⟩ | ⟨-, rfl | rfl⟩)
    · exact absurd (Option.some.inj h) (by decide)
    · exact absurd (Option.some.inj h) (by decide)
    · exact absurd hsmall (by decide)
    · exact absurd hsmall (by decide)
  · cases hw : numberWord w with
    | none =>
      rw [read_none hw (fun h => hsecond h.1) (fun h => hand h.1)]
      refine iff_of_true hfinish (not_runsOn ?_ ?_ hand)
      · rintro rfl
        rw [numberWord_eq_hundred.mpr rfl] at hw
        cases hw
      · rintro rfl
        rw [numberWord_eq_thousand.mpr rfl] at hw
        cases hw
    | some k =>
      rw [hw, Option.bind_some] at hs
      rw [read_kind hw]
      by_cases hruns : (k = .hundred ∧ rest ≠ none) ∨
          (k = .thousand ∧ ¬ (rest = none ∧ hundreds = none))
      · refine iff_of_false (follow_ne ?_) (not_not.mpr ?_)
        · obtain ⟨rfl, hne⟩ | ⟨rfl, hne⟩ := hruns
          · exact accept_hundred (htracks.fitsHundred.mpr (.inl hne))
          · exact accept_thousand fun h => hne ((htracks.last_thousand.mp h).imp_right And.left)
        · obtain ⟨rfl, hne⟩ | ⟨rfl, hne⟩ := hruns
          · rw [numberWord_eq_hundred.mp hw]
            rcases rest with _ | r
            · exact absurd rfl hne
            · exact .inl ⟨rfl, hlast⟩
          · rw [numberWord_eq_thousand.mp hw]
            rcases rest with _ | r
            · rcases hundreds with _ | m
              · exact absurd ⟨rfl, rfl⟩ hne
              · exact .inr (.inl ⟨rfl, .inr (.inr hlast)⟩)
            · exact .inr (.inl ⟨rfl, .inl hlast⟩)
      · rw [not_or, not_and, not_and, not_not, not_not] at hruns
        rw [Reading.follow, accept_stop htracks hsaid hs hruns.1 hruns.2]
        refine iff_of_true hfinish ?_
        by_cases hhundred : k = .hundred
        · subst hhundred
          obtain rfl := hruns.1 rfl
          rw [numberWord_eq_hundred.mp hw]
          rintro (⟨-, h⟩ | ⟨h, -⟩ | ⟨h, -⟩)
          · rcases hundreds with _ | m
            · rcases high with _ | m
              · exact hsaid ⟨rfl, rfl, rfl⟩
              · rw [show last = _ from hlast] at h
                exact absurd h (by decide)
            · rw [show last = _ from hlast] at h
              exact absurd h (by decide)
          · exact absurd (Option.some.inj h) (by decide)
          · exact absurd (List.cons_prefix_cons.mp h).1 (by decide)
        · by_cases hthousand : k = .thousand
          · subst hthousand
            obtain ⟨rfl, rfl⟩ := hruns.2 rfl
            have hlast : last = "thousand".toList := by
              rcases high with _ | m
              · exact absurd ⟨rfl, rfl, rfl⟩ hsaid
              · exact hlast
            rw [numberWord_eq_thousand.mp hw, hlast]
            rintro (⟨h, -⟩ | ⟨-, h⟩ | ⟨h, -⟩)
            · exact absurd (Option.some.inj h) (by decide)
            · exact absurd h (by decide)
            · exact absurd (List.cons_prefix_cons.mp h).1 (by decide)
          · refine not_runsOn ?_ ?_ hand
            · rintro rfl
              rw [numberWord_eq_hundred.mpr rfl] at hw
              cases hw
              exact hhundred rfl
            · rintro rfl
              rw [numberWord_eq_thousand.mpr rfl] at hw
              cases hw
              exact hthousand rfl

/-! ### The longest numeral -/

theorem snoc_suffix_snoc {l ws : List Word} {a w : Word} :
    l ++ [a] <:+ ws ++ [w] ↔ w = a ∧ l <:+ ws := by
  rw [List.suffix_concat_iff]
  constructor
  · rintro (hnil | ⟨t, ht, hsuffix⟩)
    · exact absurd hnil (by simp)
    · obtain ⟨rfl, heq⟩ := List.append_inj' ht rfl
      cases heq
      exact ⟨rfl, hsuffix⟩
  · rintro ⟨rfl, hsuffix⟩
    exact .inr ⟨l, rfl, hsuffix⟩

/-- A hundred without a number is the last word, or is said before it. -/
theorem bare_snoc {ws : List Word} {w : Word} :
    Bare (ws ++ [w]) ↔ Bare ws ∨ (w = "hundred".toList ∧
      (["thousand".toList] <:+ ws ∨ ["thousand".toList, "and".toList] <:+ ws)) := by
  have htwo := @snoc_suffix_snoc ["thousand".toList] ws "hundred".toList w
  have hthree := @snoc_suffix_snoc ["thousand".toList, "and".toList] ws "hundred".toList w
  simp only [List.cons_append, List.nil_append] at htwo hthree
  rw [Bare, Bare, List.infix_concat_iff, List.infix_concat_iff, htwo, hthree]
  tauto

/-- No hundred without a number comes up behind another word. -/
theorem not_bare_snoc {ws : List Word} {last w : Word} (h : ¬ Bare (ws ++ [last]))
    (hw : w = "hundred".toList → last ≠ "thousand".toList ∧ last ≠ "and".toList) :
    ¬ Bare (ws ++ [last] ++ [w]) := by
  rw [bare_snoc]
  rintro (hbare | ⟨heq, hsuffix⟩)
  · exact h hbare
  · have hone := @snoc_suffix_snoc [] ws "thousand".toList last
    have htwo := @snoc_suffix_snoc ["thousand".toList] ws "and".toList last
    simp only [List.cons_append, List.nil_append] at hone htwo
    rw [hone, htwo] at hsuffix
    obtain hsuffix | hsuffix := hsuffix
    · exact (hw heq).1 hsuffix.1
    · exact (hw heq).2 hsuffix.1

theorem clear_snoc {ws rest : List Word} {last : Word} (h : ¬ Bare (ws ++ [last])) :
    Clear (ws ++ [last]) rest ↔ ¬ RunsOn last rest := by
  rw [Clear, List.getLast?_concat]
  constructor
  · exact fun hclear => hclear.2 last rfl
  · intro hruns
    refine ⟨h, fun last' hlast => ?_⟩
    cases hlast
    exact hruns

/-- The numeral ends where the word behind it does not go on. -/
theorem longest_of_step_none {s : Spoken} {w : Word} {ws : List Word}
    (hs : s.numeral.isSome = true) (h : step s w = none) : longest s (w :: ws) = some (0, s) := by
  rw [longest, h, Option.bind_none, if_pos hs]

/-- A numeral goes on with a word. -/
theorem longest_of_step {s s' f : Spoken} {w : Word} {ws : List Word} {k : ℕ}
    (h : step s w = some s') (hk : longest s' ws = some (k, f)) :
    longest s (w :: ws) = some (k + 1, f) := by
  rw [longest, h, Option.bind_some, hk]

/-- What a place of the words behind a numeral is read as. -/
def ReadsOn (ws : List Word) : Prop :=
  ∀ ⦃s : Spoken⦄ ⦃r : Reading⦄ ⦃pre : List Word⦄ ⦃last : Word⦄ ⦃k : ℕ⦄ ⦃f : Spoken⦄ ⦃o : Bool⦄
    ⦃n : ℕ⦄, At s r → 0 < r.used → EndsIn s last → ¬ Bare (pre ++ [last]) →
    longest s ws = some (k, f) → f.numeral = some (o, n) →
    (read ws r = some (some (numberText o n, r.used + k)) ↔
      Clear (pre ++ [last] ++ ws.take k) (ws.drop k))

/-- A number word that goes on, and the words behind it. -/
theorem follow_iff {ws : List Word} (ih : ReadsOn ws) {high hundreds : Option ℕ}
    {rest : Option (Bool × ℕ)} {r : Reading} {kind : NumberWord} {s f : Spoken} {pre : List Word}
    {w : Word} {k : ℕ} {o : Bool} {n : ℕ} (h : Tracks high hundreds rest r)
    (hv : kind.Valid) (hs : partStep high hundreds rest kind = some s) (hw : EndsIn s w)
    (hbare : ¬ (kind = .hundred ∧ rest = none ∧ high.isSome = true))
    (hpre : ¬ Bare (pre ++ [w])) (hk : longest s ws = some (k, f)) (hf : f.numeral = some (o, n)) :
    r.follow (read ws) (some kind) = some (some (numberText o n, r.used + (k + 1))) ↔
      Clear (pre ++ [w] ++ ws.take k) (ws.drop k) := by
  have hfollows := accept_follows h hv hs hbare
  have hnum := partStep_numeral hs
  match s, hfollows with
  | .said high' hundreds' rest', ⟨r', haccept, htracks, hused⟩ =>
    rw [Reading.follow, haccept]
    have hat : At (.said high' hundreds' rest') r' := by
      refine ⟨htracks, ?_⟩
      rintro ⟨rfl, rfl, rfl⟩
      cases kind <;> simp only [partStep] at hs <;> (repeat' split at hs) <;> cases hs
    have := ih hat (by omega) hw hpre hk hf
    rw [hused, show r.used + 1 + k = r.used + (k + 1) by omega] at this
    exact this
  | .ordinal m, hdone =>
    rw [Reading.follow, show r.accept kind = _ from hdone]
    have hend : longest (.ordinal m) ws = some (0, .ordinal m) := by
      cases ws with
      | nil => rfl
      | cons w ws => exact longest_of_step_none rfl rfl
    rw [hend] at hk
    cases hk
    cases hf
    rw [List.take_zero, List.append_nil, List.drop_zero, clear_snoc hpre]
    refine iff_of_true rfl ?_
    obtain ⟨hsmall, hzero, hhundred, hthousand⟩ := hw
    rintro (⟨-, h⟩ | ⟨-, h | h | h⟩ | ⟨-, h | h⟩)
    · rw [hsmall] at h
      cases h
    · rw [hsmall] at h
      cases h
    · exact hzero h
    · exact hhundred h
    · exact hhundred h
    · exact hthousand h

/-- What has been said before a rest ends in a hundred or a thousand. -/
theorem endsIn_of_none {high hundreds : Option ℕ} {last : Word}
    (hsaid : ¬ (high = none ∧ hundreds = none)) (h : EndsIn (.said high hundreds none) last) :
    (last = "hundred".toList ∧ hundreds ≠ none) ∨
      (last = "thousand".toList ∧ hundreds = none ∧ high.isSome = true) := by
  match high, hundreds, h with
  | _, some _, h => exact .inl ⟨h, nofun⟩
  | some _, none, h => exact .inr ⟨h, rfl, rfl⟩
  | none, none, _ => exact absurd ⟨rfl, rfl⟩ hsaid

/-- An `and` behind a hundred or a thousand, and the words behind it. -/
theorem read_and_iff {ws : List Word} (ih : ∀ w ws', ws = w :: ws' → ReadsOn ws')
    {high hundreds : Option ℕ} {r : Reading} {pre : List Word} {last : Word} {k : ℕ} {f : Spoken}
    {o : Bool} {n : ℕ} (h : At (.said high hundreds none) r) (hused : 0 < r.used)
    (hlast : EndsIn (.said high hundreds none) last) (hbare : ¬ Bare (pre ++ [last]))
    (hk : longest (.said high hundreds none) ("and".toList :: ws) = some (k, f))
    (hf : f.numeral = some (o, n)) :
    read ("and".toList :: ws) r = some (some (numberText o n, r.used + k)) ↔
      Clear (pre ++ [last] ++ ("and".toList :: ws).take k) (("and".toList :: ws).drop k) := by
  have hends := endsIn_of_none (fun hnone => h.2 ⟨hnone.1, hnone.2, rfl⟩) hlast
  have hstep : step (.said high hundreds none) "and".toList = some (.joined high hundreds) := rfl
  have hlastword : r.last = .hundred ∨ r.last = .thousand := by
    obtain ⟨-, hhundreds⟩ | ⟨-, hhundreds, hhigh⟩ := hends
    · have hl := h.1.last
      rw [LastOf, if_pos (Option.isSome_iff_ne_none.mpr hhundreds)] at hl
      exact .inl hl
    · exact .inr (h.1.last_thousand.mpr ⟨rfl, hhundreds, hhigh⟩)
  have hread : read ("and".toList :: ws) r =
      if followsAnd ws = true then read ws { r with used := r.used + 1 } else r.finish := by
    rw [read, if_neg (fun h => absurd h.1 (by decide)), numberWord_and]
    by_cases hfollows : followsAnd ws = true
    · rw [if_pos ⟨rfl, hlastword, hfollows⟩, if_pos hfollows]
    · rw [if_neg (fun h => hfollows h.2.2), if_neg hfollows]
      rfl
  -- Where nothing goes on with the `and`, the numeral ends before it.
  have hstop : longest (.joined high hundreds) ws = none →
      k = 0 ∧ f = .said high hundreds none := by
    intro hnone
    rw [longest, hstep, Option.bind_some, hnone] at hk
    cases (show some (0, Spoken.said high hundreds none) = some (k, f) from hk)
    exact ⟨rfl, rfl⟩
  rw [hread]
  cases ws with
  | nil =>
    obtain ⟨rfl, rfl⟩ := hstop rfl
    rw [if_neg (by decide), List.take_zero, List.append_nil, List.drop_zero, clear_snoc hbare]
    refine iff_of_true (finish_at h hused hf) ?_
    rintro (⟨h, -⟩ | ⟨h, -⟩ | ⟨h, -⟩)
    · exact absurd (Option.some.inj h) (by decide)
    · exact absurd (Option.some.inj h) (by decide)
    · exact absurd h (by decide)
  | cons w ws =>
    cases hw : step (.joined high hundreds) w with
    | none =>
      obtain ⟨rfl, rfl⟩ := hstop (by rw [longest, hw]; rfl)
      rw [List.take_zero, List.append_nil, List.drop_zero, clear_snoc hbare]
      have hruns : RunsOn last ("and".toList :: w :: ws) ↔ w = "zero".toList := by
        constructor
        · rintro (⟨h, -⟩ | ⟨h, -⟩ | ⟨h, -⟩)
          · exact absurd (Option.some.inj h) (by decide)
          · exact absurd (Option.some.inj h) (by decide)
          · exact (List.cons_prefix_cons.mp (List.cons_prefix_cons.mp h).2).1.symm
        · rintro rfl
          exact .inr (.inr ⟨⟨ws, rfl⟩, hends.imp And.left And.left⟩)
      rw [hruns]
      by_cases hzero : w = "zero".toList
      · subst hzero
        refine iff_of_false ?_ (not_not.mpr rfl)
        rw [if_pos (show followsAnd ("zero".toList :: ws) = true from rfl)]
        intro hread
        have := used_read hread
        simp only at this
        omega
      · refine iff_of_true ?_ hzero
        rw [if_neg]
        · exact finish_at h hused hf
        · intro hfollows
          rw [followsAnd, List.head?_cons, Option.bind_some] at hfollows
          simp only [step] at hw
          split_ifs at hw with hthousand
          · rw [hthousand, numberWord_eq_thousand.mpr rfl] at hfollows
            cases hfollows
          · cases hkind : numberWord w with
            | none =>
              rw [hkind] at hfollows
              cases hfollows
            | some kind =>
              rw [hkind] at hfollows
              rw [hkind, Option.bind_some] at hw
              cases kind with
              | unit m =>
                simp only [partStep] at hw
                split_ifs at hw with hm
                subst hm
                exact hzero (numberWord_eq_zero.mp hkind)
              | teen m | tens m | ordinal m => cases hw
              | hundred | thousand => cases hfollows
    | some s =>
      simp only [step] at hw
      split_ifs at hw with hthousand
      obtain ⟨kind, hkind, hs⟩ := Option.bind_eq_some_iff.mp hw
      obtain ⟨k', f', hk'⟩ := longest_isSome (partStep_numeral hs) ws
      have hjoined : longest (.joined high hundreds) (w :: ws) = some (k' + 1, f') := by
        refine longest_of_step ?_ hk'
        simp only [step]
        rw [if_neg hthousand, hkind, Option.bind_some, hs]
      rw [longest_of_step hstep hjoined] at hk
      cases hk
      have happend : pre ++ [last] ++ ("and".toList :: w :: ws).take (k' + 1 + 1) =
          pre ++ [last] ++ ["and".toList] ++ [w] ++ ws.take k' := by simp
      rw [happend]
      by_cases hhundred : kind = .hundred
      · -- A hundred without a number right after the thousands.
        subst hhundred
        rw [numberWord_eq_hundred.mp hkind] at *
        have hlast : last = "thousand".toList := by
          obtain ⟨-, hne⟩ | ⟨hlast, -⟩ := hends
          · simp only [partStep] at hs
            rw [if_neg (fun h => hne h.1)] at hs
            cases hs
          · exact hlast
        rw [show followsAnd ("hundred".toList :: ws) = false from rfl, if_neg Bool.false_ne_true]
        refine iff_of_false ?_ ?_
        · intro hfinish
          have := (used_finish hfinish).1
          omega
        · rw [hlast]
          rintro ⟨hnot, -⟩
          exact hnot (.inr ⟨pre, ws.take k', by simp⟩)
      · have hfollows : followsAnd (w :: ws) = true := by
          rw [followsAnd, List.head?_cons, Option.bind_some, hkind]
          cases kind with
          | hundred => exact absurd rfl hhundred
          | thousand => exact absurd (numberWord_eq_thousand.mp hkind) hthousand
          | unit | teen | tens | ordinal => rfl
        rw [if_pos hfollows, read_kind hkind]
        have hpre : ¬ Bare (pre ++ [last] ++ ["and".toList] ++ [w]) := by
          refine not_bare_snoc (not_bare_snoc hbare fun h => absurd h (by decide)) fun h => ?_
          rw [numberWord_eq_hundred.mpr h] at hkind
          cases hkind
          exact absurd rfl hhundred
        have := follow_iff (ih w ws rfl) (h.1.used (r.used + 1)) (numberWord_valid hkind) hs
          (partStep_endsIn hkind hs) (fun h => hhundred h.1) hpre hk' hf
        simp only [show r.used + 1 + (k' + 1) = r.used + (k' + 1 + 1) by omega] at this
        exact this

/-- Behind a numeral the words are read as the longest numeral exactly when they are clear. -/
theorem readsOn (ws : List Word) : ReadsOn ws := by
  induction hlen : ws.length using Nat.strong_induction_on generalizing ws with
  | _ len ih =>
  intro s r pre last k f o n h hused hlast hbare hk hf
  -- What is read at `h` is a numeral: nothing, or what has been said.
  have hs : s.numeral.isSome = true := by
    cases s with
    | zero | said => rfl
    | start | article | joined | ordinal => exact h.elim
  cases ws with
  | nil =>
    rw [longest, if_pos hs] at hk
    cases hk
    rw [List.take_nil, List.append_nil, List.drop_nil, clear_snoc hbare]
    refine iff_of_true (finish_at h hused hf) ?_
    rintro (⟨h, -⟩ | ⟨h, -⟩ | ⟨h, -⟩)
    · cases h
    · cases h
    · exact absurd (List.prefix_nil.mp h) (by simp)
  | cons w ws =>
    subst hlen
    have htail : ReadsOn ws := ih _ (by simp) ws rfl
    cases hstep : step s w with
    | none =>
      rw [longest_of_step_none hs hstep] at hk
      cases hk
      rw [List.take_zero, List.append_nil, List.drop_zero, clear_snoc hbare]
      cases s with
      | zero =>
        rw [show last = "zero".toList from hlast]
        exact stop_zero h hused hf
      | said high hundreds rest => exact stop_said h hused hf hlast hstep
      | start | article | joined | ordinal => exact h.elim
    | some s' =>
      cases s with
      | zero => cases hstep
      | said high hundreds rest =>
        by_cases hand : w = "and".toList ∧ rest = none
        · obtain ⟨rfl, rfl⟩ := hand
          refine read_and_iff (fun _ ws' heq => ?_) h hused hlast hbare hk hf
          subst heq
          exact ih _ (by rw [List.length_cons, List.length_cons]; omega) ws' rfl
        · obtain ⟨k', f', hk'⟩ := longest_isSome (s := s') (by
            obtain hnum | ⟨hstart, -⟩ | ⟨_, _, hsaid, hw, -⟩ := step_cases hstep
            · exact hnum
            · cases hstart
            · cases hsaid
              exact absurd ⟨hw, rfl⟩ hand) ws
          rw [longest_of_step hstep hk'] at hk
          cases hk
          have hends := step_endsIn hstep
          have happend : pre ++ [last] ++ (w :: ws).take (k' + 1) =
              pre ++ [last] ++ [w] ++ ws.take k' := by simp
          rw [happend, List.drop_succ_cons]
          simp only [step] at hstep
          split_ifs at hstep with hsecond hword hnone
          · -- `second` after a tens word.
            subst hsecond
            rcases rest with _ | ⟨_ | _, m⟩
            · cases hstep
            · cases hstep
            · cases hstep
              have htens : r.last = .tens := h.1.last
              rw [read, if_pos ⟨rfl, htens⟩]
              refine follow_iff htail h.1 (by decide) (by simp [partStep]) hends
                (by simp) ?_ hk' hf
              exact not_bare_snoc hbare fun h => absurd h (by decide)
          · exact absurd ⟨hword, hnone⟩ hand
          · obtain ⟨kind, hkind, hs⟩ := Option.bind_eq_some_iff.mp hstep
            rw [read_kind hkind]
            by_cases hundred : kind = .hundred ∧ rest = none ∧ high.isSome = true
            · -- A hundred without a number right after the thousands.
              obtain ⟨rfl, rfl, hhigh⟩ := hundred
              have hhundreds : hundreds = none := by
                by_contra hne
                simp only [partStep] at hs
                rw [if_neg (fun h => hne h.1)] at hs
                cases hs
              have hstop : r.accept .hundred = some .stop := by
                rw [Reading.accept, if_neg]
                rw [h.1.fitsHundred]
                rintro (hne | ⟨-, rfl⟩)
                · exact hne rfl
                · cases hhigh
              rw [Reading.follow, hstop]
              refine iff_of_false ?_ ?_
              · intro hfinish
                have := (used_finish hfinish).1
                omega
              · rw [numberWord_eq_hundred.mp hkind]
                have hl : last = "thousand".toList := by
                  obtain ⟨-, hne⟩ | ⟨hl, -⟩ := endsIn_of_none (fun hnone => h.2 ⟨hnone.1, hnone.2, rfl⟩) hlast
                  · exact absurd hhundreds hne
                  · exact hl
                rw [hl]
                rintro ⟨hnot, -⟩
                exact hnot (.inl ⟨pre, ws.take k', by simp⟩)
            · refine follow_iff htail h.1 (numberWord_valid hkind) hs hends hundred ?_ hk' hf
              refine not_bare_snoc hbare fun heq => ?_
              rw [heq, numberWord_eq_hundred.mpr rfl] at hkind
              cases hkind
              rcases rest with _ | m
              · rcases hundreds with _ | m
                · rcases high with _ | m
                  · exact absurd ⟨rfl, rfl, rfl⟩ h.2
                  · exact absurd ⟨rfl, rfl, rfl⟩ hundred
                · rw [show last = "hundred".toList from hlast]
                  exact ⟨by decide, by decide⟩
              · have hsmall : smallWord last = true := hlast
                constructor <;> rintro rfl <;> exact absurd hsmall (by decide)
      | start | article | joined | ordinal => exact h.elim

/-! ### A place of the words -/

/-- At a place the step reads the longest numeral, and nothing where there is none. -/
structure Right (ws : List Word) : Prop where
  numeral : ∀ k o n, Longest ws k o n → readNumber ws = some (some (numberText o n, k))
  word : (∀ k o n, ¬ Longest ws k o n) → readNumber ws = some none

/-- The longest numeral of a place, if there is one, is clear of what follows it. -/
def ClearAt (ws : List Word) : Prop :=
  ∀ k o n, Longest ws k o n → Clear (ws.take k) (ws.drop k)

/-- One word has no hundred behind a thousand. -/
theorem not_bare_single (w : Word) : ¬ Bare ([] ++ [w]) := by
  rintro (h | h) <;> exact absurd h.length_le (by simp)

/-- The first word of a numeral. -/
theorem readNumber_of_step {w : Word} {ws : List Word} {s f : Spoken} {k n : ℕ} {o : Bool}
    (hs : step .start w = some s) (hnum : s.numeral.isSome = true)
    (hk : longest s ws = some (k, f)) (hf : f.numeral = some (o, n)) :
    readNumber (w :: ws) = some (some (numberText o n, k + 1)) ↔
      Clear ((w :: ws).take (k + 1)) ((w :: ws).drop (k + 1)) := by
  have hends := step_endsIn hs
  have hbare := not_bare_single w
  have hclear : (w :: ws).take (k + 1) = [] ++ [w] ++ ws.take k := rfl
  rw [hclear, List.drop_succ_cons]
  have ha : w ≠ "a".toList := by
    rintro rfl
    cases hs
    cases hnum
  rw [readNumber, if_neg (fun h => ha (Option.some.inj h.1))]
  simp only [step] at hs
  rw [if_neg ha] at hs
  split_ifs at hs with hzero
  · cases hs
    subst hzero
    rw [read_kind (numberWord_eq_zero.mpr rfl)]
    have := @readsOn ws .zero ⟨0, 0, .unit, 1⟩ [] _ k f o n ⟨rfl, rfl, rfl⟩ Nat.one_pos rfl hbare hk hf
    rwa [Nat.add_comm 1 k] at this
  · obtain ⟨kind, hkind, hs⟩ := Option.bind_eq_some_iff.mp hs
    rw [read_kind hkind]
    have := follow_iff (readsOn ws) Tracks.start (numberWord_valid hkind) hs hends
      (fun h => by cases h.2.2) hbare hk hf
    rwa [Nat.zero_add] at this

/-- An article before a hundred or a thousand. -/
theorem readNumber_of_article {ws : List Word} {f : Spoken} {k n : ℕ} {o : Bool}
    (hk : longest .article ws = some (k, f)) (hf : f.numeral = some (o, n)) :
    readNumber ("a".toList :: ws) = some (some (numberText o n, k + 1)) ↔
      Clear (("a".toList :: ws).take (k + 1)) (("a".toList :: ws).drop (k + 1)) := by
  cases ws with
  | nil => cases hk
  | cons w ws =>
    rw [longest] at hk
    split at hk
    next k f' hnext =>
      cases hk
      obtain ⟨s, hs, hk⟩ := Option.bind_eq_some_iff.mp hnext
      have hends := step_endsIn hs
      simp only [step] at hs
      split_ifs at hs with hw
      have hbare : ¬ Bare (["a".toList] ++ [w]) :=
        not_bare_snoc (not_bare_single _) fun _ => ⟨by decide, by decide⟩
      rw [readNumber, if_pos ⟨rfl, hw.imp (congrArg some) (congrArg some)⟩, List.tail_cons]
      obtain rfl | rfl := hw
      · cases hs
        rw [read_kind (numberWord_eq_hundred.mpr rfl)]
        have hat : At (.said none (some (1 * 100)) none) ⟨0, 100, .hundred, 2⟩ :=
          ⟨⟨rfl, rfl, rfl, by decide, by decide, rfl, by simp, by simp⟩, by simp⟩
        have := readsOn ws hat Nat.two_pos hends hbare hk hf
        rw [show 2 + k = k + 1 + 1 by omega] at this
        exact this
      · cases hs
        rw [read_kind (numberWord_eq_thousand.mpr rfl)]
        have hat : At (.said (some (1 * 1000)) none none) ⟨1000, 0, .thousand, 2⟩ :=
          ⟨⟨rfl, rfl, rfl, by decide, by decide, rfl, by simp, by simp⟩, by simp⟩
        have := readsOn ws hat Nat.two_pos hends hbare hk hf
        rw [show 2 + k = k + 1 + 1 by omega] at this
        exact this
    next => cases hk

/-- The step reads a place rightly exactly when its longest numeral is clear. -/
theorem readNumber_iff {ws : List Word} {k n : ℕ} {o : Bool} (h : Longest ws k o n) :
    readNumber ws = some (some (numberText o n, k)) ↔ Clear (ws.take k) (ws.drop k) := by
  obtain ⟨s, hs, hn⟩ := reach_numeral h.numeral
  obtain ⟨k', f, hk, -⟩ := le_longest h.le hs (by rw [hn]; rfl)
  obtain ⟨⟨o', n'⟩, hf⟩ := Option.isSome_iff_exists.mp (longest_some hk).2.2
  obtain ⟨rfl, rfl, rfl⟩ := h.unique (longest_isLongest hk hf)
  match ws with
  | [] =>
    cases hk
  | w :: ws =>
    have hstart : Spoken.start.numeral.isSome ≠ true := by decide
    rw [longest] at hk
    split at hk
    next k f' hnext =>
      cases hk
      obtain ⟨s', hs', hk⟩ := Option.bind_eq_some_iff.mp hnext
      obtain hnum | ⟨-, rfl, rfl⟩ | ⟨_, _, hsaid, -⟩ := step_cases hs'
      · exact readNumber_of_step hs' hnum hk hf
      · exact readNumber_of_article hk hf
      · cases hsaid
    next =>
      rw [if_neg hstart] at hk
      cases hk

/-- Where no numeral starts, none is read. -/
theorem readNumber_none {ws : List Word} (h : longest .start ws = none) :
    readNumber ws = some none := by
  have hfinish : (⟨0, 0, .start, 0⟩ : Reading).finish = some none := rfl
  cases ws with
  | nil => rfl
  | cons w ws =>
    have hword : numberWord w = none := by
      cases hw : numberWord w with
      | none => rfl
      | some kind =>
        exfalso
        have hstep : ∃ s, step .start w = some s ∧ s.numeral.isSome = true := by
          simp only [step]
          rw [if_neg (by rintro rfl; rw [numberWord_a] at hw; cases hw)]
          split_ifs with hzero
          · exact ⟨.zero, rfl, rfl⟩
          · rw [hw, Option.bind_some]
            cases kind with
            | unit m =>
              have hm : m ≠ 0 := by
                rintro rfl
                exact hzero (numberWord_eq_zero.mp hw)
              simp only [partStep]
              rw [if_neg hm]
              exact ⟨_, rfl, rfl⟩
            | teen m | tens m | hundred | thousand | ordinal m => exact ⟨_, rfl, rfl⟩
        obtain ⟨s, hs, hnum⟩ := hstep
        obtain ⟨k, f, hk⟩ := longest_isSome hnum ws
        rw [longest_of_step hs hk] at h
        cases h
    have hread : read (w :: ws) ⟨0, 0, .start, 0⟩ = some none := by
      rw [read_none hword (fun h => by cases h.2) (fun h => by obtain ⟨-, h | h, -⟩ := h <;> cases h)]
      exact hfinish
    rw [readNumber]
    split_ifs with ha
    · -- An article before a hundred or a thousand is a numeral.
      exfalso
      obtain ⟨hw, hnext⟩ := ha
      cases Option.some.inj hw
      cases ws with
      | nil => obtain hnext | hnext := hnext <;> cases hnext
      | cons v ws =>
        have hv : v = "hundred".toList ∨ v = "thousand".toList :=
          hnext.imp Option.some.inj Option.some.inj
        have hstep : ∃ s, step .article v = some s ∧ s.numeral.isSome = true := by
          obtain rfl | rfl := hv <;> exact ⟨_, rfl, rfl⟩
        obtain ⟨s, hs, hnum⟩ := hstep
        obtain ⟨k, f, hk⟩ := longest_isSome hnum ws
        rw [longest_of_step (rfl : step .start "a".toList = some .article)
          (longest_of_step hs hk)] at h
        cases h
    · exact hread

/-- Where no numeral is the longest, none starts. -/
theorem longest_none_of_not {ws : List Word} (h : ∀ k o n, ¬ Longest ws k o n) :
    longest .start ws = none := by
  cases hk : longest .start ws with
  | none => rfl
  | some p =>
    obtain ⟨⟨o, n⟩, hn⟩ := Option.isSome_iff_exists.mp (longest_some (k := p.1) (f := p.2) hk).2.2
    exact absurd (longest_isLongest hk hn) (h _ o n)

theorem right_iff (ws : List Word) : Right ws ↔ ClearAt ws := by
  constructor
  · exact fun h k o n hlongest => (readNumber_iff hlongest).mp (h.numeral k o n hlongest)
  · exact fun h => ⟨fun k o n hlongest => (readNumber_iff hlongest).mpr (h k o n hlongest),
      fun hnone => readNumber_none (longest_none_of_not hnone)⟩

/-! ### The whole step -/

/-- The places the step comes to. -/
inductive Visits (ws : List Word) : List Word → Prop
  | start : Visits ws ws
  | number {p text used} (h : Visits ws p) (hr : readNumber p = some (some (text, used))) :
      Visits ws (p.drop used)
  | word {w p} (h : Visits ws (w :: p)) (hr : readNumber (w :: p) = some none) : Visits ws p

/-- The places after the longest numerals, and after the words that start none. -/
inductive Place (ws : List Word) : List Word → Prop
  | start : Place ws ws
  | number {p k o n} (h : Place ws p) (hl : Longest p k o n) : Place ws (p.drop k)
  | word {w p} (h : Place ws (w :: p)) (hl : ∀ k o n, ¬ Longest (w :: p) k o n) : Place ws p

/-- The words with each longest numeral written in digits. -/
inductive Written : List Word → List Word → Prop
  | nil : Written [] []
  | number {ws out k o n} (hl : Longest ws k o n) (h : Written (ws.drop k) out) :
      Written ws (numberText o n :: out)
  | word {w ws out} (hl : ∀ k o n, ¬ Longest (w :: ws) k o n) (h : Written ws out) :
      Written (w :: ws) (w :: out)

/-- The step reads every place it comes to as its longest numeral, and writes the numerals in
digits and the other words as they are. -/
structure NumbersMeet (ws : List Word) : Prop where
  right : ∀ p, Visits ws p → Right p
  advances : ∀ p text used, Visits ws p → readNumber p = some (some (text, used)) →
    0 < used ∧ used ≤ p.length
  written : ∃ out, numbers ws = some out ∧ Written ws out

/-- A numeral has a word. -/
theorem Longest.pos {ws : List Word} {k n : ℕ} {o : Bool} (h : Longest ws k o n) : 0 < k := by
  rw [Nat.pos_iff_ne_zero]
  rintro rfl
  obtain ⟨s, hs, hn⟩ := reach_numeral h.numeral
  cases hs
  cases hn

/-- Where every place is clear, the step writes the longest numerals. -/
theorem written_of_clear {ws : List Word} (h : ∀ p, Place ws p → ClearAt p) :
    ∃ out, numbers ws = some out ∧ Written ws out := by
  match ws with
  | [] => exact ⟨[], by rw [numbers], .nil⟩
  | w :: ws =>
    have hright := (right_iff (w :: ws)).mpr (h _ .start)
    have hplace : ∀ {q}, Place (w :: ws) q → ∀ p, Place q p → Place (w :: ws) p := by
      intro q hq p hp
      induction hp with
      | start => exact hq
      | number _ hl ih => exact .number ih hl
      | word _ hl ih => exact .word ih hl
    by_cases hlongest : ∃ k o n, Longest (w :: ws) k o n
    · obtain ⟨k, o, n, hl⟩ := hlongest
      have hpos := hl.pos
      obtain ⟨out, hout, hwritten⟩ := @written_of_clear ((w :: ws).drop k)
        fun p hp => h p (hplace (.number .start hl) p hp)
      refine ⟨numberText o n :: out, ?_, .number hl hwritten⟩
      rw [numbers]
      split
      next hnone =>
        rw [hright.numeral k o n hl] at hnone
        cases hnone
      next text used hread =>
        rw [hright.numeral k o n hl] at hread
        cases hread
        rw [hout]
        rfl
      next hread =>
        rw [hright.numeral k o n hl] at hread
        cases hread
    · have hnone : ∀ k o n, ¬ Longest (w :: ws) k o n := fun k o n hl => hlongest ⟨k, o, n, hl⟩
      obtain ⟨out, hout, hwritten⟩ := @written_of_clear ws
        fun p hp => h p (hplace (.word .start hnone) p hp)
      refine ⟨w :: out, ?_, .word hnone hwritten⟩
      rw [numbers]
      split
      next hread =>
        rw [hright.word hnone] at hread
        cases hread
      next hread =>
        rw [hright.word hnone] at hread
        cases hread
      next =>
        rw [hout]
        rfl
termination_by ws.length
decreasing_by
  · rw [List.length_drop, List.length_cons]
    omega
  · rw [List.length_cons]
    omega

/-- The number step is right exactly when no longest numeral it comes to has a hundred without a
number right after its thousands, or is followed by words the accumulators run on with. -/
theorem numbersMeet_iff (ws : List Word) : NumbersMeet ws ↔ ∀ p, Place ws p → ClearAt p := by
  constructor
  · intro h
    have hvisits : ∀ p, Place ws p → Visits ws p := by
      intro p hp
      induction hp with
      | start => exact .start
      | number _ hl ih => exact .number ih ((h.right _ ih).numeral _ _ _ hl)
      | word _ hl ih => exact .word ih ((h.right _ ih).word hl)
    exact fun p hp => (right_iff p).mp (h.right p (hvisits p hp))
  · intro h
    refine ⟨fun p hp => (right_iff p).mpr (h p ?_), fun p text used _ => used_readNumber,
      written_of_clear h⟩
    induction hp with
    | start => exact .start
    | @number p text used hp hr ih =>
      have hright := (right_iff p).mpr (h p ih)
      by_cases hlongest : ∃ k o n, Longest p k o n
      · obtain ⟨k, o, n, hl⟩ := hlongest
        rw [hright.numeral k o n hl] at hr
        cases hr
        exact .number ih hl
      · rw [hright.word fun k o n hl => hlongest ⟨k, o, n, hl⟩] at hr
        cases hr
    | @word w p hp hr ih =>
      have hright := (right_iff (w :: p)).mpr (h _ ih)
      refine .word ih fun k o n hl => ?_
      rw [hright.numeral k o n hl] at hr
      cases hr

/-- `one hundred two hundred` is read as one number, 10200. -/
theorem hundreds_run_on : ¬ ∀ ws, NumbersMeet ws := by
  intro h
  let ws : List Word := ["one", "hundred", "two", "hundred"].map String.toList
  have hlongest : longest .start ws = some (3, .said none (some 100) (some (false, 2))) := by decide
  have hright := (h ws).right ws .start
  have hread := hright.numeral 3 false 102 (longest_isLongest hlongest rfl)
  have hcode : readNumber ws = some (some ("10200".toList, 4)) := by decide
  rw [hcode] at hread
  cases hread

end EchoMuse.Grammar
