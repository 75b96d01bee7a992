import EchoMuse.Alerts.Json
import Mathlib.Data.List.Forall2

/-!
# Canonical JSON

The canonical form whose SHA-256 the device checks on every snapshot: keys sorted, no whitespace,
integers exact, floats in Python's `repr` form. The controller writes a value it has built
(`writeValue`); the firmware writes what it has decoded, with the literals of its numbers
(`appendCanonical`). The encoders differ in their numbers only.

An object is the list of its members as they were put into its map: the last one under a key
counts, and the maps are walked in key order.

## Main results

* `Json.Rel.canonical`: two encoders that agree on related numbers agree on related values;
* `appendCanonical_wire`: the firmware's form of a value on the wire is the controller's form.
-/

namespace EchoMuse.Alerts

/-! ### Maps and results -/

section

variable {ε ε' α β : Type}

/-- Puts `a` under `k` in a list of entries in key order. -/
def insertKey (k : Text) (a : α) : List (Text × α) → List (Text × α)
  | [] => [(k, a)]
  | e :: rest =>
    if k = e.1 then (k, a) :: rest
    else if k < e.1 then (k, a) :: e :: rest
    else e :: insertKey k a rest

/-- The entries of the map that the members build, in key order. -/
def byKey (members : List (Text × α)) : List (Text × α) :=
  members.foldl (fun m e => insertKey e.1 e.2 m) []

/-- All the results, or the first error. -/
def allOk : List (Except ε α) → Except ε (List α)
  | [] => .ok []
  | .error e :: _ => .error e
  | .ok a :: rest =>
    match allOk rest with
    | .error e => .error e
    | .ok as => .ok (a :: as)

/-- Entries under the same keys with related values. -/
def SameKeys (r : α → β → Prop) (a : Text × α) (b : Text × β) : Prop := a.1 = b.1 ∧ r a.2 b.2

theorem insertKey_forall₂ {r : α → β → Prop} {k : Text} {a : α} {b : β} (hab : r a b)
    {l : List (Text × α)} {l' : List (Text × β)} (h : List.Forall₂ (SameKeys r) l l') :
    List.Forall₂ (SameKeys r) (insertKey k a l) (insertKey k b l') := by
  induction h with
  | nil => exact .cons ⟨rfl, hab⟩ .nil
  | @cons e e' l l' he hl ih =>
      obtain ⟨hkey, hval⟩ := he
      unfold insertKey
      rw [← hkey]
      by_cases hk : k = e.1
      · rw [if_pos hk, if_pos hk]
        exact .cons ⟨rfl, hab⟩ hl
      · rw [if_neg hk, if_neg hk]
        by_cases hlt : k < e.1
        · rw [if_pos hlt, if_pos hlt]
          exact .cons ⟨rfl, hab⟩ (.cons ⟨hkey, hval⟩ hl)
        · rw [if_neg hlt, if_neg hlt]
          exact .cons ⟨hkey, hval⟩ ih

/-- Members under the same keys build maps under the same keys. -/
theorem byKey_forall₂ {r : α → β → Prop} {l : List (Text × α)} {l' : List (Text × β)}
    (h : List.Forall₂ (SameKeys r) l l') :
    List.Forall₂ (SameKeys r) (byKey l) (byKey l') := by
  have hgen : ∀ {m : List (Text × α)} {m' : List (Text × β)}, List.Forall₂ (SameKeys r) m m' →
      List.Forall₂ (SameKeys r) (l.foldl (fun m e => insertKey e.1 e.2 m) m)
        (l'.foldl (fun m e => insertKey e.1 e.2 m) m') := by
    induction h with
    | nil => exact fun hm => hm
    | @cons e e' l l' he hl ih =>
        intro m m' hm
        refine ih ?_
        dsimp only
        rw [← he.1]
        exact insertKey_forall₂ he.2 hm
  exact hgen .nil

/-- What succeeds on the left succeeds alike on the right. -/
def Carried (a : Except ε α) (b : Except ε' α) : Prop := ∀ x, a = .ok x → b = .ok x

theorem allOk_carried {l : List (Except ε α)} {l' : List (Except ε' α)}
    (h : List.Forall₂ Carried l l') : Carried (allOk l) (allOk l') := by
  induction h with
  | nil =>
      intro xs hxs
      cases hxs
      rfl
  | @cons a b l l' hab hl ih =>
      intro xs hxs
      cases a with
      | error e => cases hxs
      | ok x =>
          rw [hab x rfl]
          unfold allOk at hxs ⊢
          cases hr : allOk l with
          | error e =>
              rw [hr] at hxs
              cases hxs
          | ok ys =>
              rw [hr] at hxs
              rw [ih ys hr]
              cases hxs
              rfl

theorem Carried.map {a : Except ε α} {b : Except ε' α} (h : Carried a b) (f : α → β) :
    Carried (a.map f) (b.map f) := by
  intro y hy
  cases a with
  | error e => cases hy
  | ok x =>
      rw [h x rfl]
      cases hy
      rfl

end

/-! ### Strings -/

/-- A character of a string: only the quote, the backslash and the control characters below 0x20
are escaped. -/
def escaped (c : Char) : Text :=
  if c = '"' then ['\\', '"']
  else if c = '\\' then ['\\', '\\']
  else if c = '\n' then ['\\', 'n']
  else if c = '\r' then ['\\', 'r']
  else if c = '\t' then ['\\', 't']
  else if c.toNat = 8 then ['\\', 'b']
  else if c.toNat = 12 then ['\\', 'f']
  else if c.toNat < 0x20 then
    ['\\', 'u', '0', '0', Nat.digitChar (c.toNat / 16), Nat.digitChar (c.toNat % 16)]
  else [c]

/-- A string as Python's encoder writes it with `ensure_ascii=False`: `write_string` of the
controller and `appendPyString` of the firmware. -/
def quoted (s : Text) : Text := '"' :: s.flatMap escaped ++ ['"']

/-! ### Values -/

section

variable {ν ε : Type} (num : ν → Except ε Text)

mutual

/-- The canonical form of a value whose numbers `num` writes. -/
def Json.canonical : Json ν → Except ε Text
  | .null => .ok "null".toList
  | .bool b => .ok (if b then "true".toList else "false".toList)
  | .num n => num n
  | .str s => .ok (quoted s)
  | .arr items => (allOk (canonicalItems items)).map fun parts =>
      '[' :: [','].intercalate parts ++ [']']
  | .obj members =>
      (allOk ((byKey (canonicalMembers members)).map fun (k, r) =>
        r.map fun t => quoted k ++ ':' :: t)).map fun parts =>
          '{' :: [','].intercalate parts ++ ['}']

def canonicalItems : List (Json ν) → List (Except ε Text)
  | [] => []
  | v :: vs => v.canonical :: canonicalItems vs

def canonicalMembers : List (Text × Json ν) → List (Text × Except ε Text)
  | [] => []
  | (k, v) :: ms => (k, v.canonical) :: canonicalMembers ms

end

end

section

variable {ν μ ε ε' : Type} {num : ν → Except ε Text} {num' : μ → Except ε' Text}
  {r : ν → μ → Prop}

mutual

/-- Encoders that agree on related numbers agree on related values. -/
theorem Json.Rel.canonical (hnum : ∀ n m, r n m → Carried (num n) (num' m)) {v : Json ν}
    {w : Json μ} (h : Json.Rel r v w) : Carried (v.canonical num) (w.canonical num') := by
  cases h with
  | null => exact fun _ h => by cases h; rfl
  | bool b => exact fun _ h => by cases h; rfl
  | num h => exact hnum _ _ h
  | str s => exact fun _ h => by cases h; rfl
  | arr h => exact (allOk_carried (RelItems.canonical hnum h)).map _
  | obj h =>
      refine (allOk_carried ?_).map _
      refine List.forall₂_map_left_iff.mpr (List.forall₂_map_right_iff.mpr ?_)
      refine (byKey_forall₂ (RelMembers.canonical hnum h)).imp fun ⟨k, a⟩ ⟨k', b⟩ hab => ?_
      obtain ⟨rfl, hval⟩ := hab
      exact hval.map _

theorem RelItems.canonical (hnum : ∀ n m, r n m → Carried (num n) (num' m))
    {vs : List (Json ν)} {ws : List (Json μ)} (h : RelItems r vs ws) :
    List.Forall₂ Carried (canonicalItems num vs) (canonicalItems num' ws) := by
  cases h with
  | nil => exact .nil
  | cons h hs => exact .cons (Json.Rel.canonical hnum h) (RelItems.canonical hnum hs)

theorem RelMembers.canonical (hnum : ∀ n m, r n m → Carried (num n) (num' m))
    {vs : List (Text × Json ν)} {ws : List (Text × Json μ)} (h : RelMembers r vs ws) :
    List.Forall₂ (SameKeys Carried) (canonicalMembers num vs) (canonicalMembers num' ws) := by
  cases h with
  | nil => exact .nil
  | cons k h hs =>
      exact .cons ⟨rfl, Json.Rel.canonical hnum h⟩ (RelMembers.canonical hnum hs)

end

end

/-! ### Numbers -/

/-- At least two digits. -/
def twoDigits (n : ℕ) : Text := if n < 10 then '0' :: decimal n else decimal n

/-- Shortest digits laid out as Python's `repr` does: positional for decimal exponents from -4 to
15, otherwise with an exponent of at least two digits. -/
def pyRepr (digits : Text) (exponent : ℤ) : Text :=
  if -4 ≤ exponent ∧ exponent < 16 then
    if exponent < 0 then
      ['0', '.'] ++ List.replicate (-exponent - 1).toNat '0' ++ digits
    else
      let point := exponent.toNat + 1
      if digits.length ≤ point then
        digits ++ List.replicate (point - digits.length) '0' ++ ['.', '0']
      else digits.take point ++ '.' :: digits.drop point
  else
    digits.take 1 ++ (if 1 < digits.length then '.' :: digits.drop 1 else []) ++
      'e' :: (if exponent < 0 then '-' else '+') :: twoDigits exponent.natAbs

/-- A finite double in Python's `repr` form. -/
def floatRepr (F : FloatText) (d : Double) : Text :=
  if d.isZero then if d.negative then "-0.0".toList else "0.0".toList
  else
    let (digits, exponent) := F.scientific d
    (if d.negative then ['-'] else []) ++ pyRepr digits exponent

/-- The controller's `write_float`. -/
def writeFloat (F : FloatText) (d : Double) : Except CanonicalError Text :=
  if d.finite then .ok (floatRepr F d) else .error .nonFinite

/-- The controller's form of a number it has built. -/
def writeNumber (F : FloatText) : Number → Except CanonicalError Text
  | .int z => .ok (integer z)
  | .float d => writeFloat F d

/-- Why the firmware has no canonical form of a number. -/
inductive NumberError
  | badInteger (s : Text)
  | badNumber (s : Text)
  | nonFinite
deriving DecidableEq

/-- The firmware's `appendPyFloat`. -/
def appendPyFloat (F : FloatText) (d : Double) : Except NumberError Text :=
  if d.finite then .ok (floatRepr F d) else .error .nonFinite

/-- `big.Int.SetString(s, 10)`. -/
def parseBig : Text → Option ℤ
  | '+' :: ds => if ds ≠ [] ∧ ds.all Char.isDigit = true then
      some (Nat.ofDigitChars 10 ds 0 : ℤ) else none
  | '-' :: ds => if ds ≠ [] ∧ ds.all Char.isDigit = true then
      some (-(Nat.ofDigitChars 10 ds 0 : ℤ)) else none
  | ds => if ds ≠ [] ∧ ds.all Char.isDigit = true then
      some (Nat.ofDigitChars 10 ds 0 : ℤ) else none

/-- The firmware's `appendPyNumber`: an integer exactly, a float as it reads it; one too large for
a double is refused. -/
def appendPyNumber (F : FloatText) (s : Text) : Except NumberError Text :=
  if ¬ s.any isFloatMark then
    match parseBig s with
    | some z => .ok (integer z)
    | none => .error (.badInteger s)
  else
    match F.parse s with
    | some d => if d.finite then appendPyFloat F d else .error (.badNumber s)
    | none => .error (.badNumber s)

/-- The controller's `write_value`. -/
def writeValue (F : FloatText) (v : Json Number) : Except CanonicalError Text :=
  v.canonical (writeNumber F)

/-- The firmware's `appendCanonical`. -/
def appendCanonical (F : FloatText) (v : Json Text) : Except NumberError Text :=
  v.canonical (appendPyNumber F)

/-! ### The wire -/

/-- The literal of an integer spells it. -/
theorem parseBig_integer (z : ℤ) : parseBig (integer z) = some z := by
  cases z with
  | negSucc n =>
      have hdigits : decimal (n + 1) ≠ [] ∧ (decimal (n + 1)).all Char.isDigit = true :=
        ⟨decimal_ne_nil _, decimal_all_isDigit _⟩
      change (if _ then _ else _) = _
      rw [if_pos hdigits, ofDigitChars_decimal]
      rfl
  | ofNat n =>
      have hdigits : decimal n ≠ [] ∧ (decimal n).all Char.isDigit = true :=
        ⟨decimal_ne_nil _, decimal_all_isDigit _⟩
      change parseBig (decimal n) = _
      unfold parseBig
      split
      · next ds heq =>
          have hall := hdigits.2
          rw [heq, List.all_cons] at hall
          cases hall
      · next ds heq =>
          have hall := hdigits.2
          rw [heq, List.all_cons] at hall
          cases hall
      · rw [if_pos hdigits, ofDigitChars_decimal]
        rfl

theorem isFloatMark_of_isDigit {c : Char} (h : c.isDigit = true) : isFloatMark c = false := by
  unfold isFloatMark
  rw [decide_eq_false_iff_not]
  rintro (rfl | rfl | rfl) <;> cases h

/-- An integer has no float mark. -/
theorem any_isFloatMark_integer (z : ℤ) : (integer z).any isFloatMark = false := by
  have hdecimal : ∀ n, (decimal n).any isFloatMark = false := fun n =>
    List.any_eq_false.mpr fun c hc => by
      rw [isFloatMark_of_isDigit (List.all_eq_true.mp (decimal_all_isDigit n) c hc)]
      exact Bool.false_ne_true
  cases z with
  | ofNat n => exact hdecimal n
  | negSucc n =>
      change ('-' :: decimal (n + 1)).any isFloatMark = false
      rw [List.any_cons, hdecimal]
      rfl

/-- The firmware writes the literal of a number as the controller writes the number. -/
theorem appendPyNumber_text (F : FloatText) (n : Number) :
    Carried (writeNumber F n) (appendPyNumber F (n.text F)) := by
  intro t ht
  cases n with
  | int z =>
      cases ht
      change appendPyNumber F (integer z) = _
      rw [appendPyNumber, any_isFloatMark_integer, if_pos Bool.false_ne_true, parseBig_integer]
  | float d =>
      change writeFloat F d = _ at ht
      unfold writeFloat at ht
      by_cases hd : d.finite
      · rw [if_pos hd] at ht
        cases ht
        change appendPyNumber F (F.print d) = _
        rw [appendPyNumber, F.print_float d hd, if_neg (not_not_intro rfl), F.parse_print d hd]
        dsimp only
        rw [if_pos hd, appendPyFloat, if_pos hd]
      · rw [if_neg hd] at ht
        cases ht

/-- The canonical form of what the firmware decodes is the canonical form of what was sent. -/
theorem appendCanonical_wire (F : FloatText) (v : Json Number) :
    Carried (writeValue F v) (appendCanonical F (v.wire F)) :=
  (Json.Rel.map (Number.text F) v).canonical fun n _ hm => hm ▸ appendPyNumber_text F n

end EchoMuse.Alerts
