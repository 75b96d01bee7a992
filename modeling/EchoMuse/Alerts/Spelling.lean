import EchoMuse.Alerts.Json

/-!
# JSON Texts

The grammar of JSON texts (RFC 8259) over the tree a text spells, with the literals of its
numbers. Whitespace, the order of members and the spelling of characters are free, so one tree
has many texts.
-/

namespace EchoMuse.Alerts

/-- The whitespace between tokens. -/
def isSpace (c : Char) : Bool := c = ' ' ∨ c = '\t' ∨ c = '\n' ∨ c = '\r'

/-- Whitespace, or nothing. -/
def Blank (t : Text) : Prop := t.all isSpace = true

/-! ### Numbers -/

/-- Digits, at least one. -/
def IsDigits (t : Text) : Prop := t ≠ [] ∧ t.all Char.isDigit = true

/-- The part of a number before the fraction: no leading zero. -/
def IsInteger (t : Text) : Prop := IsDigits t ∧ (t.head? = some '0' → t = ['0'])

/-- The fraction of a number, or nothing. -/
def IsFraction (t : Text) : Prop := t = [] ∨ ∃ ds, IsDigits ds ∧ t = '.' :: ds

/-- The sign of an exponent, or nothing. -/
def IsSign (t : Text) : Prop := t = [] ∨ t = ['+'] ∨ t = ['-']

/-- The exponent of a number, or nothing. -/
def IsExponent (t : Text) : Prop :=
  t = [] ∨ ∃ e s ds, (e = 'e' ∨ e = 'E') ∧ IsSign s ∧ IsDigits ds ∧ t = e :: (s ++ ds)

/-- A number literal. -/
def IsNumber (t : Text) : Prop :=
  ∃ s i f e, (s = [] ∨ s = ['-']) ∧ IsInteger i ∧ IsFraction f ∧ IsExponent e ∧
    t = s ++ (i ++ (f ++ e))

/-! ### Strings -/

/-- A hexadecimal digit of either case. -/
def isHexDigit (c : Char) : Bool :=
  c.isDigit || ('a' ≤ c && c ≤ 'f') || ('A' ≤ c && c ≤ 'F')

/-- The value of a hexadecimal digit. -/
def hexValue (c : Char) : ℕ :=
  if c.isDigit then c.toNat - '0'.toNat
  else if 'a' ≤ c ∧ c ≤ 'f' then c.toNat - 'a'.toNat + 10
  else c.toNat - 'A'.toNat + 10

/-- The number that hexadecimal digits spell. -/
def ofHex (t : Text) : ℕ := t.foldl (fun n c => 16 * n + hexValue c) 0

/-- Four hexadecimal digits. -/
def IsHex4 (t : Text) : Prop := t.length = 4 ∧ t.all isHexDigit = true

/-- The character of a one-letter escape. -/
def shortEscape : Char → Option Char
  | '"' => some '"'
  | '\\' => some '\\'
  | '/' => some '/'
  | 'b' => some (Char.ofNat 8)
  | 'f' => some (Char.ofNat 12)
  | 'n' => some '\n'
  | 'r' => some '\r'
  | 't' => some '\t'
  | _ => none

/-- A high or a low surrogate of UTF-16. -/
def isHighSurrogate (unit : ℕ) : Bool := 0xd800 ≤ unit ∧ unit ≤ 0xdbff

def isLowSurrogate (unit : ℕ) : Bool := 0xdc00 ≤ unit ∧ unit ≤ 0xdfff

/-- The scalar value of a surrogate pair. -/
def pairScalar (high low : ℕ) : ℕ := 0x10000 + (high - 0xd800) * 2 ^ 10 + (low - 0xdc00)

/-- The spellings of one character inside a string. -/
inductive SpellsChar : Char → Text → Prop
  | plain (c : Char) (hquote : c ≠ '"') (hslash : c ≠ '\\') (hcontrol : 0x20 ≤ c.toNat) :
      SpellsChar c [c]
  | short {e c : Char} (h : shortEscape e = some c) : SpellsChar c ['\\', e]
  | unit {hex : Text} (h : IsHex4 hex) (hhigh : isHighSurrogate (ofHex hex) = false)
      (hlow : isLowSurrogate (ofHex hex) = false) :
      SpellsChar (Char.ofNat (ofHex hex)) ('\\' :: 'u' :: hex)
  | pair {high low : Text} (hh : IsHex4 high) (hl : IsHex4 low)
      (hhigh : isHighSurrogate (ofHex high) = true) (hlow : isLowSurrogate (ofHex low) = true) :
      SpellsChar (Char.ofNat (pairScalar (ofHex high) (ofHex low)))
        ('\\' :: 'u' :: (high ++ '\\' :: 'u' :: low))

/-- The spellings of the inside of a string. -/
inductive SpellsChars : Text → Text → Prop
  | nil : SpellsChars [] []
  | cons {c : Char} {s t u : Text} (h : SpellsChar c t) (hs : SpellsChars s u) :
      SpellsChars (c :: s) (t ++ u)

/-! ### Values -/

mutual

/-- The texts of a value, without the whitespace around it. -/
inductive Spells : Json Text → Text → Prop
  | null : Spells .null "null".toList
  | bool (b : Bool) : Spells (.bool b) (if b then "true".toList else "false".toList)
  | num {n : Text} (h : IsNumber n) : Spells (.num n) n
  | str {s t : Text} (h : SpellsChars s t) : Spells (.str s) ('"' :: t ++ ['"'])
  | arrNil {b : Text} (h : Blank b) : Spells (.arr []) ('[' :: b ++ [']'])
  | arr {v : Json Text} {vs : List (Json Text)} {t : Text} (h : SpellsItems (v :: vs) t) :
      Spells (.arr (v :: vs)) ('[' :: t ++ [']'])
  | objNil {b : Text} (h : Blank b) : Spells (.obj []) ('\x7b' :: b ++ ['\x7d'])
  | obj {m : Text × Json Text} {ms : List (Text × Json Text)} {t : Text}
      (h : SpellsMembers (m :: ms) t) : Spells (.obj (m :: ms)) ('\x7b' :: t ++ ['\x7d'])

/-- The texts of the items of an array, at least one. -/
inductive SpellsItems : List (Json Text) → Text → Prop
  | last {v : Json Text} {a b t : Text} (ha : Blank a) (hb : Blank b) (h : Spells v t) :
      SpellsItems [v] (a ++ (t ++ b))
  | cons {v w : Json Text} {vs : List (Json Text)} {a b t u : Text} (ha : Blank a) (hb : Blank b)
      (h : Spells v t) (hs : SpellsItems (w :: vs) u) :
      SpellsItems (v :: w :: vs) (a ++ (t ++ (b ++ ',' :: u)))

/-- The texts of the members of an object, at least one. -/
inductive SpellsMembers : List (Text × Json Text) → Text → Prop
  | last {k : Text} {v : Json Text} {a b c d s t : Text} (ha : Blank a) (hb : Blank b)
      (hc : Blank c) (hd : Blank d) (hk : SpellsChars k s) (h : Spells v t) :
      SpellsMembers [(k, v)] (a ++ '"' :: (s ++ '"' :: (b ++ ':' :: (c ++ (t ++ d)))))
  | cons {k : Text} {v : Json Text} {m : Text × Json Text} {ms : List (Text × Json Text)}
      {a b c d s t u : Text} (ha : Blank a) (hb : Blank b) (hc : Blank c) (hd : Blank d)
      (hk : SpellsChars k s) (h : Spells v t) (hs : SpellsMembers (m :: ms) u) :
      SpellsMembers ((k, v) :: m :: ms)
        (a ++ '"' :: (s ++ '"' :: (b ++ ':' :: (c ++ (t ++ (d ++ ',' :: u))))))

end

/-- The texts of a value, with the whitespace around it. -/
def SpellsText (v : Json Text) (t : Text) : Prop :=
  ∃ a b u, Blank a ∧ Blank b ∧ Spells v u ∧ t = a ++ (u ++ b)

/-! ### Nesting -/

section

variable {ν μ : Type}

mutual

/-- How deep arrays and objects are nested. -/
def Json.depth : Json ν → ℕ
  | .arr items => depthItems items + 1
  | .obj members => depthMembers members + 1
  | _ => 0

def depthItems : List (Json ν) → ℕ
  | [] => 0
  | v :: vs => max v.depth (depthItems vs)

def depthMembers : List (Text × Json ν) → ℕ
  | [] => 0
  | (_, v) :: ms => max v.depth (depthMembers ms)

end

mutual

/-- Values that differ in their numbers are nested alike. -/
theorem Json.Rel.depth_eq {r : ν → μ → Prop} {v : Json ν} {w : Json μ} (h : Json.Rel r v w) :
    v.depth = w.depth := by
  cases h with
  | null => rfl
  | bool b => rfl
  | num h => rfl
  | str s => rfl
  | arr h => simp only [Json.depth, RelItems.depth_eq h]
  | obj h => simp only [Json.depth, RelMembers.depth_eq h]

theorem RelItems.depth_eq {r : ν → μ → Prop} {vs : List (Json ν)} {ws : List (Json μ)}
    (h : RelItems r vs ws) : depthItems vs = depthItems ws := by
  cases h with
  | nil => rfl
  | cons h hs => simp only [depthItems, Json.Rel.depth_eq h, RelItems.depth_eq hs]

theorem RelMembers.depth_eq {r : ν → μ → Prop} {vs : List (Text × Json ν)}
    {ws : List (Text × Json μ)} (h : RelMembers r vs ws) : depthMembers vs = depthMembers ws := by
  cases h with
  | nil => rfl
  | cons k h hs => simp only [depthMembers, Json.Rel.depth_eq h, RelMembers.depth_eq hs]

end

end

end EchoMuse.Alerts
