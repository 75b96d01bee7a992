import EchoMuse.Alerts.Objects

/-!
# JSON Values

JSON trees, with the numbers of a value built in the controller or with number literals as the
firmware decodes them. `FloatText` is how both sides print, read and take apart doubles.
-/

namespace EchoMuse.Alerts

/-- A JSON value with numbers of type `ν`. -/
inductive Json (ν : Type)
  | null
  | bool (b : Bool)
  | num (n : ν)
  | str (s : Text)
  | arr (items : List (Json ν))
  | obj (members : List (Text × Json ν))

/-- A member of an object; the last of several under one key counts. -/
def Json.get? {ν : Type} (members : List (Text × Json ν)) (key : Text) : Option (Json ν) :=
  (members.reverse.find? (·.1 = key)).map (·.2)

/-! ### Numbers -/

namespace Double

/-- A finite double: its exponent is not all ones. -/
def finite (d : Double) : Prop := d.toNat / 2 ^ 52 % 2 ^ 11 ≠ 2 ^ 11 - 1

instance : DecidablePred finite := fun _ => inferInstanceAs (Decidable (_ ≠ _))

/-- The sign bit. -/
def negative (d : Double) : Bool := d.msb

/-- Zero of either sign. -/
def isZero (d : Double) : Bool := d.toNat % 2 ^ 63 = 0

end Double

/-- The characters that make a literal a float. -/
def isFloatMark (c : Char) : Bool := c = '.' ∨ c = 'e' ∨ c = 'E'

/-- How doubles are printed and read. `print` is the controller's JSON library, `parse` reads a
literal as the nearest double, infinite when it is too large, and `scientific` gives the shortest
digits that read back as the magnitude of a double, with the decimal exponent of the first. -/
structure FloatText where
  print : Double → Text
  parse : Text → Option Double
  scientific : Double → Text × ℤ
  parse_print : ∀ d : Double, d.finite → parse (print d) = some d
  print_float : ∀ d : Double, d.finite → (print d).any isFloatMark = true

/-- A number of a value built in the controller. -/
inductive Number
  | int (z : ℤ)
  | float (d : Double)

/-- The decimal literal of `n`. -/
def decimal (n : ℕ) : Text := Nat.toDigits 10 n

theorem decimal_all_isDigit (n : ℕ) : (decimal n).all Char.isDigit = true :=
  List.all_eq_true.mpr fun _ hc => Nat.isDigit_of_mem_toDigits (by decide) (by decide) hc

theorem decimal_ne_nil (n : ℕ) : decimal n ≠ [] := Nat.toDigits_ne_nil

theorem ofDigitChars_decimal (n : ℕ) : Nat.ofDigitChars 10 (decimal n) 0 = n :=
  Nat.ofDigitChars_ten_toDigits

/-- The decimal literal of an integer. -/
def integer : ℤ → Text
  | .ofNat n => decimal n
  | .negSucc n => '-' :: decimal (n + 1)

/-- A number's literal on the wire. -/
def Number.text (F : FloatText) : Number → Text
  | .int z => integer z
  | .float d => F.print d

/-! ### Trees with other numbers -/

section

variable {ν μ : Type}

mutual

/-- A value with its numbers replaced. -/
def Json.map (f : ν → μ) : Json ν → Json μ
  | .null => .null
  | .bool b => .bool b
  | .num n => .num (f n)
  | .str s => .str s
  | .arr items => .arr (mapItems f items)
  | .obj members => .obj (mapMembers f members)

def mapItems (f : ν → μ) : List (Json ν) → List (Json μ)
  | [] => []
  | v :: vs => v.map f :: mapItems f vs

def mapMembers (f : ν → μ) : List (Text × Json ν) → List (Text × Json μ)
  | [] => []
  | (k, v) :: ms => (k, v.map f) :: mapMembers f ms

end

mutual

/-- Two values that differ in their numbers only, those being related by `r`. -/
inductive Json.Rel (r : ν → μ → Prop) : Json ν → Json μ → Prop
  | null : Json.Rel r .null .null
  | bool (b : Bool) : Json.Rel r (.bool b) (.bool b)
  | num {n : ν} {m : μ} (h : r n m) : Json.Rel r (.num n) (.num m)
  | str (s : Text) : Json.Rel r (.str s) (.str s)
  | arr {vs : List (Json ν)} {ws : List (Json μ)} (h : RelItems r vs ws) :
      Json.Rel r (.arr vs) (.arr ws)
  | obj {vs : List (Text × Json ν)} {ws : List (Text × Json μ)} (h : RelMembers r vs ws) :
      Json.Rel r (.obj vs) (.obj ws)

inductive RelItems (r : ν → μ → Prop) : List (Json ν) → List (Json μ) → Prop
  | nil : RelItems r [] []
  | cons {v : Json ν} {w : Json μ} {vs : List (Json ν)} {ws : List (Json μ)}
      (h : Json.Rel r v w) (hs : RelItems r vs ws) : RelItems r (v :: vs) (w :: ws)

inductive RelMembers (r : ν → μ → Prop) : List (Text × Json ν) → List (Text × Json μ) → Prop
  | nil : RelMembers r [] []
  | cons (k : Text) {v : Json ν} {w : Json μ} {vs : List (Text × Json ν)}
      {ws : List (Text × Json μ)} (h : Json.Rel r v w) (hs : RelMembers r vs ws) :
      RelMembers r ((k, v) :: vs) ((k, w) :: ws)

end

mutual

/-- A value is related to itself by a reflexive relation. -/
theorem Json.Rel.refl {r : ν → ν → Prop} (hr : ∀ n, r n n) : (v : Json ν) → Json.Rel r v v
  | .null => .null
  | .bool b => .bool b
  | .num n => .num (hr n)
  | .str s => .str s
  | .arr items => .arr (RelItems.refl hr items)
  | .obj members => .obj (RelMembers.refl hr members)

theorem RelItems.refl {r : ν → ν → Prop} (hr : ∀ n, r n n) :
    (vs : List (Json ν)) → RelItems r vs vs
  | [] => .nil
  | v :: vs => .cons (Json.Rel.refl hr v) (RelItems.refl hr vs)

theorem RelMembers.refl {r : ν → ν → Prop} (hr : ∀ n, r n n) :
    (ms : List (Text × Json ν)) → RelMembers r ms ms
  | [] => .nil
  | (k, v) :: ms => .cons k (Json.Rel.refl hr v) (RelMembers.refl hr ms)

end

mutual

/-- Replacing the numbers relates them. -/
theorem Json.Rel.map (f : ν → μ) : (v : Json ν) → Json.Rel (fun n m => m = f n) v (v.map f)
  | .null => .null
  | .bool b => .bool b
  | .num _ => .num rfl
  | .str s => .str s
  | .arr items => .arr (RelItems.map f items)
  | .obj members => .obj (RelMembers.map f members)

theorem RelItems.map (f : ν → μ) :
    (vs : List (Json ν)) → RelItems (fun n m => m = f n) vs (mapItems f vs)
  | [] => .nil
  | v :: vs => .cons (Json.Rel.map f v) (RelItems.map f vs)

theorem RelMembers.map (f : ν → μ) :
    (ms : List (Text × Json ν)) → RelMembers (fun n m => m = f n) ms (mapMembers f ms)
  | [] => .nil
  | (k, v) :: ms => .cons k (Json.Rel.map f v) (RelMembers.map f ms)

end

end

/-- A value as it is read from the wire: with the literals of its numbers. -/
def Json.wire (F : FloatText) (v : Json Number) : Json Text := v.map (Number.text F)

end EchoMuse.Alerts
