import EchoMuse.Alerts.Spelling

/-!
# Reading JSON

The controller's strict parser (`Parser` of `canonical.rs`) and the firmware's `decodeGeneric`,
which is `encoding/json` with `UseNumber`. Both read values in the same way; a `Reader` is what
they do differently: how strings and numbers are read, and which errors they give. A position in
a text is what is left of it from there.

## Main results

* `loop_fuel`: the bound on a loop over a text does not matter once it is longer than the text.
-/

namespace EchoMuse.Alerts

/-! ### Loops -/

section

variable {ε α : Type}

/-- Runs `step` over the text until it says that it has stopped, and collects what it gives. -/
def loop (spent : ε) (step : Text → Except ε (List α × Bool × Text)) :
    ℕ → Text → Except ε (List α × Text)
  | 0, _ => .error spent
  | n + 1, rest =>
    match step rest with
    | .error e => .error e
    | .ok (as, false, rest) => .ok (as, rest)
    | .ok (as, true, rest) =>
      match loop spent step n rest with
      | .error e => .error e
      | .ok (bs, rest) => .ok (as ++ bs, rest)

/-- A step that reads something whenever it goes on. -/
def Shortens (step : Text → Except ε (List α × Bool × Text)) : Prop :=
  ∀ rest as rest', step rest = .ok (as, true, rest') → rest'.length < rest.length

/-- The result does not depend on the bound once it is longer than the text. -/
theorem loop_fuel {spent : ε} {step : Text → Except ε (List α × Bool × Text)}
    (hstep : Shortens step) {n m : ℕ} {rest : Text} (hn : rest.length < n)
    (hm : rest.length < m) : loop spent step n rest = loop spent step m rest := by
  induction n generalizing m rest with
  | zero => omega
  | succ n ih =>
      obtain ⟨m, rfl⟩ : ∃ m', m = m' + 1 := ⟨m - 1, by omega⟩
      simp only [loop]
      rcases hs : step rest with e | ⟨as, more, rest'⟩
      · rfl
      · cases more with
        | false => rfl
        | true =>
            have hlt := hstep rest as rest' hs
            dsimp only
            rw [ih (m := m) (by omega) (by omega)]

end

/-! ### Values -/

section

variable {ε ν : Type}

/-- How one of the two sides reads: the error for a wrong character, the one for too deep a
nesting, and what it makes of a string (after its opening quote) and of a number. -/
structure Reader (ε ν : Type) where
  bad : String → Text → ε
  deep : ε
  string : Text → Except ε (Text × Text)
  number : Text → Except ε (ν × Text)

namespace Reader

variable (R : Reader ε ν)

/-- Skips whitespace. -/
def whitespace (rest : Text) : Text := rest.dropWhile isSpace

/-- A fixed word. -/
def literal (word : String) (node : Json ν) (rest : Text) : Except ε (Json ν × Text) :=
  if word.toList <+: rest then .ok (node, rest.drop word.toList.length)
  else .error (R.bad word rest)

/-- One item of an array and what follows it. -/
def item (value : Text → Except ε (Json ν × Text)) (rest : Text) :
    Except ε (List (Json ν) × Bool × Text) :=
  match value rest with
  | .error e => .error e
  | .ok (v, rest) =>
    match whitespace rest with
    | ',' :: rest => .ok ([v], true, rest)
    | ']' :: rest => .ok ([v], false, rest)
    | rest => .error (R.bad "',' or ']'" rest)

/-- An array, after its opening bracket. -/
def array (value : Text → Except ε (Json ν × Text)) (rest : Text) :
    Except ε (Json ν × Text) :=
  match whitespace rest with
  | ']' :: rest => .ok (.arr [], rest)
  | rest =>
    match loop (R.bad "',' or ']'" rest) (R.item value) (rest.length + 1) rest with
    | .error e => .error e
    | .ok (items, rest) => .ok (.arr items, rest)

/-- The key of a member and the colon after it. -/
def key (rest : Text) : Except ε (Text × Text) :=
  match whitespace rest with
  | '"' :: rest =>
    match R.string rest with
    | .error e => .error e
    | .ok (k, rest) =>
      match whitespace rest with
      | ':' :: rest => .ok (k, rest)
      | rest => .error (R.bad "':'" rest)
  | rest => .error (R.bad "an object key" rest)

/-- One member of an object and what follows it. -/
def member (value : Text → Except ε (Json ν × Text)) (rest : Text) :
    Except ε (List (Text × Json ν) × Bool × Text) :=
  match R.key rest with
  | .error e => .error e
  | .ok (k, rest) =>
    match value rest with
    | .error e => .error e
    | .ok (v, rest) =>
      match whitespace rest with
      | ',' :: rest => .ok ([(k, v)], true, rest)
      | '\x7d' :: rest => .ok ([(k, v)], false, rest)
      | rest => .error (R.bad "',' or '\x7d'" rest)

/-- An object, after its opening brace. -/
def object (value : Text → Except ε (Json ν × Text)) (rest : Text) :
    Except ε (Json ν × Text) :=
  match whitespace rest with
  | '\x7d' :: rest => .ok (.obj [], rest)
  | rest =>
    match loop (R.bad "',' or '\x7d'" rest) (R.member value) (rest.length + 1) rest with
    | .error e => .error e
    | .ok (members, rest) => .ok (.obj members, rest)

/-- A value, with at most so many arrays and objects around one another. -/
def value : ℕ → Text → Except ε (Json ν × Text)
  | depth, rest =>
    match whitespace rest with
    | 'n' :: rest => R.literal "null" .null ('n' :: rest)
    | 't' :: rest => R.literal "true" (.bool true) ('t' :: rest)
    | 'f' :: rest => R.literal "false" (.bool false) ('f' :: rest)
    | '"' :: rest =>
      match R.string rest with
      | .error e => .error e
      | .ok (s, rest) => .ok (.str s, rest)
    | '[' :: rest =>
      match depth with
      | 0 => .error R.deep
      | depth + 1 => R.array (value depth) rest
    | '\x7b' :: rest =>
      match depth with
      | 0 => .error R.deep
      | depth + 1 => R.object (value depth) rest
    | c :: rest =>
      if c = '-' ∨ c.isDigit = true then
        match R.number (c :: rest) with
        | .error e => .error e
        | .ok (n, rest) => .ok (.num n, rest)
      else .error (R.bad "a JSON value" (c :: rest))
    | [] => .error (R.bad "a JSON value" [])

end Reader

end

/-! ### Numbers -/

/-- Skips the sign of a number. -/
def skipMinus : Text → Text
  | '-' :: rest => rest
  | rest => rest

/-- Skips the sign of an exponent. -/
def skipSign : Text → Text
  | '+' :: rest => rest
  | '-' :: rest => rest
  | rest => rest

section

variable {ε : Type} (bad : String → Text → ε)

/-- The rest after an exponent, and whether the number is a float. -/
def exponentEnd (float : Bool) : Text → Except ε (Bool × Text)
  | [] => .ok (float, [])
  | c :: rest =>
    if c = 'e' ∨ c = 'E' then
      if ((skipSign rest).takeWhile Char.isDigit).length = 0 then
        .error (bad "an exponent digit" (skipSign rest))
      else .ok (true, (skipSign rest).dropWhile Char.isDigit)
    else .ok (float, c :: rest)

/-- The rest after a fraction and an exponent. -/
def fractionEnd : Text → Except ε (Bool × Text)
  | '.' :: rest =>
    if (rest.takeWhile Char.isDigit).length = 0 then .error (bad "a fraction digit" rest)
    else exponentEnd bad true (rest.dropWhile Char.isDigit)
  | rest => exponentEnd bad false rest

/-- The rest after a number, and whether it is a float. -/
def numberEnd (rest : Text) : Except ε (Bool × Text) :=
  match skipMinus rest with
  | '0' :: rest => fractionEnd bad rest
  | c :: rest =>
    if c.isDigit = true then fractionEnd bad (rest.dropWhile Char.isDigit)
    else .error (bad "a digit" (c :: rest))
  | [] => .error (bad "a digit" [])

end

/-! ### Strings -/

/-- One character of a string, or its closing quote: `unclosed` is the error at the end of the
text and `unicode` reads a `u` escape, given the text from its backslash on. -/
def stringChar {ε : Type} (unclosed : ε) (bad : String → Text → ε)
    (unicode : Text → Text → Except ε (Char × Text)) : Text → Except ε (Text × Bool × Text)
  | [] => .error unclosed
  | '"' :: rest => .ok ([], false, rest)
  | '\\' :: [] => .error (bad "an escape" [])
  | '\\' :: 'u' :: rest =>
    match unicode ('\\' :: 'u' :: rest) rest with
    | .error e => .error e
    | .ok (c, rest) => .ok ([c], true, rest)
  | '\\' :: e :: rest =>
    match shortEscape e with
    | some c => .ok ([c], true, rest)
    | none => .error (bad "a valid escape" ('\\' :: e :: rest))
  | c :: rest =>
    if c.toNat < 0x20 then .error (bad "no raw control character in a string" (c :: rest))
    else .ok ([c], true, rest)

/-! ### The controller -/

/-- The size of a text in UTF-8. -/
def utf8Size (t : Text) : ℕ := (t.map Char.utf8Size).sum

/-- A number of a parsed text: an integer as its decimal digits, a float as a double. -/
inductive NodeNumber
  | integer (digits : Text)
  | float (d : Double)

namespace Parser

variable (text : Text)

/-- The byte offset of what is left of the text. -/
def pos (rest : Text) : ℕ := utf8Size text - utf8Size rest

/-- The parser's `syntax` error. -/
def bad (expected : String) (rest : Text) : CanonicalError := .badSyntax (pos text rest) expected

/-- Four hex digits of an escape. -/
def hex4 (rest : Text) : Except CanonicalError (ℕ × Text) :=
  if (rest.take 4).length = 4 ∧ (rest.take 4).all isHexDigit = true then
    .ok (ofHex (rest.take 4), rest.drop 4)
  else .error (bad text "four hex digits" rest)

/-- A `u` escape, after the `u`; `escape` is the text from its backslash on. -/
def unicode (escape rest : Text) : Except CanonicalError (Char × Text) :=
  match hex4 text rest with
  | .error e => .error e
  | .ok (unit, rest) =>
    if isHighSurrogate unit = true then
      match rest with
      | '\\' :: 'u' :: rest =>
        match hex4 text rest with
        | .error e => .error e
        | .ok (low, rest) =>
          if isLowSurrogate low = true then .ok (Char.ofNat (pairScalar unit low), rest)
          else .error (.loneSurrogate (pos text escape))
      | _ => .error (.loneSurrogate (pos text escape))
    else if isLowSurrogate unit = true then .error (.loneSurrogate (pos text escape))
    else .ok (Char.ofNat unit, rest)

/-- One character of a string, or its closing quote. -/
def char : Text → Except CanonicalError (Text × Bool × Text) :=
  stringChar (.badSyntax (utf8Size text) "'\"'") (bad text) (unicode text)

/-- A string, after its opening quote. -/
def string (rest : Text) : Except CanonicalError (Text × Text) :=
  loop (.badSyntax (utf8Size text) "'\"'") (char text) (rest.length + 1) rest

/-- A number: an integer keeps its digits, a float must be finite. -/
def number (F : FloatText) (rest : Text) : Except CanonicalError (NodeNumber × Text) :=
  match numberEnd (bad text) rest with
  | .error e => .error e
  | .ok (float, rest') =>
    let literal := rest.take (rest.length - rest'.length)
    if float = false then
      .ok (.integer (if literal = "-0".toList then "0".toList else literal), rest')
    else
      match F.parse literal with
      | none => .error (bad text "a number" rest)
      | some d => if d.finite then .ok (.float d, rest') else .error .nonFinite

end Parser

/-- The controller's reader of a text. -/
def parser (F : FloatText) (text : Text) : Reader CanonicalError NodeNumber where
  bad := Parser.bad text
  deep := .tooDeep
  string := Parser.string text
  number := Parser.number text F

/-- The deepest nesting of `canonical_json_text`. -/
def maxDepth : ℕ := 128

/-! ### The firmware -/

/-- Why the firmware does not decode a text. -/
inductive DecodeError
  | badSyntax
  | tooDeep
  | trailingData
deriving DecidableEq

namespace Decoder

/-- Four hex digits of an escape, when they are there. -/
def getu4 (rest : Text) : Option ℕ :=
  if (rest.take 4).length = 4 ∧ (rest.take 4).all isHexDigit = true then
    some (ofHex (rest.take 4))
  else none

/-- A `u` escape, after the `u`: an unpaired surrogate gives the replacement character. -/
def unicode (rest : Text) : Except DecodeError (Char × Text) :=
  match getu4 rest with
  | none => .error .badSyntax
  | some unit =>
    let after := rest.drop 4
    if isHighSurrogate unit = true ∨ isLowSurrogate unit = true then
      match after with
      | '\\' :: 'u' :: next =>
        match getu4 next with
        | some low =>
          if isHighSurrogate unit = true ∧ isLowSurrogate low = true then
            .ok (Char.ofNat (pairScalar unit low), next.drop 4)
          else .ok (Char.ofNat 0xfffd, after)
        | none => .ok (Char.ofNat 0xfffd, after)
      | _ => .ok (Char.ofNat 0xfffd, after)
    else .ok (Char.ofNat unit, after)

/-- One character of a string, or its closing quote. -/
def char : Text → Except DecodeError (Text × Bool × Text) :=
  stringChar .badSyntax (fun _ _ => .badSyntax) fun _ => unicode

/-- A string, after its opening quote. -/
def string (rest : Text) : Except DecodeError (Text × Text) :=
  loop .badSyntax char (rest.length + 1) rest

/-- A number, as its literal. -/
def number (rest : Text) : Except DecodeError (Text × Text) :=
  match numberEnd (fun _ _ => DecodeError.badSyntax) rest with
  | .error e => .error e
  | .ok (_, rest') => .ok (rest.take (rest.length - rest'.length), rest')

end Decoder

/-- The reader of `encoding/json` with `UseNumber`. -/
def decoder : Reader DecodeError Text where
  bad := fun _ _ => .badSyntax
  deep := .tooDeep
  string := Decoder.string
  number := Decoder.number

/-- The deepest nesting `encoding/json` decodes. -/
def maxNestingDepth : ℕ := 10000

/-- The firmware's `decodeGeneric`: one value, and nothing after it. -/
def decodeGeneric (raw : Text) : Except DecodeError (Json Text) :=
  match decoder.value maxNestingDepth raw with
  | .error e => .error e
  | .ok (v, rest) => if Reader.whitespace rest = [] then .ok v else .error .trailingData

end EchoMuse.Alerts
