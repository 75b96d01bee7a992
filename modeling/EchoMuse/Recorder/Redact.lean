import EchoMuse.Alerts.Json
import EchoMuse.Fields
import EchoMuse.Grammar.Normalize
import Mathlib.Data.List.Infix

/-!
# Credential Redaction

What the recorder takes out of the bodies Home Assistant is sent and answers before they are queued
(`redact.rs`). The character tables are a parameter, texts are lists of characters, and the count
of replaced values is unbounded.
-/

namespace EchoMuse.Recorder

open Alerts (Json Text)
open Fields (join splitOnce trim)

/-- What a redacted value is replaced with. -/
def redacted : Text := "[redacted]".toList

/-- What a credential key contains. -/
def credentialParts : List Text :=
  ["token", "password", "passwd", "secret", "cookie", "authorization", "credential", "apikey",
    "privatekey", "passphrase", "authsig", "signature"].map String.toList

/-- What a credential key is as a whole. -/
def credentialKeys : List Text := ["auth", "psk", "sig"].map String.toList

/-- A character of a key that does not count. -/
def isKeyMark (c : Char) : Bool := c = '_' ∨ c = '-' ∨ c = '.' ∨ c = ' '

/-- A character of a JSON Web Token's segments. -/
def isTokenChar (c : Char) : Bool := c.isAlphanum || c = '-' || c = '_' || c = '='

def isJwt (s : Text) : Bool :=
  let parts := s.splitOn '.'
  parts.length = 3 && "eyJ".toList.isPrefixOf s &&
    parts.all fun p => !p.isEmpty && p.all isTokenChar

section

variable (u : Grammar.Unicode)

/-- Whether a key names a credential. -/
def isCredentialKey (key : Text) : Bool :=
  let k := (key.filter fun c => !isKeyMark c).flatMap u.toLowercase
  credentialParts.any (fun p => decide (p <:+: k)) || credentialKeys.contains k

def isAuthorizationValue (s : Text) : Bool :=
  let lower := (s.dropWhile u.isWhitespace).map Char.toLower
  "bearer ".toList.isPrefixOf lower || "basic ".toList.isPrefixOf lower

/-- Whether a whole string is a credential. -/
def isCredential (s : Text) : Bool :=
  isAuthorizationValue u (trim u.isWhitespace s) || isJwt (trim u.isWhitespace s)

/-- One parameter of a query, and whether its value was replaced. -/
def redactParam (p : Text) : Text × Bool :=
  match splitOnce '=' p with
  | some (k, v) =>
    if isCredentialKey u k || isJwt v then (k ++ '=' :: redacted, true) else (p, false)
  | none => (p, false)

/-- A string with its credentials removed, and how many were. -/
def redactStr (s : Text) : Option Text × ℕ :=
  if isCredential u s then (some redacted, 1)
  else
    match splitOnce '?' s with
    | none => (none, 0)
    | some (base, query) =>
      let (query, fragment) :=
        match splitOnce '#' query with
        | some (q, f) => (q, some f)
        | none => (query, none)
      let params := (query.splitOn '&').map (redactParam u)
      let count := params.countP (·.2)
      if count = 0 then (none, 0)
      else
        let out := base ++ '?' :: join '&' (params.map (·.1))
        match fragment with
        | some f => (some (out ++ '#' :: f), count)
        | none => (some out, count)

variable {ν : Type}

mutual

/-- A value with its credentials removed, and how many were. -/
def redact : Json ν → Json ν × ℕ
  | .obj members =>
    let (members, n) := redactMembers members
    (.obj members, n)
  | .arr items =>
    let (items, n) := redactItems items
    (.arr items, n)
  | .str s =>
    match redactStr u s with
    | (some clean, n) => (.str clean, n)
    | (none, _) => (.str s, 0)
  | .null => (.null, 0)
  | .bool b => (.bool b, 0)
  | .num n => (.num n, 0)

def redactItems : List (Json ν) → List (Json ν) × ℕ
  | [] => ([], 0)
  | v :: vs => ((redact v).1 :: (redactItems vs).1, (redact v).2 + (redactItems vs).2)

def redactMembers : List (Text × Json ν) → List (Text × Json ν) × ℕ
  | [] => ([], 0)
  | (k, v) :: ms =>
    let rest := redactMembers ms
    if isCredentialKey u k then
      match v with
      | .null => ((k, .null) :: rest.1, rest.2)
      | _ => ((k, .str redacted) :: rest.1, rest.2 + 1)
    else ((k, (redact v).1) :: rest.1, (redact v).2 + rest.2)

end

end

end EchoMuse.Recorder
