import EchoMuse.Alerts.Json

/-!
# Alert Objects on the Wire

How an alert object travels: the controller serialises it to JSON, and the firmware decodes the
JSON, keeping each number as its literal, and validates it field by field. The JSON text between
the two is the job of the two JSON libraries, so an object on the wire is a JSON tree whose numbers
are literals.

## Main results

* `Uuid.parse_text`, `AlertSound.parse_text`, `OccurrenceKind.parse_text`,
  `TombstoneReason.parse_text`: the firmware reads back the texts the controller writes;
* `parseInt_decimal`: it reads a decimal exactly when it fits an `int64`.
-/

namespace EchoMuse.Alerts

/-! ### The controller's serialisation -/

/-- The lowercase hexadecimal digit of `n < 16`. -/
def hexDigit (n : ℕ) : Char := n.digitChar

/-- Two digits for each byte. -/
def encodeHex (bytes : List UInt8) : Text :=
  bytes.flatMap fun b => [hexDigit (b.toNat / 16), hexDigit (b.toNat % 16)]

/-- The lowercase hyphenated form. -/
def Uuid.text (u : Uuid) : Text :=
  let b := u.toList
  encodeHex (b.take 4) ++ '-' :: encodeHex ((b.drop 4).take 2) ++
    '-' :: encodeHex ((b.drop 6).take 2) ++ '-' :: encodeHex ((b.drop 8).take 2) ++
    '-' :: encodeHex (b.drop 10)

def OccurrenceKind.text : OccurrenceKind → Text
  | .alarm => "alarm".toList
  | .snooze => "snooze".toList

def TombstoneReason.text : TombstoneReason → Text
  | .dismissed => "dismissed".toList
  | .snoozed => "snoozed".toList
  | .expired => "expired".toList
  | .deleted => "deleted".toList

/-- The name of the built-in fallback tone. -/
def soundFallback : Text := "builtin:fallback".toList

def AlertSound.text : AlertSound → Text
  | .fallback => soundFallback
  | .asset sha => sha.hex

/-- An occurrence object as JSON; the due time is a decimal string. -/
def OccurrenceObject.value (o : OccurrenceObject) : Json Number :=
  .obj
    [("due_local".toList, .str o.dueLocal),
     ("due_utc_ms".toList, .str (decimal o.dueUtcMs)),
     ("kind".toList, .str o.kind.text),
     ("label".toList, .str o.label),
     ("loop_gap_ms".toList, .num (.int o.loopGapMs)),
     ("max_ring_ms".toList, .num (.int o.maxRingMs)),
     ("occurrence_id".toList, .str (Uuid.text o.occurrenceId)),
     ("ramp_ms".toList, .num (.int o.rampMs)),
     ("revision".toList, .num (.int o.revision)),
     ("schedule_id".toList, .str (Uuid.text o.scheduleId)),
     ("snooze_ms".toList, .num (.int o.snoozeMs)),
     ("sound".toList, .str o.sound.text),
     ("volume".toList, match o.volume with
       | some v => .num (.float v.gain)
       | none => .null)]

/-- A tombstone object as JSON. -/
def TombstoneObject.value (t : TombstoneObject) : Json Number :=
  .obj
    [("occurrence_id".toList, .str (Uuid.text t.occurrenceId)),
     ("revision".toList, .num (.int t.revision)),
     ("tombstone".toList, .str t.tombstone.text)]

def CacheObject.value : CacheObject → Json Number
  | .occurrence o => o.value
  | .tombstone t => t.value

/-! ### The firmware's field texts -/

/-- The number that digits spell. -/
def parseDigits (ds : Text) : Option ℕ :=
  if ds ≠ [] ∧ ds.all Char.isDigit = true then some (Nat.ofDigitChars 10 ds 0) else none

/-- `strconv.ParseInt(s, 10, 64)`. -/
def parseInt : Text → Option ℤ
  | '+' :: ds => (parseDigits ds).bind fun n => if n < 2 ^ 63 then some (n : ℤ) else none
  | '-' :: ds => (parseDigits ds).bind fun n => if n ≤ 2 ^ 63 then some (-(n : ℤ)) else none
  | ds => (parseDigits ds).bind fun n => if n < 2 ^ 63 then some (n : ℤ) else none

/-- A hexadecimal digit of either case. -/
def unhex (c : Char) : Option ℕ :=
  if c.isDigit then some (c.toNat - '0'.toNat)
  else if 'a' ≤ c ∧ c ≤ 'f' then some (c.toNat - 'a'.toNat + 10)
  else if 'A' ≤ c ∧ c ≤ 'F' then some (c.toNat - 'A'.toNat + 10)
  else none

/-- `hex.Decode`. -/
def decodeHex : Text → Option (List UInt8)
  | [] => some []
  | [_] => none
  | a :: b :: rest => do
    let hi ← unhex a
    let lo ← unhex b
    let bytes ← decodeHex rest
    return UInt8.ofNat (16 * hi + lo) :: bytes

/-- `uuid.Parse`: the hyphenated form of 36 characters, either case. -/
def Uuid.parse (s : Text) : Option Uuid :=
  if s.length = 36 ∧ s[8]? = some '-' ∧ s[13]? = some '-' ∧ s[18]? = some '-' ∧
      s[23]? = some '-' then
    (decodeHex (s.take 8 ++ (s.drop 9).take 4 ++ (s.drop 14).take 4 ++ (s.drop 19).take 4 ++
      s.drop 24)).bind fun bytes =>
      if h : bytes.length = 16 then some ⟨bytes.toArray, by simpa using h⟩ else none
  else none

/-- `assets.IsSHA256` and the fallback's name. -/
def AlertSound.parse (s : Text) : Option AlertSound :=
  if s = soundFallback then some .fallback
  else if h : s.length = 64 ∧ ∀ c ∈ s, isHexLower c = true then some (.asset ⟨s, h⟩)
  else none

def OccurrenceKind.parse (s : Text) : Option OccurrenceKind :=
  if s = "alarm".toList then some .alarm
  else if s = "snooze".toList then some .snooze
  else none

def TombstoneReason.parse (s : Text) : Option TombstoneReason :=
  if s = "dismissed".toList then some .dismissed
  else if s = "snoozed".toList then some .snoozed
  else if s = "expired".toList then some .expired
  else if s = "deleted".toList then some .deleted
  else none

/-! ### Reading back what was written -/

/-- A decimal spells its number. -/
theorem parseDigits_decimal (n : ℕ) : parseDigits (decimal n) = some n := by
  rw [parseDigits, if_pos ⟨decimal_ne_nil n, decimal_all_isDigit n⟩, ofDigitChars_decimal]

/-- A decimal is read as an `int64` exactly when it fits one. -/
theorem parseInt_decimal (n : ℕ) :
    parseInt (decimal n) = if n < 2 ^ 63 then some (n : ℤ) else none := by
  have hdigit : ∀ c ∈ decimal n, c.isDigit = true := List.all_eq_true.mp (decimal_all_isDigit n)
  unfold parseInt
  split
  · next ds heq =>
      have := hdigit '+' (heq ▸ List.mem_cons_self)
      cases this
  · next ds heq =>
      have := hdigit '-' (heq ▸ List.mem_cons_self)
      cases this
  · rw [parseDigits_decimal, Option.bind_some]

theorem unhex_hexDigit (n : Fin 16) : unhex (hexDigit n) = some n.val := by
  revert n
  decide

/-- Hexadecimal digits are read back as the bytes they were written from. -/
theorem decodeHex_encodeHex (bytes : List UInt8) : decodeHex (encodeHex bytes) = some bytes := by
  induction bytes with
  | nil => rfl
  | cons b bytes ih =>
      have hb : b.toNat < 256 := b.toNat_lt
      have hhi := unhex_hexDigit ⟨b.toNat / 16, by omega⟩
      have hlo := unhex_hexDigit ⟨b.toNat % 16, by omega⟩
      have hbyte : UInt8.ofNat (16 * (b.toNat / 16) + b.toNat % 16) = b := by
        rw [Nat.div_add_mod, UInt8.ofNat_toNat]
      have hcons : encodeHex (b :: bytes) =
          hexDigit (b.toNat / 16) :: hexDigit (b.toNat % 16) :: encodeHex bytes := rfl
      rw [hcons, decodeHex, hhi, hlo, ih]
      simp only [Option.bind_eq_bind, Option.bind_some, Option.pure_def, hbyte]

/-- The firmware reads back the id the controller wrote. -/
theorem Uuid.parse_text (u : Uuid) : Uuid.parse (Uuid.text u) = some u := by
  obtain ⟨⟨bytes⟩, hlen⟩ := u
  match bytes, hlen with
  | [b0, b1, b2, b3, b4, b5, b6, b7, b8, b9, b10, b11, b12, b13, b14, b15], _ =>
    let bytes := [b0, b1, b2, b3, b4, b5, b6, b7, b8, b9, b10, b11, b12, b13, b14, b15]
    have hdecode : decodeHex (encodeHex bytes) = some bytes := decodeHex_encodeHex bytes
    rw [Uuid.parse, if_pos ⟨rfl, rfl, rfl, rfl, rfl⟩]
    exact congrArg (Option.bind · _) hdecode

theorem OccurrenceKind.parse_text (k : OccurrenceKind) : OccurrenceKind.parse k.text = some k := by
  cases k <;> rfl

theorem TombstoneReason.parse_text (r : TombstoneReason) :
    TombstoneReason.parse r.text = some r := by
  cases r <;> rfl

theorem AlertSound.parse_text (s : AlertSound) : AlertSound.parse s.text = some s := by
  cases s with
  | fallback => rw [AlertSound.text, AlertSound.parse, if_pos rfl]
  | asset sha =>
      have hne : sha.hex ≠ soundFallback := fun heq => by
        have hlen := sha.valid.1
        rw [heq] at hlen
        revert hlen
        decide
      rw [AlertSound.text, AlertSound.parse, if_neg hne, dif_pos sha.valid]

end EchoMuse.Alerts
