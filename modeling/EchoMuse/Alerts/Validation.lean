import EchoMuse.Alerts.Wire

/-!
# What the Firmware Accepts of an Alert Object

The firmware's `parseObject`: a tombstone when the object has a `tombstone` member, otherwise an
occurrence, every member checked in a fixed order. Its integers are `int64`, so a number the
controller's `u64` admits can still be refused.

## Main results

* `parseObject_occurrence`: the firmware accepts an occurrence object exactly when its numbers fit
  and `time.Parse` reads its local due time, and then reads the fields that were sent;
* `parseObject_tombstone`: the same for a tombstone object.
-/

namespace EchoMuse.Alerts

/-! ### `time.Parse` -/

/-- What `time.Parse(time.RFC3339, _)` reads; the zone offset in seconds. -/
structure LocalTime where
  year : ℕ
  month : ℕ
  day : ℕ
  hour : ℕ
  minute : ℕ
  second : ℕ
  offset : ℤ
deriving DecidableEq

/-- The value of a decimal digit. -/
def digitVal (c : Char) : ℕ := c.toNat - '0'.toNat

/-- Two digits, or one where the layout does not fix the width. -/
def getnum (fixed : Bool) : Text → Option (ℕ × Text)
  | a :: b :: rest =>
    if ¬ a.isDigit then none
    else if b.isDigit then some (10 * digitVal a + digitVal b, rest)
    else if fixed then none
    else some (digitVal a, b :: rest)
  | [a] => if a.isDigit ∧ ¬ fixed then some (digitVal a, []) else none
  | [] => none

/-- The layout's own character. -/
def skip (c : Char) : Text → Option Text
  | a :: rest => if a = c then some rest else none
  | [] => none

/-- The layout's four-digit year. -/
def getyear (s : Text) : Option (ℕ × Text) :=
  if (s.take 4).length = 4 ∧ (s.take 4).all Char.isDigit = true then
    some (Nat.ofDigitChars 10 (s.take 4) 0, s.drop 4)
  else none

/-- A fraction of a second the layout does not ask for: a point or a comma and any digits. -/
def skipFraction : Text → Text
  | c :: d :: rest =>
    if (c = '.' ∨ c = ',') ∧ d.isDigit then rest.dropWhile Char.isDigit else c :: d :: rest
  | s => s

/-- The zone: `Z`, or a signed offset of at most 24 hours and 60 minutes. -/
def getzone : Text → Option (ℤ × Text)
  | 'Z' :: rest => some (0, rest)
  | sign :: h1 :: h2 :: ':' :: m1 :: m2 :: rest => do
    let (hour, _) ← getnum true [h1, h2]
    let (minute, _) ← getnum true [m1, m2]
    if 24 < hour ∨ 60 < minute then none
    else if sign = '+' then some ((hour * 60 + minute : ℤ) * 60, rest)
    else if sign = '-' then some (-((hour * 60 + minute : ℤ) * 60), rest)
    else none
  | _ => none

def isLeap (year : ℕ) : Bool := year % 4 = 0 ∧ (year % 100 ≠ 0 ∨ year % 400 = 0)

def daysIn (month year : ℕ) : ℕ :=
  if month = 2 then if isLeap year then 29 else 28
  else if month ∈ [4, 6, 9, 11] then 30
  else 31

/-- `time.Parse(time.RFC3339, s)`. -/
def parseTime (s : Text) : Option LocalTime := do
  let (year, s) ← getyear s
  let s ← skip '-' s
  let (month, s) ← getnum true s
  let s ← if month = 0 ∨ 12 < month then none else skip '-' s
  let (day, s) ← getnum true s
  let s ← skip 'T' s
  let (hour, s) ← getnum false s
  let s ← if 24 ≤ hour then none else skip ':' s
  let (minute, s) ← getnum true s
  let s ← if 60 ≤ minute then none else skip ':' s
  let (second, s) ← getnum true s
  let s ← if 60 ≤ second then none else some (skipFraction s)
  let (offset, s) ← getzone s
  if s ≠ [] ∨ day = 0 ∨ daysIn month year < day then none
  else some { year, month, day, hour, minute, second, offset }

/-! ### `parseObject` -/

/-- One occurrence of the device's cache. Ids and sounds are held as what their canonical texts
name; the other integers are `int64`. -/
structure Occurrence where
  dueLocal : Text
  dueUtcMs : ℤ
  kind : OccurrenceKind
  label : Text
  loopGapMs : ℤ
  maxRingMs : ℤ
  occurrenceId : Uuid
  rampMs : ℤ
  revision : ℕ
  scheduleId : Uuid
  snoozeMs : ℤ
  sound : AlertSound
  volume : Option AlertVolume
deriving DecidableEq

/-- A tombstone removes an occurrence from the cache. -/
structure Tombstone where
  occurrenceId : Uuid
  revision : ℕ
  reason : TombstoneReason
deriving DecidableEq

/-- Why an object is refused, with the field it names. -/
inductive ObjectError
  | notAnObject
  | notAString (key : Text)
  | notANumber (key : Text)
  | notANonNegativeInteger (key : Text)
  | notALowercaseUuid (key : Text)
  | unknownTombstone (s : Text)
  | dueLocal (s : Text)
  | dueUtcMs (s : Text)
  | kind (s : Text)
  | labelTooLong
  | maxRingMsIsZero
  | sound (s : Text)
  | missingVolume
  | volumeNotANumber
  | volumeOutside (n : Text)
deriving DecidableEq

abbrev Members := List (Text × Json Text)

def stringField (m : Members) (key : Text) : Except ObjectError Text :=
  match Json.get? m key with
  | some (.str s) => .ok s
  | _ => .error (.notAString key)

/-- A non-negative JSON integer. -/
def intField (m : Members) (key : Text) : Except ObjectError ℕ :=
  match Json.get? m key with
  | some (.num n) =>
    match parseInt n with
    | some v => if v < 0 then .error (.notANonNegativeInteger key) else .ok v.toNat
    | none => .error (.notANonNegativeInteger key)
  | _ => .error (.notANumber key)

/-- A UUID in its lowercase form. -/
def uuidField (m : Members) (key : Text) : Except ObjectError Uuid := do
  let s ← stringField m key
  match Uuid.parse s with
  | some u => if Uuid.text u = s then .ok u else .error (.notALowercaseUuid key)
  | none => .error (.notALowercaseUuid key)

/-- The due time: a decimal string. -/
def dueField (m : Members) : Except ObjectError ℕ := do
  let due ← stringField m "due_utc_ms".toList
  match parseInt due with
  | some v => if v < 0 then .error (.dueUtcMs due) else .ok v.toNat
  | none => .error (.dueUtcMs due)

/-- The alert's own gain: a number in (0, 1], or null. -/
def volumeField (F : FloatText) (m : Members) : Except ObjectError (Option AlertVolume) :=
  match Json.get? m "volume".toList with
  | none => .error .missingVolume
  | some .null => .ok none
  | some (.num n) =>
    match F.parse n with
    | some d => if h : d.isGain then .ok (some ⟨d, h⟩) else .error (.volumeOutside n)
    | none => .error (.volumeOutside n)
  | some _ => .error .volumeNotANumber

/-- A check that refuses the object. -/
def refuseIf (c : Prop) [Decidable c] (e : ObjectError) : Except ObjectError Unit :=
  if c then .error e else .ok ()

/-- What a text member names, when `parse` knows it. -/
def namedField {α : Type} (parse : Text → Option α) (unknown : Text → ObjectError) (m : Members)
    (key : Text) : Except ObjectError α := do
  let s ← stringField m key
  match parse s with
  | some a => .ok a
  | none => .error (unknown s)

/-- The members of an occurrence after its id and revision. -/
def parseOccurrence (F : FloatText) (m : Members) (occurrenceId : Uuid) (revision : ℕ) :
    Except ObjectError Occurrence := do
  let scheduleId ← uuidField m "schedule_id".toList
  let dueLocal ← stringField m "due_local".toList
  refuseIf (parseTime dueLocal = none) (.dueLocal dueLocal)
  let dueUtcMs ← dueField m
  let kind ← namedField OccurrenceKind.parse .kind m "kind".toList
  let label ← stringField m "label".toList
  refuseIf (maxLabelChars < label.length) .labelTooLong
  let loopGapMs ← intField m "loop_gap_ms".toList
  let maxRingMs ← intField m "max_ring_ms".toList
  let rampMs ← intField m "ramp_ms".toList
  let snoozeMs ← intField m "snooze_ms".toList
  refuseIf (maxRingMs = 0) .maxRingMsIsZero
  let sound ← namedField AlertSound.parse .sound m "sound".toList
  let volume ← volumeField F m
  return { dueLocal, dueUtcMs, kind, label, loopGapMs, maxRingMs, occurrenceId, rampMs, revision,
           scheduleId, snoozeMs, sound, volume }

/-- `parseObject`: a tombstone when the object has a `tombstone` member, otherwise an
occurrence. -/
def parseObject (F : FloatText) (v : Json Text) : Except ObjectError (Occurrence ⊕ Tombstone) :=
  match v with
  | .obj m => do
    let id ← uuidField m "occurrence_id".toList
    let revision ← intField m "revision".toList
    if (Json.get? m "tombstone".toList).isSome then do
      let reason ← namedField TombstoneReason.parse .unknownTombstone m "tombstone".toList
      return .inr { occurrenceId := id, revision, reason }
    else do
      let o ← parseOccurrence F m id revision
      return .inl o
  | _ => .error .notAnObject

/-! ### What the controller sends -/

/-- An occurrence as the firmware holds it. -/
def OccurrenceObject.received (o : OccurrenceObject) : Occurrence where
  dueLocal := o.dueLocal
  dueUtcMs := o.dueUtcMs
  kind := o.kind
  label := o.label
  loopGapMs := o.loopGapMs
  maxRingMs := o.maxRingMs
  occurrenceId := o.occurrenceId
  rampMs := o.rampMs
  revision := o.revision
  scheduleId := o.scheduleId
  snoozeMs := o.snoozeMs
  sound := o.sound
  volume := o.volume

/-- A tombstone as the firmware holds it. -/
def TombstoneObject.received (t : TombstoneObject) : Tombstone where
  occurrenceId := t.occurrenceId
  revision := t.revision
  reason := t.tombstone

/-- The firmware's own bounds on an occurrence object: its numbers fit an `int64`, it rings for
some time, its label is short enough and `time.Parse` reads its local due time. -/
structure OccurrenceObject.Fits (o : OccurrenceObject) : Prop where
  due : o.dueUtcMs < 2 ^ 63
  loopGap : o.loopGapMs < 2 ^ 63
  maxRing : o.maxRingMs < 2 ^ 63
  ramp : o.rampMs < 2 ^ 63
  revision : o.revision < 2 ^ 63
  snooze : o.snoozeMs < 2 ^ 63
  rings : o.maxRingMs ≠ 0
  label : o.label.length ≤ maxLabelChars
  dueLocal : parseTime o.dueLocal ≠ none

/-- A chain of checks succeeds when its first check does and the rest does on what it read. -/
theorem bind_eq_ok_iff {ε α β : Type} {x : Except ε α} {f : α → Except ε β} {b : β} :
    (x >>= f) = .ok b ↔ ∃ a, x = .ok a ∧ f a = .ok b := by
  cases x with
  | error e => exact ⟨nofun, fun ⟨_, h, _⟩ => nomatch h⟩
  | ok a => exact ⟨fun h => ⟨a, rfl, h⟩, fun ⟨_, ha, h⟩ => by cases ha; exact h⟩

theorem refuseIf_eq_ok_iff {c : Prop} [Decidable c] {e : ObjectError} {u : Unit} :
    refuseIf c e = .ok u ↔ ¬ c := by
  by_cases hc : c
  · rw [refuseIf, if_pos hc]
    exact ⟨nofun, fun h => absurd hc h⟩
  · rw [refuseIf, if_neg hc]
    exact ⟨fun _ => hc, fun _ => rfl⟩

theorem stringField_str {m : Members} {key s : Text} (h : Json.get? m key = some (.str s)) :
    stringField m key = .ok s := by
  rw [stringField, h]

/-- A decimal member is read exactly when it fits. -/
theorem intField_eq_ok_iff {m : Members} {key : Text} {n v : ℕ}
    (h : Json.get? m key = some (.num (decimal n))) :
    intField m key = .ok v ↔ n < 2 ^ 63 ∧ v = n := by
  rw [intField, h]
  dsimp only
  rw [parseInt_decimal]
  by_cases hn : n < 2 ^ 63
  · rw [if_pos hn]
    dsimp only
    rw [if_neg (by omega), Except.ok.injEq, Int.toNat_natCast]
    exact ⟨fun hv => ⟨hn, hv.symm⟩, fun hv => hv.2.symm⟩
  · rw [if_neg hn]
    exact ⟨nofun, fun hv => absurd hv.1 hn⟩

theorem uuidField_text {m : Members} {key : Text} {u : Uuid}
    (h : Json.get? m key = some (.str (Uuid.text u))) : uuidField m key = .ok u := by
  rw [uuidField, bind_eq_ok_iff]
  refine ⟨_, stringField_str h, ?_⟩
  rw [Uuid.parse_text]
  exact if_pos rfl

theorem namedField_text {α : Type} {parse : Text → Option α} {unknown : Text → ObjectError}
    {m : Members} {key s : Text} {a : α} (h : Json.get? m key = some (.str s))
    (hs : parse s = some a) : namedField parse unknown m key = .ok a := by
  rw [namedField, bind_eq_ok_iff]
  exact ⟨s, stringField_str h, by rw [hs]⟩

theorem dueField_eq_ok_iff {m : Members} {n v : ℕ}
    (h : Json.get? m "due_utc_ms".toList = some (.str (decimal n))) :
    dueField m = .ok v ↔ n < 2 ^ 63 ∧ v = n := by
  simp only [dueField, bind_eq_ok_iff, stringField_str h, Except.ok.injEq, exists_eq_left']
  rw [parseInt_decimal]
  by_cases hn : n < 2 ^ 63
  · rw [if_pos hn]
    dsimp only
    rw [if_neg (by omega), Except.ok.injEq, Int.toNat_natCast]
    exact ⟨fun hv => ⟨hn, hv.symm⟩, fun hv => hv.2.symm⟩
  · rw [if_neg hn]
    exact ⟨nofun, fun hv => absurd hv.1 hn⟩

/-- A gain of the controller is finite. -/
theorem AlertVolume.finite (v : AlertVolume) : v.gain.finite := by
  have h := v.valid.2
  unfold Double.finite
  have hdiv : v.gain.toNat / 2 ^ 52 ≤ 0x3FF0000000000000 / 2 ^ 52 := Nat.div_le_div_right h
  omega

/-- The literal of a gain, or null. -/
def volumeValue (F : FloatText) : Option AlertVolume → Json Text
  | some v => .num (F.print v.gain)
  | none => .null

theorem volumeField_volume (F : FloatText) {m : Members} {volume : Option AlertVolume}
    (h : Json.get? m "volume".toList = some (volumeValue F volume)) :
    volumeField F m = .ok volume := by
  rw [volumeField, h]
  cases volume with
  | none => rfl
  | some v =>
      rw [volumeValue]
      simp only
      rw [F.parse_print _ v.finite]
      exact dif_pos v.valid

/-- The members of an occurrence object on the wire. -/
def OccurrenceObject.members (F : FloatText) (o : OccurrenceObject) : Members :=
  [("due_local".toList, .str o.dueLocal),
   ("due_utc_ms".toList, .str (decimal o.dueUtcMs)),
   ("kind".toList, .str o.kind.text),
   ("label".toList, .str o.label),
   ("loop_gap_ms".toList, .num (decimal o.loopGapMs)),
   ("max_ring_ms".toList, .num (decimal o.maxRingMs)),
   ("occurrence_id".toList, .str (Uuid.text o.occurrenceId)),
   ("ramp_ms".toList, .num (decimal o.rampMs)),
   ("revision".toList, .num (decimal o.revision)),
   ("schedule_id".toList, .str (Uuid.text o.scheduleId)),
   ("snooze_ms".toList, .num (decimal o.snoozeMs)),
   ("sound".toList, .str o.sound.text),
   ("volume".toList, volumeValue F o.volume)]

theorem OccurrenceObject.wire_value (F : FloatText) (o : OccurrenceObject) :
    o.value.wire F = .obj (o.members F) := by
  unfold OccurrenceObject.value OccurrenceObject.members
  cases o.volume <;> rfl

theorem parseOccurrence_eq_ok_iff (F : FloatText) (o : OccurrenceObject) (id : Uuid)
    (revision : ℕ) (r : Occurrence) :
    parseOccurrence F (o.members F) id revision = .ok r ↔
      parseTime o.dueLocal ≠ none ∧ o.dueUtcMs < 2 ^ 63 ∧ o.label.length ≤ maxLabelChars ∧
        o.loopGapMs < 2 ^ 63 ∧ o.maxRingMs < 2 ^ 63 ∧ o.rampMs < 2 ^ 63 ∧ o.snoozeMs < 2 ^ 63 ∧
        o.maxRingMs ≠ 0 ∧ r = { o.received with occurrenceId := id, revision } := by
  have hschedule : uuidField (o.members F) "schedule_id".toList = .ok o.scheduleId :=
    uuidField_text rfl
  have hlocal : stringField (o.members F) "due_local".toList = .ok o.dueLocal :=
    stringField_str rfl
  have hkind : namedField OccurrenceKind.parse .kind (o.members F) "kind".toList = .ok o.kind :=
    namedField_text rfl o.kind.parse_text
  have hlabel : stringField (o.members F) "label".toList = .ok o.label := stringField_str rfl
  have hsound : namedField AlertSound.parse .sound (o.members F) "sound".toList = .ok o.sound :=
    namedField_text rfl o.sound.parse_text
  have hvolume : volumeField F (o.members F) = .ok o.volume := volumeField_volume F rfl
  have hdue (v : ℕ) : dueField (o.members F) = .ok v ↔ o.dueUtcMs < 2 ^ 63 ∧ v = o.dueUtcMs :=
    dueField_eq_ok_iff rfl
  have hgap (v : ℕ) : intField (o.members F) "loop_gap_ms".toList = .ok v ↔
      o.loopGapMs < 2 ^ 63 ∧ v = o.loopGapMs := intField_eq_ok_iff rfl
  have hmax (v : ℕ) : intField (o.members F) "max_ring_ms".toList = .ok v ↔
      o.maxRingMs < 2 ^ 63 ∧ v = o.maxRingMs := intField_eq_ok_iff rfl
  have hramp (v : ℕ) : intField (o.members F) "ramp_ms".toList = .ok v ↔
      o.rampMs < 2 ^ 63 ∧ v = o.rampMs := intField_eq_ok_iff rfl
  have hsnooze (v : ℕ) : intField (o.members F) "snooze_ms".toList = .ok v ↔
      o.snoozeMs < 2 ^ 63 ∧ v = o.snoozeMs := intField_eq_ok_iff rfl
  simp only [parseOccurrence, bind_eq_ok_iff, hschedule, hlocal, hkind, hlabel, hsound, hvolume,
    hdue, hgap, hmax, hramp, hsnooze, refuseIf_eq_ok_iff, Except.ok.injEq, exists_eq_left', pure,
    Except.pure]
  constructor
  · rintro ⟨-, htime, _, ⟨hd, rfl⟩, -, hl, _, ⟨hg, rfl⟩, _, ⟨hm, rfl⟩, _, ⟨hr, rfl⟩, _, ⟨hs, rfl⟩,
      -, hz, rfl⟩
    exact ⟨htime, hd, Nat.le_of_not_lt hl, hg, hm, hr, hs, hz, rfl⟩
  · rintro ⟨htime, hd, hl, hg, hm, hr, hs, hz, rfl⟩
    exact ⟨(), htime, _, ⟨hd, rfl⟩, (), Nat.not_lt.mpr hl, _, ⟨hg, rfl⟩, _, ⟨hm, rfl⟩, _,
      ⟨hr, rfl⟩, _, ⟨hs, rfl⟩, (), hz, rfl⟩

/-- The firmware accepts an occurrence object exactly when it fits, and then reads the fields that
were sent. -/
theorem parseObject_occurrence (F : FloatText) (o : OccurrenceObject)
    (r : Occurrence ⊕ Tombstone) :
    parseObject F (o.value.wire F) = .ok r ↔ o.Fits ∧ r = .inl o.received := by
  have hid : uuidField (o.members F) "occurrence_id".toList = .ok o.occurrenceId :=
    uuidField_text rfl
  have hrev (v : ℕ) : intField (o.members F) "revision".toList = .ok v ↔
      o.revision < 2 ^ 63 ∧ v = o.revision := intField_eq_ok_iff rfl
  have htomb : ¬ ((Json.get? (o.members F) "tombstone".toList).isSome = true) := by
    rw [show Json.get? (o.members F) "tombstone".toList = none from rfl]
    exact Bool.false_ne_true
  rw [o.wire_value]
  simp only [parseObject, bind_eq_ok_iff, hid, hrev, Except.ok.injEq, exists_eq_left', if_neg htomb,
    parseOccurrence_eq_ok_iff, pure, Except.pure]
  constructor
  · rintro ⟨_, ⟨hrev, rfl⟩, _, ⟨htime, hd, hl, hg, hm, hr, hs, hz, rfl⟩, rfl⟩
    exact ⟨⟨hd, hg, hm, hr, hrev, hs, hz, hl, htime⟩, rfl⟩
  · rintro ⟨h, rfl⟩
    exact ⟨_, ⟨h.revision, rfl⟩, _, ⟨h.dueLocal, h.due, h.label, h.loopGap, h.maxRing, h.ramp,
      h.snooze, h.rings, rfl⟩, rfl⟩

/-- The members of a tombstone object on the wire. -/
def TombstoneObject.members (t : TombstoneObject) : Members :=
  [("occurrence_id".toList, .str (Uuid.text t.occurrenceId)),
   ("revision".toList, .num (decimal t.revision)),
   ("tombstone".toList, .str t.tombstone.text)]

theorem TombstoneObject.wire_value (F : FloatText) (t : TombstoneObject) :
    t.value.wire F = .obj t.members := rfl

/-- The firmware accepts a tombstone object exactly when its revision fits. -/
theorem parseObject_tombstone (F : FloatText) (t : TombstoneObject)
    (r : Occurrence ⊕ Tombstone) :
    parseObject F (t.value.wire F) = .ok r ↔ t.revision < 2 ^ 63 ∧ r = .inr t.received := by
  have hid : uuidField t.members "occurrence_id".toList = .ok t.occurrenceId := uuidField_text rfl
  have hrev (v : ℕ) : intField t.members "revision".toList = .ok v ↔
      t.revision < 2 ^ 63 ∧ v = t.revision := intField_eq_ok_iff rfl
  have hreason : namedField TombstoneReason.parse .unknownTombstone t.members
      "tombstone".toList = .ok t.tombstone := namedField_text rfl t.tombstone.parse_text
  have htomb : (Json.get? t.members "tombstone".toList).isSome = true := rfl
  rw [t.wire_value]
  simp only [parseObject, bind_eq_ok_iff, hid, hrev, hreason, Except.ok.injEq, exists_eq_left',
    if_pos htomb, pure, Except.pure]
  constructor
  · rintro ⟨_, ⟨hrev, rfl⟩, rfl⟩
    exact ⟨hrev, rfl⟩
  · rintro ⟨h, rfl⟩
    exact ⟨_, ⟨h, rfl⟩, rfl⟩

end EchoMuse.Alerts
