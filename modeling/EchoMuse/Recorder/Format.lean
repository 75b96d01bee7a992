import EchoMuse.Bytes

/-!
# The Framing of a Session File

A preamble, then records: a length, a body of a type byte and a payload, and the checksum of the
body. The checksum is any function.

## Main results

* `nextRecord_append`: a record that was written is read back;
* `nextRecord_cut`: a record that is cut short reads as truncated.
-/

namespace EchoMuse.Recorder

/-- The first eight bytes of every session file. -/
def MAGIC : List UInt8 := [0x45, 0x4D, 0x52, 0x45, 0x43, 0x0D, 0x0A, 0x1A]

/-- The format version that is written and read. -/
def FORMAT_VERSION : ℕ := 1

/-- Magic, version, six zero bytes. -/
def PREAMBLE_BYTES : ℕ := 16

/-- The largest record body a reader accepts. -/
def MAX_RECORD_BYTES : ℕ := 16 * 1024 * 1024

/-- What a record holds. -/
inductive RecordType
  | header | event | frame | marker | end_
deriving DecidableEq, Repr

namespace RecordType

def toU8 : RecordType → UInt8
  | .header => 1
  | .event => 2
  | .frame => 3
  | .marker => 4
  | .end_ => 5

def fromU8 (b : UInt8) : Option RecordType :=
  if b = 1 then some .header
  else if b = 2 then some .event
  else if b = 3 then some .frame
  else if b = 4 then some .marker
  else if b = 5 then some .end_
  else none

theorem fromU8_toU8 (ty : RecordType) : fromU8 ty.toU8 = some ty := by
  cases ty <;> decide

end RecordType

/-! ### Preamble -/

def writePreamble : List UInt8 := MAGIC ++ leBytes 2 FORMAT_VERSION ++ List.replicate 6 0

/-- Why the preamble was refused. -/
inductive PreambleError
  | notARecording
  | unsupportedVersion (version : ℕ)
deriving DecidableEq, Repr

def checkPreamble (bytes : List UInt8) : Except PreambleError Unit :=
  let pre := bytes.take PREAMBLE_BYTES
  if pre.length < PREAMBLE_BYTES then .error .notARecording
  else if pre.take 8 ≠ MAGIC ∨ pre.drop 10 ≠ List.replicate 6 0 then .error .notARecording
  else
    let version := leNat (field pre 8 2)
    if version ≠ FORMAT_VERSION then .error (.unsupportedVersion version) else .ok ()

theorem length_writePreamble : writePreamble.length = PREAMBLE_BYTES := by decide

/-- A file that starts with the preamble is a recording. -/
theorem checkPreamble_append (rest : List UInt8) : checkPreamble (writePreamble ++ rest) = .ok () := by
  have htake : (writePreamble ++ rest).take PREAMBLE_BYTES = writePreamble :=
    List.take_left' length_writePreamble
  unfold checkPreamble
  rw [htake]
  decide

/-! ### Records -/

/-- One record as read back. -/
structure RawRecord where
  ty : RecordType
  payload : List UInt8
deriving DecidableEq

/-- Why reading records stopped before the end of the bytes. -/
inductive TailError
  /-- The last record is cut short. -/
  | truncated
  /-- A record's checksum, length or type is wrong. -/
  | corrupt
deriving DecidableEq, Repr

section

variable (crc : List UInt8 → UInt32)

/-- One record; none when it is too large. -/
def writeRecord (ty : RecordType) (payload : List UInt8) : Option (List UInt8) :=
  let body := ty.toU8 :: payload
  if body.length ≤ MAX_RECORD_BYTES then
    some (leBytes 4 body.length ++ body ++ leBytes 4 (crc body).toNat)
  else none

/-- The record that the bytes start with, and the bytes after it; none when there are no bytes. -/
def nextRecord (rest : List UInt8) : Option (Except TailError (RawRecord × List UInt8)) :=
  if rest = [] then none
  else if rest.length < 4 then some (.error .truncated)
  else
    let len := leNat (field rest 0 4)
    if len = 0 ∨ MAX_RECORD_BYTES < len then some (.error .corrupt)
    else
      let total := 4 + len + 4
      if rest.length < total then some (.error .truncated)
      else
        let body := field rest 4 len
        if (crc body).toNat ≠ leNat (field rest (4 + len) 4) then some (.error .corrupt)
        else
          match body with
          | [] => some (.error .corrupt)
          | first :: payload =>
            match RecordType.fromU8 first with
            | none => some (.error .corrupt)
            | some ty => some (.ok (⟨ty, payload⟩, rest.drop total))

variable {crc} {ty : RecordType} {payload bytes : List UInt8}

/-- The bytes of a record that is not too large. -/
theorem writeRecord_eq_some (h : writeRecord crc ty payload = some bytes) :
    (ty.toU8 :: payload).length ≤ MAX_RECORD_BYTES ∧
      bytes = leBytes 4 (ty.toU8 :: payload).length ++ (ty.toU8 :: payload) ++
        leBytes 4 (crc (ty.toU8 :: payload)).toNat := by
  unfold writeRecord at h
  dsimp only at h
  split_ifs at h with hlen
  exact ⟨hlen, (Option.some.inj h).symm⟩

theorem length_writeRecord (h : writeRecord crc ty payload = some bytes) :
    bytes.length = 4 + (ty.toU8 :: payload).length + 4 := by
  obtain ⟨-, rfl⟩ := writeRecord_eq_some h
  rw [List.length_append, List.length_append, length_leBytes, length_leBytes]

/-- The length that a record starts with, also where it is cut short. -/
theorem field_length (body rest : List UInt8) (hlen : body.length ≤ MAX_RECORD_BYTES) :
    leNat (field (leBytes 4 body.length ++ rest) 0 4) = body.length := by
  have hfield : field (leBytes 4 body.length ++ rest) 0 4 = leBytes 4 body.length :=
    List.take_left' (length_leBytes _ _)
  rw [hfield]
  refine leNat_leBytes ?_
  unfold MAX_RECORD_BYTES at hlen
  omega

/-- A record that was written is read back, and what follows it is left. -/
theorem nextRecord_append (h : writeRecord crc ty payload = some bytes) (rest : List UInt8) :
    nextRecord crc (bytes ++ rest) = some (.ok (⟨ty, payload⟩, rest)) := by
  have hlength := length_writeRecord h
  obtain ⟨hlen, hbytes⟩ := writeRecord_eq_some h
  set body := ty.toU8 :: payload with hbody
  have hpos : body.length ≠ 0 := by
    rw [hbody, List.length_cons]
    omega
  have hne : bytes ++ rest ≠ [] := by
    intro hnil
    rw [(List.append_eq_nil_iff.mp hnil).1] at hlength
    rw [List.length_nil] at hlength
    omega
  have hassoc : bytes ++ rest =
      leBytes 4 body.length ++ (body ++ (leBytes 4 (crc body).toNat ++ rest)) := by
    rw [hbytes, List.append_assoc, List.append_assoc]
  have hhead : leNat (field (bytes ++ rest) 0 4) = body.length := by
    rw [hassoc]
    exact field_length body _ hlen
  have hfield : field (bytes ++ rest) 4 body.length = body := by
    rw [hassoc]
    unfold field
    rw [List.drop_left' (length_leBytes _ _)]
    exact List.take_left' rfl
  have hcrc : leNat (field (bytes ++ rest) (4 + body.length) 4) = (crc body).toNat := by
    have hcut : field (bytes ++ rest) (4 + body.length) 4 = leBytes 4 (crc body).toNat := by
      rw [hassoc]
      unfold field
      rw [← List.drop_drop, List.drop_left' (length_leBytes _ _), List.drop_left' rfl]
      exact List.take_left' (length_leBytes _ _)
    rw [hcut]
    exact leNat_leBytes (crc body).toNat_lt
  have hdrop : (bytes ++ rest).drop (4 + body.length + 4) = rest := List.drop_left' hlength
  have hlong : 4 + body.length + 4 ≤ (bytes ++ rest).length := by
    rw [List.length_append]
    omega
  unfold nextRecord
  dsimp only
  rw [if_neg hne, if_neg (by omega), hhead, if_neg (by omega), if_neg (by omega), hfield, hcrc,
    if_neg (fun hcontra => hcontra rfl), hbody]
  dsimp only
  rw [RecordType.fromU8_toU8, ← hbody, hdrop]

/-- A record that is cut short reads as truncated. -/
theorem nextRecord_cut (h : writeRecord crc ty payload = some bytes) {k : ℕ} (hk : 0 < k)
    (hcut : k < bytes.length) : nextRecord crc (bytes.take k) = some (.error .truncated) := by
  have hlength := length_writeRecord h
  obtain ⟨hlen, hbytes⟩ := writeRecord_eq_some h
  set body := ty.toU8 :: payload with hbody
  have hpos : body.length ≠ 0 := by
    rw [hbody, List.length_cons]
    omega
  have htake : (bytes.take k).length = k := List.length_take_of_le (by omega)
  have hne : bytes.take k ≠ [] := by
    intro hnil
    rw [hnil, List.length_nil] at htake
    omega
  unfold nextRecord
  dsimp only
  rw [if_neg hne, htake]
  by_cases hshort : k < 4
  · rw [if_pos hshort]
  · have hhead : leNat (field (bytes.take k) 0 4) = body.length := by
      have hfield : field (bytes.take k) 0 4 = field bytes 0 4 := by
        unfold field
        rw [List.drop_zero, List.drop_zero, List.take_take, Nat.min_eq_left (by omega)]
      rw [hfield, hbytes, List.append_assoc]
      exact field_length body _ hlen
    rw [if_neg hshort, hhead, if_neg (by omega), if_pos (by omega)]

/-- Reading a record leaves fewer bytes. -/
theorem nextRecord_shorter {rest rest' : List UInt8} {record : RawRecord}
    (h : nextRecord crc rest = some (.ok (record, rest'))) : rest'.length < rest.length := by
  unfold nextRecord at h
  dsimp only at h
  split_ifs at h with hnil hfour hlen htotal hcrc
  all_goals first
    | cases h; done
    | skip
  split at h
  · cases h
  · split at h
    · cases h
    · cases h
      rw [List.length_drop]
      omega

end

end EchoMuse.Recorder
