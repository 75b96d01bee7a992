import EchoMuse.Tables
import EchoMuse.Fields
import Mathlib.Algebra.Ring.Nat

/-!
# Alert Cache Objects

What the controller puts into a speaker's alert cache: occurrence and tombstone objects, deltas of
them, and snapshots of the whole cache cut into pages. A snapshot is ordered by due time and id,
and every page carries the digest of the whole ordered array.

## Main results

* `chunks_flatten`: cutting a list into chunks loses nothing;
* `snapshotPages_eq_ok_iff`: when a snapshot is built, and of which pages;
* `flatMap_objects`: the pages of a snapshot are its ordered objects, page after page.
-/

namespace EchoMuse.Alerts

/-- Text, as its Unicode scalar values. -/
abbrev Text := List Char

/-- A UUID, as its sixteen bytes in order. -/
abbrev Uuid := Vector UInt8 16

instance transOrd_uuid : Std.TransOrd Uuid := inferInstance

/-- A lowercase hexadecimal digit. -/
def isHexLower (c : Char) : Bool := c.isDigit || ('a' ≤ c && c ≤ 'f')

/-- The text form of a SHA-256 digest: 64 lowercase hexadecimal digits. -/
structure Sha256 where
  hex : Text
  valid : hex.length = 64 ∧ ∀ c ∈ hex, isHexLower c = true
deriving DecidableEq

/-- An occurrence's kind. -/
inductive OccurrenceKind
  | alarm | snooze
deriving DecidableEq, Repr

/-- A tombstone's reason. -/
inductive TombstoneReason
  | dismissed | snoozed | expired | deleted
deriving DecidableEq, Repr

/-- The sound an occurrence rings: the firmware's own, or an installed asset. -/
inductive AlertSound
  | fallback
  | asset (sha : Sha256)
deriving DecidableEq

/-- A double, as its IEEE 754 bits. -/
abbrev Double := BitVec 64

/-- Whether a double lies in (0, 1]: the order of the positive doubles is that of their bits. -/
def Double.isGain (d : Double) : Prop := 0 < d.toNat ∧ d.toNat ≤ 0x3FF0000000000000

instance : DecidablePred Double.isGain := fun _ => inferInstanceAs (Decidable (_ ∧ _))

/-- An alert's own gain, in (0, 1]. -/
structure AlertVolume where
  gain : Double
  valid : gain.isGain
deriving DecidableEq

/-- One occurrence object. The numbers are `u64`, `maxRingMs` a nonzero one. -/
structure OccurrenceObject where
  dueLocal : Text
  dueUtcMs : ℕ
  kind : OccurrenceKind
  label : Text
  loopGapMs : ℕ
  maxRingMs : ℕ
  occurrenceId : Uuid
  rampMs : ℕ
  /-- The delivery sequence of its last change. -/
  revision : ℕ
  scheduleId : Uuid
  snoozeMs : ℕ
  sound : AlertSound
  /-- Its own gain; `none` rings at the media volume. -/
  volume : Option AlertVolume
deriving DecidableEq

/-- One tombstone object. -/
structure TombstoneObject where
  occurrenceId : Uuid
  revision : ℕ
  tombstone : TombstoneReason
deriving DecidableEq

/-- An object of a delta. -/
inductive CacheObject
  | occurrence (o : OccurrenceObject)
  | tombstone (t : TombstoneObject)
deriving DecidableEq

/-- One `alert.snapshot` page. -/
structure AlertSnapshotPage where
  deliveryEpoch : Text
  highWaterMark : ℕ
  pageIndex : ℕ
  pageCount : ℕ
  sha256 : Sha256
  objects : List OccurrenceObject
deriving DecidableEq

/-- `alert.delta`. -/
structure AlertDelta where
  deliveryEpoch : Text
  sequence : ℕ
  objects : List CacheObject
deriving DecidableEq

/-- The most objects one page carries. -/
def snapshotPageObjects : ℕ := 128

/-- The longest label the device accepts, in scalar values. -/
def maxLabelChars : ℕ := 120

/-- Why a value has no canonical form. -/
inductive CanonicalError
  | nonFinite
  | badSyntax (offset : ℕ) (expected : String)
  | loneSurrogate (offset : ℕ)
  | tooDeep
deriving DecidableEq

/-- Why a snapshot cannot be sent. -/
inductive SnapshotError
  | labelTooLong (occurrenceId : Uuid) (chars : ℕ)
  | canonical (error : CanonicalError)
deriving DecidableEq

/-- `l` cut into pieces of `n`, the last one shorter. -/
def chunks {α : Type} (n : ℕ) (l : List α) : List (List α) :=
  (List.range ((l.length + n - 1) / n)).map fun i => (l.drop (i * n)).take n

/-- The order of a snapshot: by due time, then by id. -/
def snapshotLe (a b : OccurrenceObject) : Prop :=
  ((compare a.dueUtcMs b.dueUtcMs).then (compare a.occurrenceId b.occurrenceId)).isLE = true

instance : DecidableRel snapshotLe := fun _ _ => inferInstanceAs (Decidable (_ = true))

/-- The first object whose label is too long for the device. -/
def labelTooLong (objects : List OccurrenceObject) : Option OccurrenceObject :=
  objects.find? fun o => maxLabelChars < o.label.length

/-- The number of pages of a snapshot; an empty cache is one empty page. -/
def pageCount (objects : List OccurrenceObject) : ℕ :=
  max ((objects.length + snapshotPageObjects - 1) / snapshotPageObjects) 1

/-- One page of the ordered `objects`. -/
def pageAt (deliveryEpoch : Text) (highWaterMark : ℕ) (sha256 : Sha256)
    (objects : List OccurrenceObject) (pageIndex : ℕ) : AlertSnapshotPage :=
  { deliveryEpoch, highWaterMark, pageIndex, pageCount := pageCount objects, sha256
    objects := (objects.drop (pageIndex * snapshotPageObjects)).take snapshotPageObjects }

/-- The pages of the ordered `objects`. -/
def pagesOf (deliveryEpoch : Text) (highWaterMark : ℕ) (sha256 : Sha256)
    (objects : List OccurrenceObject) : List AlertSnapshotPage :=
  (List.range (pageCount objects)).map (pageAt deliveryEpoch highWaterMark sha256 objects)

/-- The pages of a snapshot of `objects`, ordered; `digest` is `snapshot_digest`. -/
def snapshotPages (digest : List OccurrenceObject → Except SnapshotError Sha256)
    (deliveryEpoch : Text) (highWaterMark : ℕ) (objects : List OccurrenceObject) :
    Except SnapshotError (List AlertSnapshotPage) :=
  match labelTooLong objects with
  | some o => .error (.labelTooLong o.occurrenceId o.label.length)
  | none =>
    let objects := objects.insertionSort snapshotLe
    match digest objects with
    | .error e => .error e
    | .ok sha256 => .ok (pagesOf deliveryEpoch highWaterMark sha256 objects)

/-! ### Cutting a list into chunks -/

/-- The first `k` pieces of `n` are the first `k * n` elements. -/
theorem flatten_pieces {α : Type} (n k : ℕ) (l : List α) :
    ((List.range k).map fun i => (l.drop (i * n)).take n).flatten = l.take (k * n) := by
  induction k with
  | zero => rw [Nat.zero_mul, List.take_zero]; rfl
  | succ k ih =>
      rw [List.range_succ, List.map_append, List.flatten_append, ih, List.map_singleton,
        List.flatten_singleton, Nat.succ_mul, List.take_add]

/-- Cutting a list into chunks loses nothing. -/
theorem chunks_flatten {α : Type} {n : ℕ} (hn : 0 < n) (l : List α) :
    (chunks n l).flatten = l := by
  rw [chunks, flatten_pieces, List.take_of_length_le]
  have h := Nat.lt_div_mul_add (a := l.length + n - 1) hn
  omega

/-! ### Snapshots -/

/-- When a snapshot is built, and of which pages. -/
theorem snapshotPages_eq_ok_iff {digest : List OccurrenceObject → Except SnapshotError Sha256}
    {epoch : Text} {high : ℕ} {objects : List OccurrenceObject} {pages : List AlertSnapshotPage} :
    snapshotPages digest epoch high objects = .ok pages ↔
      labelTooLong objects = none ∧ ∃ sha, digest (objects.insertionSort snapshotLe) = .ok sha ∧
        pages = pagesOf epoch high sha (objects.insertionSort snapshotLe) := by
  unfold snapshotPages
  cases labelTooLong objects with
  | some o => exact ⟨nofun, nofun⟩
  | none =>
      cases hd : digest (objects.insertionSort snapshotLe) with
      | error e =>
          simp only [hd]
          exact ⟨nofun, nofun⟩
      | ok sha =>
          simp only [hd, Except.ok.injEq, true_and, exists_eq_left']
          exact eq_comm

theorem pageCount_pos (objects : List OccurrenceObject) : 0 < pageCount objects :=
  Nat.lt_of_lt_of_le Nat.one_pos (Nat.le_max_right _ 1)

/-- The pages hold every object. -/
theorem length_le_pageCount (objects : List OccurrenceObject) :
    objects.length ≤ pageCount objects * snapshotPageObjects := by
  have h := Nat.lt_div_mul_add (a := objects.length + snapshotPageObjects - 1)
    (b := snapshotPageObjects) (by decide)
  have hle := Nat.mul_le_mul_right snapshotPageObjects
    (le_max_left ((objects.length + snapshotPageObjects - 1) / snapshotPageObjects) 1)
  unfold pageCount
  unfold snapshotPageObjects at *
  omega

theorem mem_pagesOf {epoch : Text} {high : ℕ} {sha : Sha256} {objects : List OccurrenceObject}
    {p : AlertSnapshotPage} : p ∈ pagesOf epoch high sha objects ↔
      ∃ i < pageCount objects, p = pageAt epoch high sha objects i := by
  rw [pagesOf, List.mem_map]
  constructor
  · rintro ⟨i, hi, rfl⟩
    exact ⟨i, List.mem_range.mp hi, rfl⟩
  · rintro ⟨i, hi, rfl⟩
    exact ⟨i, List.mem_range.mpr hi, rfl⟩

/-- The pages of a snapshot carry its objects, page after page. -/
theorem flatMap_objects (epoch : Text) (high : ℕ) (sha : Sha256)
    (objects : List OccurrenceObject) :
    (pagesOf epoch high sha objects).flatMap (·.objects) = objects := by
  rw [pagesOf, List.flatMap_def, List.map_map]
  exact (flatten_pieces snapshotPageObjects _ objects).trans
    (List.take_of_length_le (length_le_pageCount objects))

end EchoMuse.Alerts
