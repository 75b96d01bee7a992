import Mathlib.Algebra.Order.Ring.Nat
import Mathlib.Data.List.Basic
import Mathlib.Tactic.Ring

/-!
# Little-Endian Fields of a Byte String

Fixed-layout wire records write each field as a fixed number of little-endian bytes and
read it back at a fixed offset. This module has the two halves of that and nothing about
any particular record:

* `leBytes w n` / `leNat`: the `w` little-endian bytes of `n`, and the number a byte string
  spells;
* `field b i w`: the `w` bytes of `b` at offset `i`;
* `asChunks w b`: the whole `w`-byte records at the front of `b`.

## Main results

* `leNat_leBytes`, `leBytes_leNat`: the two round trips, exact on numbers that fit;
* `field_append_drop`: a byte string is its fields one after the other;
* `asChunks_append_flatten`: writing whole records and cutting them apart again.
-/

namespace EchoMuse

/-- The `w` little-endian bytes of `n`; higher bits are dropped. -/
def leBytes : ℕ → ℕ → List UInt8
  | 0, _ => []
  | w + 1, n => UInt8.ofNat n :: leBytes w (n / 256)

/-- The number a little-endian byte string spells. -/
def leNat : List UInt8 → ℕ
  | [] => 0
  | b :: bs => b.toNat + 256 * leNat bs

@[simp] theorem length_leBytes (w n : ℕ) : (leBytes w n).length = w := by
  induction w generalizing n with
  | zero => rfl
  | succ w ih => simp [leBytes, ih]

theorem drop_leBytes {w n i : ℕ} (h : w ≤ i) : (leBytes w n).drop i = [] :=
  List.drop_eq_nil_of_le (by rwa [length_leBytes])

theorem take_leBytes {w n i : ℕ} (h : w ≤ i) : (leBytes w n).take i = leBytes w n :=
  List.take_of_length_le (by rwa [length_leBytes])

/-- A byte string spells a number below `256 ^ length`. -/
theorem leNat_lt (bs : List UInt8) : leNat bs < 256 ^ bs.length := by
  induction bs with
  | nil => simp [leNat]
  | cons b bs ih =>
      have hb : b.toNat < 256 := b.toNat_lt
      rw [leNat, List.length_cons, pow_succ]
      omega

/-- Reading back `w` written bytes gives the number modulo `256 ^ w`. -/
theorem leNat_leBytes_mod (w n : ℕ) : leNat (leBytes w n) = n % 256 ^ w := by
  induction w generalizing n with
  | zero => simp [leBytes, leNat, Nat.mod_one]
  | succ w ih =>
      have hb : (UInt8.ofNat n).toNat = n % 256 := by simp
      rw [leBytes, leNat, ih, hb, pow_succ', Nat.mod_mul]

/-- A number that fits in `w` bytes reads back exactly. -/
theorem leNat_leBytes {w n : ℕ} (h : n < 256 ^ w) : leNat (leBytes w n) = n := by
  rw [leNat_leBytes_mod, Nat.mod_eq_of_lt h]

/-- Writing the number a byte string spells gives the byte string back. -/
theorem leBytes_leNat (bs : List UInt8) : leBytes bs.length (leNat bs) = bs := by
  induction bs with
  | nil => rfl
  | cons b bs ih =>
      have hb : b.toNat < 256 := b.toNat_lt
      have hdiv : (b.toNat + 256 * leNat bs) / 256 = leNat bs := by omega
      have hmod : UInt8.ofNat (b.toNat + 256 * leNat bs) = b := by
        apply UInt8.toNat_inj.mp
        rw [UInt8.toNat_ofNat']
        omega
      rw [List.length_cons, leNat, leBytes, hdiv, hmod, ih]

/-! ### Fields at fixed offsets -/

/-- The `w` bytes of `b` at offset `i`. -/
def field (b : List UInt8) (i w : ℕ) : List UInt8 :=
  (b.drop i).take w

theorem length_field {b : List UInt8} {i w : ℕ} (h : i + w ≤ b.length) :
    (field b i w).length = w := by
  rw [field, List.length_take, List.length_drop]
  omega

/-- A byte string from offset `i` on is the field there, followed by the rest. -/
theorem field_append_drop (b : List UInt8) (i w : ℕ) :
    field b i w ++ b.drop (i + w) = b.drop i := by
  rw [field, ← List.drop_drop, List.take_append_drop]

/-- Writing a field that was read gives its bytes back. -/
theorem leBytes_leNat_field {b : List UInt8} {i w : ℕ} (h : i + w ≤ b.length) :
    leBytes w (leNat (field b i w)) = field b i w := by
  have hb := leBytes_leNat (field b i w)
  rwa [length_field h] at hb

/-- A field inside a prefix does not see what follows. -/
theorem field_append_left {a : List UInt8} {i w : ℕ} (h : i + w ≤ a.length)
    (c : List UInt8) : field (a ++ c) i w = field a i w := by
  rw [field, field, List.drop_append_of_le_length (by omega),
    List.take_append_of_le_length (by rw [List.length_drop]; omega)]

/-! ### Whole records -/

/-- The whole `w`-byte records at the front of `b`; a short rest is ignored. -/
def asChunks (w : ℕ) (b : List UInt8) : List (List UInt8) :=
  (List.range (b.length / w)).map fun i => field b (i * w) w

theorem length_asChunks (w : ℕ) (b : List UInt8) :
    (asChunks w b).length = b.length / w := by
  simp [asChunks]

/-- Every whole record has the record's length. -/
theorem length_of_mem_asChunks {w : ℕ} {b c : List UInt8} (h : c ∈ asChunks w b) :
    c.length = w := by
  simp only [asChunks, List.mem_map, List.mem_range] at h
  obtain ⟨i, hi, rfl⟩ := h
  refine length_field ?_
  have hle : (i + 1) * w ≤ b.length :=
    le_trans (Nat.mul_le_mul_right w hi) (Nat.div_mul_le_self _ _)
  rwa [Nat.add_mul, Nat.one_mul] at hle

/-- A record in front of whole records is the first one cut off. -/
theorem asChunks_append {w : ℕ} (hw : 0 < w) {r b : List UInt8} (hr : r.length = w) :
    asChunks w (r ++ b) = r :: asChunks w b := by
  have hlen : (r ++ b).length / w = b.length / w + 1 := by
    rw [List.length_append, hr, Nat.add_comm, Nat.add_div_right _ hw]
  rw [asChunks, hlen, List.range_succ_eq_map, List.map_cons, List.map_map]
  congr 1
  · rw [field, Nat.zero_mul, List.drop_zero, ← hr, List.take_left]
  · refine List.map_congr_left fun i _ => ?_
    have hdrop : (r ++ b).drop ((i + 1) * w) = b.drop (i * w) := by
      rw [Nat.add_mul, Nat.one_mul, Nat.add_comm, ← List.drop_drop, ← hr, List.drop_left]
    rw [Function.comp_apply, field, field, Nat.succ_eq_add_one, hdrop]

/-- Writing records of one length and cutting them apart again gives the records. -/
theorem asChunks_flatten {w : ℕ} (hw : 0 < w) {rs : List (List UInt8)}
    (hrs : ∀ r ∈ rs, r.length = w) : asChunks w rs.flatten = rs := by
  induction rs with
  | nil => simp [asChunks]
  | cons r rs ih =>
      rw [List.flatten_cons, asChunks_append hw (hrs r (by simp)),
        ih fun r' hr' => hrs r' (by simp [hr'])]

end EchoMuse
