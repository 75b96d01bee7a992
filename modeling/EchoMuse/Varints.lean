import Mathlib.Algebra.Order.Ring.Nat
import Mathlib.Data.List.Basic
import Mathlib.Tactic.Ring

/-!
# Varints

Numbers as bytes of seven bits, the lowest first, every byte but the last with its high bit set.
A number has one shortest varint, and others padded with zeros.

## Main results

* `IsVarint.unique`: a byte string starts with at most one varint;
* `isVarint_leb128`, `length_leb128_le`: the shortest varint of a number.
-/

namespace EchoMuse.Varints

/-- A byte that another follows. -/
def continues (b : UInt8) : Bool := 128 ≤ b.toNat

/-- The bytes are a varint of the number. -/
inductive IsVarint : List UInt8 → ℕ → Prop
  | last {b : UInt8} (hb : continues b = false) : IsVarint [b] b.toNat
  | more {b : UInt8} {bs : List UInt8} {n : ℕ} (hb : continues b = true) (hs : IsVarint bs n) :
      IsVarint (b :: bs) (b.toNat - 128 + 128 * n)

/-- The number that the low seven bits of the bytes spell. -/
def value : List UInt8 → ℕ
  | [] => 0
  | b :: bs => b.toNat % 128 + 128 * value bs

theorem toNat_of_last {b : UInt8} (hb : continues b = false) : b.toNat % 128 = b.toNat := by
  rw [continues, decide_eq_false_iff_not] at hb
  omega

theorem toNat_of_continues {b : UInt8} (hb : continues b = true) :
    b.toNat % 128 = b.toNat - 128 := by
  rw [continues, decide_eq_true_eq] at hb
  have hlt : b.toNat < 256 := b.toNat_lt
  omega

/-- A varint is bytes that continue and a last one. -/
theorem isVarint_iff {bs : List UInt8} {n : ℕ} :
    IsVarint bs n ↔ ∃ init b, bs = init ++ [b] ∧ (∀ c ∈ init, continues c = true) ∧
      continues b = false ∧ value bs = n := by
  constructor
  · intro h
    induction h with
    | @last b hb =>
        refine ⟨[], b, rfl, nofun, hb, ?_⟩
        rw [value, value, toNat_of_last hb]
        omega
    | @more b bs n hb _ ih =>
        obtain ⟨init, c, rfl, hinit, hc, hvalue⟩ := ih
        refine ⟨b :: init, c, rfl, List.forall_mem_cons.mpr ⟨hb, hinit⟩, hc, ?_⟩
        rw [value, hvalue, toNat_of_continues hb]
  · rintro ⟨init, b, rfl, hinit, hb, rfl⟩
    induction init with
    | nil =>
        have hlast := IsVarint.last hb
        rw [List.nil_append, value, value, toNat_of_last hb]
        exact hlast
    | cons c init ih =>
        obtain ⟨hc, hinit⟩ := List.forall_mem_cons.mp hinit
        rw [List.cons_append, value, toNat_of_continues hc]
        exact .more hc (ih hinit)

theorem IsVarint.length_pos {bs : List UInt8} {n : ℕ} (h : IsVarint bs n) : 0 < bs.length := by
  cases h <;> exact Nat.succ_pos _

/-- A byte string starts with at most one varint. -/
theorem IsVarint.unique {a b x y : List UInt8} {n m : ℕ} (ha : IsVarint a n) (hb : IsVarint b m)
    (heq : a ++ x = b ++ y) : a = b ∧ n = m := by
  induction ha generalizing b m with
  | @last c hc =>
      cases hb with
      | last hd =>
          cases heq
          exact ⟨rfl, rfl⟩
      | more hd _ =>
          cases heq
          rw [hc] at hd
          cases hd
  | @more c cs n hc _ ih =>
      cases hb with
      | last hd =>
          cases heq
          rw [hc] at hd
          cases hd
      | more hd hds =>
          rw [List.cons_append, List.cons_append, List.cons.injEq] at heq
          obtain ⟨rfl, heq⟩ := heq
          obtain ⟨rfl, rfl⟩ := ih hds heq
          exact ⟨rfl, rfl⟩

/-- The shortest varint of a number. -/
def leb128 (n : ℕ) : List UInt8 :=
  if n < 128 then [UInt8.ofNat n] else UInt8.ofNat (n % 128 + 128) :: leb128 (n / 128)
termination_by n
decreasing_by omega

theorem isVarint_leb128 (n : ℕ) : IsVarint (leb128 n) n := by
  induction n using Nat.strongRecOn with
  | ind n ih =>
      rw [leb128]
      split_ifs with hn
      · have hvalue : (UInt8.ofNat n).toNat = n := by
          rw [UInt8.toNat_ofNat']
          omega
        have hlast : continues (UInt8.ofNat n) = false := by
          rw [continues, hvalue, decide_eq_false_iff_not]
          omega
        have hvarint := IsVarint.last hlast
        rwa [hvalue] at hvarint
      · have hvalue : (UInt8.ofNat (n % 128 + 128)).toNat = n % 128 + 128 := by
          rw [UInt8.toNat_ofNat']
          omega
        have hmore : continues (UInt8.ofNat (n % 128 + 128)) = true := by
          rw [continues, hvalue, decide_eq_true_eq]
          omega
        have hvarint := IsVarint.more hmore (ih (n / 128) (by omega))
        have hsum : n % 128 + 128 - 128 + 128 * (n / 128) = n := by omega
        rwa [hvalue, hsum] at hvarint

/-- A number of so many groups of seven bits has a varint of so many bytes. -/
theorem length_leb128_le {n : ℕ} (k : ℕ) (hn : n < 128 ^ (k + 1)) : (leb128 n).length ≤ k + 1 := by
  induction k generalizing n with
  | zero =>
      rw [leb128, if_pos (by omega)]
      rfl
  | succ k ih =>
      rw [leb128]
      split_ifs
      · rw [List.length_singleton]
        omega
      · rw [List.length_cons]
        refine Nat.succ_le_succ (ih (Nat.div_lt_of_lt_mul ?_))
        rw [pow_succ] at hn
        omega

end EchoMuse.Varints
