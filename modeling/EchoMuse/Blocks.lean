import Mathlib.Data.List.Basic

/-!
# Blocks of a List

A list cut into blocks of `n` elements, and the open block of those that are left. A list that
grows completes one block after the other.

## Main results

* `blocks_append_of_lt`, `blocks_append_of_eq`: what more elements do to the blocks;
* `opened_append_of_lt`, `opened_append_of_eq`: and to the open block.
-/

namespace EchoMuse.Blocks

variable {α : Type*} {n : ℕ}

/-- The complete blocks. -/
def blocks (n : ℕ) (l : List α) : List (List α) :=
  (List.range (l.length / n)).map fun k => (l.drop (n * k)).take n

/-- The elements behind the complete blocks. -/
def opened (n : ℕ) (l : List α) : List α := l.drop (n * (l.length / n))

@[simp] theorem length_blocks (l : List α) : (blocks n l).length = l.length / n := by
  rw [blocks, List.length_map, List.length_range]

theorem length_opened (l : List α) : (opened n l).length = l.length % n := by
  rw [opened, List.length_drop]
  exact (Nat.mod_eq_sub_mul_div).symm

theorem blocks_of_lt {l : List α} (h : l.length < n) : blocks n l = [] := by
  rw [blocks, Nat.div_eq_of_lt h]
  rfl

theorem opened_of_lt {l : List α} (h : l.length < n) : opened n l = l := by
  rw [opened, Nat.div_eq_of_lt h]
  rfl

/-- The blocks of a longer list are the blocks of the list, as far as it has them. -/
theorem blocks_append (l x : List α) {m : ℕ} (hm : (l ++ x).length / n = l.length / n + m) :
    blocks n (l ++ x) = blocks n l ++ (List.range m).map fun k =>
      ((l ++ x).drop (n * (l.length / n + k))).take n := by
  rw [blocks, hm, List.range_add, List.map_append, List.map_map, blocks]
  congr 1
  refine List.map_congr_left fun k hk => ?_
  have hle : n * (k + 1) ≤ l.length :=
    Nat.le_trans (Nat.mul_le_mul_left n (List.mem_range.mp hk)) (Nat.mul_div_le _ _)
  rw [Nat.mul_succ] at hle
  rw [List.drop_append_of_le_length (by omega), List.take_append_of_le_length]
  rw [List.length_drop]
  omega

section

variable (l x : List α)

/-- Elements that do not fill the open block leave the blocks. -/
theorem blocks_append_of_lt (h : (opened n l).length + x.length < n) :
    blocks n (l ++ x) = blocks n l := by
  rw [length_opened] at h
  have hdiv : (l ++ x).length / n = l.length / n + 0 := by
    rw [List.length_append, Nat.add_div (by omega), Nat.div_eq_of_lt (show x.length < n by omega),
      if_neg]
    rw [Nat.mod_eq_of_lt (show x.length < n by omega)]
    omega
  rw [blocks_append l x hdiv]
  simp

theorem opened_append_of_lt (h : (opened n l).length + x.length < n) :
    opened n (l ++ x) = opened n l ++ x := by
  have hlen := congrArg List.length (blocks_append_of_lt l x h)
  rw [length_blocks, length_blocks] at hlen
  rw [opened, hlen, List.drop_append_of_le_length (Nat.mul_div_le _ _), opened]

/-- Elements that fill it complete one more. -/
theorem blocks_append_of_eq (h : (opened n l).length + x.length = n) (hn : 0 < n) :
    blocks n (l ++ x) = blocks n l ++ [opened n l ++ x] := by
  have hlen : (opened n l ++ x).length = n := by rw [List.length_append, h]
  rw [length_opened] at h
  have hsplit := Nat.div_add_mod l.length n
  have hdiv : (l ++ x).length / n = l.length / n + 1 := by
    rw [List.length_append, ← hsplit, Nat.add_assoc, h, Nat.mul_add_div hn, Nat.mul_add_div hn,
      Nat.div_self hn, Nat.mod_div_self]
  rw [blocks_append l x hdiv]
  simp only [List.range_one, List.map_singleton, Nat.add_zero]
  rw [List.drop_append_of_le_length (Nat.mul_div_le _ _)]
  have htake : (opened n l ++ x).take n = opened n l ++ x := by
    rw [List.take_of_length_le (Nat.le_of_eq hlen)]
  rw [← opened, htake]

theorem opened_append_of_eq (h : (opened n l).length + x.length = n) :
    opened n (l ++ x) = [] := by
  have hlen := length_opened (n := n) (l ++ x)
  rw [length_opened] at h
  have hsplit := Nat.div_add_mod l.length n
  rw [List.length_append, ← hsplit, Nat.add_assoc, h, Nat.mul_add_mod, Nat.mod_self] at hlen
  exact List.length_eq_zero_iff.mp hlen

end

end EchoMuse.Blocks
