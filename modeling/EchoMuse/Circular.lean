import Mathlib.Data.List.Rotate
import Mathlib.Data.List.TakeWhile
import Mathlib.Tactic.Common

/-!
# Circular Storage

A queue kept in a fixed table of slots, the oldest at `head`, and samples kept in a fixed table
addressed by their position modulo its length. `Circular.entries` is the queue as a list. The
bisection at the end finds where a monotone test first fails.

## Main results

* `Circular.get_eq`, `Circular.entries_push`, `Circular.entries_drop`: the table as a queue;
* `getElem?_ringWrite`: a write leaves every position of the window in its slot;
* `bisect_spec`: what the bisection finds.
-/

namespace EchoMuse

variable {α : Type*}

/-! ### A queue in a table -/

/-- Entries in a table of slots, the oldest at `head`. -/
structure Circular (α : Type*) where
  slots : List α
  head : ℕ
  count : ℕ

namespace Circular

variable (c : Circular α)

/-- The entry `i` places after the oldest one. A table without slots has none: the remainder
divides by zero. -/
def get (i : ℕ) : Option α := c.slots[(c.head + i) % c.slots.length]?

/-- Overwrites the entry `i` places after the oldest one. -/
def set (i : ℕ) (a : α) : Circular α :=
  { c with slots := c.slots.set ((c.head + i) % c.slots.length) a }

/-- Adds an entry behind the others. -/
def push (a : α) : Circular α := { c.set c.count a with count := c.count + 1 }

/-- Removes the oldest entry. -/
def drop : Circular α :=
  { c with head := (c.head + 1) % c.slots.length, count := c.count - 1 }

def clear : Circular α := { c with head := 0, count := 0 }

/-- Removes at most `fuel` oldest entries while they pass a test. -/
def dropWhile (p : α → Bool) : ℕ → Circular α → Circular α
  | 0, c => c
  | fuel + 1, c =>
    if 0 < c.count then
      match c.get 0 with
      | some a => if p a then dropWhile p fuel c.drop else c
      | none => c
    else c

/-- The entries, oldest first. -/
def entries : List α := (c.slots.rotate c.head).take c.count

variable {c}

theorem length_entries (h : c.count ≤ c.slots.length) : c.entries.length = c.count := by
  rw [entries, List.length_take, List.length_rotate, min_eq_left h]

theorem get_eq (h : c.count ≤ c.slots.length) {i : ℕ} (hi : i < c.count) :
    c.get i = c.entries[i]? := by
  rw [entries, List.getElem?_take_of_lt hi, List.getElem?_rotate (by omega), get, Nat.add_comm]

/-- Slots that many places apart are different ones. -/
theorem mod_ne {head i j n : ℕ} (hij : i < j) (hj : j < n) : (head + i) % n ≠ (head + j) % n := by
  intro heq
  have hdvd : n ∣ (head + j) - (head + i) :=
    Nat.dvd_of_mod_eq_zero (Nat.sub_mod_eq_zero_of_mod_eq heq.symm)
  have hzero : (head + j) - (head + i) = 0 := Nat.eq_zero_of_dvd_of_lt hdvd (by omega)
  omega

/-- Overwriting an entry. -/
theorem get_set (a : α) {i j : ℕ} (hi : i < c.slots.length) (hj : j < c.slots.length) :
    (c.set i a).get j = if i = j then some a else c.get j := by
  have hlt : (c.head + i) % c.slots.length < c.slots.length := Nat.mod_lt _ (by omega)
  simp only [get, set, List.length_set]
  split_ifs with hij
  · rw [hij, List.getElem?_set_self (hij ▸ hlt)]
  · refine List.getElem?_set_ne ?_
    rcases Nat.lt_or_gt_of_ne hij with h | h
    · exact mod_ne h hj
    · exact (mod_ne h hi).symm

theorem entries_set (h : c.count ≤ c.slots.length) (a : α) {i : ℕ} (hi : i < c.count) :
    (c.set i a).entries = c.entries.set i a := by
  have hset : (c.set i a).count ≤ (c.set i a).slots.length := by
    rw [show (c.set i a).slots.length = c.slots.length from List.length_set]
    exact h
  refine List.ext_getElem? fun j => ?_
  by_cases hj : j < c.count
  · rw [← get_eq hset hj, get_set a (by omega) (by omega), List.getElem?_set, get_eq h hj,
      length_entries h]
    simp only [hi, if_true]
  · rw [List.getElem?_eq_none (by rw [length_entries hset]; exact not_lt.mp hj),
      List.getElem?_eq_none (by rw [List.length_set, length_entries h]; exact not_lt.mp hj)]

/-- A new entry comes last. -/
theorem entries_push (h : c.count < c.slots.length) (a : α) :
    (c.push a).entries = c.entries ++ [a] := by
  have hpush : (c.push a).count ≤ (c.push a).slots.length := by
    rw [show (c.push a).slots.length = c.slots.length from List.length_set]
    exact h
  have hget : ∀ j, (c.push a).get j = (c.set c.count a).get j := fun _ => rfl
  refine List.ext_getElem? fun j => ?_
  by_cases hj : j < c.count + 1
  · rw [← get_eq hpush hj, hget, get_set a h (by omega)]
    rcases Nat.lt_succ_iff_lt_or_eq.mp hj with hlt | rfl
    · rw [if_neg (by omega), get_eq h.le hlt, List.getElem?_append_left]
      rw [length_entries h.le]
      exact hlt
    · rw [if_pos rfl, List.getElem?_append_right (length_entries h.le).le, length_entries h.le,
        Nat.sub_self]
      rfl
  · rw [List.getElem?_eq_none (by rw [length_entries hpush]; exact not_lt.mp hj),
      List.getElem?_eq_none (by
        rw [List.length_append, length_entries h.le]
        exact not_lt.mp hj)]

theorem entries_drop (h : c.count ≤ c.slots.length) : c.drop.entries = c.entries.tail := by
  have hdrop : c.drop.count ≤ c.drop.slots.length := (Nat.sub_le _ _).trans h
  refine List.ext_getElem? fun j => ?_
  rw [List.getElem?_tail]
  by_cases hj : j < c.count - 1
  · rw [← get_eq hdrop hj, ← get_eq h (by omega), get, get]
    simp only [drop, Nat.mod_add_mod]
    rw [Nat.add_assoc, Nat.add_comm 1 j]
  · rw [List.getElem?_eq_none (by rw [length_entries hdrop]; exact not_lt.mp hj),
      List.getElem?_eq_none (by rw [length_entries h]; omega)]

theorem count_drop_le (h : c.count ≤ c.slots.length) : c.drop.count ≤ c.drop.slots.length :=
  (Nat.sub_le _ _).trans h

/-- Removing entries while they pass a test. -/
theorem dropWhile_spec (p : α → Bool) {fuel : ℕ} (h : c.count ≤ c.slots.length)
    (hfuel : c.count ≤ fuel) :
    (c.dropWhile p fuel).entries = c.entries.dropWhile p ∧
      (c.dropWhile p fuel).slots.length = c.slots.length ∧
      (c.dropWhile p fuel).count ≤ c.slots.length := by
  induction fuel generalizing c with
  | zero =>
      have hnil : c.entries = [] := List.length_eq_zero_iff.mp (by rw [length_entries h]; omega)
      rw [dropWhile, hnil]
      exact ⟨rfl, rfl, h⟩
  | succ fuel ih =>
      rw [dropWhile]
      split_ifs with hpos
      · rw [get_eq h hpos]
        have hlength := length_entries h
        cases hentries : c.entries with
        | nil =>
            rw [hentries, List.length_nil] at hlength
            omega
        | cons a rest =>
            rw [List.getElem?_cons_zero]
            dsimp only
            by_cases hp : p a = true
            · have hrest := entries_drop h
              rw [hentries, List.tail_cons] at hrest
              have hdrop : c.drop.count ≤ fuel := by
                rw [show c.drop.count = c.count - 1 from rfl]
                omega
              rw [if_pos hp, List.dropWhile_cons_of_pos hp, ← hrest]
              exact ih (count_drop_le h) hdrop
            · rw [if_neg hp, List.dropWhile_cons_of_neg hp]
              exact ⟨hentries, rfl, h⟩
      · have hnil : c.entries = [] := List.length_eq_zero_iff.mp (by rw [length_entries h]; omega)
        rw [hnil]
        exact ⟨rfl, rfl, h⟩

end Circular

/-! ### Samples in a table -/

/-- `dst` with `src` over it from `pos` on, as far as `dst` reaches. -/
def overwrite (dst : List α) (pos : ℕ) (src : List α) : List α :=
  dst.take pos ++ src.take (dst.length - pos) ++ dst.drop (pos + src.length)

theorem length_overwrite (dst : List α) {pos : ℕ} (h : pos ≤ dst.length) (src : List α) :
    (overwrite dst pos src).length = dst.length := by
  simp only [overwrite, List.length_append, List.length_take, List.length_drop]
  omega

theorem getElem?_overwrite (dst : List α) {pos : ℕ} (h : pos ≤ dst.length) (src : List α)
    {j : ℕ} (hj : j < dst.length) :
    (overwrite dst pos src)[j]? =
      if pos ≤ j ∧ j < pos + src.length then src[j - pos]? else dst[j]? := by
  have hfront : (dst.take pos).length = pos := by rw [List.length_take, min_eq_left h]
  rw [overwrite, List.append_assoc]
  by_cases hbefore : j < pos
  · rw [List.getElem?_append_left (by omega), List.getElem?_take_of_lt hbefore,
      if_neg (by omega)]
  · rw [List.getElem?_append_right (by omega), hfront]
    by_cases hin : j < pos + src.length
    · rw [List.getElem?_append_left (by rw [List.length_take]; omega),
        List.getElem?_take_of_lt (by omega), if_pos (by omega)]
    · rw [List.getElem?_append_right (by rw [List.length_take]; omega), List.length_take,
        List.getElem?_drop, if_neg (by omega)]
      congr 1
      omega

/-- Writes `src` at position `first` of a table addressed by remainders: up to its end, and the
rest from its beginning. -/
def ringWrite (table : List α) (first : ℕ) (src : List α) : List α :=
  let pos := first % table.length
  overwrite (overwrite table pos src) 0 (src.drop (min (table.length - pos) src.length))

theorem length_ringWrite (table : List α) (first : ℕ) (src : List α) :
    (ringWrite table first src).length = table.length := by
  rcases Nat.eq_zero_or_pos table.length with hzero | hpos
  · rw [ringWrite, List.eq_nil_of_length_eq_zero hzero]
    simp [overwrite]
  · have hlt := Nat.mod_lt first hpos
    rw [ringWrite, length_overwrite _ (Nat.zero_le _), length_overwrite _ hlt.le]

/-- **A write leaves every position of the window it ends in its slot**: the new samples in
theirs, and the older ones that still fit untouched. -/
theorem getElem?_ringWrite {table src : List α} {first i : ℕ} (hsrc : src.length ≤ table.length)
    (hlow : first + src.length ≤ i + table.length) (hhigh : i < first + src.length) :
    (ringWrite table first src)[i % table.length]? =
      if first ≤ i then src[i - first]? else table[i % table.length]? := by
  have hpos : 0 < table.length := by omega
  have hslot := Nat.mod_lt i hpos
  have hstart := Nat.mod_lt first hpos
  have hdiv := Nat.div_add_mod first table.length
  set n := table.length with hn
  set pos := first % n with hposdef
  have hlen := length_overwrite table hstart.le src
  rw [ringWrite, getElem?_overwrite _ (Nat.zero_le _) _ (by rw [hlen]; exact hslot),
    getElem?_overwrite table hstart.le src hslot, List.length_drop, Nat.zero_add, Nat.sub_zero,
    List.getElem?_drop, ← hn, ← hposdef]
  -- the slot of a position, counted from the slot of `first`
  by_cases hnew : first ≤ i
  · rw [if_pos hnew]
    have hi : i = n * (first / n) + (pos + (i - first)) := by omega
    by_cases hwrap : pos + (i - first) < n
    · have hmod : i % n = pos + (i - first) := by
        conv_lhs => rw [hi, Nat.mul_add_mod, Nat.mod_eq_of_lt hwrap]
      rw [hmod, if_neg (by omega), if_pos (by omega)]
      congr 1
      omega
    · have hmod : i % n = pos + (i - first) - n := by
        conv_lhs => rw [hi, Nat.mul_add_mod, Nat.mod_eq_sub_mod (by omega),
          Nat.mod_eq_of_lt (by omega)]
      rw [hmod, if_pos (by omega)]
      congr 1
      omega
  · rw [if_neg hnew]
    by_cases hback : first - i ≤ pos
    · have hmod : i % n = pos - (first - i) := by
        have hi : i = n * (first / n) + (pos - (first - i)) := by omega
        conv_lhs => rw [hi, Nat.mul_add_mod, Nat.mod_eq_of_lt (by omega)]
      rw [hmod, if_neg (by omega), if_neg (by omega)]
    · have hmod : i % n = pos + n - (first - i) := by
        have hi : i + n = n * (first / n) + (pos + n - (first - i)) := by omega
        rw [← Nat.add_mod_right i n, hi, Nat.mul_add_mod, Nat.mod_eq_of_lt (by omega)]
      rw [hmod, if_neg (by omega), if_neg (by omega)]

/-- Reads `dst.length` samples from position `first` of a table addressed by remainders. -/
def ringRead (table : List α) (first : ℕ) (dst : List α) : List α :=
  let pos := first % table.length
  overwrite (overwrite dst 0 (table.drop pos)) (min dst.length (table.length - pos)) table

theorem length_ringRead (table : List α) (first : ℕ) (dst : List α) :
    (ringRead table first dst).length = dst.length := by
  have hinner := length_overwrite dst (Nat.zero_le _) (table.drop (first % table.length))
  rw [ringRead, length_overwrite _ (by rw [hinner]; exact min_le_left _ _), hinner]

/-- A read no longer than the table gives every position from its slot. -/
theorem getElem?_ringRead {table dst : List α} {first j : ℕ} (hdst : dst.length ≤ table.length)
    (hj : j < dst.length) :
    (ringRead table first dst)[j]? = table[(first + j) % table.length]? := by
  have hpos : 0 < table.length := by omega
  have hstart := Nat.mod_lt first hpos
  have hinner := length_overwrite dst (Nat.zero_le _) (table.drop (first % table.length))
  rw [ringRead, getElem?_overwrite _ (by rw [hinner]; exact min_le_left _ _) _
    (by rw [hinner]; exact hj), getElem?_overwrite dst (Nat.zero_le _) _ hj, List.length_drop,
    List.getElem?_drop]
  rw [Nat.add_mod, Nat.mod_eq_of_lt (show j < table.length by omega)]
  generalize first % table.length = pos at hstart
  by_cases hwrap : pos + j < table.length
  · rw [if_neg (by omega), if_pos (by omega), Nat.mod_eq_of_lt hwrap, Nat.sub_zero]
  · have hmod : (pos + j) % table.length = pos + j - table.length := by
      rw [Nat.mod_eq_sub_mod (by omega), Nat.mod_eq_of_lt (by omega)]
    rw [if_pos (by omega), hmod]
    congr 1
    omega

/-! ### Bisection -/

/-- Bisects `[lo, hi)` for the first index that fails the test; each turn halves what is left,
so `fuel` may be its length. -/
def bisect (p : ℕ → Bool) : ℕ → ℕ → ℕ → ℕ
  | 0, lo, _ => lo
  | fuel + 1, lo, hi =>
    if lo < hi then
      let mid := (lo + hi) / 2
      if p mid then bisect p fuel (mid + 1) hi else bisect p fuel lo mid
    else lo

/-- **The bisection finds where a monotone test first fails.** -/
theorem bisect_spec {p : ℕ → Bool} (fuel lo hi : ℕ)
    (hmono : ∀ i j, lo ≤ i → i ≤ j → j < hi → p j = true → p i = true)
    (hfuel : hi ≤ lo + fuel) (hle : lo ≤ hi) :
    lo ≤ bisect p fuel lo hi ∧ bisect p fuel lo hi ≤ hi ∧
      (∀ i, lo ≤ i → i < bisect p fuel lo hi → p i = true) ∧
      ∀ i, bisect p fuel lo hi ≤ i → i < hi → p i = false := by
  induction fuel generalizing lo hi with
  | zero =>
      rw [bisect]
      exact ⟨le_refl _, hle, fun i h h' => by omega, fun i h h' => by omega⟩
  | succ fuel ih =>
      rw [bisect]
      split_ifs with hlt
      · dsimp only
        have hmid : lo ≤ (lo + hi) / 2 ∧ (lo + hi) / 2 < hi := by omega
        set mid := (lo + hi) / 2
        split_ifs with hp
        · obtain ⟨hlo, hhi, hbelow, habove⟩ := ih (mid + 1) hi
            (fun i j hi hij => hmono i j (by omega) hij) (by omega) hmid.2
          refine ⟨by omega, hhi, fun i hi hlt => ?_, habove⟩
          by_cases hle : i ≤ mid
          · exact hmono i mid hi hle hmid.2 hp
          · exact hbelow i (by omega) hlt
        · obtain ⟨hlo, hhi, hbelow, habove⟩ := ih lo mid
            (fun i j hi hij hj => hmono i j hi hij (by omega)) (by omega) hmid.1
          refine ⟨hlo, by omega, hbelow, fun i hi hlt => ?_⟩
          by_cases hle : mid ≤ i
          · by_contra hpi
            rw [Bool.not_eq_false] at hpi
            exact hp (hmono mid i hmid.1 hle hlt hpi)
          · exact habove i hi (by omega)
      · exact ⟨le_refl _, hle, fun i h h' => by omega, fun i h h' => by omega⟩

end EchoMuse
