import Mathlib.Data.List.TakeWhile
import Mathlib.Tactic.Common

/-!
# Abutting Pieces

A list of pieces, each from where the one before it stops: `Abut first stop a xs b` says that
`xs` goes from `a` to `b` without a gap and without an empty piece.

## Main results

* `Abut.exists_mem`: every position between the ends is in a piece;
* `Abut.dropWhile`: dropping what stops before a position;
* `Abut.clip`: the pieces that meet a range, cut to it, are the range's own pieces.
-/

namespace EchoMuse

variable {α β : Type*} {first stop : α → ℕ} {a b : ℕ} {x : α} {xs ys : List α}

/-- The pieces go from `a` to `b`, each from where the one before it stops. -/
def Abut (first stop : α → ℕ) : ℕ → List α → ℕ → Prop
  | a, [], b => a = b
  | a, x :: xs, b => first x = a ∧ a < stop x ∧ Abut first stop (stop x) xs b

namespace Abut

theorem nil_iff : Abut first stop a [] b ↔ a = b := Iff.rfl

theorem cons_iff :
    Abut first stop a (x :: xs) b ↔
      first x = a ∧ a < stop x ∧ Abut first stop (stop x) xs b := Iff.rfl

theorem append_iff :
    Abut first stop a (xs ++ ys) b ↔
      ∃ c, Abut first stop a xs c ∧ Abut first stop c ys b := by
  induction xs generalizing a with
  | nil => simp [nil_iff]
  | cons x xs ih => simp [cons_iff, ih, and_assoc]

theorem concat_iff :
    Abut first stop a (xs ++ [x]) b ↔
      Abut first stop a xs (first x) ∧ first x < stop x ∧ stop x = b := by
  rw [append_iff]
  constructor
  · rintro ⟨c, hxs, rfl, hlt, heq⟩
    exact ⟨hxs, hlt, heq⟩
  · rintro ⟨hxs, hlt, heq⟩
    exact ⟨first x, hxs, rfl, hlt, heq⟩

theorem le (h : Abut first stop a xs b) : a ≤ b := by
  induction xs generalizing a with
  | nil => exact (nil_iff.mp h).le
  | cons x xs ih =>
      obtain ⟨-, hlt, hrest⟩ := h
      exact hlt.le.trans (ih hrest)

/-- Every piece lies between the ends. -/
theorem bounds (h : Abut first stop a xs b) (hx : x ∈ xs) :
    a ≤ first x ∧ first x < stop x ∧ stop x ≤ b := by
  induction xs generalizing a with
  | nil => cases hx
  | cons y xs ih =>
      obtain ⟨hfirst, hlt, hrest⟩ := h
      rcases List.mem_cons.mp hx with rfl | hx
      · exact ⟨hfirst.ge, hfirst ▸ hlt, hrest.le⟩
      · obtain ⟨hlow, hin, hhigh⟩ := ih hrest hx
        exact ⟨hlt.le.trans hlow, hin, hhigh⟩

/-- Every position between the ends is in a piece. -/
theorem exists_mem (h : Abut first stop a xs b) {i : ℕ} (hlow : a ≤ i) (hhigh : i < b) :
    ∃ x ∈ xs, first x ≤ i ∧ i < stop x := by
  induction xs generalizing a with
  | nil =>
      rw [nil_iff] at h
      omega
  | cons y xs ih =>
      obtain ⟨hfirst, hlt, hrest⟩ := h
      by_cases hy : i < stop y
      · exact ⟨y, List.mem_cons_self, by omega, hy⟩
      · obtain ⟨x, hx, hin⟩ := ih hrest (not_lt.mp hy)
        exact ⟨x, List.mem_cons_of_mem _ hx, hin⟩

/-- Later pieces begin where earlier ones stop or after. -/
theorem pairwise (h : Abut first stop a xs b) : xs.Pairwise fun x y => stop x ≤ first y := by
  induction xs generalizing a with
  | nil => exact List.Pairwise.nil
  | cons x xs ih =>
      obtain ⟨-, -, hrest⟩ := h
      exact List.Pairwise.cons (fun y hy => (hrest.bounds hy).1) (ih hrest)

/-- Dropping the pieces that stop at or before `i`. -/
theorem dropWhile (h : Abut first stop a xs b) {i : ℕ} (hlow : a ≤ i) (hhigh : i ≤ b) :
    (∃ a' ≤ i, Abut first stop a' (xs.dropWhile fun x => stop x ≤ i) b) ∧
      ∀ x ∈ xs.dropWhile fun x => stop x ≤ i, i < stop x := by
  induction xs generalizing a with
  | nil => exact ⟨⟨a, hlow, h⟩, by simp⟩
  | cons x xs ih =>
      obtain ⟨hfirst, hlt, hrest⟩ := h
      by_cases hx : stop x ≤ i
      · rw [List.dropWhile_cons_of_pos (by simpa using hx)]
        exact ih hrest hx
      · rw [List.dropWhile_cons_of_neg (by simpa using hx)]
        refine ⟨⟨a, hlow, hfirst, hlt, hrest⟩, fun y hy => ?_⟩
        rcases List.mem_cons.mp hy with rfl | hy
        · omega
        · have hbounds := hrest.bounds hy
          omega

/-! ### Cuts -/

section Clip

variable {first' stop' : β → ℕ} {cut : α → β} {lo hi : ℕ}

/-- The pieces from `a` on, cut at `hi`. -/
theorem clip_stop (hfirst : ∀ x ∈ xs, first' (cut x) = max (first x) lo)
    (hstop : ∀ x ∈ xs, stop' (cut x) = min (stop x) hi) (h : Abut first stop a xs b)
    (hlo : lo ≤ a) (hhi : hi ≤ b) :
    Abut first' stop' (min a hi) ((xs.takeWhile fun x => first x < hi).map cut) hi := by
  induction xs generalizing a with
  | nil =>
      rw [nil_iff] at h
      exact min_eq_right (h ▸ hhi)
  | cons x xs ih =>
      obtain ⟨ha, hlt, hrest⟩ := h
      rw [List.forall_mem_cons] at hfirst hstop
      by_cases hx : first x < hi
      · rw [List.takeWhile_cons_of_pos (by simpa using hx), List.map_cons]
        have hcut := ih hfirst.2 hstop.2 hrest (hlo.trans hlt.le)
        refine ⟨?_, ?_, ?_⟩
        · rw [hfirst.1]
          omega
        · rw [hstop.1]
          omega
        · rw [hstop.1]
          exact hcut
      · rw [List.takeWhile_cons_of_neg (by simpa using hx), List.map_nil, nil_iff]
        omega

/-- **The pieces that meet a range, cut to it, go from its beginning to its end.** -/
theorem clip (hfirst : ∀ x ∈ xs, first' (cut x) = max (first x) lo)
    (hstop : ∀ x ∈ xs, stop' (cut x) = min (stop x) hi) (h : Abut first stop a xs b)
    (hlo : a ≤ lo) (hlt : lo < hi) (hhi : hi ≤ b) :
    Abut first' stop' lo
      (((xs.dropWhile fun x => stop x ≤ lo).takeWhile fun x => first x < hi).map cut) hi := by
  induction xs generalizing a with
  | nil =>
      rw [nil_iff] at h
      omega
  | cons x xs ih =>
      obtain ⟨ha, hin, hrest⟩ := h
      rw [List.forall_mem_cons] at hfirst hstop
      by_cases hx : stop x ≤ lo
      · rw [List.dropWhile_cons_of_pos (by simpa using hx)]
        exact ih hfirst.2 hstop.2 hrest hx
      · rw [List.dropWhile_cons_of_neg (by simpa using hx),
          List.takeWhile_cons_of_pos (by rw [decide_eq_true_eq]; omega), List.map_cons]
        have hcut := clip_stop hfirst.2 hstop.2 hrest (by omega) hhi
        refine ⟨?_, ?_, ?_⟩
        · rw [hfirst.1]
          omega
        · rw [hstop.1]
          omega
        · rw [hstop.1]
          exact hcut

end Clip

/-- The pieces that begin before a position. -/
theorem mem_takeWhile_iff (h : Abut first stop a xs b) {hi : ℕ} :
    x ∈ xs.takeWhile (fun x => first x < hi) ↔ x ∈ xs ∧ first x < hi := by
  induction xs generalizing a with
  | nil => simp
  | cons y xs ih =>
      obtain ⟨ha, hin, hrest⟩ := h
      by_cases hlt : first y < hi
      · rw [List.takeWhile_cons_of_pos (by simpa using hlt), List.mem_cons, List.mem_cons,
          ih hrest]
        constructor
        · rintro (rfl | ⟨hx, hxlt⟩)
          · exact ⟨Or.inl rfl, hlt⟩
          · exact ⟨Or.inr hx, hxlt⟩
        · rintro ⟨rfl | hx, hxlt⟩
          · exact Or.inl rfl
          · exact Or.inr ⟨hx, hxlt⟩
      · rw [List.takeWhile_cons_of_neg (by simpa using hlt)]
        refine ⟨fun hx => (List.not_mem_nil hx).elim, ?_⟩
        rintro ⟨hx, hxlt⟩
        rcases List.mem_cons.mp hx with rfl | hx
        · omega
        · have hbounds := hrest.bounds hx
          omega

/-- The pieces that meet a range. -/
theorem mem_clip_iff (h : Abut first stop a xs b) {lo hi : ℕ} :
    x ∈ (xs.dropWhile fun x => stop x ≤ lo).takeWhile (fun x => first x < hi) ↔
      x ∈ xs ∧ lo < stop x ∧ first x < hi := by
  induction xs generalizing a with
  | nil => simp
  | cons y xs ih =>
      obtain ⟨ha, hin, hrest⟩ := h
      by_cases hy : stop y ≤ lo
      · rw [List.dropWhile_cons_of_pos (by simpa using hy), ih hrest, List.mem_cons]
        constructor
        · rintro ⟨hx, hrange⟩
          exact ⟨Or.inr hx, hrange⟩
        · rintro ⟨rfl | hx, hrange⟩
          · omega
          · exact ⟨hx, hrange⟩
      · have hall : Abut first stop a (y :: xs) b := ⟨ha, hin, hrest⟩
        rw [List.dropWhile_cons_of_neg (by simpa using hy), hall.mem_takeWhile_iff]
        refine ⟨fun ⟨hx, hlt⟩ => ⟨hx, ?_, hlt⟩, fun ⟨hx, _, hlt⟩ => ⟨hx, hlt⟩⟩
        rcases List.mem_cons.mp hx with rfl | hx
        · omega
        · have hbounds := hrest.bounds hx
          omega

end Abut

end EchoMuse
