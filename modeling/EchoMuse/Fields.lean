import Mathlib.Data.List.Chain
import Mathlib.Data.List.DropRight

/-!
# The Fields of a Text

A text as the fields between separators, empty fields left out; fields joined with one separator;
and fields cleared of what stands at their ends.

## Main results

* `fields_join`: joined fields are split into themselves;
* `fields_forall`: what a property of a text that splitting keeps says of its fields.
-/

namespace EchoMuse.Fields

variable {α : Type*}

/-! ### Bounded statements about characters -/

-- Decided over the characters of the text: the instance for every character runs through them all.
instance (priority := 1100) decidableForallMem {p : Char → Prop} [DecidablePred p]
    (t : List Char) : Decidable (∀ c ∈ t, p c) := List.decidableBAll p t

instance (priority := 1100) decidableExistsMem {p : Char → Prop} [DecidablePred p]
    (t : List Char) : Decidable (∃ c ∈ t, p c) := List.decidableBEx p t

/-! ### Splitting and joining -/

/-- The longest stretches without a separator. -/
def fields (p : α → Bool) (t : List α) : List (List α) := (t.splitOnP p).filter (· ≠ [])

/-- The fields with one separator between them. -/
def join (sep : α) (ws : List (List α)) : List α := [sep].intercalate ws

/-- A text before and after the first separator. -/
def splitOnce [DecidableEq α] (sep : α) : List α → Option (List α × List α)
  | [] => none
  | x :: t => if x = sep then some ([], t) else (splitOnce sep t).map fun s => (x :: s.1, s.2)

theorem splitOnce_eq_none_iff [DecidableEq α] {sep : α} {t : List α} :
    splitOnce sep t = none ↔ sep ∉ t := by
  induction t with
  | nil => simp [splitOnce]
  | cons x t ih =>
    rw [splitOnce]
    split_ifs with hx
    · simp [hx]
    · rw [Option.map_eq_none_iff, ih, List.mem_cons, not_or]
      exact ⟨fun h => ⟨Ne.symm hx, h⟩, And.right⟩

theorem splitOnce_eq_some_iff [DecidableEq α] {sep : α} {t a b : List α} :
    splitOnce sep t = some (a, b) ↔ t = a ++ sep :: b ∧ sep ∉ a := by
  induction t generalizing a with
  | nil => simp [splitOnce]
  | cons x t ih =>
    rw [splitOnce]
    split_ifs with hx
    · subst hx
      cases a with
      | nil => simp
      | cons y a =>
        rw [List.cons_append, List.cons.injEq, List.mem_cons, not_or]
        refine ⟨fun h => ?_, fun h => absurd h.1.1 h.2.1⟩
        cases h
    · rw [Option.map_eq_some_iff]
      cases a with
      | nil =>
        refine ⟨fun ⟨s, _, hs⟩ => ?_, fun h => absurd (List.cons.inj h.1).1 hx⟩
        cases hs
      | cons y a =>
        rw [List.cons_append, List.cons.injEq, List.mem_cons, not_or]
        constructor
        · rintro ⟨⟨a', b'⟩, hs, hab⟩
          cases hab
          obtain ⟨ht, ha⟩ := ih.mp hs
          exact ⟨⟨rfl, ht⟩, Ne.symm hx, ha⟩
        · rintro ⟨⟨rfl, ht⟩, -, ha⟩
          exact ⟨(a, b), ih.mpr ⟨ht, ha⟩, rfl⟩

theorem exists_splitOnce [DecidableEq α] {sep : α} {t : List α} (h : sep ∈ t) :
    ∃ a b, t = a ++ sep :: b ∧ sep ∉ a := by
  match hs : splitOnce sep t with
  | none => exact absurd h (splitOnce_eq_none_iff.mp hs)
  | some (a, b) => exact ⟨a, b, splitOnce_eq_some_iff.mp hs⟩

/-- The first separator is settled. -/
theorem splitOnce_unique [DecidableEq α] {sep : α} {a b x y : List α} (ha : sep ∉ a) (hx : sep ∉ x)
    (h : a ++ sep :: b = x ++ sep :: y) : a = x ∧ b = y := by
  have hs : splitOnce sep (x ++ sep :: y) = some (a, b) :=
    splitOnce_eq_some_iff.mpr ⟨h.symm, ha⟩
  rw [splitOnce_eq_some_iff.mpr ⟨rfl, hx⟩] at hs
  cases hs
  exact ⟨rfl, rfl⟩

theorem mem_splitOnP {p : α → Bool} {t w : List α} (h : w ∈ t.splitOnP p) :
    ∀ a ∈ w, a ∈ t ∧ p a = false := by
  induction t generalizing w with
  | nil =>
    rw [List.splitOnP_nil, List.mem_singleton] at h
    subst h
    exact fun a ha => absurd ha List.not_mem_nil
  | cons x t ih =>
    rw [List.splitOnP_cons_eq_if_modifyHead] at h
    split_ifs at h with hx
    · obtain rfl | h := List.mem_cons.mp h
      · exact fun a ha => absurd ha List.not_mem_nil
      · exact fun a ha => (ih h a ha).imp_left (List.mem_cons_of_mem _)
    · match hs : t.splitOnP p with
      | [] => exact absurd hs (List.splitOnP_ne_nil p t)
      | u :: us =>
        rw [hs, List.modifyHead_cons] at h
        obtain rfl | h := List.mem_cons.mp h
        · intro a ha
          obtain rfl | ha := List.mem_cons.mp ha
          · exact ⟨List.mem_cons_self, by simpa using hx⟩
          · exact (ih (hs ▸ List.mem_cons_self) a ha).imp_left (List.mem_cons_of_mem _)
        · exact fun a ha => (ih (hs ▸ List.mem_cons_of_mem _ h) a ha).imp_left
            (List.mem_cons_of_mem _)

/-- A field has no separator and is not empty. -/
theorem mem_fields {p : α → Bool} {t w : List α} (h : w ∈ fields p t) :
    w ≠ [] ∧ ∀ a ∈ w, a ∈ t ∧ p a = false := by
  obtain ⟨hw, hne⟩ := List.mem_filter.mp h
  exact ⟨of_decide_eq_true hne, mem_splitOnP hw⟩

/-- Joined fields are split into themselves. -/
theorem fields_join {p : α → Bool} {sep : α} (hsep : p sep = true) :
    ∀ {ws : List (List α)}, (∀ w ∈ ws, w ≠ [] ∧ ∀ a ∈ w, p a = false) → fields p (join sep ws) = ws
  | [], _ => rfl
  | [w], h => by
    obtain ⟨hne, hw⟩ := h w List.mem_cons_self
    rw [join, List.intercalate_singleton, fields, List.splitOnP_eq_singleton hw,
      List.filter_singleton, decide_eq_true hne]
    rfl
  | w :: v :: ws, h => by
    obtain ⟨hne, hw⟩ := h w List.mem_cons_self
    have ih := @fields_join p sep hsep (v :: ws) fun u hu => h u (List.mem_cons_of_mem _ hu)
    rw [join, List.intercalate_cons_cons, List.append_assoc, List.singleton_append, fields,
      List.splitOnP_append_cons_of_forall_mem hw sep hsep, List.filter_cons_of_pos (by simpa using hne)]
    exact congrArg (w :: ·) ih

/-- A text with a separator, before and after its first one. -/
theorem exists_first {p : α → Bool} {t : List α} (h : ¬ ∀ a ∈ t, p a = false) :
    ∃ a sep b, t = a ++ sep :: b ∧ (∀ c ∈ a, p c = false) ∧ p sep = true := by
  induction t with
  | nil => exact absurd (fun a ha => absurd ha List.not_mem_nil) h
  | cons x t ih =>
    cases hx : p x with
    | true => exact ⟨[], x, t, rfl, fun c hc => absurd hc List.not_mem_nil, hx⟩
    | false =>
      obtain ⟨a, sep, b, rfl, ha, hsep⟩ := ih fun ht => h fun c hc => by
        obtain rfl | hc := List.mem_cons.mp hc
        · exact hx
        · exact ht c hc
      refine ⟨x :: a, sep, b, rfl, fun c hc => ?_, hsep⟩
      obtain rfl | hc := List.mem_cons.mp hc
      · exact hx
      · exact ha c hc

/-- A property of texts that the stretches before and after a separator have with them is one of
the fields. -/
theorem splitOnP_forall {p : α → Bool} {P : List α → Prop}
    (hsplit : ∀ a sep b, p sep = true → P (a ++ sep :: b) → P a ∧ P b) {t : List α} (ht : P t) :
    ∀ w ∈ t.splitOnP p, P w := by
  by_cases hnone : ∀ a ∈ t, p a = false
  · rw [List.splitOnP_eq_singleton hnone]
    intro w hw
    rwa [List.mem_singleton.mp hw]
  · obtain ⟨a, sep, b, hab, ha, hsep⟩ := exists_first hnone
    subst hab
    obtain ⟨hpa, hpb⟩ := hsplit a sep b hsep ht
    rw [List.splitOnP_append_cons_of_forall_mem ha sep hsep]
    intro w hw
    obtain rfl | hw := List.mem_cons.mp hw
    · exact hpa
    · exact splitOnP_forall hsplit hpb w hw
termination_by t.length
decreasing_by
  rw [hab, List.length_append, List.length_cons]
  omega

theorem fields_forall {p : α → Bool} {P : List α → Prop}
    (hsplit : ∀ a sep b, p sep = true → P (a ++ sep :: b) → P a ∧ P b) {t : List α} (ht : P t) :
    ∀ w ∈ fields p t, P w :=
  fun w hw => splitOnP_forall hsplit ht w (List.mem_filter.mp hw).1

/-- What joined texts hold is in one of them. -/
theorem mem_join {sep c : α} {ws : List (List α)} (h : c ∈ join sep ws) :
    c = sep ∨ ∃ w ∈ ws, c ∈ w := by
  induction ws with
  | nil => exact absurd h List.not_mem_nil
  | cons w ws ih =>
    cases ws with
    | nil =>
      rw [join, List.intercalate_singleton] at h
      exact .inr ⟨w, List.mem_cons_self, h⟩
    | cons v ws =>
      rw [join, List.intercalate_cons_cons, List.mem_append, List.mem_append,
        List.mem_singleton] at h
      rcases h with (h | h) | h
      · exact .inr ⟨w, List.mem_cons_self, h⟩
      · exact .inl h
      · refine (ih h).imp_right ?_
        rintro ⟨x, hx, hc⟩
        exact ⟨x, List.mem_cons_of_mem _ hx, hc⟩

/-! ### The ends of a field -/

/-- A field without what stands at its ends. -/
def trim (p : α → Bool) (w : List α) : List α := (w.dropWhile p).rdropWhile p

theorem trim_append {p : α → Bool} (w : List α) :
    ∃ a b, w = a ++ trim p w ++ b ∧ (∀ c ∈ a, p c = true) ∧ ∀ c ∈ b, p c = true := by
  refine ⟨w.takeWhile p, (w.dropWhile p).rtakeWhile p, ?_, fun c hc => List.mem_takeWhile_imp hc,
    fun c hc => List.mem_rtakeWhile_imp hc⟩
  rw [trim, List.append_assoc, List.rdropWhile_append_rtakeWhile, List.takeWhile_append_dropWhile]

/-- At its end is nothing more. -/
theorem trim_getLast? {p : α → Bool} (w : List α) : ∀ c ∈ (trim p w).getLast?, p c = false := by
  intro c hc
  have hne : trim p w ≠ [] := by
    rintro h
    rw [h] at hc
    cases hc
  rw [List.getLast?_eq_some_getLast hne] at hc
  cases hc
  rw [Bool.eq_false_iff]
  exact List.rdropWhile_last_not p _ hne

/-- Nor at its start. -/
theorem trim_head? {p : α → Bool} (w : List α) : ∀ c ∈ (trim p w).head?, p c = false := by
  intro c hc
  obtain ⟨b, hb⟩ := List.rdropWhile_prefix (p := p) (l := w.dropWhile p)
  match ht : trim p w with
  | [] =>
    rw [ht] at hc
    cases hc
  | x :: xs =>
    rw [ht] at hc
    cases hc
    rw [trim] at ht
    rw [ht] at hb
    have := List.head?_dropWhile_not p w
    rw [← hb] at this
    simpa using this

/-- Without anything at its ends a field is as it is. -/
theorem trim_eq_self {p : α → Bool} {w : List α} (hhead : ∀ c ∈ w.head?, p c = false)
    (hlast : ∀ c ∈ w.getLast?, p c = false) : trim p w = w := by
  have hdrop : w.dropWhile p = w := by
    cases w with
    | nil => rfl
    | cons x xs => rw [List.dropWhile_cons_of_neg (by simpa using hhead x rfl)]
  rw [trim, hdrop, List.rdropWhile_eq_self_iff]
  intro hne
  simpa using hlast _ (List.getLast?_eq_some_getLast hne)

/-- What stands within a field is not cut. -/
theorem trim_append_cons {p : α → Bool} {c : α} (hc : p c = false) (a b : List α) :
    trim p (a ++ c :: b) = a.dropWhile p ++ c :: b.rdropWhile p := by
  have hdrop : ∀ x y : List α, (x ++ c :: y).dropWhile p = x.dropWhile p ++ c :: y := by
    intro x y
    rw [List.dropWhile_append, List.dropWhile_cons_of_neg (by simpa using hc)]
    split_ifs with hx
    · rw [List.isEmpty_iff.mp hx]
      rfl
    · rfl
  have hreverse : (a.dropWhile p ++ c :: b).reverse = b.reverse ++ c :: (a.dropWhile p).reverse := by
    simp
  rw [trim, hdrop, List.rdropWhile, hreverse, hdrop, List.rdropWhile]
  simp

end EchoMuse.Fields
