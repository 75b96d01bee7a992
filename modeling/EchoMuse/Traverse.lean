import Mathlib.Data.List.Forall2
import Mathlib.Logic.Relation

/-!
# Traversals That Pass a State Through

A loop over a list that changes each element in place and threads a state is `mapState`; one
that stops at the first element a test accepts is `updateFirst`.

## Main results

* `mapState_rel`, `updateFirst_rel`: what a loop does to the elements alone;
* `mapState_steps`, `updateFirst_steps`: a loop as a sequence of steps of what it is part of.
-/

namespace EchoMuse.Traverse

variable {α σ κ : Type*}

/-- `f` applied to the first element that `p` accepts, with a state passed through. -/
def updateFirst (p : α → Bool) (f : α → σ → α × σ) : List α → σ → List α × σ
  | [], s => ([], s)
  | a :: as, s =>
    if p a then
      let r := f a s
      (r.1 :: as, r.2)
    else
      let r := updateFirst p f as s
      (a :: r.1, r.2)

/-- `f` on every element in order, with a state passed through. -/
def mapState (f : α → σ → α × σ) : List α → σ → List α × σ
  | [], s => ([], s)
  | a :: as, s =>
    let r := f a s
    let rest := mapState f as r.2
    (r.1 :: rest.1, rest.2)

theorem mapState_cons (f : α → σ → α × σ) (a : α) (as : List α) (s : σ) :
    mapState f (a :: as) s = ((f a s).1 :: (mapState f as (f a s).2).1,
      (mapState f as (f a s).2).2) := rfl

/-! ### Related lists -/

theorem forall₂_imp_of_mem {R S : α → α → Prop} {as bs : List α} (h : List.Forall₂ R as bs)
    (himp : ∀ a ∈ as, ∀ b, R a b → S a b) : List.Forall₂ S as bs := by
  induction h with
  | nil => exact List.Forall₂.nil
  | cons hab _ ih =>
      rw [List.forall_mem_cons] at himp
      exact List.Forall₂.cons (himp.1 _ hab) (ih himp.2)

/-- What an element came from. -/
theorem exists_of_mem_forall₂ {R : α → α → Prop} {as bs : List α} (h : List.Forall₂ R as bs)
    {b : α} (hb : b ∈ bs) : ∃ a ∈ as, R a b := by
  induction h with
  | nil => cases hb
  | @cons a' b' as bs hab _ ih =>
      rcases List.mem_cons.mp hb with rfl | hb
      · exact ⟨a', List.mem_cons_self, hab⟩
      · obtain ⟨a, ha, hR⟩ := ih hb
        exact ⟨a, List.mem_cons_of_mem _ ha, hR⟩

/-- A key that what became of each element keeps. -/
theorem map_eq_of_forall₂ {R : α → α → Prop} {k : α → κ} (hk : ∀ a b, R a b → k b = k a)
    {as bs : List α} (h : List.Forall₂ R as bs) : bs.map k = as.map k := by
  induction h with
  | nil => rfl
  | cons hab _ ih => rw [List.map_cons, List.map_cons, ih, hk _ _ hab]

/-! ### The elements alone -/

/-- Every element is related to what became of it. -/
theorem mapState_rel {R : α → α → Prop} {f : α → σ → α × σ} {as : List α}
    (hf : ∀ a ∈ as, ∀ s, R a (f a s).1) (s : σ) : List.Forall₂ R as (mapState f as s).1 := by
  induction as generalizing s with
  | nil => exact List.Forall₂.nil
  | cons a as ih =>
      rw [List.forall_mem_cons] at hf
      rw [mapState_cons]
      exact List.Forall₂.cons (hf.1 s) (ih hf.2 _)

/-- Every element is related to what became of it: the others stay. -/
theorem updateFirst_rel {R : α → α → Prop} {p : α → Bool} {f : α → σ → α × σ} {as : List α}
    (hsame : ∀ a ∈ as, R a a) (hf : ∀ a ∈ as, p a = true → ∀ s, R a (f a s).1) (s : σ) :
    List.Forall₂ R as (updateFirst p f as s).1 := by
  induction as with
  | nil => exact List.Forall₂.nil
  | cons a as ih =>
      rw [List.forall_mem_cons] at hsame hf
      rw [updateFirst]
      split_ifs with hp
      · exact List.Forall₂.cons (hf.1 hp s) (List.forall₂_same.mpr hsame.2)
      · exact List.Forall₂.cons hsame.1 (ih hsame.2 hf.2)

/-! ### The element found -/

/-- A list around the element at an index. -/
theorem exists_around_of_getElem? {as : List α} {i : ℕ} {a : α} (h : as[i]? = some a) :
    ∃ pre post, as = pre ++ a :: post ∧ as.eraseIdx i = pre ++ post ∧
      ∀ b, as.set i b = pre ++ b :: post := by
  induction as generalizing i with
  | nil => cases h
  | cons x as ih =>
      cases i with
      | zero =>
          cases h
          exact ⟨[], as, rfl, rfl, fun _ => rfl⟩
      | succ i =>
          obtain ⟨pre, post, rfl, herase, hset⟩ := ih h
          refine ⟨x :: pre, post, rfl, ?_, fun b => ?_⟩
          · rw [List.eraseIdx_cons_succ, herase, List.cons_append]
          · rw [List.set_cons_succ, hset, List.cons_append]

theorem updateFirst_of_find?_eq_none {p : α → Bool} {as : List α} (h : as.find? p = none)
    (f : α → σ → α × σ) (s : σ) : updateFirst p f as s = (as, s) := by
  induction as with
  | nil => rfl
  | cons a as ih =>
      rw [List.find?_eq_none, List.forall_mem_cons] at h
      rw [updateFirst, if_neg h.1, ih (List.find?_eq_none.mpr h.2)]

/-- A list around the first element a test accepts. -/
theorem exists_around_of_find? {p : α → Bool} {as : List α} {a : α} (h : as.find? p = some a) :
    ∃ pre post, as = pre ++ a :: post ∧ as.eraseP p = pre ++ post ∧
      ∀ (f : α → σ → α × σ) s,
        updateFirst p f as s = (pre ++ (f a s).1 :: post, (f a s).2) := by
  induction as with
  | nil => cases h
  | cons x as ih =>
      rw [List.find?_cons] at h
      cases hp : p x with
      | true =>
          rw [hp] at h
          cases h
          exact ⟨[], as, rfl, List.eraseP_cons_of_pos hp, fun f s => by rw [updateFirst, if_pos hp]; rfl⟩
      | false =>
          rw [hp] at h
          obtain ⟨pre, post, rfl, herase, hupdate⟩ := ih h
          refine ⟨x :: pre, post, rfl, ?_, fun f s => ?_⟩
          · rw [List.eraseP_cons_of_neg (by rw [hp]; exact Bool.false_ne_true), herase,
              List.cons_append]
          · rw [updateFirst, if_neg (by rw [hp]; exact Bool.false_ne_true), hupdate]
            rfl

/-! ### Steps of the whole -/

section Steps

open Relation

variable {τ : Type*} {r : τ → τ → Prop} {f : α → σ → α × σ} (whole : List α → σ → τ)

/-- **A loop is a sequence of steps** of what the list is part of, when every turn of it is,
whatever stands before and behind the element. -/
theorem mapState_steps {as : List α}
    (hf : ∀ a ∈ as, ∀ pre post s,
      ReflTransGen r (whole (pre ++ a :: post) s) (whole (pre ++ (f a s).1 :: post) (f a s).2))
    (pre : List α) (s : σ) :
    ReflTransGen r (whole (pre ++ as) s)
      (whole (pre ++ (mapState f as s).1) (mapState f as s).2) := by
  induction as generalizing pre s with
  | nil => exact ReflTransGen.refl
  | cons a as ih =>
      rw [List.forall_mem_cons] at hf
      rw [mapState_cons]
      have hrest := ih hf.2 (pre ++ [(f a s).1]) (f a s).2
      rw [List.append_assoc, List.append_assoc] at hrest
      exact (hf.1 pre as s).trans hrest

/-- A map is a sequence of steps when every element's change is. -/
theorem map_steps {τ : Type*} {r : τ → τ → Prop} (whole : List α → τ) {f : α → α} {as : List α}
    (hf : ∀ a ∈ as, ∀ pre post,
      ReflTransGen r (whole (pre ++ a :: post)) (whole (pre ++ f a :: post)))
    (pre : List α) : ReflTransGen r (whole (pre ++ as)) (whole (pre ++ as.map f)) := by
  induction as generalizing pre with
  | nil => exact ReflTransGen.refl
  | cons a as ih =>
      rw [List.forall_mem_cons] at hf
      have hrest := ih hf.2 (pre ++ [f a])
      rw [List.append_assoc, List.append_assoc] at hrest
      exact (hf.1 pre as).trans hrest

/-- Stopping at the first element is a sequence of steps when its turn is. -/
theorem updateFirst_steps {p : α → Bool} {as : List α}
    (hf : ∀ a ∈ as, p a = true → ∀ pre post s,
      ReflTransGen r (whole (pre ++ a :: post) s) (whole (pre ++ (f a s).1 :: post) (f a s).2))
    (pre : List α) (s : σ) :
    ReflTransGen r (whole (pre ++ as) s)
      (whole (pre ++ (updateFirst p f as s).1) (updateFirst p f as s).2) := by
  induction as generalizing pre with
  | nil => exact ReflTransGen.refl
  | cons a as ih =>
      rw [List.forall_mem_cons] at hf
      rw [updateFirst]
      split_ifs with hp
      · exact hf.1 hp pre as s
      · have hrest := ih hf.2 (pre ++ [a])
        rw [List.append_assoc, List.append_assoc] at hrest
        exact hrest

end Steps

end EchoMuse.Traverse
