import Mathlib.Data.List.Forall2

/-!
# Searches by Narrowing

A search that narrows a list step by step and stops at the first step that leaves one element. A
search whose steps keep less finds what one finds whose steps keep more, as long as each of its
steps keeps that element.

## Main results

* `search_of_finer`: a finer search finds the same;
* `search_eq`: the search with its steps skipped once one element is left.
-/

namespace EchoMuse.Narrowing

variable {α : Type*}

/-- The only element. -/
def lone : List α → Option α
  | [a] => some a
  | _ => none

theorem lone_eq_some {l : List α} {a : α} : lone l = some a ↔ l = [a] := by
  match l with
  | [] => exact iff_of_false nofun nofun
  | [b] => simp [lone]
  | b :: c :: l => exact iff_of_false nofun nofun

/-- Narrows step by step, and returns the first lone element. -/
def search : List (α → Bool) → List α → Option α
  | [], _ => none
  | p :: ps, l => (lone (l.filter p)).or (search ps (l.filter p))

/-- What is found is in the list, and the first step keeps it. -/
theorem search_eq_some {p : α → Bool} {ps : List (α → Bool)} {l : List α} {a : α}
    (h : search (p :: ps) l = some a) : a ∈ l ∧ p a = true := by
  induction ps generalizing p l with
  | nil =>
    rw [search, search, Option.or_none, lone_eq_some] at h
    exact List.mem_filter.mp (h ▸ List.mem_singleton_self a)
  | cons q ps ih =>
    rw [search, Option.or_eq_some_iff, lone_eq_some] at h
    obtain h | ⟨-, h⟩ := h
    · exact List.mem_filter.mp (h ▸ List.mem_singleton_self a)
    · exact List.mem_filter.mp (ih h).1

/-- A search finds what another finds from more elements with steps that keep more. -/
theorem search_of_finer {ps qs : List (α → Bool)} {l l' : List α} {a : α}
    (hsteps : List.Forall₂ (fun p q => p a = true → ∀ b, q b = true → p b = true) ps qs)
    (hkeeps : ∀ q ∈ qs, q a = true) (hsub : l'.Sublist l) (ha : a ∈ l')
    (h : search ps l = some a) : search qs l' = some a := by
  induction hsteps generalizing l l' with
  | nil => cases h
  | @cons p q ps qs hstep hrest ih =>
    rw [List.forall_mem_cons] at hkeeps
    have hp : p a = true := (search_eq_some h).2
    have hmem : a ∈ l'.filter q := List.mem_filter.mpr ⟨ha, hkeeps.1⟩
    have hfilter : (l'.filter q).Sublist (l.filter p) := by
      have hsame : l'.filter q = (l'.filter p).filter q := by
        rw [List.filter_filter]
        refine List.filter_congr fun b _ => ?_
        cases hb : q b with
        | false => rfl
        | true => rw [hstep hp b hb, Bool.and_true]
      rw [hsame]
      exact List.filter_sublist.trans (hsub.filter p)
    rw [search, Option.or_eq_some_iff, lone_eq_some] at h ⊢
    obtain h | ⟨-, h⟩ := h
    · left
      rw [h] at hfilter
      obtain hnil | hone := List.sublist_singleton.mp hfilter
      · rw [hnil] at hmem
        cases hmem
      · exact hone
    · have hnext := ih hkeeps.2 hfilter hmem h
      cases hlone : lone (l'.filter q) with
      | none => exact .inr ⟨rfl, hnext⟩
      | some b =>
        have hone := lone_eq_some.mp hlone
        rw [hone] at hmem
        rw [List.mem_singleton.mp hmem]
        exact .inl hone

/-- One step, where more than one element is left. -/
def narrow (p : α → Bool) (l : List α) : List α := if 1 < l.length then l.filter p else l

/-- The search with its steps skipped once one element is left. -/
theorem search_eq (p : α → Bool) (ps : List (α → Bool)) (l : List α) :
    search (p :: ps) l = lone (ps.foldl (fun l p => narrow p l) (l.filter p)) := by
  induction ps generalizing p l with
  | nil => rw [search, search, Option.or_none, List.foldl_nil]
  | cons q ps ih =>
    have hstop : ∀ l : List α, l.length ≤ 1 → ps.foldl (fun l p => narrow p l) l = l := by
      intro l hl
      clear ih
      induction ps with
      | nil => rfl
      | cons r ps ihs => rw [List.foldl_cons, narrow, if_neg (by omega), ihs]
    rw [search, ih, List.foldl_cons, narrow]
    match hl : l.filter p with
    | [] =>
      rw [if_neg (by simp), hstop [] (by simp), List.filter_nil, hstop [] (by simp)]
      rfl
    | [a] =>
      rw [if_neg (by simp), hstop [a] (by simp)]
      rfl
    | a :: b :: l' =>
      rw [if_pos (by simp)]
      rfl

end EchoMuse.Narrowing
