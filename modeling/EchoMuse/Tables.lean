import Mathlib.Data.List.Sort
import Mathlib.Tactic.Common

/-!
# Keyed Tables

A map from keys to values that a program updates in batches: delete some keys, put some values
under the keys they carry. `Table` is the sorted map of the standard library with its batch
operations; two tables with the same entries are equal, so a table rebuilt from its values is the
table itself.

## Main results

* `getElem?_deleteAll`, `getElem?_putAll`: what a batch leaves under a key;
* `putAll_perm`: the order in which values with distinct keys are put does not matter;
* `putAll_vals`: a table is rebuilt from its own values;
* `Within.putAll`, `Within.deleteAll`: a batch keeps one table within another.
-/

namespace EchoMuse

open Std

/-- A finite map with ordered keys. -/
abbrev Table (κ ν : Type) [Ord κ] := ExtTreeMap κ ν compare

namespace Table

variable {κ ν : Type} [Ord κ] [TransOrd κ]

/-- `t` without the keys `ks`. -/
def deleteAll (t : Table κ ν) (ks : List κ) : Table κ ν :=
  ks.foldl (fun t k => t.erase k) t

/-- `t` with each value of `vs` put under its own key; a later value replaces an earlier one. -/
def putAll (key : ν → κ) (t : Table κ ν) (vs : List ν) : Table κ ν :=
  vs.foldl (fun t v => t.insert (key v) v) t

@[simp] theorem deleteAll_nil (t : Table κ ν) : deleteAll t [] = t := rfl

@[simp] theorem deleteAll_cons (t : Table κ ν) (k : κ) (ks : List κ) :
    deleteAll t (k :: ks) = deleteAll (t.erase k) ks := rfl

@[simp] theorem putAll_nil (key : ν → κ) (t : Table κ ν) : putAll key t [] = t := rfl

@[simp] theorem putAll_cons (key : ν → κ) (t : Table κ ν) (v : ν) (vs : List ν) :
    putAll key t (v :: vs) = putAll key (t.insert (key v) v) vs := rfl

theorem putAll_append (key : ν → κ) (t : Table κ ν) (vs ws : List ν) :
    putAll key t (vs ++ ws) = putAll key (putAll key t vs) ws :=
  List.foldl_append

/-! ### One table within another -/

variable {μ : Type}

/-- Every entry of `a` is in `b`, its value seen through `f`; when `strict`, `b` has no other. -/
structure Within (strict : Prop) (f : ν → μ) (a : Table κ ν) (b : Table κ μ) : Prop where
  get : ∀ (k : κ) v, a[k]? = some v → b[k]? = some (f v)
  only : strict → ∀ k : κ, a[k]? = none → b[k]? = none

namespace Within

theorem refl (strict : Prop) (t : Table κ ν) : Within strict id t t :=
  ⟨fun _ _ h => h, fun _ _ h => h⟩

theorem empty (strict : Prop) (f : ν → μ) : Within strict f (∅ : Table κ ν) ∅ := by
  constructor
  · intro k v h
    rw [ExtTreeMap.getElem?_empty] at h
    cases h
  · exact fun _ _ _ => ExtTreeMap.getElem?_empty

theorem comp {strict : Prop} {f : ν → μ} {a b : Table κ ν} {c : Table κ μ}
    (h : Within strict id a b) (h' : Within strict f b c) : Within strict f a c :=
  ⟨fun k v hv => h'.get k v (h.get k v hv), fun hs k hk => h'.only hs k (h.only hs k hk)⟩

/-- Seen through `f`, a strict inclusion is the image. -/
theorem getElem?_eq {strict : Prop} (hs : strict) {f : ν → μ} {a : Table κ ν} {b : Table κ μ}
    (h : Within strict f a b) (k : κ) : b[k]? = (a[k]?).map f := by
  cases hk : a[k]? with
  | some v => exact h.get k v hk
  | none => exact h.only hs k hk

end Within

/-! ### Values -/

variable [LawfulEqOrd κ]

/-- A strict inclusion is an equality. -/
theorem Within.eq {strict : Prop} (hs : strict) {a b : Table κ ν} (h : Within strict id a b) : a = b := by
  refine ExtTreeMap.ext_getElem? fun k => ?_
  cases hk : a[k]? with
  | some v => exact (h.get k v hk).symm
  | none => exact (h.only hs k hk).symm

/-- The values, in key order. -/
def vals (t : Table κ ν) : List ν := t.toList.map Prod.snd

theorem mem_vals {t : Table κ ν} {v : ν} : v ∈ vals t ↔ ∃ k : κ, t[k]? = some v := by
  rw [vals, List.mem_map]
  constructor
  · rintro ⟨⟨k, w⟩, hmem, rfl⟩
    exact ⟨k, ExtTreeMap.mem_toList_iff_getElem?_eq_some.mp hmem⟩
  · rintro ⟨k, h⟩
    exact ⟨(k, v), ExtTreeMap.mem_toList_iff_getElem?_eq_some.mpr h, rfl⟩

/-- A table holds each value under the key it carries. -/
def Keyed (key : ν → κ) (t : Table κ ν) : Prop := ∀ k v, t[k]? = some v → key v = k

omit [LawfulEqOrd κ] in
theorem Keyed.empty (key : ν → κ) : Keyed key (∅ : Table κ ν) := by
  intro k v h
  rw [ExtTreeMap.getElem?_empty] at h
  cases h

theorem nodup_map_vals {key : ν → κ} {t : Table κ ν} (h : Keyed key t) :
    ((vals t).map key).Nodup := by
  have hkeys : (vals t).map key = t.toList.map Prod.fst := by
    rw [vals, List.map_map]
    refine List.map_congr_left fun e he => ?_
    exact h _ _ (ExtTreeMap.mem_toList_iff_getElem?_eq_some.mp he)
  rw [hkeys, List.Nodup, List.pairwise_map]
  refine ExtTreeMap.distinct_keys_toList.imp fun hne heq => hne ?_
  exact LawfulEqOrd.compare_eq_iff_eq.mpr heq

/-! ### Lookups -/

variable [DecidableEq κ]

theorem getElem?_erase_eq (t : Table κ ν) (k a : κ) :
    (t.erase k)[a]? = if k = a then none else t[a]? := by
  rw [ExtTreeMap.getElem?_erase]
  exact if_congr LawfulEqOrd.compare_eq_iff_eq rfl rfl

theorem getElem?_insert_eq (t : Table κ ν) (k a : κ) (v : ν) :
    (t.insert k v)[a]? = if k = a then some v else t[a]? := by
  rw [ExtTreeMap.getElem?_insert]
  exact if_congr LawfulEqOrd.compare_eq_iff_eq rfl rfl

/-- A batch of deletions keeps exactly the other keys. -/
theorem getElem?_deleteAll (t : Table κ ν) (ks : List κ) (a : κ) :
    (deleteAll t ks)[a]? = if a ∈ ks then none else t[a]? := by
  induction ks generalizing t with
  | nil => rw [deleteAll_nil, if_neg List.not_mem_nil]
  | cons k ks ih =>
      rw [deleteAll_cons, ih, getElem?_erase_eq]
      by_cases hk : a ∈ ks
      · rw [if_pos hk, if_pos (List.mem_cons_of_mem k hk)]
      · rw [if_neg hk]
        by_cases ha : k = a
        · rw [if_pos ha, if_pos (ha ▸ List.mem_cons_self)]
        · rw [if_neg ha, if_neg]
          intro hmem
          rcases List.mem_cons.mp hmem with rfl | h
          · exact ha rfl
          · exact hk h

/-- A key no value of the batch carries keeps its entry. -/
theorem getElem?_putAll_of_notMem {key : ν → κ} {t : Table κ ν} {vs : List ν} {a : κ}
    (h : ∀ v ∈ vs, key v ≠ a) : (putAll key t vs)[a]? = t[a]? := by
  induction vs generalizing t with
  | nil => rfl
  | cons v vs ih =>
      rw [List.forall_mem_cons] at h
      rw [putAll_cons, ih h.2, getElem?_insert_eq, if_neg h.1]

/-- With distinct keys, a batch leaves each value under its key. -/
theorem getElem?_putAll_of_mem {key : ν → κ} {t : Table κ ν} {vs : List ν}
    (hd : (vs.map key).Nodup) {v : ν} (hv : v ∈ vs) : (putAll key t vs)[key v]? = some v := by
  induction vs generalizing t with
  | nil => cases hv
  | cons w vs ih =>
      rw [List.map_cons, List.nodup_cons] at hd
      rw [putAll_cons]
      rcases List.mem_cons.mp hv with rfl | hv
      · rw [getElem?_putAll_of_notMem, getElem?_insert_eq, if_pos rfl]
        exact fun w hw heq => hd.1 (heq ▸ List.mem_map_of_mem hw)
      · exact ih hd.2 hv

/-- With distinct keys, the entry under a key is the value of the batch that carries it, or the
old one. -/
theorem getElem?_putAll {key : ν → κ} {t : Table κ ν} {vs : List ν} (hd : (vs.map key).Nodup)
    (a : κ) : (putAll key t vs)[a]? = (vs.find? (key · = a)).or t[a]? := by
  cases h : vs.find? (key · = a) with
  | none =>
      rw [List.find?_eq_none] at h
      exact getElem?_putAll_of_notMem fun v hv heq => h v hv (by simpa using heq)
  | some v =>
      have hkey : key v = a := by simpa using List.find?_some h
      have hmem : v ∈ vs := List.mem_of_find?_eq_some h
      rw [← hkey, getElem?_putAll_of_mem hd hmem]
      rfl

/-- Each entry a batch leaves is one of the batch or an old one. -/
theorem of_getElem?_putAll {key : ν → κ} {t : Table κ ν} {vs : List ν} {a : κ} {v : ν}
    (h : (putAll key t vs)[a]? = some v) : (v ∈ vs ∧ key v = a) ∨ t[a]? = some v := by
  induction vs generalizing t with
  | nil => exact Or.inr h
  | cons w vs ih =>
      rw [putAll_cons] at h
      rcases ih h with ⟨hv, hk⟩ | h
      · exact Or.inl ⟨List.mem_cons_of_mem _ hv, hk⟩
      · rw [getElem?_insert_eq] at h
        by_cases hw : key w = a
        · rw [if_pos hw] at h
          cases h
          exact Or.inl ⟨List.mem_cons_self, hw⟩
        · rw [if_neg hw] at h
          exact Or.inr h

/-- What a table built from values with distinct keys holds. -/
theorem getElem?_putAll_empty_iff {key : ν → κ} {vs : List ν} (hd : (vs.map key).Nodup) {a : κ}
    {v : ν} : (putAll key ∅ vs)[a]? = some v ↔ v ∈ vs ∧ key v = a := by
  constructor
  · intro h
    rcases of_getElem?_putAll h with h | h
    · exact h
    · rw [ExtTreeMap.getElem?_empty] at h
      cases h
  · rintro ⟨hv, rfl⟩
    exact getElem?_putAll_of_mem hd hv

namespace Within

theorem insert {strict : Prop} {f : ν → μ} {a : Table κ ν} {b : Table κ μ}
    (h : Within strict f a b) (k : κ) (v : ν) : Within strict f (a.insert k v) (b.insert k (f v)) := by
  constructor
  · intro k' v' hv
    rw [getElem?_insert_eq] at hv ⊢
    by_cases hk : k = k'
    · rw [if_pos hk] at hv ⊢
      rw [Option.some.inj hv]
    · rw [if_neg hk] at hv ⊢
      exact h.get k' v' hv
  · intro hs k' hv
    rw [getElem?_insert_eq] at hv ⊢
    by_cases hk : k = k'
    · rw [if_pos hk] at hv
      cases hv
    · rw [if_neg hk] at hv ⊢
      exact h.only hs k' hv

theorem deleteAll {strict : Prop} {f : ν → μ} {a : Table κ ν} {b : Table κ μ}
    (h : Within strict f a b) (ks : List κ) :
    Within strict f (deleteAll a ks) (Table.deleteAll b ks) := by
  constructor
  · intro k v hv
    rw [getElem?_deleteAll] at hv ⊢
    by_cases hk : k ∈ ks
    · rw [if_pos hk] at hv
      cases hv
    · rw [if_neg hk] at hv ⊢
      exact h.get k v hv
  · intro hs k hv
    rw [getElem?_deleteAll] at hv ⊢
    by_cases hk : k ∈ ks
    · rw [if_pos hk]
    · rw [if_neg hk] at hv ⊢
      exact h.only hs k hv

/-- A batch put into both. -/
theorem putAll {strict : Prop} {f : ν → μ} {key : ν → κ} {key' : μ → κ}
    (hkey : ∀ v, key' (f v) = key v) {a : Table κ ν} {b : Table κ μ} (h : Within strict f a b)
    (vs : List ν) : Within strict f (putAll key a vs) (Table.putAll key' b (vs.map f)) := by
  induction vs generalizing a b with
  | nil => exact h
  | cons v vs ih =>
      rw [putAll_cons, List.map_cons, putAll_cons, hkey]
      exact ih (h.insert (key v) v)

end Within

/-! ### Whole tables -/

/-- The order in which values with distinct keys are put does not matter. -/
theorem putAll_perm {key : ν → κ} (t : Table κ ν) {vs ws : List ν} (h : vs.Perm ws)
    (hd : (vs.map key).Nodup) : putAll key t vs = putAll key t ws := by
  have hd' : (ws.map key).Nodup := (h.map key).nodup_iff.mp hd
  refine ExtTreeMap.ext_getElem? fun a => ?_
  by_cases hv : ∃ v ∈ vs, key v = a
  · obtain ⟨v, hmem, rfl⟩ := hv
    rw [getElem?_putAll_of_mem hd hmem, getElem?_putAll_of_mem hd' (h.mem_iff.mp hmem)]
  · have hnot : ∀ v ∈ vs, key v ≠ a := fun v hmem heq => hv ⟨v, hmem, heq⟩
    rw [getElem?_putAll_of_notMem hnot,
      getElem?_putAll_of_notMem fun v hmem => hnot v (h.mem_iff.mpr hmem)]

theorem Keyed.deleteAll {key : ν → κ} {t : Table κ ν} (h : Keyed key t) (ks : List κ) :
    Keyed key (deleteAll t ks) := by
  intro k v hv
  rw [getElem?_deleteAll] at hv
  by_cases hk : k ∈ ks
  · rw [if_pos hk] at hv
    cases hv
  · rw [if_neg hk] at hv
    exact h k v hv

theorem Keyed.putAll {key : ν → κ} {t : Table κ ν} (h : Keyed key t) (vs : List ν) :
    Keyed key (putAll key t vs) := by
  intro k v hv
  rcases of_getElem?_putAll hv with ⟨-, hk⟩ | hv
  · exact hk
  · exact h k v hv

/-- A table that holds its values under their keys is rebuilt from them, in any order. -/
theorem putAll_vals {key : ν → κ} {t : Table κ ν} (h : Keyed key t) {vs : List ν}
    (hp : vs.Perm (vals t)) : putAll key ∅ vs = t := by
  rw [putAll_perm ∅ hp ((hp.map key).nodup_iff.mpr (nodup_map_vals h))]
  refine ExtTreeMap.ext_getElem? fun a => ?_
  cases hv : t[a]? with
  | some v =>
      rw [← h a v hv]
      exact getElem?_putAll_of_mem (nodup_map_vals h) (mem_vals.mpr ⟨a, hv⟩)
  | none =>
      rw [getElem?_putAll_of_notMem, ExtTreeMap.getElem?_empty]
      intro v hmem heq
      obtain ⟨k, hk⟩ := mem_vals.mp hmem
      rw [← heq, h k v hk, hk] at hv
      cases hv

end Table

end EchoMuse
