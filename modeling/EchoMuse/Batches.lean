import EchoMuse.Tables
import Mathlib.Data.List.Induction

/-!
# Batched Changes

A program collects several changes to one keyed table, each of which deletes some keys and puts
some values, and applies them together: all deletes first, then all puts. `together` is that batch
and `inOrder` applies the changes one after the other. The two part at a key whose last change
deletes it when an earlier change put it.

## Main results

* `getElem?_together_append`: what more changes add to a batch;
* `together_eq_inOrder_iff`: the batch is the changes in order exactly when no put is lost.
-/

namespace EchoMuse.Table

variable {κ ν : Type} [Ord κ] [Std.TransOrd κ] [Std.LawfulEqOrd κ] [DecidableEq κ]

/-- Deletes and puts of one table. -/
structure Change (κ ν : Type) where
  del : List κ
  put : List ν

namespace Change

variable (key : ν → κ)

/-- One change: its deletes apply before its puts. -/
def apply (t : Table κ ν) (c : Change κ ν) : Table κ ν := putAll key (deleteAll t c.del) c.put

/-- The changes one after the other. -/
def inOrder (t : Table κ ν) (cs : List (Change κ ν)) : Table κ ν := cs.foldl (apply key) t

/-- The changes at once: every delete applies before every put. -/
def together (t : Table κ ν) (cs : List (Change κ ν)) : Table κ ν :=
  putAll key (deleteAll t (cs.flatMap del)) (cs.flatMap put)

/-- The value a change puts under `k`: the last one that carries it. -/
def at? (c : Change κ ν) (k : κ) : Option ν := (c.put.filter (key · = k)).getLast?

/-- Some change puts a value under `k`. -/
def Puts (cs : List (Change κ ν)) (k : κ) : Prop := ∃ c ∈ cs, (c.at? key k).isSome = true

/-- The change deletes `k` and puts nothing there. -/
def Deletes (c : Change κ ν) (k : κ) : Prop := k ∈ c.del ∧ c.at? key k = none

/-- The change leaves `k` alone. -/
def Spares (c : Change κ ν) (k : κ) : Prop := k ∉ c.del ∧ c.at? key k = none

/-- The last change of `k` deletes it, and an earlier one put it. -/
def Lost (cs : List (Change κ ν)) (k : κ) : Prop :=
  ∃ pre c post, cs = pre ++ c :: post ∧ c.Deletes key k ∧ Puts key pre k ∧
    ∀ c' ∈ post, c'.Spares key k

end Change

/-- The entry a batch of puts leaves: the last value that carries the key, or the old one. -/
theorem getElem?_putAll_getLast? (key : ν → κ) (t : Table κ ν) (vs : List ν) (k : κ) :
    (putAll key t vs)[k]? = (vs.filter (key · = k)).getLast?.or t[k]? := by
  induction vs using List.reverseRecOn with
  | nil => rfl
  | append_singleton vs v ih =>
      rw [putAll_append, putAll_cons, putAll_nil, getElem?_insert_eq, List.filter_append]
      by_cases hk : key v = k
      · rw [if_pos hk, List.filter_singleton, decide_eq_true hk, cond_true, List.getLast?_append]
        rfl
      · rw [if_neg hk, ih, List.filter_singleton, decide_eq_false hk, cond_false, List.append_nil]

namespace Change

variable {key : ν → κ}

omit [Std.TransOrd κ] [Std.LawfulEqOrd κ] [Ord κ] in
theorem puts_concat {cs : List (Change κ ν)} {c : Change κ ν} {k : κ} :
    Puts key (cs ++ [c]) k ↔ Puts key cs k ∨ (c.at? key k).isSome = true := by
  constructor
  · rintro ⟨c', hc', h⟩
    rcases List.mem_append.mp hc' with hc' | hc'
    · exact Or.inl ⟨c', hc', h⟩
    · rw [List.mem_singleton.mp hc'] at h
      exact Or.inr h
  · rintro (⟨c', hc', h⟩ | h)
    · exact ⟨c', List.mem_append_left _ hc', h⟩
    · exact ⟨c, List.mem_append_right _ (List.mem_singleton_self c), h⟩

/-- What one change leaves under a key. -/
theorem getElem?_apply (t : Table κ ν) (c : Change κ ν) (k : κ) :
    (apply key t c)[k]? = (c.at? key k).or (if k ∈ c.del then none else t[k]?) := by
  rw [apply, getElem?_putAll_getLast?, getElem?_deleteAll]
  rfl

omit [Std.LawfulEqOrd κ] [DecidableEq κ] in
theorem inOrder_concat (t : Table κ ν) (cs : List (Change κ ν)) (c : Change κ ν) :
    inOrder key t (cs ++ [c]) = apply key (inOrder key t cs) c := List.foldl_append

omit [Std.TransOrd κ] [Std.LawfulEqOrd κ] [Ord κ] in
/-- Nothing is put under a key no change puts. -/
theorem filter_put_eq_nil {cs : List (Change κ ν)} {k : κ} :
    (cs.flatMap put).filter (key · = k) = [] ↔ ¬ Puts key cs k := by
  unfold Puts at?
  rw [List.filter_eq_nil_iff]
  constructor
  · rintro h ⟨c, hc, hs⟩
    obtain ⟨v, hv⟩ := Option.isSome_iff_exists.mp hs
    have hmem := List.mem_filter.mp (List.mem_of_getLast? hv)
    exact h v (List.mem_flatMap.mpr ⟨c, hc, hmem.1⟩) hmem.2
  · intro h v hv hk
    obtain ⟨c, hc, hput⟩ := List.mem_flatMap.mp hv
    refine h ⟨c, hc, ?_⟩
    rw [List.getLast?_isSome]
    rintro hnil
    exact List.filter_eq_nil_iff.mp hnil v hput hk

/-- What more changes add to a batch: their own puts, and their deletes where nothing was put. -/
theorem getElem?_together_append (t : Table κ ν) (cs ds : List (Change κ ν)) (k : κ)
    [Decidable (Puts key cs k)] :
    (together key t (cs ++ ds))[k]? =
      ((ds.flatMap put).filter (key · = k)).getLast?.or
        (if k ∈ ds.flatMap del ∧ ¬ Puts key cs k then none else (together key t cs)[k]?) := by
  unfold together
  rw [List.flatMap_append, List.flatMap_append, getElem?_putAll_getLast?,
    getElem?_putAll_getLast?, List.filter_append, List.getLast?_append, getElem?_deleteAll,
    getElem?_deleteAll, Option.or_assoc]
  congr 1
  by_cases hp : Puts key cs k
  · rw [if_neg fun h : k ∈ ds.flatMap del ∧ ¬ Puts key cs k => h.2 hp]
    have hne := mt filter_put_eq_nil.mp (not_not_intro hp)
    obtain ⟨v, hv⟩ := Option.isSome_iff_exists.mp (List.getLast?_isSome.mpr hne)
    rw [hv]
    rfl
  · rw [filter_put_eq_nil.mpr hp]
    change (if k ∈ cs.flatMap del ++ ds.flatMap del then none else t[k]?) =
      if k ∈ ds.flatMap del ∧ ¬ Puts key cs k then none
      else if k ∈ cs.flatMap del then none else t[k]?
    by_cases hc : k ∈ ds.flatMap del
    · rw [if_pos (List.mem_append_right _ hc), if_pos ⟨hc, hp⟩]
    · rw [if_neg fun h : k ∈ ds.flatMap del ∧ ¬ Puts key cs k => hc h.1]
      refine if_congr ?_ rfl rfl
      rw [List.mem_append, or_iff_left hc]

/-- One more change. -/
theorem getElem?_together_concat (t : Table κ ν) (cs : List (Change κ ν)) (c : Change κ ν)
    (k : κ) [Decidable (Puts key cs k)] :
    (together key t (cs ++ [c]))[k]? =
      (c.at? key k).or
        (if k ∈ c.del ∧ ¬ Puts key cs k then none else (together key t cs)[k]?) := by
  rw [getElem?_together_append, List.flatMap_singleton, List.flatMap_singleton]
  rfl

/-- Under a key no change puts, a batch only deletes. -/
theorem getElem?_together_of_not_puts {t : Table κ ν} {cs : List (Change κ ν)} {k : κ}
    (h : ¬ Puts key cs k) :
    (together key t cs)[k]? = if k ∈ cs.flatMap del then none else t[k]? := by
  rw [together, getElem?_putAll_getLast?, filter_put_eq_nil.mpr h, getElem?_deleteAll]
  rfl

/-- A batch holds an entry under every key it puts. -/
theorem isSome_together {t : Table κ ν} {cs : List (Change κ ν)} {k : κ} (h : Puts key cs k) :
    ((together key t cs)[k]?).isSome = true := by
  have hne := mt filter_put_eq_nil.mp (not_not_intro h)
  obtain ⟨v, hv⟩ := Option.isSome_iff_exists.mp (List.getLast?_isSome.mpr hne)
  rw [together, getElem?_putAll_getLast?, hv]
  rfl

omit [Std.TransOrd κ] [Std.LawfulEqOrd κ] [Ord κ] in
@[simp] theorem at?_nil (ks : List κ) (k : κ) : (⟨ks, []⟩ : Change κ ν).at? key k = none := rfl

omit [Std.TransOrd κ] [Std.LawfulEqOrd κ] [Ord κ] in
theorem at?_singleton (ks : List κ) (v : ν) (k : κ) :
    (⟨ks, [v]⟩ : Change κ ν).at? key k = if key v = k then some v else none := by
  by_cases h : key v = k
  · rw [at?, List.filter_singleton, decide_eq_true h, cond_true, if_pos h]
    rfl
  · rw [at?, List.filter_singleton, decide_eq_false h, cond_false, if_neg h]
    rfl

omit [Std.TransOrd κ] [Std.LawfulEqOrd κ] [Ord κ] in
theorem puts_map {α : Type} {f : α → Change κ ν} {vs : List α} {k : κ} :
    Puts key (vs.map f) k ↔ ∃ v ∈ vs, ((f v).at? key k).isSome = true := by
  constructor
  · rintro ⟨c, hc, h⟩
    obtain ⟨v, hv, rfl⟩ := List.mem_map.mp hc
    exact ⟨v, hv, h⟩
  · rintro ⟨v, hv, h⟩
    exact ⟨f v, List.mem_map_of_mem hv, h⟩

omit [Std.TransOrd κ] [Std.LawfulEqOrd κ] [Ord κ] in
theorem lost_map {α : Type} {f : α → Change κ ν} {vs : List α} {k : κ} :
    Lost key (vs.map f) k ↔ ∃ pre v post, vs = pre ++ v :: post ∧ (f v).Deletes key k ∧
      Puts key (pre.map f) k ∧ ∀ w ∈ post, (f w).Spares key k := by
  constructor
  · rintro ⟨pre, c, post, heq, hdel, hput, hpost⟩
    obtain ⟨pre, rest, rfl, rfl, hrest⟩ := List.map_eq_append_iff.mp heq
    obtain ⟨v, post, rfl, rfl, rfl⟩ := List.map_eq_cons_iff.mp hrest
    exact ⟨pre, v, post, rfl, hdel, hput, fun w hw => hpost _ (List.mem_map_of_mem hw)⟩
  · rintro ⟨pre, v, post, rfl, hdel, hput, hpost⟩
    refine ⟨pre.map f, f v, post.map f, ?_, hdel, hput, ?_⟩
    · rw [List.map_append, List.map_cons]
    · intro c hc
      obtain ⟨w, hw, rfl⟩ := List.mem_map.mp hc
      exact hpost w hw

omit [Std.TransOrd κ] [Std.LawfulEqOrd κ] [Ord κ] in
/-- A put is lost to the last change, or to an earlier one that the last change spares. -/
theorem lost_concat {cs : List (Change κ ν)} {c : Change κ ν} {k : κ} :
    Lost key (cs ++ [c]) k ↔
      (c.Deletes key k ∧ Puts key cs k) ∨ (c.Spares key k ∧ Lost key cs k) := by
  constructor
  · rintro ⟨pre, d, post, heq, hdel, hput, hpost⟩
    rcases List.eq_nil_or_concat post with rfl | ⟨post, e, rfl⟩
    · obtain ⟨rfl, hd⟩ := List.append_inj' heq rfl
      cases hd
      exact Or.inl ⟨hdel, hput⟩
    · rw [List.concat_eq_append, ← List.cons_append, ← List.append_assoc] at heq
      obtain ⟨rfl, he⟩ := List.append_inj' heq rfl
      cases he
      refine Or.inr ⟨hpost c ?_, pre, d, post, rfl, hdel, hput, fun c' hc' => hpost c' ?_⟩
      · rw [List.concat_eq_append]
        exact List.mem_append_right _ (List.mem_singleton_self c)
      · rw [List.concat_eq_append]
        exact List.mem_append_left _ hc'
  · rintro (⟨hdel, hput⟩ | ⟨hspare, pre, d, post, rfl, hdel, hput, hpost⟩)
    · exact ⟨cs, c, [], rfl, hdel, hput, fun c' hc' => absurd hc' List.not_mem_nil⟩
    · refine ⟨pre, d, post ++ [c], List.append_assoc pre (d :: post) [c], hdel, hput, ?_⟩
      intro c' hc'
      rcases List.mem_append.mp hc' with hc' | hc'
      · exact hpost c' hc'
      · rw [List.mem_singleton.mp hc']
        exact hspare

/-- Under one key, the batch is the changes in order exactly when no put of it is lost. -/
theorem getElem?_together_iff (t : Table κ ν) (cs : List (Change κ ν)) (k : κ) :
    (together key t cs)[k]? = (inOrder key t cs)[k]? ↔ ¬ Lost key cs k := by
  classical
  induction cs using List.reverseRecOn with
  | nil =>
      refine iff_of_true rfl ?_
      rintro ⟨pre, c, post, heq, -⟩
      exact List.append_ne_nil_of_right_ne_nil pre (List.cons_ne_nil c post) heq.symm
  | append_singleton cs c ih =>
      rw [getElem?_together_concat, inOrder_concat, getElem?_apply, lost_concat]
      cases hat : c.at? key k with
      | some v =>
          refine iff_of_true rfl ?_
          rintro (⟨⟨-, hnone⟩, -⟩ | ⟨⟨-, hnone⟩, -⟩) <;> rw [hat] at hnone <;> cases hnone
      | none =>
          by_cases hdel : k ∈ c.del
          · have hspare : ¬ c.Spares key k := fun h => h.1 hdel
            by_cases hput : Puts key cs k
            · obtain ⟨v, hv⟩ := Option.isSome_iff_exists.mp (isSome_together (t := t) hput)
              rw [if_neg fun h : k ∈ c.del ∧ ¬ Puts key cs k => h.2 hput, if_pos hdel, hv]
              refine iff_of_false (fun h => by cases h) (not_not_intro (Or.inl ⟨⟨hdel, hat⟩, hput⟩))
            · rw [if_pos ⟨hdel, hput⟩, if_pos hdel]
              refine iff_of_true rfl ?_
              rintro (⟨-, h⟩ | ⟨h, -⟩)
              · exact hput h
              · exact hspare h
          · rw [if_neg fun h : k ∈ c.del ∧ ¬ Puts key cs k => hdel h.1, if_neg hdel]
            have hnot : ¬ (c.Deletes key k ∧ Puts key cs k) := fun h => hdel h.1.1
            rw [or_iff_right hnot, and_iff_right ⟨hdel, hat⟩]
            exact ih

/-- The batch is the changes in order exactly when no put is lost. -/
theorem together_eq_inOrder_iff (t : Table κ ν) (cs : List (Change κ ν)) :
    together key t cs = inOrder key t cs ↔ ∀ k, ¬ Lost key cs k := by
  constructor
  · intro h k
    exact (getElem?_together_iff t cs k).mp (by rw [h])
  · intro h
    exact Std.ExtTreeMap.ext_getElem? fun k => (getElem?_together_iff t cs k).mpr (h k)

end Change

end EchoMuse.Table
