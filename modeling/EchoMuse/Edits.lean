import Mathlib.Algebra.Order.BigOperators.Group.List
import Mathlib.Algebra.Order.Group.Nat
import Mathlib.Order.Bounds.Basic

/-!
# Weighted Edit Distance

Edit scripts turn one sequence into another; the distance of two sequences is the least cost of a
script between them.

## Main results

* `isLeast_snoc`, `isLeast_delete`, `isLeast_insert`: the distances of all prefixes, one from the
  other;
* `Row.exists_mem_le`: a row of them holds a lower bound for all that follows;
* `sum_indel_le`: what one side has beyond the other's length is a lower bound too.
-/

namespace EchoMuse.Edits

variable {α δ : Type*}

/-- One edit. -/
inductive Edit (α : Type*)
  | substitute (x y : α)
  | delete (x : α)
  | insert (y : α)

namespace Edit

def source : Edit α → List α
  | substitute x _ => [x]
  | delete x => [x]
  | insert _ => []

def target : Edit α → List α
  | substitute _ y => [y]
  | delete _ => []
  | insert y => [y]

end Edit

/-- What edits cost. -/
structure Costs (α δ : Type*) where
  substitute : α → α → δ
  indel : α → δ

def Costs.of (c : Costs α δ) : Edit α → δ
  | .substitute x y => c.substitute x y
  | .delete x => c.indel x
  | .insert y => c.indel y

/-! ### Scripts -/

def source (ops : List (Edit α)) : List α := ops.flatMap Edit.source

def target (ops : List (Edit α)) : List α := ops.flatMap Edit.target

@[simp] theorem source_append (ops ops' : List (Edit α)) :
    source (ops ++ ops') = source ops ++ source ops' := List.flatMap_append

@[simp] theorem target_append (ops ops' : List (Edit α)) :
    target (ops ++ ops') = target ops ++ target ops' := List.flatMap_append

@[simp] theorem source_cons (op : Edit α) (ops : List (Edit α)) :
    source (op :: ops) = op.source ++ source ops := List.flatMap_cons

@[simp] theorem target_cons (op : Edit α) (ops : List (Edit α)) :
    target (op :: ops) = op.target ++ target ops := List.flatMap_cons

section Sums

variable [AddCommMonoid δ] (c : Costs α δ)

def cost (ops : List (Edit α)) : δ := (ops.map c.of).sum

@[simp] theorem cost_nil : cost c [] = 0 := rfl

@[simp] theorem cost_cons (op : Edit α) (ops : List (Edit α)) :
    cost c (op :: ops) = c.of op + cost c ops := List.sum_cons

@[simp] theorem cost_append (ops ops' : List (Edit α)) :
    cost c (ops ++ ops') = cost c ops + cost c ops' := by
  rw [cost, List.map_append, List.sum_append]
  rfl

theorem cost_concat (ops : List (Edit α)) (op : Edit α) :
    cost c (ops ++ [op]) = cost c ops + c.of op := by
  rw [cost_append, cost_cons, cost_nil, add_zero]

/-- What the scripts between two sequences cost. -/
def costs (xs ys : List α) : Set δ :=
  {d | ∃ ops, source ops = xs ∧ target ops = ys ∧ cost c ops = d}

variable {c}

theorem costs_substitute {xs ys : List α} {d : δ} (h : d ∈ costs c xs ys) (x y : α) :
    d + c.substitute x y ∈ costs c (xs ++ [x]) (ys ++ [y]) := by
  obtain ⟨ops, rfl, rfl, rfl⟩ := h
  exact ⟨ops ++ [.substitute x y], source_append _ _, target_append _ _, cost_concat _ _ _⟩

theorem costs_delete {xs ys : List α} {d : δ} (h : d ∈ costs c xs ys) (x : α) :
    d + c.indel x ∈ costs c (xs ++ [x]) ys := by
  obtain ⟨ops, rfl, rfl, rfl⟩ := h
  refine ⟨ops ++ [.delete x], source_append _ _, ?_, cost_concat _ _ _⟩
  rw [target_append]
  exact List.append_nil _

theorem costs_insert {xs ys : List α} {d : δ} (h : d ∈ costs c xs ys) (y : α) :
    d + c.indel y ∈ costs c xs (ys ++ [y]) := by
  obtain ⟨ops, rfl, rfl, rfl⟩ := h
  refine ⟨ops ++ [.insert y], ?_, target_append _ _, cost_concat _ _ _⟩
  rw [source_append]
  exact List.append_nil _

/-- The last edit of a script. -/
theorem costs_last {xs ys : List α} {d : δ} (h : d ∈ costs c xs ys) :
    xs = [] ∧ ys = [] ∧ d = 0 ∨
      (∃ xs' x ys' y d', xs = xs' ++ [x] ∧ ys = ys' ++ [y] ∧ d' ∈ costs c xs' ys' ∧
        d = d' + c.substitute x y) ∨
      (∃ xs' x d', xs = xs' ++ [x] ∧ d' ∈ costs c xs' ys ∧ d = d' + c.indel x) ∨
      ∃ ys' y d', ys = ys' ++ [y] ∧ d' ∈ costs c xs ys' ∧ d = d' + c.indel y := by
  obtain ⟨ops, rfl, rfl, rfl⟩ := h
  rcases List.eq_nil_or_concat ops with rfl | ⟨ops, op, rfl⟩
  · exact .inl ⟨rfl, rfl, rfl⟩
  · rw [List.concat_eq_append, cost_concat, source_append, target_append]
    have hops : cost c ops ∈ costs c (source ops) (target ops) := ⟨ops, rfl, rfl, rfl⟩
    cases op with
    | substitute x y => exact .inr (.inl ⟨_, x, _, y, _, rfl, rfl, hops, rfl⟩)
    | delete x =>
        refine .inr (.inr (.inl ⟨_, x, _, rfl, ?_, rfl⟩))
        rwa [show target [Edit.delete x] = [] from rfl, List.append_nil]
    | insert y =>
        refine .inr (.inr (.inr ⟨_, y, _, rfl, ?_, rfl⟩))
        rwa [show source [Edit.insert y] = [] from rfl, List.append_nil]

end Sums

/-! ### Distances of prefixes -/

section Least

variable [AddCommMonoid δ] [LinearOrder δ] {c : Costs α δ}

theorem isLeast_nil : IsLeast (costs c [] []) 0 := by
  refine ⟨⟨[], rfl, rfl, rfl⟩, fun d hd => ?_⟩
  rcases costs_last hd with ⟨-, -, rfl⟩ | ⟨xs', x, -, -, -, hxs, -⟩ | ⟨xs', x, -, hxs, -⟩ |
    ⟨ys', y, -, hys, -⟩
  · exact le_rfl
  · exact absurd hxs (List.append_ne_nil_of_right_ne_nil _ (List.cons_ne_nil _ _)).symm
  · exact absurd hxs (List.append_ne_nil_of_right_ne_nil _ (List.cons_ne_nil _ _)).symm
  · exact absurd hys (List.append_ne_nil_of_right_ne_nil _ (List.cons_ne_nil _ _)).symm

/-- No edit costs less than nothing. -/
structure Costs.Nonneg (c : Costs α δ) : Prop where
  substitute (x y : α) : 0 ≤ c.substitute x y
  indel (x : α) : 0 ≤ c.indel x

theorem Costs.Nonneg.of (h : c.Nonneg) (op : Edit α) : 0 ≤ c.of op := by
  cases op with
  | substitute x y => exact h.substitute x y
  | delete x => exact h.indel x
  | insert y => exact h.indel y

variable [IsOrderedAddMonoid δ]

/-- To turn a sequence into nothing, its last element is deleted. -/
theorem isLeast_delete {xs : List α} {x : α} {d : δ} (h : IsLeast (costs c xs []) d) :
    IsLeast (costs c (xs ++ [x]) []) (d + c.indel x) := by
  refine ⟨costs_delete h.1 x, fun e he => ?_⟩
  rcases costs_last he with ⟨hxs, -⟩ | ⟨-, -, ys', y, -, -, hys, -⟩ | ⟨xs', x', e', hxs, he', rfl⟩ |
    ⟨ys', y, -, hys, -⟩
  · exact absurd hxs (List.append_ne_nil_of_right_ne_nil _ (List.cons_ne_nil _ _))
  · exact absurd hys (List.append_ne_nil_of_right_ne_nil _ (List.cons_ne_nil _ _)).symm
  · obtain ⟨rfl, hx⟩ := List.append_inj' hxs rfl
    obtain rfl := List.head_eq_of_cons_eq hx
    exact add_le_add_left (h.2 he') _
  · exact absurd hys (List.append_ne_nil_of_right_ne_nil _ (List.cons_ne_nil _ _)).symm

/-- To make a sequence of nothing, its last element is inserted. -/
theorem isLeast_insert {ys : List α} {y : α} {d : δ} (h : IsLeast (costs c [] ys) d) :
    IsLeast (costs c [] (ys ++ [y])) (d + c.indel y) := by
  refine ⟨costs_insert h.1 y, fun e he => ?_⟩
  rcases costs_last he with ⟨-, hys, -⟩ | ⟨xs', x, -, -, -, hxs, -⟩ | ⟨xs', x, -, hxs, -⟩ |
    ⟨ys', y', e', hys, he', rfl⟩
  · exact absurd hys (List.append_ne_nil_of_right_ne_nil _ (List.cons_ne_nil _ _))
  · exact absurd hxs (List.append_ne_nil_of_right_ne_nil _ (List.cons_ne_nil _ _)).symm
  · exact absurd hxs (List.append_ne_nil_of_right_ne_nil _ (List.cons_ne_nil _ _)).symm
  · obtain ⟨rfl, hy⟩ := List.append_inj' hys rfl
    obtain rfl := List.head_eq_of_cons_eq hy
    exact add_le_add_left (h.2 he') _

/-- **The distance of two sequences from those of their prefixes.** -/
theorem isLeast_snoc {xs ys : List α} {x y : α} {diagonal up left : δ}
    (hdiagonal : IsLeast (costs c xs ys) diagonal) (hup : IsLeast (costs c xs (ys ++ [y])) up)
    (hleft : IsLeast (costs c (xs ++ [x]) ys) left) :
    IsLeast (costs c (xs ++ [x]) (ys ++ [y]))
      (min (min (diagonal + c.substitute x y) (up + c.indel x)) (left + c.indel y)) := by
  constructor
  · rcases min_choice (min (diagonal + c.substitute x y) (up + c.indel x)) (left + c.indel y)
      with hmin | hmin
    · rw [hmin]
      rcases min_choice (diagonal + c.substitute x y) (up + c.indel x) with hmin | hmin
      · rw [hmin]
        exact costs_substitute hdiagonal.1 x y
      · rw [hmin]
        exact costs_delete hup.1 x
    · rw [hmin]
      exact costs_insert hleft.1 y
  · intro e he
    rcases costs_last he with ⟨hxs, -⟩ | ⟨xs', x', ys', y', e', hxs, hys, he', rfl⟩ |
      ⟨xs', x', e', hxs, he', rfl⟩ | ⟨ys', y', e', hys, he', rfl⟩
    · exact absurd hxs (List.append_ne_nil_of_right_ne_nil _ (List.cons_ne_nil _ _))
    · obtain ⟨rfl, hx⟩ := List.append_inj' hxs rfl
      obtain ⟨rfl, hy⟩ := List.append_inj' hys rfl
      obtain rfl := List.head_eq_of_cons_eq hx
      obtain rfl := List.head_eq_of_cons_eq hy
      exact (min_le_left _ _).trans ((min_le_left _ _).trans
        (add_le_add_left (hdiagonal.2 he') _))
    · obtain ⟨rfl, hx⟩ := List.append_inj' hxs rfl
      obtain rfl := List.head_eq_of_cons_eq hx
      exact (min_le_left _ _).trans ((min_le_right _ _).trans (add_le_add_left (hup.2 he') _))
    · obtain ⟨rfl, hy⟩ := List.append_inj' hys rfl
      obtain rfl := List.head_eq_of_cons_eq hy
      exact (min_le_right _ _).trans (add_le_add_left (hleft.2 he') _)

/-! ### Lower bounds -/

theorem Costs.Nonneg.cost (h : c.Nonneg) (ops : List (Edit α)) : 0 ≤ cost c ops :=
  List.sum_nonneg fun d hd => by
    obtain ⟨op, -, rfl⟩ := List.mem_map.mp hd
    exact h.of op

/-- **A script spends something on a prefix already**, to turn it into some prefix. -/
theorem exists_prefix (hc : c.Nonneg) {xs xs' ys : List α} {d : δ}
    (h : d ∈ costs c (xs ++ xs') ys) :
    ∃ zs e, zs <+: ys ∧ e ∈ costs c xs zs ∧ e ≤ d := by
  obtain ⟨ops, hsource, rfl, rfl⟩ := h
  induction ops generalizing xs with
  | nil =>
      obtain ⟨rfl, -⟩ := List.append_eq_nil_iff.mp hsource.symm
      exact ⟨[], 0, List.nil_prefix, ⟨[], rfl, rfl, rfl⟩, le_rfl⟩
  | cons op ops ih =>
      rw [source_cons] at hsource
      rw [target_cons, cost_cons]
      cases xs with
      | nil => exact ⟨[], 0, List.nil_prefix, ⟨[], rfl, rfl, rfl⟩,
          add_nonneg (hc.of op) (hc.cost ops)⟩
      | cons x xs =>
          have hstep : ∀ xs₁, op.source ++ xs₁ = x :: xs → source ops = xs₁ ++ xs' →
              ∃ zs e, zs <+: op.target ++ target ops ∧ e ∈ costs c (x :: xs) zs ∧
                e ≤ c.of op + cost c ops := by
            intro xs₁ hxs hrest
            obtain ⟨zs, e, hprefix, ⟨ops₁, hs, ht, rfl⟩, hle⟩ := ih hrest
            refine ⟨op.target ++ zs, c.of op + cost c ops₁,
              (List.prefix_append_right_inj _).mpr hprefix,
              ⟨op :: ops₁, ?_, ?_, rfl⟩, add_le_add_right hle _⟩
            · rw [source_cons, hs, hxs]
            · rw [target_cons, ht]
          cases op with
          | substitute x' y =>
              obtain ⟨rfl, hrest⟩ := List.cons_eq_cons.mp hsource
              exact hstep xs rfl hrest
          | delete x' =>
              obtain ⟨rfl, hrest⟩ := List.cons_eq_cons.mp hsource
              exact hstep xs rfl hrest
          | insert y => exact hstep (x :: xs) rfl hsource

/-- What one edit deletes or inserts. -/
theorem Costs.Nonneg.sum_indel_le {k : δ} (hc : c.Nonneg) (hk : ∀ x, c.indel x ≤ k)
    (op : Edit α) :
    (op.source.map c.indel).sum ≤ c.of op + op.target.length • k ∧
      (op.target.map c.indel).sum ≤ c.of op + op.source.length • k := by
  have hone : ∀ x y, (List.map c.indel [x]).sum ≤ c.substitute x y + [x].length • k ∧
      (List.map c.indel [y]).sum ≤ c.substitute x y + [x].length • k := by
    intro x y
    rw [List.length_singleton, one_nsmul]
    exact ⟨by simpa using le_add_of_nonneg_of_le (hc.substitute x y) (hk x),
      by simpa using le_add_of_nonneg_of_le (hc.substitute x y) (hk y)⟩
  have halone : ∀ x, (List.map c.indel [x]).sum ≤ c.indel x + ([] : List α).length • k ∧
      (List.map c.indel ([] : List α)).sum ≤ c.indel x + [x].length • k := by
    intro x
    have hnonneg := hc.indel x
    exact ⟨by simp, by simpa [one_nsmul] using add_nonneg hnonneg (hnonneg.trans (hk x))⟩
  cases op with
  | substitute x y => exact hone x y
  | delete x => exact halone x
  | insert y => exact (halone y).symm

/-- **What one side has beyond the other's length is deleted or inserted.** -/
theorem sum_indel_le {k : δ} (hc : c.Nonneg) (hk : ∀ x, c.indel x ≤ k) {xs ys : List α} {d : δ}
    (h : d ∈ costs c xs ys) :
    (xs.map c.indel).sum ≤ d + ys.length • k ∧ (ys.map c.indel).sum ≤ d + xs.length • k := by
  obtain ⟨ops, rfl, rfl, rfl⟩ := h
  induction ops with
  | nil => exact ⟨by simp [source, target], by simp [source, target]⟩
  | cons op ops ih =>
      obtain ⟨hdeleted, hinserted⟩ := hc.sum_indel_le hk op
      rw [source_cons, target_cons, cost_cons, List.map_append, List.map_append, List.sum_append,
        List.sum_append, List.length_append, List.length_append, add_nsmul, add_nsmul,
        add_add_add_comm (c.of op) _ (op.target.length • k),
        add_add_add_comm (c.of op) _ (op.source.length • k)]
      exact ⟨add_le_add hdeleted ih.1, add_le_add hinserted ih.2⟩

/-! ### Rows of distances -/

variable (c) in
/-- The distances of `xs` from `ys` and from ever longer prefixes of what follows it. -/
inductive Row (xs : List α) : List α → List α → List δ → Prop
  | last {ys d} (h : IsLeast (costs c xs ys) d) : Row xs ys [] [d]
  | cons {ys y rest d row} (h : IsLeast (costs c xs ys) d) (hrow : Row xs (ys ++ [y]) rest row) :
      Row xs ys (y :: rest) (d :: row)

namespace Row

variable {xs ys rest : List α} {row : List δ}

omit [IsOrderedAddMonoid δ] in
/-- Every prefix has its distance in the row. -/
theorem exists_mem (h : Row c xs ys rest row) {zs : List α} (hzs : zs <+: rest) :
    ∃ d ∈ row, IsLeast (costs c xs (ys ++ zs)) d := by
  induction h generalizing zs with
  | @last ys d hd =>
      obtain rfl := List.prefix_nil.mp hzs
      exact ⟨d, List.mem_singleton_self d, by rwa [List.append_nil]⟩
  | @cons ys y rest d row hd hrow ih =>
      cases zs with
      | nil => exact ⟨d, List.mem_cons_self, by rwa [List.append_nil]⟩
      | cons z zs =>
          obtain ⟨rfl, htail⟩ := List.cons_prefix_cons.mp hzs
          obtain ⟨e, he, hleast⟩ := ih htail
          rw [List.append_assoc] at hleast
          exact ⟨e, List.mem_cons_of_mem d he, hleast⟩

omit [IsOrderedAddMonoid δ] in
/-- The last cell is the distance of the two sequences. -/
theorem isLeast_last (h : Row c xs ys rest row) (d₀ : δ) :
    IsLeast (costs c xs (ys ++ rest)) (row.getD rest.length d₀) := by
  induction h with
  | last hd => rwa [List.append_nil]
  | cons hd hrow ih =>
      rw [List.append_assoc] at ih
      exact ih

/-- **No cell of the row is left behind**: a script that goes on from `xs` costs as much as one of
them. -/
theorem exists_mem_le (hc : c.Nonneg) (h : Row c xs [] rest row) {xs' : List α} {d : δ}
    (hd : d ∈ costs c (xs ++ xs') rest) : ∃ e ∈ row, e ≤ d := by
  obtain ⟨zs, e, hzs, he, hle⟩ := exists_prefix hc hd
  obtain ⟨e', hmem, hleast⟩ := h.exists_mem hzs
  exact ⟨e', hmem, (hleast.2 he).trans hle⟩

end Row

end Least

end EchoMuse.Edits
