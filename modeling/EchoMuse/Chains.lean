import Mathlib.Data.Finset.Max
import Mathlib.Data.List.ReduceOption
import Mathlib.Data.Multiset.Filter
import Mathlib.Order.UpperLower.Basic

/-!
# Chains of Packets under a Budget of Starts

A sequence of packets, each a range from a first to a last position in a linear order, is to
be explained as live audio with chains of older audio mixed in. A *live* packet starts at or
above every earlier packet. Any other packet continues a chain under way, at or after the
chain's last position, or starts a new one, and chains may only be started as grants for
them are made. A live packet closes every chain it does not lie past.

An online checker cannot look ahead. The best-fit checker continues the chain with the
largest last position it can, and starts a chain only when it can continue none. This module
shows that it accepts a sequence exactly when some explanation of it exists.

## Main results

* `Dominates.takes`: whatever an explanation takes for a packet, the best fit can follow it
  and stays at least as well stocked;
* `accepts_iff_exists_valid`: the best-fit checker accepts exactly what can be explained.
-/

namespace EchoMuse.Chains

open Multiset

variable {α : Type*}

/-! ### Stocks -/

/-- What may still be drawn on: chains not started yet, and the last position of each chain
under way. -/
structure Stock (α : Type*) where
  free : ℕ
  runs : Multiset α

namespace Stock

open scoped Classical in
/-- The units of a stock that lie in the lower set `S`; a free start lies in all of them. -/
noncomputable def count (s : Stock α) (S : Set α) : ℕ :=
  s.free + s.runs.countP (· ∈ S)

theorem count_mono {s : Stock α} {S T : Set α} (h : S ⊆ T) : s.count S ≤ s.count T := by
  classical
  rw [count, count, countP_eq_card_filter, countP_eq_card_filter]
  exact Nat.add_le_add_left (card_le_card (monotone_filter_right _ fun _ hx => h hx)) _

/-- Only the chains a set holds count. -/
theorem count_congr {s : Stock α} {S T : Set α} (h : ∀ r ∈ s.runs, r ∈ S ↔ r ∈ T) :
    s.count S = s.count T := by
  classical
  exact congrArg (s.free + ·) (countP_congr rfl fun r hr => propext (h r hr))

theorem count_eq_free {s : Stock α} {S : Set α} (h : ∀ r ∈ s.runs, r ∉ S) :
    s.count S = s.free := by
  classical
  rw [count, countP_eq_zero.mpr h, Nat.add_zero]

variable [LinearOrder α]

/-- One more chain may be started. -/
def grant (s : Stock α) : Stock α :=
  { s with free := s.free + 1 }

/-- A chain now ends at `last`. -/
def put (s : Stock α) (last : α) : Stock α :=
  { s with runs := last ::ₘ s.runs }

/-- The stock after a live packet at `first`: the chains it lies past. -/
def live (s : Stock α) (first : α) : Stock α :=
  { s with runs := s.runs.filter (· < first) }

/-- What a packet at `first` may take out of a stock: a chain that ends at or before it, or
a free start. -/
inductive Takes (first : α) : Stock α → Stock α → Prop
  | continues {s : Stock α} {c : α} (hc : c ∈ s.runs) (hle : c ≤ first) :
      Takes first s ⟨s.free, s.runs.erase c⟩
  | starts {n : ℕ} {runs : Multiset α} : Takes first ⟨n + 1, runs⟩ ⟨n, runs⟩

/-- The best fit takes the largest chain that ends at or before the packet, else a start. -/
inductive BestFit (first : α) : Stock α → Stock α → Prop
  | continues {s : Stock α} {c : α} (hc : c ∈ s.runs) (hle : c ≤ first)
      (hmax : ∀ r ∈ s.runs, r ≤ first → r ≤ c) : BestFit first s ⟨s.free, s.runs.erase c⟩
  | starts {n : ℕ} {runs : Multiset α} (hnone : ∀ r ∈ runs, first < r) :
      BestFit first ⟨n + 1, runs⟩ ⟨n, runs⟩

/-- The best fit is one of the units a packet may take. -/
theorem BestFit.takes {first : α} {s s' : Stock α} (h : BestFit first s s') :
    Takes first s s' := by
  cases h with
  | continues hc hle hmax => exact .continues hc hle
  | starts hnone => exact .starts

/-- A stock with a unit for the packet has a best fit. -/
theorem exists_bestFit {first : α} {s : Stock α} (h : 0 < s.count (Set.Iic first)) :
    ∃ s', BestFit first s s' := by
  classical
  by_cases hruns : ∃ r ∈ s.runs, r ≤ first
  · obtain ⟨r, hr, hle⟩ := hruns
    have hne : (s.runs.toFinset.filter (· ≤ first)).Nonempty := ⟨r, by simp [hr, hle]⟩
    obtain ⟨c, hc, hmax⟩ := Finset.exists_max_image _ id hne
    rw [Finset.mem_filter, mem_toFinset] at hc
    refine ⟨_, .continues hc.1 hc.2 fun r' hr' hle' => hmax r' ?_⟩
    rw [Finset.mem_filter, mem_toFinset]
    exact ⟨hr', hle'⟩
  · have hnone : ∀ r ∈ s.runs, first < r := fun r hr => not_le.mp fun hle => hruns ⟨r, hr, hle⟩
    obtain ⟨free, runs⟩ := s
    cases free with
    | zero =>
        have hzero : (⟨0, runs⟩ : Stock α).count (Set.Iic first) = 0 :=
          count_eq_free fun r hr => not_le.mpr (hnone r hr)
        rw [hzero] at h
        exact absurd h (lt_irrefl 0)
    | succ n => exact ⟨_, .starts hnone⟩

/-- A live packet leaves the units of a lower set that it lies past. -/
theorem count_live {s : Stock α} {first : α} {S T : Set α}
    (h : ∀ x, x ∈ T ↔ x ∈ S ∧ x < first) : (s.live first).count S = s.count T := by
  classical
  rw [count, live, countP_filter]
  exact congrArg (s.free + ·) (countP_congr rfl fun x _ => propext (h x).symm)

/-- Taking the chain `c` lowers the count of the sets `c` lies in. -/
theorem count_erase {s : Stock α} {c : α} (hc : c ∈ s.runs) (S : Set α) :
    (c ∈ S → (⟨s.free, s.runs.erase c⟩ : Stock α).count S + 1 = s.count S) ∧
      (c ∉ S → (⟨s.free, s.runs.erase c⟩ : Stock α).count S = s.count S) := by
  classical
  obtain ⟨rest, hrest⟩ := exists_cons_of_mem hc
  rw [count, count, hrest, erase_cons_head]
  constructor
  · intro hS
    rw [countP_cons_of_pos rest hS, Nat.add_assoc]
  · intro hS
    rw [countP_cons_of_neg rest hS]

/-- A unit taken lowers the count of a lower set it lies in; else it is a chain beyond. -/
theorem Takes.count {first : α} {t t' : Stock α} (h : Takes first t t') (S : Set α) :
    t'.count S + 1 = t.count S ∨
      (t'.count S = t.count S ∧ ∃ c ∈ t.runs, c ≤ first ∧ c ∉ S) := by
  cases h with
  | @continues _ c hc hle =>
      by_cases hS : c ∈ S
      · exact Or.inl ((count_erase hc S).1 hS)
      · exact Or.inr ⟨(count_erase hc S).2 hS, c, hc, hle, hS⟩
  | starts =>
      refine Or.inl ?_
      simp only [Stock.count]
      omega

/-- The best fit lowers the count of a lower set only when every chain it could have taken
lies in the set. -/
theorem BestFit.count {first : α} {s s' : Stock α} (h : BestFit first s s') {S : Set α}
    (hS : IsLowerSet S) :
    s'.count S = s.count S ∨
      (s'.count S + 1 = s.count S ∧ ∀ r ∈ s.runs, r ≤ first → r ∈ S) := by
  cases h with
  | @continues _ c hc hle hmax =>
      by_cases hcS : c ∈ S
      · exact Or.inr ⟨(count_erase hc S).1 hcS, fun r hr hr' => hS (hmax r hr hr') hcS⟩
      · exact Or.inl ((count_erase hc S).2 hcS)
  | starts hnone =>
      refine Or.inr ⟨?_, fun r hr hle => absurd hle (not_le.mpr (hnone r hr))⟩
      simp only [Stock.count]
      omega

end Stock

/-! ### Dominance -/

variable [LinearOrder α]

/-- `s` has at least as many units as `t` in every lower set, so whatever packets `t` can
still serve, `s` can. -/
def Dominates (s t : Stock α) : Prop :=
  ∀ S : Set α, IsLowerSet S → t.count S ≤ s.count S

namespace Dominates

variable {s t : Stock α}

theorem refl (s : Stock α) : Dominates s s :=
  fun _ _ => le_rfl

theorem trans {u : Stock α} (h : Dominates s t) (h' : Dominates t u) : Dominates s u :=
  fun S hS => (h' S hS).trans (h S hS)

theorem grant (h : Dominates s t) : Dominates s.grant t.grant := by
  intro S hS
  have hle := h S hS
  simp only [Stock.count, Stock.grant] at hle ⊢
  omega

theorem put (h : Dominates s t) (last : α) : Dominates (s.put last) (t.put last) := by
  classical
  intro S hS
  have hle := h S hS
  simp only [Stock.count, Stock.put, countP_cons] at hle ⊢
  omega

theorem live (h : Dominates s t) (first : α) : Dominates (s.live first) (t.live first) := by
  intro S hS
  rw [Stock.count_live fun _ => Iff.rfl, Stock.count_live fun _ => Iff.rfl]
  exact h _ (hS.inter (isLowerSet_Iio first))

/-- **The best fit keeps dominance**: it has a unit for every packet the other stock has one
for, and what it takes leaves it at least as well stocked. -/
theorem takes {first : α} {t' : Stock α} (h : Dominates s t)
    (ht : Stock.Takes first t t') : ∃ s', Stock.BestFit first s s' ∧ Dominates s' t' := by
  have hlower : IsLowerSet (Set.Iic first) := isLowerSet_Iic first
  have hpos : 0 < s.count (Set.Iic first) := by
    refine lt_of_lt_of_le ?_ (h _ hlower)
    obtain heq | ⟨heq, c, hc, hle, hnot⟩ := ht.count (Set.Iic first)
    · omega
    · exact absurd hle hnot
  obtain ⟨s', hs⟩ := Stock.exists_bestFit hpos
  refine ⟨s', hs, fun S hS => ?_⟩
  have hle := h S hS
  obtain heq | ⟨heq, hall⟩ := hs.count hS
  · -- the best fit took nothing of `S`
    obtain heq' | ⟨heq', -⟩ := ht.count S <;> omega
  · obtain heq' | ⟨heq', c, hc, hcf, hcS⟩ := ht.count S
    · omega
    -- the other took a chain beyond `S`: all of `s` up to the packet lies in `S` already
    have hsub : S ⊆ Set.Iic first := fun x hx => by
      by_contra hlt
      exact hcS (hS (hcf.trans (not_le.mp hlt).le) hx)
    have hs_eq : s.count (Set.Iic first) = s.count S :=
      Stock.count_congr fun r hr => ⟨hall r hr, fun hrS => hsub hrS⟩
    have ht_lt : t.count S < t.count (Set.Iic first) := by
      obtain heq'' | ⟨-, c', -, hle', hnot⟩ := ht.count (Set.Iic first)
      · have hmono : t'.count S ≤ t'.count (Set.Iic first) := Stock.count_mono hsub
        omega
      · exact absurd hle' hnot
    have hiic := h _ hlower
    omega

end Dominates

/-! ### Explanations -/

/-- What an observer of the packets sees: a chain granted, or a packet. -/
inductive Event (α : Type*)
  | grant
  | packet (first last : α)

/-- What an explanation makes of one packet. -/
inductive Role
  | live
  | continues (chain : ℕ)
  | starts
  deriving DecidableEq, Repr

/-- An explanation under way: the highest first position so far, the grants made, and for
each chain started, in order, its last position while it is under way. -/
structure Ledger (α : Type*) where
  high : Option α
  granted : ℕ
  chains : List (Option α)

/-- A packet at `first` is live when it starts at or above every earlier one. -/
def IsLive (high : Option α) (first : α) : Prop :=
  ∀ h ∈ high, h ≤ first

instance (high : Option α) (first : α) : Decidable (IsLive high first) :=
  inferInstanceAs (Decidable (∀ h ∈ high, h ≤ first))

namespace Ledger

/-- Nothing has happened yet. -/
def empty : Ledger α := ⟨none, 0, []⟩

/-- Whether a packet at `first` may have the role. -/
def Allows (l : Ledger α) (first : α) : Role → Prop
  | .live => IsLive l.high first
  | .continues chain => ∃ c, l.chains[chain]? = some (some c) ∧ c ≤ first
  | .starts => l.chains.length < l.granted

/-- The chains after a packet has taken its role. -/
def record (l : Ledger α) (last : α) : Role → List (Option α)
  | .live => l.chains
  | .continues chain => l.chains.set chain (some last)
  | .starts => l.chains ++ [some last]

/-- The ledger after a packet: a live one closes the chains it starts at or before. -/
def next (l : Ledger α) (first last : α) (role : Role) : Ledger α :=
  if IsLive l.high first then
    { l with
      high := some first
      chains := (l.record last role).map fun c => c.filter (· < first) }
  else { l with chains := l.record last role }

/-- The roles explain the events, packet by packet. -/
def Valid (l : Ledger α) : List (Event α) → List Role → Prop
  | [], [] => True
  | .grant :: events, roles => Valid { l with granted := l.granted + 1 } events roles
  | .packet first last :: events, role :: roles =>
    l.Allows first role ∧ Valid (l.next first last role) events roles
  | _, _ => False

/-- The stock an explanation has left. -/
def stock (l : Ledger α) : Stock α :=
  ⟨l.granted - l.chains.length, (l.chains.reduceOption : List α)⟩

end Ledger

omit [LinearOrder α] in
/-- The chains still under way when one of them moves on. -/
theorem exists_reduceOption_set {l : List (Option α)} {i : ℕ} {c : α} (last : α)
    (h : l[i]? = some (some c)) : ∃ pre post, l.reduceOption = pre ++ c :: post ∧
      (l.set i (some last)).reduceOption = pre ++ last :: post := by
  induction l generalizing i with
  | nil => simp at h
  | cons o l ih =>
      cases i with
      | zero =>
          obtain rfl : o = some c := by simpa using h
          exact ⟨[], l.reduceOption, by simp, by simp⟩
      | succ i =>
          obtain ⟨pre, post, hpre, hset⟩ := ih (by simpa using h)
          cases o with
          | none => exact ⟨pre, post, by simpa using hpre, by simpa using hset⟩
          | some a => exact ⟨a :: pre, post, by simpa using hpre, by simpa using hset⟩

theorem reduceOption_map_filter (l : List (Option α)) (first : α) :
    (l.map fun c => c.filter (· < first)).reduceOption =
      l.reduceOption.filter (· < first) := by
  induction l with
  | nil => rfl
  | cons o l ih =>
      cases o with
      | none => simpa using ih
      | some a => by_cases ha : a < first <;> simpa [Option.filter, ha] using ih

namespace Ledger

/-- The stock once a packet has taken its role, before a live packet closes chains. -/
def recorded (l : Ledger α) (last : α) (role : Role) : Stock α :=
  ({ l with chains := l.record last role } : Ledger α).stock

/-- Continuing a chain takes it out of the stock and puts the packet's end in. -/
theorem recorded_continues {l : Ledger α} {chain : ℕ} {c : α} (last : α)
    (hc : l.chains[chain]? = some (some c)) :
    c ∈ l.stock.runs ∧ l.recorded last (.continues chain) =
      (⟨l.stock.free, l.stock.runs.erase c⟩ : Stock α).put last := by
  obtain ⟨pre, post, hpre, hset⟩ := exists_reduceOption_set last hc
  have hcons : ∀ x : α, ((pre ++ x :: post : List α) : Multiset α) =
      x ::ₘ ((pre ++ post : List α) : Multiset α) :=
    fun x => coe_eq_coe.mpr List.perm_middle
  constructor
  · simp only [stock, hpre, hcons]
    exact mem_cons_self c _
  · simp only [recorded, record, stock, Stock.put, List.length_set, hpre, hset, hcons,
      erase_cons_head]

omit [LinearOrder α] in
/-- Starting a chain takes a grant out of the stock and puts the packet's end in. -/
theorem recorded_starts (l : Ledger α) (last : α) :
    l.recorded last .starts =
      (⟨l.granted - (l.chains.length + 1), l.stock.runs⟩ : Stock α).put last := by
  simp only [recorded, record, stock, Stock.put, List.length_append, List.length_singleton,
    List.reduceOption_append, List.reduceOption_singleton, Option.toList_some]
  congr 1
  rw [cons_coe, coe_eq_coe]
  exact List.perm_append_singleton _ _

omit [LinearOrder α] in
theorem stock_eq_of_lt {l : Ledger α} (h : l.chains.length < l.granted) :
    l.stock = ⟨l.granted - (l.chains.length + 1) + 1, l.stock.runs⟩ := by
  simp only [stock]
  congr 1
  omega

/-- A role other than live takes a unit out of the stock and puts the packet's end in. -/
theorem takes_of_allows {l : Ledger α} {first : α} (last : α) {role : Role}
    (h : l.Allows first role) (hrole : role ≠ .live) :
    ∃ rest, Stock.Takes first l.stock rest ∧ l.recorded last role = rest.put last := by
  cases role with
  | live => exact absurd rfl hrole
  | continues chain =>
      obtain ⟨c, hc, hle⟩ := h
      obtain ⟨hmem, hrec⟩ := recorded_continues last hc
      exact ⟨_, .continues hmem hle, hrec⟩
  | starts =>
      refine ⟨_, ?_, recorded_starts l last⟩
      rw [stock_eq_of_lt h]
      exact .starts

/-- Every unit of an explanation's stock is a role it allows. -/
theorem exists_role_of_takes {l : Ledger α} {first : α} (last : α) {rest : Stock α}
    (h : Stock.Takes first l.stock rest) :
    ∃ role, l.Allows first role ∧ l.recorded last role = rest.put last := by
  generalize hs : l.stock = s at h
  cases h with
  | @continues _ c hc hle =>
      rw [← hs] at hc ⊢
      have hsome : some c ∈ l.chains := List.reduceOption_mem_iff.mp (mem_coe.mp hc)
      obtain ⟨i, hi⟩ := List.getElem?_of_mem hsome
      exact ⟨.continues i, ⟨c, hi, hle⟩, (recorded_continues last hi).2⟩
  | @starts n runs =>
      have hfree : l.granted - l.chains.length = n + 1 := congrArg Stock.free hs
      have hlt : l.chains.length < l.granted := by omega
      have hruns : l.stock.runs = runs := congrArg Stock.runs hs
      have hn : l.granted - (l.chains.length + 1) = n := by omega
      refine ⟨.starts, hlt, ?_⟩
      rw [recorded_starts, hn, hruns]

theorem stock_next_of_live {l : Ledger α} {first last : α} {role : Role}
    (hl : IsLive l.high first) :
    (l.next first last role).stock = (l.recorded last role).live first := by
  simp only [next, if_pos hl, recorded, stock, Stock.live, List.length_map,
    reduceOption_map_filter, filter_coe]

theorem stock_next_of_not_live {l : Ledger α} {first last : α} {role : Role}
    (hl : ¬ IsLive l.high first) : (l.next first last role).stock = l.recorded last role := by
  simp only [next, if_neg hl, recorded]

theorem length_record_le {l : Ledger α} {first : α} (last : α) {role : Role}
    (h : l.Allows first role) (hle : l.chains.length ≤ l.granted) :
    (l.record last role).length ≤ l.granted := by
  cases role with
  | live => exact hle
  | continues chain => simpa [record] using hle
  | starts =>
      have hlt : l.chains.length < l.granted := h
      rw [record, List.length_append]
      exact hlt

end Ledger

/-! ### The best-fit checker -/

/-- The best-fit checker: the highest first position so far and its stock. -/
structure Checker (α : Type*) where
  high : Option α
  stock : Stock α

namespace Checker

/-- Nothing has happened yet. -/
def empty : Checker α := ⟨none, ⟨0, 0⟩⟩

/-- One event accepted. -/
inductive Step : Checker α → Event α → Checker α → Prop
  | grant {c : Checker α} : Step c .grant { c with stock := c.stock.grant }
  | live {c : Checker α} {first last : α} (hl : IsLive c.high first) :
      Step c (.packet first last) ⟨some first, c.stock.live first⟩
  | older {c : Checker α} {first last : α} {s : Stock α} (hl : ¬ IsLive c.high first)
      (hs : Stock.BestFit first c.stock s) :
      Step c (.packet first last) ⟨c.high, s.put last⟩

/-- A sequence of events accepted. -/
inductive Accepts : Checker α → List (Event α) → Prop
  | nil {c : Checker α} : Accepts c []
  | cons {c c' : Checker α} {e : Event α} {events : List (Event α)} (hs : Step c e c')
      (hrest : Accepts c' events) : Accepts c (e :: events)

end Checker

/-- Equal stocks have equal best fits. -/
theorem Stock.BestFit.unique {first : α} {s s₁ s₂ : Stock α} (h₁ : Stock.BestFit first s s₁)
    (h₂ : Stock.BestFit first s s₂) : s₁ = s₂ := by
  cases h₁ with
  | continues hc hle hmax =>
      cases h₂ with
      | continues hc' hle' hmax' => rw [le_antisymm (hmax' _ hc hle) (hmax _ hc' hle')]
      | starts hnone => exact absurd hle (not_le.mpr (hnone _ hc))
  | starts hnone =>
      cases h₂ with
      | continues hc' hle' hmax' => exact absurd hle' (not_le.mpr (hnone _ hc'))
      | starts hnone' => rfl

/-- The checker has at most one way on. -/
theorem Checker.Step.unique {c c₁ c₂ : Checker α} {e : Event α} (h₁ : Checker.Step c e c₁)
    (h₂ : Checker.Step c e c₂) : c₁ = c₂ := by
  cases h₁ with
  | grant =>
      cases h₂
      rfl
  | live hl =>
      cases h₂ with
      | live hl' => rfl
      | older hl' hs' => exact absurd hl hl'
  | older hl hs =>
      cases h₂ with
      | live hl' => exact absurd hl' hl
      | older hl' hs' => rw [hs.unique hs']

theorem Dominates.of_le {s t : Stock α} (hfree : t.free ≤ s.free) (hruns : t.runs ≤ s.runs) :
    Dominates s t := by
  classical
  exact fun S _ => Nat.add_le_add hfree (countP_le_of_le _ hruns)

/-- What is left after a unit is taken is part of the stock. -/
theorem Stock.Takes.dominates {first : α} {t t' : Stock α} (h : Stock.Takes first t t') :
    Dominates t t' := by
  cases h with
  | continues hc hle => exact Dominates.of_le le_rfl (erase_le _ _)
  | starts => exact Dominates.of_le (Nat.le_succ _) le_rfl

/-- Putting in a chain that the live packet closes at once adds nothing. -/
theorem Stock.live_put {s : Stock α} {first last : α} (h : first ≤ last) :
    (s.put last).live first = s.live first := by
  have hnot : ¬ last < first := not_lt.mpr h
  simp only [Stock.live, Stock.put, filter_cons_of_neg (p := fun x => x < first) s.runs hnot]

/-- The ranges of the packets are not reversed. -/
def Ordered (events : List (Event α)) : Prop :=
  ∀ first last, Event.packet first last ∈ events → first ≤ last

/-- A checker at least as well stocked as an explanation accepts what it explains. -/
theorem accepts_of_valid {events : List (Event α)} (hord : Ordered events) {c : Checker α}
    {l : Ledger α} (hhigh : c.high = l.high) (hdom : Dominates c.stock l.stock)
    (hle : l.chains.length ≤ l.granted) {roles : List Role} (hv : l.Valid events roles) :
    c.Accepts events := by
  induction events generalizing c l roles with
  | nil => exact .nil
  | cons e events ih =>
      have hord' : Ordered events := fun f t h => hord f t (List.mem_cons_of_mem _ h)
      cases e with
      | grant =>
          have hstock : ({ l with granted := l.granted + 1 } : Ledger α).stock =
              l.stock.grant := by
            simp only [Ledger.stock, Stock.grant]
            congr 1
            omega
          have hdom' : Dominates c.stock.grant
              ({ l with granted := l.granted + 1 } : Ledger α).stock := by
            rw [hstock]
            exact hdom.grant
          have hle' : l.chains.length ≤ l.granted + 1 := Nat.le_succ_of_le hle
          exact .cons .grant (@ih hord' { c with stock := c.stock.grant }
            { l with granted := l.granted + 1 } hhigh hdom' hle' roles hv)
      | packet first last =>
          cases roles with
          | nil => exact absurd hv (by simp [Ledger.Valid])
          | cons role roles =>
              obtain ⟨hallow, hv⟩ := hv
              have hlen := Ledger.length_record_le last hallow hle
              by_cases hl : IsLive l.high first
              · refine .cons (.live (hhigh ▸ hl)) (ih hord' ?_ ?_ ?_ hv)
                · simp [Ledger.next, hl]
                · rw [Ledger.stock_next_of_live hl]
                  by_cases hrole : role = .live
                  · subst hrole
                    exact hdom.live first
                  · obtain ⟨rest, htakes, hrec⟩ := Ledger.takes_of_allows last hallow hrole
                    have hfl := hord first last List.mem_cons_self
                    rw [hrec, Stock.live_put hfl]
                    exact (hdom.trans htakes.dominates).live first
                · simpa [Ledger.next, hl] using hlen
              · have hrole : role ≠ .live := by
                  rintro rfl
                  exact hl hallow
                obtain ⟨rest, htakes, hrec⟩ := Ledger.takes_of_allows last hallow hrole
                obtain ⟨s, hs, hdom'⟩ := hdom.takes htakes
                refine .cons (.older (hhigh ▸ hl) hs) (ih hord' ?_ ?_ ?_ hv)
                · simpa [Ledger.next, hl] using hhigh
                · rw [Ledger.stock_next_of_not_live hl, hrec]
                  exact hdom'.put last
                · simpa [Ledger.next, hl] using hlen

/-- What the checker accepts has an explanation, the one in which a packet that may be live
is live and any other takes the unit the best fit takes. -/
theorem exists_valid_of_accepts {events : List (Event α)} {c : Checker α}
    (h : c.Accepts events) {l : Ledger α} (hhigh : c.high = l.high)
    (hstock : c.stock = l.stock) (hle : l.chains.length ≤ l.granted) : ∃ roles, l.Valid events roles := by
  induction h generalizing l with
  | nil => exact ⟨[], trivial⟩
  | @cons c c' e events hstep hrest ih =>
      cases hstep with
      | grant =>
          obtain ⟨roles, hv⟩ := @ih { l with granted := l.granted + 1 } hhigh
            (by
              rw [hstock]
              simp only [Ledger.stock, Stock.grant]
              congr 1
              omega) (Nat.le_succ_of_le hle)
          exact ⟨roles, hv⟩
      | @live first last hl =>
          have hl' : IsLive l.high first := hhigh ▸ hl
          obtain ⟨roles, hv⟩ := @ih (l.next first last .live) (by simp [Ledger.next, hl'])
            (by rw [hstock, Ledger.stock_next_of_live hl']; rfl)
            (by simpa [Ledger.next, hl', Ledger.record] using hle)
          exact ⟨.live :: roles, hl', hv⟩
      | @older first last s hl hs =>
          have hl' : ¬ IsLive l.high first := hhigh ▸ hl
          rw [hstock] at hs
          obtain ⟨role, hallow, hrec⟩ := Ledger.exists_role_of_takes last hs.takes
          obtain ⟨roles, hv⟩ := @ih (l.next first last role) (by simpa [Ledger.next, hl'] using hhigh)
            (by rw [Ledger.stock_next_of_not_live hl', hrec])
            (by simpa [Ledger.next, hl'] using Ledger.length_record_le last hallow hle)
          exact ⟨role :: roles, hallow, hv⟩

/-- **The best fit is exact**: it accepts a sequence of grants and packets exactly when some
explanation of it exists. -/
theorem accepts_iff_exists_valid {events : List (Event α)} (hord : Ordered events) :
    Checker.empty.Accepts events ↔ ∃ roles, Ledger.empty.Valid events roles := by
  constructor
  · exact fun h => exists_valid_of_accepts h rfl rfl le_rfl
  · rintro ⟨roles, hv⟩
    exact accepts_of_valid hord rfl (Dominates.refl _) le_rfl hv

end EchoMuse.Chains
