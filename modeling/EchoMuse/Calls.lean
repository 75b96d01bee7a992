import Mathlib.Logic.Basic

/-!
# Calls That Fail Midway

A call changes a state in place and may fail; what it assigned before it failed stays assigned.
This is `ExceptT ε (StateM σ)`, whose failures keep the state, with the rules to run one.

## Main results

* `on_bind`: a sequence goes on after an answer, and stops where a call fails;
* `Settles.unchanged`: a call that settles on a pure result leaves the state when it fails.
-/

namespace EchoMuse.Calls

/-- A call on a state `σ` that answers an `α` or fails with an `ε`. -/
abbrev Call (σ ε α : Type) := ExceptT ε (StateM σ) α

section

variable {σ ε α β : Type}

/-- What a call answers in a state, and the state it leaves. -/
def Call.on (c : Call σ ε α) (s : σ) : Except ε α × σ := c.run.run s

theorem on_bind (c : Call σ ε α) (f : α → Call σ ε β) (s : σ) :
    Call.on (c >>= f) s = match c.on s with
      | (.ok a, s') => (f a).on s'
      | (.error e, s') => (.error e, s') := by
  rcases hc : c.on s with ⟨answer, s'⟩
  have hrun : (c : σ → Except ε α × σ) s = (answer, s') := hc
  simp only [Call.on, ExceptT.run, StateT.run, bind, ExceptT.bind, ExceptT.mk, StateT.bind, hrun]
  cases answer <;> rfl

@[simp] theorem on_pure (a : α) (s : σ) : Call.on (pure a : Call σ ε α) s = (.ok a, s) := rfl

@[simp] theorem on_throw (e : ε) (s : σ) :
    Call.on (throw e : Call σ ε α) s = (.error e, s) := rfl

@[simp] theorem on_get (s : σ) : Call.on (get : Call σ ε σ) s = (.ok s, s) := rfl

@[simp] theorem on_modify (g : σ → σ) (s : σ) :
    Call.on (modify g : Call σ ε PUnit) s = (.ok ⟨⟩, g s) := rfl

@[simp] theorem on_get_bind (f : σ → Call σ ε β) (s : σ) :
    Call.on (get >>= f) s = (f s).on s := rfl

@[simp] theorem on_modify_bind (g : σ → σ) (f : PUnit → Call σ ε β) (s : σ) :
    Call.on (modify g >>= f) s = (f ⟨⟩).on (g s) := rfl

@[simp] theorem on_throw_bind (e : ε) (f : α → Call σ ε β) (s : σ) :
    Call.on ((throw e : Call σ ε α) >>= f) s = (.error e, s) := rfl

@[simp] theorem on_ite (p : Prop) [Decidable p] (c d : Call σ ε α) (s : σ) :
    Call.on (if p then c else d) s = if p then c.on s else d.on s :=
  apply_ite (fun c => Call.on c s) p c d

/-- A call settles on a result: what it answers with the state after it, or its error, which
leaves the state as it was. -/
def Settles (c : Call σ ε α) (s : σ) : Except ε (α × σ) → Prop
  | .ok (a, s') => c.on s = (.ok a, s')
  | .error e => c.on s = (.error e, s)

/-- A failed call that settles on a result has changed nothing. -/
theorem Settles.unchanged {c : Call σ ε α} {s : σ} {result : Except ε (α × σ)}
    (h : Settles c s result) {e : ε} (he : (c.on s).1 = .error e) : (c.on s).2 = s := by
  cases result with
  | error e' =>
      have hon : c.on s = (.error e', s) := h
      rw [hon]
  | ok r =>
      have hon : c.on s = (.ok r.1, r.2) := h
      rw [hon] at he
      cases he

/-- The state a settled call leaves: the one of the result, or the one before. -/
theorem Settles.state {c : Call σ ε α} {s : σ} {result : Except ε (α × σ)}
    (h : Settles c s result) : (c.on s).2 = s ∨ ∃ a, result = .ok (a, (c.on s).2) := by
  cases result with
  | error e =>
      have hon : c.on s = (.error e, s) := h
      exact .inl (by rw [hon])
  | ok r =>
      have hon : c.on s = (.ok r.1, r.2) := h
      exact .inr ⟨r.1, by rw [hon]⟩

end

end EchoMuse.Calls
