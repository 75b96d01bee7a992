/-!
# Programs That Ask

A program asks its environment one thing after another and goes on with each answer. A monitor
follows it: it says which asks are allowed in its present state, and how an answer changes the
state. A program meets a monitor when, whatever is answered, every ask is allowed and the result
fits the last state.

## Main results

* `Prog.meets_andThen`: a sequence meets a monitor when its parts do;
* `Prog.Meets.mono`: a weaker condition on the result.
-/

namespace EchoMuse.Programs

variable {ε : Type} {ρ : ε → Type} {α β σ : Type}

/-- A program with asks `e : ε`, each answered in `ρ e`. -/
inductive Prog (ρ : ε → Type) (α : Type)
  | ret (a : α)
  | ask (e : ε) (k : ρ e → Prog ρ α)

namespace Prog

/-- Goes on with the result. -/
def andThen : Prog ρ α → (α → Prog ρ β) → Prog ρ β
  | .ret a, f => f a
  | .ask e k, f => .ask e fun r => (k r).andThen f

instance : Monad (Prog ρ) where
  pure := .ret
  bind := andThen

/-- Asks one thing. -/
def perform (e : ε) : Prog ρ (ρ e) := .ask e .ret

@[simp] theorem pure_eq (a : α) : (pure a : Prog ρ α) = .ret a := rfl

@[simp] theorem bind_eq (p : Prog ρ α) (f : α → Prog ρ β) : p >>= f = p.andThen f := rfl

@[simp] theorem ret_andThen (a : α) (f : α → Prog ρ β) : (ret a : Prog ρ α).andThen f = f a := rfl

@[simp] theorem perform_andThen (e : ε) (f : ρ e → Prog ρ β) :
    (perform e : Prog ρ (ρ e)).andThen f = .ask e f := rfl

end Prog

/-- What a monitor allows, and how it takes an answer. -/
structure Monitor (ρ : ε → Type) (σ : Type) where
  may : σ → ε → Prop
  next : σ → (e : ε) → ρ e → σ

namespace Prog

/-- From a state of the monitor on, every ask is allowed and the result fits. -/
def Meets (M : Monitor ρ σ) (post : σ → α → Prop) : σ → Prog ρ α → Prop
  | s, .ret a => post s a
  | s, .ask e k => M.may s e ∧ ∀ r, (k r).Meets M post (M.next s e r)

variable {M : Monitor ρ σ} {post : σ → α → Prop}

@[simp] theorem meets_ret (s : σ) (a : α) :
    (ret a : Prog ρ α).Meets M post s ↔ post s a := Iff.rfl

theorem meets_ask (s : σ) (e : ε) (k : ρ e → Prog ρ α) :
    (ask e k).Meets M post s ↔ M.may s e ∧ ∀ r, (k r).Meets M post (M.next s e r) := Iff.rfl

/-- A sequence meets a monitor when its first part does, up to a state from which the rest does. -/
theorem meets_andThen {post : σ → β → Prop} (p : Prog ρ α) (f : α → Prog ρ β) (s : σ) :
    (p.andThen f).Meets M post s ↔ p.Meets M (fun t a => (f a).Meets M post t) s := by
  induction p generalizing s with
  | ret a => rfl
  | ask e k ih =>
      constructor
      · rintro ⟨hmay, hk⟩
        exact ⟨hmay, fun r => (ih r _).mp (hk r)⟩
      · rintro ⟨hmay, hk⟩
        exact ⟨hmay, fun r => (ih r _).mpr (hk r)⟩

/-- A weaker condition on the result is met too. -/
theorem Meets.mono {post' : σ → α → Prop} {p : Prog ρ α} {s : σ} (h : p.Meets M post s)
    (hpost : ∀ t a, post t a → post' t a) : p.Meets M post' s := by
  induction p generalizing s with
  | ret a => exact hpost s a h
  | ask e k ih => exact ⟨h.1, fun r => ih r (h.2 r)⟩

end Prog

end EchoMuse.Programs
