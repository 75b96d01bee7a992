import Mathlib.Data.List.Induction

/-!
# Monitored Runs

A machine takes inputs one after another and answers each with a list of effects. The trace of a
run holds each input and, behind it, its effects. A law says which event may follow a trace.

## Main results

* `run_induction`: what every input preserves holds of every run;
* `Reaches.invariant`: the same for the states that allowed inputs reach;
* `obeys_concat`: a trace obeys a law event by event;
* `Obeys.countP_le_one`: what may not follow itself happens at most once.
-/

namespace EchoMuse.Monitors

variable {σ ι ε : Type*}

/-- An event of a run: an input taken, or an effect. -/
inductive Event (ι ε : Type*)
  | took (input : ι)
  | did (effect : ε)
deriving DecidableEq

/-! ### Runs -/

section

variable (step : σ → ι → σ × List ε)

/-- The state after a run. -/
def state (s : σ) (inputs : List ι) : σ := inputs.foldl (fun s i => (step s i).1) s

/-- The trace of a run. -/
def trace (s : σ) : List ι → List (Event ι ε)
  | [] => []
  | i :: inputs => .took i :: (step s i).2.map .did ++ trace (step s i).1 inputs

@[simp] theorem state_nil (s : σ) : state step s [] = s := rfl

theorem state_append (s : σ) (inputs more : List ι) :
    state step s (inputs ++ more) = state step (state step s inputs) more :=
  List.foldl_append

theorem state_concat (s : σ) (inputs : List ι) (i : ι) :
    state step s (inputs ++ [i]) = (step (state step s inputs) i).1 := by
  rw [state_append]
  rfl

theorem trace_append (s : σ) (inputs more : List ι) :
    trace step s (inputs ++ more) =
      trace step s inputs ++ trace step (state step s inputs) more := by
  induction inputs generalizing s with
  | nil => rfl
  | cons i inputs ih =>
      have h := ih (step s i).1
      rw [List.cons_append, trace, trace, h, List.append_assoc]
      rfl

theorem trace_concat (s : σ) (inputs : List ι) (i : ι) :
    trace step s (inputs ++ [i]) = trace step s inputs ++
      .took i :: (step (state step s inputs) i).2.map .did := by
  rw [trace_append, trace, trace, List.append_nil]

/-- What holds before every input and survives it holds after every run. -/
theorem run_induction {R : σ → List (Event ι ε) → Prop} {s : σ} (hstart : R s [])
    (hstep : ∀ t tr i, R t tr → R (step t i).1 (tr ++ .took i :: (step t i).2.map .did))
    (inputs : List ι) : R (state step s inputs) (trace step s inputs) := by
  induction inputs using List.reverseRecOn with
  | nil => exact hstart
  | append_singleton inputs i ih =>
      rw [state_concat, trace_concat]
      exact hstep _ _ i ih

end

/-! ### Reached states -/

section

variable {step : σ → ι → σ} {rule rule' : σ → ι → Prop}

/-- The states reached from a state by inputs a rule allows. -/
inductive Reaches (step : σ → ι → σ) (rule : σ → ι → Prop) (s : σ) : σ → Prop
  | refl : Reaches step rule s s
  | next {t : σ} (i : ι) : Reaches step rule s t → rule t i → Reaches step rule s (step t i)

/-- A rule allows the inputs of a run one after another. -/
def Follows (step : σ → ι → σ) (rule : σ → ι → Prop) : σ → List ι → Prop
  | _, [] => True
  | s, i :: inputs => rule s i ∧ Follows step rule (step s i) inputs

instance decidableFollows [∀ s, DecidablePred (rule s)] :
    (s : σ) → (inputs : List ι) → Decidable (Follows step rule s inputs)
  | _, [] => .isTrue trivial
  | s, i :: inputs =>
    have := decidableFollows (step s i) inputs
    inferInstanceAs (Decidable (rule s i ∧ Follows step rule (step s i) inputs))

theorem Reaches.trans {s t u : σ} (h : Reaches step rule s t) (h' : Reaches step rule t u) :
    Reaches step rule s u := by
  induction h' with
  | refl => exact h
  | next i _ hrule ih => exact ih.next i hrule

/-- A run a rule allows reaches its last state. -/
theorem reaches_of_follows {s : σ} {inputs : List ι} (h : Follows step rule s inputs) :
    Reaches step rule s (inputs.foldl step s) := by
  induction inputs generalizing s with
  | nil => exact .refl
  | cons i inputs ih => exact (Reaches.refl.next i h.1).trans (ih h.2)

/-- A rule that allows everything allows every run. -/
theorem reaches_of_forall (h : ∀ s i, rule s i) (s : σ) (inputs : List ι) :
    Reaches step rule s (inputs.foldl step s) := by
  induction inputs generalizing s with
  | nil => exact .refl
  | cons i inputs ih => exact (Reaches.refl.next i (h s i)).trans (ih (step s i))

theorem Reaches.mono {s t : σ} (h : Reaches step rule s t)
    (hrule : ∀ u i, rule u i → rule' u i) : Reaches step rule' s t := by
  induction h with
  | refl => exact .refl
  | next i _ hi ih => exact ih.next i (hrule _ i hi)

/-- What holds at first and survives every allowed input holds of every state reached. -/
theorem Reaches.invariant {R : σ → Prop} {s t : σ} (h : Reaches step rule s t) (hs : R s)
    (hstep : ∀ u i, R u → rule u i → R (step u i)) : R t := by
  induction h with
  | refl => exact hs
  | next i _ hi ih => exact hstep _ i ih hi

end

/-! ### Laws -/

/-- Each event of a trace may follow those before it. -/
def Obeys (may : List ε → ε → Prop) (tr : List ε) : Prop :=
  ∀ before e after, tr = before ++ e :: after → may before e

theorem obeys_nil (may : List ε → ε → Prop) : Obeys may [] := by
  intro before e after h
  simp at h

/-- A trace obeys a law event by event. -/
theorem obeys_concat {may : List ε → ε → Prop} {tr : List ε} {e : ε} :
    Obeys may (tr ++ [e]) ↔ Obeys may tr ∧ may tr e := by
  constructor
  · intro h
    refine ⟨fun before e' after htr => h before e' (after ++ [e]) ?_, h tr e [] rfl⟩
    rw [htr, List.append_assoc, List.cons_append]
  · rintro ⟨htr, he⟩ before e' after h
    rcases List.eq_nil_or_concat after with rfl | ⟨after, last, rfl⟩
    · obtain ⟨rfl, hlast⟩ := List.append_inj' h rfl
      obtain rfl : e = e' := List.singleton_inj.mp hlast
      exact he
    · rw [List.concat_eq_append, ← List.cons_append, ← List.append_assoc] at h
      exact htr before e' after (List.append_inj' h rfl).1

/-- Events that may follow any trace may follow one after the other. -/
theorem Obeys.append {may : List ε → ε → Prop} {tr es : List ε} (h : Obeys may tr)
    (hes : ∀ e ∈ es, ∀ before, may before e) : Obeys may (tr ++ es) := by
  induction es using List.reverseRecOn with
  | nil => rwa [List.append_nil]
  | append_singleton es e ih =>
      rw [← List.append_assoc, obeys_concat]
      refine ⟨ih fun e' he' => hes e' (List.mem_append_left _ he'), hes e ?_ _⟩
      exact List.mem_append_right _ (List.mem_singleton_self e)

theorem Obeys.left {may : List ε → ε → Prop} {before after : List ε}
    (h : Obeys may (before ++ after)) : Obeys may before := by
  intro b e a hsplit
  exact h b e (a ++ after) (by rw [hsplit, List.append_assoc, List.cons_append])

/-- What may not follow itself happens at most once. -/
theorem Obeys.countP_le_one {may : List ε → ε → Prop} {tr : List ε} (h : Obeys may tr)
    {p : ε → Bool} (hp : ∀ before e, may before e → p e = true → before.any p = false) :
    tr.countP p ≤ 1 := by
  induction tr using List.reverseRecOn with
  | nil => simp
  | append_singleton tr e ih =>
      obtain ⟨htr, he⟩ := obeys_concat.mp h
      rw [List.countP_append, List.countP_singleton]
      split_ifs with hpe
      · have hnone : tr.countP p = 0 :=
          List.countP_eq_zero.mpr fun x hx => by simpa using List.any_eq_false.mp (hp tr e he hpe) x hx
        omega
      · exact ih htr

end EchoMuse.Monitors
