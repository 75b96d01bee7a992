import Mathlib.Data.List.Basic

/-!
# Calls That Fail, Crashes and Lost Writes

System calls that end well, fail, or never return because the machine crashed; a failed or
interrupted call may have taken effect or not. What a call leaves in a file can be taken back by
a power loss until the file is synced.

## Main results

* `Leaves.call`, `Leaves.andThen`: what holds at every point where a sequence of calls can end.
-/

namespace EchoMuse.Faults

/-! ### Contents a power loss can take back -/

/-- A content, and those a power loss can leave in its place until it is synced. -/
structure Volatile (α : Type) where
  now : α
  older : List α := []

namespace Volatile

variable {α : Type}

/-- The content becomes `x`, one of `steps` after the other on the way. -/
def pass (v : Volatile α) (steps : List α) (x : α) : Volatile α :=
  ⟨x, steps ++ v.now :: v.older⟩

/-- The content becomes `x` at once. -/
def set (v : Volatile α) (x : α) : Volatile α := v.pass [] x

/-- The content is on the disk. -/
def sync (v : Volatile α) : Volatile α := ⟨v.now, []⟩

/-- What a crash can leave. -/
def survivors (v : Volatile α) : List α := v.now :: v.older

theorem now_mem_survivors (v : Volatile α) : v.now ∈ v.survivors := List.mem_cons_self

@[simp] theorem now_pass (v : Volatile α) (steps : List α) (x : α) : (v.pass steps x).now = x := rfl

@[simp] theorem now_set (v : Volatile α) (x : α) : (v.set x).now = x := rfl

@[simp] theorem now_sync (v : Volatile α) : v.sync.now = v.now := rfl

@[simp] theorem older_sync (v : Volatile α) : v.sync.older = [] := rfl

theorem mem_survivors_pass {v : Volatile α} {steps : List α} {x y : α} :
    y ∈ (v.pass steps x).survivors ↔ y = x ∨ y ∈ steps ∨ y ∈ v.survivors := by
  rw [survivors, pass, List.mem_cons, List.mem_append]
  rfl

theorem mem_survivors_set {v : Volatile α} {x y : α} :
    y ∈ (v.set x).survivors ↔ y = x ∨ y ∈ v.survivors := by
  rw [set, mem_survivors_pass]
  simp

theorem mem_survivors_sync {v : Volatile α} {y : α} : y ∈ v.sync.survivors ↔ y = v.now := by
  rw [survivors, sync]
  exact List.mem_singleton

end Volatile

/-! ### Calls -/

/-- How a call ends; `ε` says what of a failed or interrupted one took effect. -/
inductive Outcome (ε : Type)
  | done
  | failed (e : ε)
  | crashed (e : ε)

/-- What the caller sees: an interrupted call never returns. -/
inductive Ending
  | ok | error | crashed
deriving DecidableEq

section

variable {φ ε : Type}

/-- A call that turns the files `s` into `whole s`, or into `part e s` when it is cut short. -/
def call (whole : φ → φ) (part : ε → φ → φ) (o : Outcome ε) (s : φ) : φ × Ending :=
  match o with
  | .done => (whole s, .ok)
  | .failed e => (part e s, .error)
  | .crashed e => (part e s, .crashed)

/-- A call that takes effect as a whole or not at all. -/
def callAtomic (effect : φ → φ) : Outcome Bool → φ → φ × Ending :=
  call effect fun taken s => if taken then effect s else s

/-- The next call, unless this one failed or crashed. -/
def andThen (r : φ × Ending) (next : φ → φ × Ending) : φ × Ending :=
  match r with
  | (s, .ok) => next s
  | r => r

/-- What holds where a sequence of calls ends: `post` where every call succeeded, `mid`
elsewhere. -/
def Leaves (mid post : φ → Prop) (r : φ × Ending) : Prop :=
  (r.2 = .ok → post r.1) ∧ (r.2 ≠ .ok → mid r.1)

variable {mid post post' : φ → Prop} {s : φ}

theorem Leaves.call {whole : φ → φ} {part : ε → φ → φ} (hpart : ∀ e, mid (part e s))
    (hwhole : post (whole s)) (o : Outcome ε) : Leaves mid post (Faults.call whole part o s) := by
  cases o with
  | done => exact ⟨fun _ => hwhole, fun h => absurd rfl h⟩
  | failed e => exact ⟨nofun, fun _ => hpart e⟩
  | crashed e => exact ⟨nofun, fun _ => hpart e⟩

theorem Leaves.callAtomic {effect : φ → φ} (hs : mid s) (hmid : mid (effect s))
    (hpost : post (effect s)) (o : Outcome Bool) :
    Leaves mid post (Faults.callAtomic effect o s) := by
  refine Leaves.call (fun taken => ?_) hpost o
  cases taken with
  | true => exact hmid
  | false => exact hs

theorem Leaves.andThen {r : φ × Ending} {next : φ → φ × Ending} (h : Leaves mid post r)
    (hnext : ∀ s, post s → Leaves mid post' (next s)) :
    Leaves mid post' (Faults.andThen r next) := by
  obtain ⟨s, ending⟩ := r
  cases ending with
  | ok => exact hnext s (h.1 rfl)
  | error => exact ⟨nofun, fun _ => h.2 nofun⟩
  | crashed => exact ⟨nofun, fun _ => h.2 nofun⟩

/-- Where every call succeeded the whole sequence has. -/
theorem Leaves.ok {r : φ × Ending} (h : Leaves mid post r) (hok : r.2 = .ok) : post r.1 := h.1 hok

end

end EchoMuse.Faults
