import Mathlib.Data.List.Nodup
import Mathlib.Algebra.Ring.Nat

/-!
# The Wake Arbiter

Devices that hear one wake claim the room at the controller (`voice/src/arbiter.rs`). The first
claim wins; a claim of another device within the claimer's window loses. A release names the
grant it returns, and a grant whose scope has been cancelled suppresses no one.

The clock is in nanoseconds and every claim brings its own reading, so the readings of a run need
not grow. A run is a list of events, the newest last; it is the ledger against which the state of
the arbiter is read.

## Main results

* `Reachable.held_eq`: the arbiter holds the most recent won claim, unless it has been released;
* `claims_lose`: after a win, claims of other devices within their windows lose to it;
* `wake_arbitration`: the law of claims and releases, and of the claims of one utterance.
-/

namespace EchoMuse.Voice

/-! ### Scopes -/

/-- What a unit of work belongs to. -/
structure WorkIdentity where
  device : String
  runtime : ℕ
  session : ℕ
  turn : Option ℕ
deriving DecidableEq

/-- A cancellation token, as the path to it from its root: cancelling a token cancels those
derived from it. -/
abbrev Token := List ℕ

/-- Work that can be cancelled. -/
structure WorkScope where
  identity : WorkIdentity
  token : Token
deriving DecidableEq

/-- A turn's scope inside a session's: the `n`th token derived from its token. -/
def WorkScope.forTurn (s : WorkScope) (turn n : ℕ) : WorkScope where
  identity := { s.identity with turn := some turn }
  token := s.token ++ [n]

/-- Whether a scope is cancelled once `cancelled` have been. -/
def WorkScope.isCancelled (cancelled : List Token) (s : WorkScope) : Bool :=
  cancelled.any fun t => t.isPrefixOf s.token

/-- Cancelling a session's scope cancels its turns. -/
theorem WorkScope.isCancelled_forTurn {cancelled : List Token} {s : WorkScope} (turn n : ℕ)
    (h : s.isCancelled cancelled = true) : (s.forTurn turn n).isCancelled cancelled = true := by
  obtain ⟨t, ht, hprefix⟩ := List.any_eq_true.mp h
  refine List.any_eq_true.mpr ⟨t, ht, ?_⟩
  rw [List.isPrefixOf_iff_prefix] at hprefix ⊢
  exact hprefix.trans (List.prefix_append _ _)

/-! ### The arbiter -/

/-- The current holder. -/
structure Held where
  id : ℕ
  scope : WorkScope
  claimedAt : ℕ
deriving DecidableEq

/-- The state behind the arbiter's lock. -/
structure State where
  nextGrant : ℕ := 0
  held : Option Held := none
deriving DecidableEq

/-- A won claim. -/
structure WakeGrant where
  id : ℕ
  claimedAt : ℕ
deriving DecidableEq

/-- The decision of a claim. -/
inductive ClaimDecision
  | won (grant : WakeGrant)
  | lost (winner : String)
deriving DecidableEq

/-- Why a claim is refused. -/
inductive RuntimeError
  | cancelled
  | closed
deriving DecidableEq

/-- The greatest grant id. -/
def maxGrant : ℕ := 2 ^ 64 - 1

/-- Whether a holder suppresses a claim. -/
def Held.suppresses (cancelled : List Token) (scope : WorkScope) (window now : ℕ)
    (held : Held) : Bool :=
  held.scope.identity.device ≠ scope.identity.device ∧
    held.scope.isCancelled cancelled = false ∧ now - held.claimedAt < window

/-- Decides the claim of `scope`'s device at `now`. -/
def claim (cancelled : List Token) (s : State) (scope : WorkScope) (window now : ℕ) :
    State × Except RuntimeError ClaimDecision :=
  if scope.isCancelled cancelled = true then (s, .error .cancelled)
  else
    match s.held.filter (Held.suppresses cancelled scope window now) with
    | some held => (s, .ok (.lost held.scope.identity.device))
    | none =>
      if s.nextGrant = maxGrant then (s, .error .closed)
      else
        let id := s.nextGrant + 1
        ({ nextGrant := id, held := some { id, scope, claimedAt := now } },
          .ok (.won { id, claimedAt := now }))

/-- What a release did. -/
inductive ReleaseOutcome
  | released
  | superseded
deriving DecidableEq

/-- Drops a grant if it is still the current claim. -/
def release (s : State) (id : ℕ) : State × ReleaseOutcome :=
  match s.held with
  | some held =>
    if held.id = id then ({ s with held := none }, .released) else (s, .superseded)
  | none => (s, .superseded)

/-- The identity holding the current claim, live or not. -/
def holder (s : State) : Option WorkIdentity := s.held.map (·.scope.identity)

/-! ### Runs -/

/-- The arbiter and the tokens cancelled so far. -/
structure World where
  state : State := {}
  cancelled : List Token := []

/-- What a device can do. -/
inductive Op
  | claim (scope : WorkScope) (window now : ℕ)
  | release (id : ℕ)
  | cancel (token : Token)

/-- What happened. -/
inductive Event
  | claimed (scope : WorkScope) (window now : ℕ)
      (decision : Except RuntimeError ClaimDecision)
  | released (id : ℕ) (outcome : ReleaseOutcome)
  | cancelled (token : Token)

/-- One operation. -/
def World.step (w : World) : Op → World × Event
  | .claim scope window now =>
    let (state, decision) := claim w.cancelled w.state scope window now
    ({ w with state }, .claimed scope window now decision)
  | .release id =>
    let (state, outcome) := Voice.release w.state id
    ({ w with state }, .released id outcome)
  | .cancel token => ({ w with cancelled := token :: w.cancelled }, .cancelled token)

/-- A sequence of operations. -/
def World.run (w : World) : List Op → World × List Event
  | [] => (w, [])
  | op :: ops =>
    let (w, event) := w.step op
    let (w, events) := w.run ops
    (w, event :: events)

/-- The claim an event won. -/
def Event.win : Event → Option Held
  | .claimed scope _ _ (.ok (.won grant)) =>
    some { id := grant.id, scope, claimedAt := grant.claimedAt }
  | _ => none

/-- The won claims of a run, the newest last. -/
def wins (history : List Event) : List Held := history.filterMap Event.win

/-- A grant has been handed back. -/
def Returned (history : List Event) (id : ℕ) : Prop := ∃ o, Event.released id o ∈ history

/-- Only a grant that has been won can be handed back. -/
def Op.Allowed (history : List Event) : Op → Prop
  | .release id => ∃ win ∈ wins history, win.id = id
  | _ => True

/-- The runs of an arbiter. -/
inductive Reachable : List Event → World → Prop
  | start : Reachable [] {}
  | step {history : List Event} {w : World} (op : Op) (h : Reachable history w)
      (ha : op.Allowed history) : Reachable (history ++ [(w.step op).2]) (w.step op).1

/-! ### One claim -/

section

variable {cancelled : List Token} {s : State} {scope : WorkScope} {window now : ℕ}

/-- What a claim can do. -/
theorem claim_cases (cancelled : List Token) (s : State) (scope : WorkScope) (window now : ℕ) :
    (scope.isCancelled cancelled = true ∧
      claim cancelled s scope window now = (s, .error .cancelled)) ∨
    (scope.isCancelled cancelled = false ∧ ∃ held, s.held = some held ∧
      held.suppresses cancelled scope window now = true ∧
      claim cancelled s scope window now = (s, .ok (.lost held.scope.identity.device))) ∨
    (scope.isCancelled cancelled = false ∧
      (∀ held, s.held = some held → held.suppresses cancelled scope window now = false) ∧
      s.nextGrant = maxGrant ∧ claim cancelled s scope window now = (s, .error .closed)) ∨
    (scope.isCancelled cancelled = false ∧
      (∀ held, s.held = some held → held.suppresses cancelled scope window now = false) ∧
      claim cancelled s scope window now =
        ({ nextGrant := s.nextGrant + 1,
           held := some { id := s.nextGrant + 1, scope, claimedAt := now } },
          .ok (.won { id := s.nextGrant + 1, claimedAt := now }))) := by
  by_cases hlive : scope.isCancelled cancelled = true
  · exact .inl ⟨hlive, by simp [claim, hlive]⟩
  · rw [Bool.not_eq_true] at hlive
    rcases hheld : s.held.filter (Held.suppresses cancelled scope window now) with _ | held
    · have hfree : ∀ held, s.held = some held →
          held.suppresses cancelled scope window now = false := by
        rintro held hs
        simpa [hs] using hheld
      by_cases hmax : s.nextGrant = maxGrant
      · exact .inr (.inr (.inl ⟨hlive, hfree, hmax, by simp [claim, hlive, hheld, hmax]⟩))
      · exact .inr (.inr (.inr ⟨hlive, hfree, by simp [claim, hlive, hheld, hmax]⟩))
    · obtain ⟨hs, hsup⟩ := Option.filter_eq_some_iff.mp hheld
      exact .inr (.inl ⟨hlive, held, hs, hsup, by simp [claim, hlive, hheld]⟩)

/-- A live scope's claim loses to the holder that suppresses it. -/
theorem claim_lost_iff (hlive : scope.isCancelled cancelled = false) {winner : String} :
    (claim cancelled s scope window now).2 = .ok (.lost winner) ↔
      ∃ held, s.held = some held ∧ held.suppresses cancelled scope window now = true ∧
        held.scope.identity.device = winner := by
  rcases claim_cases cancelled s scope window now with
    ⟨hdead, -⟩ | ⟨-, held, hs, hsup, hc⟩ | ⟨-, hfree, -, hc⟩ | ⟨-, hfree, hc⟩
  · rw [hlive] at hdead
    cases hdead
  · rw [hc]
    simp only [Except.ok.injEq, ClaimDecision.lost.injEq]
    constructor
    · rintro rfl
      exact ⟨held, hs, hsup, rfl⟩
    · rintro ⟨held', hs', -, rfl⟩
      rw [hs] at hs'
      cases hs'
      rfl
  · rw [hc]
    refine ⟨nofun, ?_⟩
    rintro ⟨held, hs, hsup, -⟩
    rw [hfree held hs] at hsup
    cases hsup
  · rw [hc]
    refine ⟨by simp, ?_⟩
    rintro ⟨held, hs, hsup, -⟩
    rw [hfree held hs] at hsup
    cases hsup

/-- A claim that is lost or refused changes nothing. -/
theorem claim_unchanged
    (h : ∀ grant, (claim cancelled s scope window now).2 ≠ .ok (.won grant)) :
    (claim cancelled s scope window now).1 = s := by
  rcases claim_cases cancelled s scope window now with
    ⟨-, hc⟩ | ⟨-, held, -, -, hc⟩ | ⟨-, -, -, hc⟩ | ⟨-, -, hc⟩
  · rw [hc]
  · rw [hc]
  · rw [hc]
  · rw [hc] at h
    exact absurd rfl (h _)

/-- A claim that is won holds the room from then on. -/
theorem claim_held {grant : WakeGrant}
    (h : (claim cancelled s scope window now).2 = .ok (.won grant)) :
    (claim cancelled s scope window now).1.held =
      some { id := grant.id, scope, claimedAt := now } := by
  rcases claim_cases cancelled s scope window now with
    ⟨-, hc⟩ | ⟨-, held, -, -, hc⟩ | ⟨-, -, -, hc⟩ | ⟨-, -, hc⟩
  · rw [hc] at h
    cases h
  · rw [hc] at h
    cases h
  · rw [hc] at h
    cases h
  · rw [hc] at h ⊢
    cases h
    rfl

/-- A release either frees the arbiter of the grant it names, or changes nothing. -/
theorem release_cases (s : State) (id : ℕ) :
    (∃ held, s.held = some held ∧ held.id = id ∧
      release s id = ({ s with held := none }, .released)) ∨
    ((∀ held, s.held = some held → held.id ≠ id) ∧ release s id = (s, .superseded)) := by
  rcases hs : s.held with _ | held
  · exact .inr ⟨nofun, by simp [release, hs]⟩
  · by_cases hid : held.id = id
    · exact .inl ⟨held, rfl, hid, by simp [release, hs, hid]⟩
    · refine .inr ⟨?_, by simp [release, hs, hid]⟩
      rintro held' hheld
      cases hheld
      exact hid

end

/-! ### The ledger -/

/-- What the history says about the state: the grants won are numbered from one, the holder is the
last of them unless it was returned, and nothing is returned before it is won. -/
structure Ledger (history : List Event) (s : State) : Prop where
  ids : (wins history).map Held.id = List.range' 1 s.nextGrant
  held : ∀ h, s.held = some h ↔ (wins history).getLast? = some h ∧ ¬ Returned history h.id
  returned : ∀ id, Returned history id → id ≤ s.nextGrant

theorem wins_append (history : List Event) (e : Event) :
    wins (history ++ [e]) = wins history ++ e.win.toList := by
  rw [wins, List.filterMap_append]
  cases he : e.win <;> simp [wins, he]

theorem returned_append {history : List Event} {e : Event} {id : ℕ} :
    Returned (history ++ [e]) id ↔ Returned history id ∨ ∃ o, e = .released id o := by
  simp only [Returned, List.mem_append, List.mem_singleton]
  constructor
  · rintro ⟨o, ho | ho⟩
    · exact .inl ⟨o, ho⟩
    · exact .inr ⟨o, ho.symm⟩
  · rintro (⟨o, ho⟩ | ⟨o, rfl⟩)
    · exact ⟨o, .inl ho⟩
    · exact ⟨o, .inr rfl⟩

namespace Ledger

variable {history : List Event} {s : State}

/-- An event that neither wins nor returns a grant leaves the ledger as it is. -/
theorem quiet (h : Ledger history s) {e : Event} (hwin : e.win = none)
    (hreturn : ∀ id o, e ≠ .released id o) : Ledger (history ++ [e]) s where
  ids := by simpa [wins_append, hwin] using h.ids
  held k := by
    have hr : Returned (history ++ [e]) k.id ↔ Returned history k.id := by
      simp [returned_append, hreturn]
    simpa [wins_append, hwin, hr] using h.held k
  returned id hid := by
    rcases returned_append.mp hid with hid | ⟨o, rfl⟩
    · exact h.returned id hid
    · exact absurd rfl (hreturn id o)

/-- A won claim is the last one, and its grant is new. -/
theorem won (h : Ledger history s) (scope : WorkScope) (window now : ℕ) :
    Ledger (history ++ [.claimed scope window now
      (.ok (.won { id := s.nextGrant + 1, claimedAt := now }))])
      { nextGrant := s.nextGrant + 1,
        held := some { id := s.nextGrant + 1, scope, claimedAt := now } } where
  ids := by
    rw [wins_append, List.map_append, h.ids]
    simp [Event.win, List.range'_concat, Nat.add_comm]
  held k := by
    have hnew : ¬ Returned history (s.nextGrant + 1) := by
      intro hr
      have hle := h.returned _ hr
      omega
    simp only [wins_append, Event.win, Option.toList_some, List.getLast?_append,
      List.getLast?_singleton, Option.some_or, Option.some.injEq]
    constructor
    · rintro rfl
      refine ⟨rfl, ?_⟩
      simpa [returned_append] using hnew
    · exact fun hk => hk.1
  returned id hid := by
    rcases returned_append.mp hid with hid | ⟨o, hid⟩
    · exact Nat.le_succ_of_le (h.returned id hid)
    · cases hid

/-- The grant returned is the current one, or nothing changes. -/
theorem release (h : Ledger history s) {id : ℕ} (hid : id ≤ s.nextGrant) :
    Ledger (history ++ [.released id (Voice.release s id).2]) (Voice.release s id).1 := by
  rcases release_cases s id with ⟨held, hs, hheld, hr⟩ | ⟨hother, hr⟩
  · rw [hr]
    refine ⟨by simpa [wins_append, Event.win] using h.ids, fun k => ?_, fun k hk => ?_⟩
    · refine ⟨nofun, ?_⟩
      rintro ⟨hlast, hk⟩
      simp only [wins_append, Event.win, Option.toList_none, List.append_nil] at hlast
      rw [((h.held held).mp hs).1] at hlast
      cases hlast
      exact absurd (returned_append.mpr (.inr ⟨_, by rw [hheld]⟩)) hk
    · rcases returned_append.mp hk with hk | ⟨o, hk⟩
      · exact h.returned k hk
      · cases hk
        exact hid
  · rw [hr]
    refine ⟨by simpa [wins_append, Event.win] using h.ids, fun k => ?_, fun k hk => ?_⟩
    · simp only [wins_append, Event.win, Option.toList_none, List.append_nil]
      constructor
      · intro hk
        obtain ⟨hlast, hnot⟩ := (h.held k).mp hk
        refine ⟨hlast, fun hret => ?_⟩
        rcases returned_append.mp hret with hret | ⟨o, hret⟩
        · exact hnot hret
        · injection hret with hret
          exact hother k hk hret.symm
      · rintro ⟨hlast, hnot⟩
        exact (h.held k).mpr ⟨hlast, fun hret => hnot (returned_append.mpr (.inl hret))⟩
    · rcases returned_append.mp hk with hk | ⟨o, hk⟩
      · exact h.returned k hk
      · cases hk
        exact hid

/-- A grant that was won is numbered no higher than the last one. -/
theorem win_le (h : Ledger history s) {win : Held} (hw : win ∈ wins history) :
    win.id ≤ s.nextGrant := by
  have hmem : win.id ∈ List.range' 1 s.nextGrant := h.ids ▸ List.mem_map_of_mem hw
  obtain ⟨i, hi, heq⟩ := List.mem_range'.mp hmem
  omega

end Ledger

/-- **The ledger of a run.** -/
theorem Reachable.ledger {history : List Event} {w : World} (h : Reachable history w) :
    Ledger history w.state := by
  induction h with
  | start =>
      refine ⟨rfl, fun k => ⟨nofun, fun hk => nomatch hk.1⟩, fun id hid => ?_⟩
      obtain ⟨o, ho⟩ := hid
      cases ho
  | @step history w op h ha ih =>
      cases op with
      | claim scope window now =>
          rcases claim_cases w.cancelled w.state scope window now with
            ⟨-, hc⟩ | ⟨-, held, -, -, hc⟩ | ⟨-, -, -, hc⟩ | ⟨-, -, hc⟩
          · simpa only [World.step, hc] using ih.quiet rfl (by simp)
          · simpa only [World.step, hc] using ih.quiet rfl (by simp)
          · simpa only [World.step, hc] using ih.quiet rfl (by simp)
          · simpa only [World.step, hc] using ih.won scope window now
      | release id =>
          obtain ⟨win, hw, rfl⟩ := ha
          exact ih.release (ih.win_le hw)
      | cancel token => exact ih.quiet rfl (by simp [World.step])

/-- The holder is the most recent won claim, unless it has been returned. -/
theorem Reachable.held_eq {history : List Event} {w : World} (h : Reachable history w) (k : Held) :
    w.state.held = some k ↔ (wins history).getLast? = some k ∧ ¬ Returned history k.id :=
  h.ledger.held k

/-! ### One utterance -/

/-- A claim of one device on an utterance. -/
structure Claim where
  scope : WorkScope
  window : ℕ
  now : ℕ

/-- The device that claims. -/
def Claim.device (c : Claim) : String := c.scope.identity.device

/-- The claims of one utterance: distinct devices with live scopes, whose clock readings differ by
less than any of their windows. -/
structure Contest (cancelled : List Token) (claims : List Claim) : Prop where
  devices : (claims.map Claim.device).Nodup
  live : ∀ c ∈ claims, c.scope.isCancelled cancelled = false
  spread : ∀ a ∈ claims, ∀ b ∈ claims, ∀ c ∈ claims, a.now - b.now < c.window

/-- The claims as operations. -/
def Claim.op (c : Claim) : Op := .claim c.scope c.window c.now

/-- The event of a claim that is decided so. -/
def Claim.decided (c : Claim) (decision : ClaimDecision) : Event :=
  .claimed c.scope c.window c.now (.ok decision)

/-- Claims of other devices within their windows of a live holder lose to it. -/
theorem claims_lose {w : World} {held : Held} (hheld : w.state.held = some held)
    (hlive : held.scope.isCancelled w.cancelled = false) {claims : List Claim}
    (hclaims : ∀ c ∈ claims, c.scope.isCancelled w.cancelled = false ∧
      held.scope.identity.device ≠ c.device ∧ c.now - held.claimedAt < c.window) :
    (w.run (claims.map Claim.op)).2 =
      claims.map fun c => c.decided (.lost held.scope.identity.device) := by
  induction claims with
  | nil => rfl
  | cons c claims ih =>
      obtain ⟨hc, hdevice, hnow⟩ := hclaims c List.mem_cons_self
      have hsup : held.suppresses w.cancelled c.scope c.window c.now = true :=
        decide_eq_true ⟨hdevice, hlive, hnow⟩
      have hlost := (claim_lost_iff hc).mpr ⟨held, hheld, hsup, rfl⟩
      have hsame := claim_unchanged (fun grant => by rw [hlost]; simp)
      have hstep : w.step c.op =
          (w, c.decided (.lost held.scope.identity.device)) := by
        simp only [Claim.op, World.step, hsame, hlost, Claim.decided]
      simp only [List.map_cons, World.run, hstep]
      rw [ih fun d hd => hclaims d (List.mem_cons_of_mem _ hd)]

/-- When the first claim of an utterance wins, all others lose to it. -/
theorem contest_won {w : World} {c : Claim} {claims : List Claim}
    (hcontest : Contest w.cancelled (c :: claims)) {grant : WakeGrant}
    (hwon : (claim w.cancelled w.state c.scope c.window c.now).2 = .ok (.won grant)) :
    (w.run ((c :: claims).map Claim.op)).2 =
      c.decided (.won grant) :: claims.map fun d => d.decided (.lost c.device) := by
  have hdevices := List.nodup_cons.mp hcontest.devices
  have hother : ∀ d ∈ claims, c.device ≠ d.device := by
    intro d hd heq
    exact hdevices.1 (heq ▸ List.mem_map_of_mem hd)
  have hrest := claims_lose (w := (w.step c.op).1) (claim_held hwon)
    (hcontest.live c List.mem_cons_self) fun d hd =>
      ⟨hcontest.live d (List.mem_cons_of_mem _ hd), hother d hd,
        hcontest.spread d (List.mem_cons_of_mem _ hd) c List.mem_cons_self d
          (List.mem_cons_of_mem _ hd)⟩
  simp only [List.map_cons, World.run]
  rw [hrest]
  simp only [Claim.op, World.step, hwon, Claim.decided, Claim.device]

/-! ### Wake arbitration -/

/-- **Wake arbitration.** In every reachable state: a claim by a live scope loses exactly to the
most recent won claim, when that has not been returned, is of a different device whose scope is not
cancelled, and was made less than the claimer's window ago; a claim that is not won changes
nothing; no grant id occurs twice; a release frees the arbiter exactly when its grant is the
current one, and changes nothing otherwise; and when the first claim of an utterance wins, all its
other claims lose and name the winner. -/
theorem wake_arbitration {history : List Event} {w : World} (h : Reachable history w) :
    (∀ scope window now winner, scope.isCancelled w.cancelled = false →
      ((claim w.cancelled w.state scope window now).2 = .ok (.lost winner) ↔
        ∃ last, (wins history).getLast? = some last ∧ ¬ Returned history last.id ∧
          last.scope.identity.device = winner ∧ winner ≠ scope.identity.device ∧
          last.scope.isCancelled w.cancelled = false ∧ now - last.claimedAt < window)) ∧
    (∀ scope window now,
      (∀ grant, (claim w.cancelled w.state scope window now).2 ≠ .ok (.won grant)) →
        (claim w.cancelled w.state scope window now).1 = w.state) ∧
    ((wins history).map Held.id).Nodup ∧
    (∀ id,
      ((∃ last, (wins history).getLast? = some last ∧ ¬ Returned history last.id ∧
          last.id = id) ∧
        release w.state id = ({ w.state with held := none }, .released)) ∨
      ((¬ ∃ last, (wins history).getLast? = some last ∧ ¬ Returned history last.id ∧
          last.id = id) ∧
        release w.state id = (w.state, .superseded))) ∧
    (∀ c claims grant, Contest w.cancelled (c :: claims) →
      (claim w.cancelled w.state c.scope c.window c.now).2 = .ok (.won grant) →
        (w.run ((c :: claims).map Claim.op)).2 =
          c.decided (.won grant) :: claims.map fun d => d.decided (.lost c.device)) := by
  refine ⟨fun scope window now winner hlive => ?_, fun _ _ _ => claim_unchanged, ?_, fun id => ?_,
    fun _ _ _ hcontest hwon => contest_won hcontest hwon⟩
  · rw [claim_lost_iff hlive]
    constructor
    · rintro ⟨held, hs, hsup, rfl⟩
      obtain ⟨hlast, hnot⟩ := (h.held_eq held).mp hs
      obtain ⟨hdevice, hlive', hnow⟩ := of_decide_eq_true hsup
      exact ⟨held, hlast, hnot, rfl, hdevice, hlive', hnow⟩
    · rintro ⟨last, hlast, hnot, rfl, hdevice, hlive', hnow⟩
      exact ⟨last, (h.held_eq last).mpr ⟨hlast, hnot⟩,
        decide_eq_true ⟨hdevice, hlive', hnow⟩, rfl⟩
  · rw [h.ledger.ids]
    exact List.nodup_range'
  · rcases release_cases w.state id with ⟨held, hs, hid, hr⟩ | ⟨hother, hr⟩
    · obtain ⟨hlast, hnot⟩ := (h.held_eq held).mp hs
      exact .inl ⟨⟨held, hlast, hnot, hid⟩, hr⟩
    · refine .inr ⟨?_, hr⟩
      rintro ⟨last, hlast, hnot, hid⟩
      exact hother last ((h.held_eq last).mpr ⟨hlast, hnot⟩) hid

/-! ### Three rooms -/

/-- A claim of a device with a scope of its own. -/
def roomClaim (device : String) (n now : ℕ) : Claim where
  scope := { identity := { device, runtime := 1, session := n, turn := some n }, token := [n] }
  window := 700
  now := now

/-- Three devices within 184 ms: the first one wins. -/
theorem wake_arbitration_rooms :
    (World.run {} ([roomClaim "office" 1 0, roomClaim "lounge" 2 90,
      roomClaim "kitchen" 3 184].map Claim.op)).2 =
      [(roomClaim "office" 1 0).decided (.won { id := 1, claimedAt := 0 }),
        (roomClaim "lounge" 2 90).decided (.lost "office"),
        (roomClaim "kitchen" 3 184).decided (.lost "office")] :=
  (wake_arbitration .start).2.2.2.2 (roomClaim "office" 1 0)
    [roomClaim "lounge" 2 90, roomClaim "kitchen" 3 184] _
    ⟨by decide, by decide, by decide⟩ (by decide)

/-- The claims of an utterance need not have a winner among them: where an earlier claim of another
device still holds, they all lose to it. -/
theorem earlier_claim_holds :
    Contest [] [roomClaim "lounge" 2 90, roomClaim "kitchen" 3 184] ∧
    (World.run {} ([roomClaim "office" 1 0, roomClaim "lounge" 2 90,
      roomClaim "kitchen" 3 184].map Claim.op)).2.drop 1 =
      [(roomClaim "lounge" 2 90).decided (.lost "office"),
        (roomClaim "kitchen" 3 184).decided (.lost "office")] :=
  ⟨⟨by decide, by decide, by decide⟩, rfl⟩

end EchoMuse.Voice
