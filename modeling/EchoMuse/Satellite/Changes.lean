import EchoMuse.Satellite.Lanes
import Mathlib.Logic.Relation

/-!
# Changes of the Satellite's Runs

What one handler of the actor can do to the run in progress, to the connections and to what the
runtime gets, as a chain of a few kinds of changes.

## Main results

* `Actor.chain_step`: every step is a chain of changes, unless it starts a run on a connection that
  still waits for an answer.
-/

namespace EchoMuse.Satellite

/-- The request ends its run. -/
def Request.closes (q : Request) : Bool :=
  match q.event with
  | .closed _ => true
  | _ => false

/-- The lane of a run in progress. -/
def ActiveRun.lane (r : ActiveRun) : Lane := if r.accepted then .settled r.id else .waiting r.id

/-- The run's connection is known, and its lane holds unless the node is closing it. -/
def ActiveRun.On (r : ActiveRun) (k : Conn) : Prop :=
  k.known = true ∧ (k.closing = false → r.lane.Holds k)

/-- The request comes from the run's own pipeline, or the actor closes a run with it. -/
def Request.Own (q : Request) : Prop :=
  q.origin = some q.run ∨ q.event = .closed .lost ∨ q.event = .closed .audioBacklog

section

variable {r : ActiveRun} {k k' : Conn}

/-- A connection that stays known, and closing if it was, keeps its run with its lane. -/
theorem ActiveRun.On.kept (h : r.On k) (hknown : k'.known = k.known)
    (hclosing : k.closing = true → k'.closing = true)
    (hlane : r.lane.Holds k → r.lane.Holds k') : r.On k' := by
  refine ⟨hknown.trans h.1, fun hopen => hlane (h.2 ?_)⟩
  by_contra hne
  rw [hclosing ((Bool.not_eq_false _).mp hne)] at hopen
  cases hopen

theorem ActiveRun.On.close (h : r.On k) : r.On k.close := by
  refine h.kept ?_ (fun hclosing => ?_) fun hlane => hlane.close
  · unfold Conn.close
    split_ifs
    all_goals rfl
  · unfold Conn.close
    split_ifs
    · rfl
    · exact hclosing

theorem ActiveRun.On.send (h : r.On k) {f : Frame} (hf : f.isStart = false) :
    r.On (k.send f).1 := by
  unfold Conn.send
  split_ifs
  · exact h.kept rfl (fun hclosing => hclosing) fun hlane => hlane.push hf
  · exact h.close
  · exact h

theorem ActiveRun.On.write (h : r.On k) : r.On k.write := by
  refine h.kept ?_ (fun hclosing => ?_) fun hlane => hlane.write
  · unfold Conn.write
    split
    all_goals rfl
  · unfold Conn.write
    split
    all_goals exact hclosing

/-- Home Assistant's steps leave the node's view of a connection as it is. -/
theorem Conn.home_same (k : Conn) (step : HomeStep) :
    (k.home step).known = k.known ∧ (k.home step).closing = k.closing := by
  cases step with
  | take =>
      change k.take.known = k.known ∧ k.take.closing = k.closing
      unfold Conn.take
      split_ifs
      · exact ⟨rfl, rfl⟩
      · split
        all_goals exact ⟨rfl, rfl⟩
  | answer error =>
      change (k.answer error).known = k.known ∧ (k.answer error).closing = k.closing
      unfold Conn.answer
      split
      all_goals exact ⟨rfl, rfl⟩
  | event e =>
      change (k.event e).known = k.known ∧ (k.event e).closing = k.closing
      unfold Conn.event
      split
      all_goals exact ⟨rfl, rfl⟩

theorem ActiveRun.On.home (h : r.On k) (step : HomeStep) : r.On (k.home step) :=
  h.kept (k.home_same step).1 (fun hclosing => (k.home_same step).2.trans hclosing)
    fun hlane => hlane.home step

end

namespace Actor

/-! ### Kinds of changes -/

/-- The accounts of runs are the same. -/
structure SameBooks (s s' : Actor) : Prop where
  nextRun : s'.nextRun = s.nextRun
  undelivered : s'.undelivered = s.undelivered
  requests : s'.requests = s.requests
  accepts : s'.accepts = s.accepts
  ended : s'.ended = s.ended
  gone : s.runtimeGone = true → s'.runtimeGone = true

theorem SameBooks.refl (s : Actor) : SameBooks s s := ⟨rfl, rfl, rfl, rfl, rfl, id⟩

theorem SameBooks.trans {s s' s'' : Actor} (h : SameBooks s s') (h' : SameBooks s' s'') :
    SameBooks s s'' :=
  ⟨h'.nextRun.trans h.nextRun, h'.undelivered.trans h.undelivered, h'.requests.trans h.requests,
    h'.accepts.trans h.accepts, h'.ended.trans h.ended, fun hg => h'.gone (h.gone hg)⟩

/-- The lane of the run in progress is as before. -/
def KeepsLane (s s' : Actor) : Prop :=
  ∀ r, s.run = some r → r.On (s.conns r.conn) → r.On (s'.conns r.conn)

/-- One change. -/
inductive Change (s s' : Actor) : Prop
  /-- Frames and messages move. -/
  | frames (hrun : s'.run = s.run) (hbooks : SameBooks s s') (hlane : KeepsLane s s')
  /-- The run in progress takes audio. -/
  | work {r r' : ActiveRun} (hrun : s.run = some r) (hrun' : s'.run = some r')
      (hid : r'.id = r.id) (hconn : r'.conn = r.conn) (haccepted : r'.accepted = r.accepted)
      (hpending : NoStart r'.pending) (hbooks : SameBooks s s') (hconns : s'.conns = s.conns)
  /-- The run in progress becomes accepted. -/
  | accept {r r' : ActiveRun} (hrun : s.run = some r) (hrun' : s'.run = some r')
      (hid : r'.id = r.id) (hlane : r'.On (s'.conns r'.conn)) (hpending : NoStart r'.pending)
      (hnext : s'.nextRun = s.nextRun) (hundelivered : s'.undelivered = s.undelivered)
      (hrequests : s'.requests = s.requests) (haccepts : s'.accepts = s.accepts ++ [(r.id, r.id)])
      (hended : s'.ended = s.ended) (hgone : s'.runtimeGone = s.runtimeGone)
  /-- The runtime gets an event of the run in progress. -/
  | tell {r : ActiveRun} {q : Request} (hrun : s.run = some r) (hq : q.run = r.id)
      (hcloses : q.closes = false) (hown : q.Own)
      (hs' : s' = { s with requests := s.requests ++ [q] })
  /-- The run in progress ends, and the runtime gets its closure, or will, or is gone. -/
  | finish {r : ActiveRun} {q : Request} (hrun : s.run = some r) (hrun' : s'.run = none)
      (hq : q.run = r.id) (hcloses : q.closes = true) (hown : q.Own)
      (hnext : s'.nextRun = s.nextRun) (haccepts : s'.accepts = s.accepts)
      (hended : s'.ended = s.ended)
      (hclosure : (s.undelivered = [] ∧ s'.undelivered = [] ∧
          s'.requests = s.requests ++ [q] ∧ s'.runtimeGone = s.runtimeGone) ∨
        (s'.undelivered = s.undelivered ++ [q] ∧ s'.requests = s.requests ∧
          s'.runtimeGone = s.runtimeGone) ∨
        (s'.undelivered = s.undelivered ∧ s'.requests = s.requests ∧ s'.runtimeGone = true))
  /-- The runtime ends the run in progress. -/
  | stop {r : ActiveRun} (hrun : s.run = some r)
      (hs' : s' = { s with run := none, ended := s.ended ++ [r.id] })
  /-- A run starts where none is in progress. -/
  | start {r : ActiveRun} (hrun : s.run = none) (hrun' : s'.run = some r) (hid : r.id = s.nextRun)
      (haccepted : r.accepted = false)
      (hlane : r.On (s'.conns r.conn)) (hpending : NoStart r.pending)
      (hnext : s'.nextRun = s.nextRun + 1) (hundelivered : s'.undelivered = s.undelivered)
      (hrequests : s'.requests = s.requests) (haccepts : s'.accepts = s.accepts)
      (hended : s'.ended = s.ended) (hgone : s'.runtimeGone = s.runtimeGone)
  /-- The runtime gets a closure that waited. -/
  | flush {q : Request} {rest : List Request} (hwaits : s.undelivered = q :: rest)
      (hs' : s' = { s with undelivered := rest, requests := s.requests ++ [q] })

/-- Some changes, one after another. -/
abbrev Chain : Actor → Actor → Prop := Relation.ReflTransGen Change

theorem Chain.single {s s' : Actor} (h : Change s s') : Chain s s' := Relation.ReflTransGen.single h

/-! ### Attribution -/

/-- What the runtime gets of a run is the run's own, as is the answer that accepts it; the lane of
the run in progress is settled or waiting. -/
structure Attributed (s : Actor) : Prop where
  accepted : ∀ r, s.run = some r → r.accepted = true → (r.id, r.id) ∈ s.accepts
  accepts : ∀ a ∈ s.accepts, a.2 = a.1
  requests : ∀ q ∈ s.requests, q.Own
  undelivered : ∀ q ∈ s.undelivered, q.Own
  lane : ∀ r, s.run = some r → r.On (s.conns r.conn)
  pending : ∀ r, s.run = some r → NoStart r.pending

theorem Attributed.init : Attributed {} where
  accepted := fun r h => by cases h
  accepts := fun a h => absurd h List.not_mem_nil
  requests := fun q h => absurd h List.not_mem_nil
  undelivered := fun q h => absurd h List.not_mem_nil
  lane := fun r h => by cases h
  pending := fun r h => by cases h

theorem Attributed.change {s s' : Actor} (h : s.Attributed) (hc : Change s s') : s'.Attributed := by
  cases hc with
  | frames hrun hbooks hlane =>
      refine ⟨fun r hr => ?_, hbooks.accepts ▸ h.accepts, hbooks.requests ▸ h.requests,
        hbooks.undelivered ▸ h.undelivered, fun r hr => ?_, fun r hr => ?_⟩
      · rw [hbooks.accepts]
        exact h.accepted r (hrun ▸ hr)
      · rw [hrun] at hr
        exact hlane r hr (h.lane r hr)
      · rw [hrun] at hr
        exact h.pending r hr
  | work hrun hrun' hid hconn haccepted hpending hbooks hconns =>
      refine ⟨fun r hr hacc => ?_, hbooks.accepts ▸ h.accepts, hbooks.requests ▸ h.requests,
        hbooks.undelivered ▸ h.undelivered, fun r hr => ?_, fun r hr => ?_⟩
      · obtain rfl := Option.some.inj (hrun'.symm.trans hr)
        rw [hbooks.accepts, hid]
        exact h.accepted _ hrun (haccepted.symm.trans hacc)
      · obtain rfl := Option.some.inj (hrun'.symm.trans hr)
        rw [ActiveRun.On, ActiveRun.lane, hid, hconn, haccepted, hconns]
        exact h.lane _ hrun
      · obtain rfl := Option.some.inj (hrun'.symm.trans hr)
        exact hpending
  | @accept r r' hrun hrun' hid hlane hpending hnext hundelivered hrequests haccepts hended hgone =>
      refine ⟨fun r₂ hr₂ _ => ?_, fun a ha => ?_, hrequests ▸ h.requests,
        hundelivered ▸ h.undelivered, fun r hr => ?_, fun r hr => ?_⟩
      · rw [← Option.some.inj (hrun'.symm.trans hr₂), hid, haccepts]
        exact List.mem_append_right _ (List.mem_singleton_self _)
      · rw [haccepts] at ha
        rcases List.mem_append.mp ha with ha | ha
        · exact h.accepts a ha
        · rw [List.mem_singleton.mp ha]
      · obtain rfl := Option.some.inj (hrun'.symm.trans hr)
        exact hlane
      · obtain rfl := Option.some.inj (hrun'.symm.trans hr)
        exact hpending
  | tell hrun hq hcloses hown hs' =>
      subst hs'
      refine ⟨h.accepted, h.accepts, fun q hmem => ?_, h.undelivered, h.lane, h.pending⟩
      rcases List.mem_append.mp hmem with hmem | hmem
      · exact h.requests q hmem
      · rw [List.mem_singleton.mp hmem]
        exact hown
  | @finish r q hrun hrun' hq hcloses hown hnext haccepts hended hclosure =>
      have hone : ∀ {l : List Request}, (∀ q ∈ l, q.Own) → ∀ q' ∈ l ++ [q], q'.Own := by
        intro l hl q' hmem
        rcases List.mem_append.mp hmem with hmem | hmem
        · exact hl q' hmem
        · rw [List.mem_singleton.mp hmem]
          exact hown
      have hnone : ∀ r', s'.run ≠ some r' := by
        intro r' hr'
        rw [hrun'] at hr'
        cases hr'
      refine ⟨fun r hr => absurd hr (hnone r), haccepts ▸ h.accepts, ?_, ?_,
        fun r hr => absurd hr (hnone r), fun r hr => absurd hr (hnone r)⟩
      · rcases hclosure with ⟨-, -, hreq, -⟩ | ⟨-, hreq, -⟩ | ⟨-, hreq, -⟩
        · exact hreq ▸ hone h.requests
        · exact hreq ▸ h.requests
        · exact hreq ▸ h.requests
      · rcases hclosure with ⟨-, hund, -⟩ | ⟨hund, -⟩ | ⟨hund, -⟩
        · exact hund ▸ fun q hq => absurd hq List.not_mem_nil
        · exact hund ▸ hone h.undelivered
        · exact hund ▸ h.undelivered
  | stop hrun hs' =>
      subst hs'
      refine ⟨fun r hr => ?_, h.accepts, h.requests, h.undelivered, fun r hr => ?_, fun r hr => ?_⟩
      · cases hr
      · cases hr
      · cases hr
  | start hrun hrun' hid haccepted hlane hpending hnext hundelivered hrequests haccepts hended hgone =>
      refine ⟨fun r hr hacc => ?_, haccepts ▸ h.accepts, hrequests ▸ h.requests,
        hundelivered ▸ h.undelivered, fun r hr => ?_, fun r hr => ?_⟩
      · rw [← Option.some.inj (hrun'.symm.trans hr), haccepted] at hacc
        cases hacc
      · obtain rfl := Option.some.inj (hrun'.symm.trans hr)
        exact hlane
      · obtain rfl := Option.some.inj (hrun'.symm.trans hr)
        exact hpending
  | flush hwaits hs' =>
      subst hs'
      have hund := h.undelivered
      rw [hwaits] at hund
      refine ⟨h.accepted, h.accepts, fun q hmem => ?_, fun q hmem => hund q (List.mem_cons_of_mem _ hmem),
        h.lane, h.pending⟩
      rcases List.mem_append.mp hmem with hmem | hmem
      · exact h.requests q hmem
      · rw [List.mem_singleton.mp hmem]
        exact hund _ List.mem_cons_self

theorem Attributed.chain {s s' : Actor} (h : s.Attributed) (hc : Chain s s') : s'.Attributed := by
  induction hc with
  | refl => exact h
  | tail _ hc ih => exact ih.change hc

/-! ### Handlers as chains of changes -/

section

variable {s s' : Actor} {r : ActiveRun} {q : Request}

/-- The accounts stay the same and one connection keeps its lane. -/
theorem Change.conn (hrun : s'.run = s.run) (hbooks : SameBooks s s') {c : ConnId} {k : Conn}
    (hconns : s'.conns = Function.update s.conns c k)
    (hk : ∀ r, s.run = some r → r.conn = c → r.On (s.conns c) → r.On k) :
    Change s s' := by
  refine .frames hrun hbooks fun r hr hlane => ?_
  rw [hconns]
  by_cases hc : r.conn = c
  · rw [hc, Function.update_self]
    exact hk r hr hc (hc ▸ hlane)
  · rw [Function.update_of_ne hc]
    exact hlane

/-- Nothing but fields no lane and no account is about. -/
theorem Change.aside (hrun : s'.run = s.run) (hbooks : SameBooks s s')
    (hconns : s'.conns = s.conns) : Change s s' :=
  .frames hrun hbooks fun _ _ hlane => hconns ▸ hlane

theorem change_close (s : Actor) (c : ConnId) : Change s (s.close c) :=
  .conn rfl ⟨rfl, rfl, rfl, rfl, rfl, id⟩ rfl fun _ _ _ h => h.close

theorem change_send (s : Actor) (c : ConnId) {f : Frame} (hf : f.isStart = false) :
    Change s (s.send c f).1 :=
  .conn rfl ⟨rfl, rfl, rfl, rfl, rfl, id⟩ rfl fun _ _ _ h => h.send hf

theorem chain_sendAll (s : Actor) (c : ConnId) {frames : List Frame} (h : NoStart frames) :
    Chain s (s.sendAll c frames) := by
  induction frames generalizing s with
  | nil => exact .refl
  | cons f rest ih =>
      have hsend := change_send s c (h f List.mem_cons_self)
      unfold sendAll
      dsimp only
      by_cases hqueued : (s.send c f).2 = true
      · rw [if_pos hqueued]
        exact (Chain.single hsend).trans (ih _ fun g hg => h g (List.mem_cons_of_mem f hg))
      · rw [if_neg hqueued]
        exact .single hsend

/-- An event of the run in progress. -/
theorem chain_deliver (hrun : s.run = some r) (hq : q.run = r.id) (hcloses : q.closes = false)
    (hown : q.Own) (room : Room) (source : Option ConnId) : Chain s (s.deliver room q source) := by
  unfold deliver
  cases room with
  | free => exact .single (.tell hrun hq hcloses hown rfl)
  | full =>
      cases source with
      | none => exact .refl
      | some c => exact .single (change_close s c)
  | gone => exact .single (.aside rfl ⟨rfl, rfl, rfl, rfl, rfl, fun _ => rfl⟩ rfl)

/-- The closure of the run in progress. -/
theorem change_closure (s₁ : Actor) (hrun : s.run = some r) (hrun₁ : s₁.run = none) (hq : q.run = r.id)
    (hcloses : q.closes = true) (hown : q.Own) (hnext : s₁.nextRun = s.nextRun)
    (hundelivered : s₁.undelivered = s.undelivered) (hrequests : s₁.requests = s.requests)
    (haccepts : s₁.accepts = s.accepts) (hended : s₁.ended = s.ended)
    (hgone : s₁.runtimeGone = s.runtimeGone) (room : Room) :
    Change s (s₁.deliverClosure room q) := by
  unfold deliverClosure
  by_cases hwaits : s₁.undelivered ≠ []
  · rw [if_pos hwaits]
    exact .finish hrun hrun₁ hq hcloses hown hnext haccepts hended
      (.inr (.inl ⟨congrArg (· ++ [q]) hundelivered, hrequests, hgone⟩))
  · rw [if_neg hwaits]
    have hnil := not_not.mp hwaits
    cases room with
    | free =>
        exact .finish hrun hrun₁ hq hcloses hown hnext haccepts hended
          (.inl ⟨hundelivered.symm.trans hnil, hnil, congrArg (· ++ [q]) hrequests, hgone⟩)
    | full =>
        exact .finish hrun hrun₁ hq hcloses hown hnext haccepts hended
          (.inr (.inl ⟨congrArg (· ++ [q]) hundelivered, hrequests, hgone⟩))
    | gone =>
        exact .finish hrun hrun₁ hq hcloses hown hnext haccepts hended
          (.inr (.inr ⟨hundelivered, hrequests, rfl⟩))

/-- Losing the run on a connection, of which nothing else need be known any more. -/
theorem chain_loseRunOn (s t : Actor) (hrun : t.run = s.run) (hnext : t.nextRun = s.nextRun)
    (hundelivered : t.undelivered = s.undelivered) (hrequests : t.requests = s.requests)
    (haccepts : t.accepts = s.accepts) (hended : t.ended = s.ended)
    (hgone : t.runtimeGone = s.runtimeGone) {c : ConnId}
    (hconns : ∀ d, d ≠ c → t.conns d = s.conns d) (room : Room) :
    Chain s (t.loseRunOn room c) := by
  have hbooks : SameBooks s t :=
    ⟨hnext, hundelivered, hrequests, haccepts, hended, fun h => hgone.trans h⟩
  unfold loseRunOn
  rw [hrun]
  cases hsome : s.run with
  | none =>
      refine .single (.frames hrun hbooks fun r hr => ?_)
      rw [hsome] at hr
      cases hr
  | some r =>
      dsimp only
      by_cases hc : r.conn = c
      · rw [if_pos hc]
        have hclosure : Change s
            ({ t with run := none }.deliverClosure room ⟨r.id, .closed .lost, none⟩) :=
          change_closure (q := ⟨r.id, .closed .lost, none⟩) { t with run := none } hsome rfl rfl rfl
            (.inr (.inl rfl)) hnext hundelivered hrequests haccepts hended hgone room
        exact .single hclosure
      · rw [if_neg hc]
        refine .single (.frames hrun hbooks fun r' hr' hlane => ?_)
        obtain rfl := Option.some.inj (hsome.symm.trans hr')
        rw [hconns r.conn hc]
        exact hlane

/-- Forgetting a spoken reply leaves the run and the accounts as they are. -/
theorem forgetResponse_same (s : Actor) (run : RunId) :
    (s.forgetResponse run).run = s.run ∧ (s.forgetResponse run).nextRun = s.nextRun ∧
      (s.forgetResponse run).undelivered = s.undelivered ∧
      (s.forgetResponse run).requests = s.requests ∧
      (s.forgetResponse run).accepts = s.accepts ∧
      (s.forgetResponse run).ended = s.ended ∧
      (s.forgetResponse run).runtimeGone = s.runtimeGone := by
  unfold forgetResponse
  split_ifs
  all_goals exact ⟨rfl, rfl, rfl, rfl, rfl, rfl, rfl⟩

theorem chain_forgetResponse (s : Actor) (run : RunId) : Chain s (s.forgetResponse run) := by
  unfold forgetResponse
  by_cases howner : s.responseOwner.any (·.1 = run) = true
  · rw [if_pos howner]
    exact .single (.aside rfl ⟨rfl, rfl, rfl, rfl, rfl, id⟩ rfl)
  · rw [if_neg howner]

/-- A connection that has ended is forgotten. -/
theorem chain_forgetConnection (s : Actor) (room : Room) (c : ConnId) (k : Conn) :
    Chain s ({ s with conns := Function.update s.conns c k }.forgetConnection room c) := by
  unfold forgetConnection
  dsimp only
  have hlost : ∀ owner, Chain s
      ({ s with conns := Function.update s.conns c k, subscriber := owner }.loseRunOn room c) :=
    fun owner => chain_loseRunOn s
      { s with conns := Function.update s.conns c k, subscriber := owner } rfl rfl rfl rfl rfl rfl rfl
      (fun d hd => Function.update_of_ne hd _ _) room
  have hforget : ∀ t : Actor, Chain t
      (if t.responseOwner.any (·.2 = c) then { t with responseOwner := none } else t) := by
    intro t
    split_ifs
    · exact .single (.aside rfl ⟨rfl, rfl, rfl, rfl, rfl, id⟩ rfl)
    · exact .refl
  refine Relation.ReflTransGen.trans ?_ (hforget _)
  by_cases hc : s.subscriber = some c
  · rw [if_pos hc]
    exact hlost none
  · rw [if_neg hc]
    exact hlost s.subscriber

theorem chain_onVoiceSubscription (s : Actor) (room : Room) (c : ConnId) (subscribe : Bool) :
    Chain s (s.onVoiceSubscription room c subscribe) := by
  have hlost : ∀ owner d, Chain s ({ s with subscriber := owner }.loseRunOn room d) :=
    fun owner d => chain_loseRunOn s { s with subscriber := owner } rfl rfl rfl rfl rfl rfl rfl
      (fun _ _ => rfl) room
  unfold onVoiceSubscription
  cases subscribe with
  | true =>
      rw [if_pos rfl]
      split
      · split_ifs
        · exact (hlost s.subscriber _).trans (.single (.aside rfl ⟨rfl, rfl, rfl, rfl, rfl, id⟩ rfl))
        · exact .single (.aside rfl ⟨rfl, rfl, rfl, rfl, rfl, id⟩ rfl)
      · exact .single (.aside rfl ⟨rfl, rfl, rfl, rfl, rfl, id⟩ rfl)
  | false =>
      rw [if_neg Bool.false_ne_true]
      by_cases hc : s.subscriber = some c
      · rw [if_pos hc]
        exact hlost none c
      · rw [if_neg hc]

theorem chain_abortRun (s : Actor) (run : RunId) : Chain s (s.abortRun run) := by
  unfold abortRun
  dsimp only
  refine Relation.ReflTransGen.trans ?_ (chain_forgetResponse _ run)
  cases hrun : s.run with
  | none => exact .refl
  | some r =>
      dsimp only
      by_cases hid : r.id = run
      · rw [if_pos hid]
        have hstop : Change s { s with run := none, ended := s.ended ++ [r.id] } := .stop hrun rfl
        exact (Chain.single hstop).trans (.single (change_send _ r.conn rfl))
      · rw [if_neg hid]

theorem chain_finishRunResponse (s : Actor) (run : RunId) (success : Bool) :
    Chain s (s.finishRunResponse run success) := by
  unfold finishRunResponse
  cases s.responseOwner with
  | none => exact .refl
  | some owner =>
      dsimp only
      by_cases hid : owner.1 = run
      · rw [if_pos hid]
        have haside : Change s { s with responseOwner := none } :=
          .aside rfl ⟨rfl, rfl, rfl, rfl, rfl, id⟩ rfl
        exact (Chain.single haside).trans (.single (change_send _ owner.2 rfl))
      · rw [if_neg hid]

theorem chain_flush (s : Actor) (room : Room) : Chain s (s.flush room) := by
  unfold flush
  cases hwaits : s.undelivered with
  | nil => exact .refl
  | cons q rest =>
      cases room with
      | free => exact .single (.flush hwaits rfl)
      | full => exact .refl
      | gone => exact .single (.aside rfl ⟨rfl, hwaits.symm, rfl, rfl, rfl, fun _ => rfl⟩ rfl)

/-- Audio of the run in progress waits, goes out, or ends the run. -/
theorem chain_emitRunAudio (h : s.Attributed) (hrun : s.run = some r) (r' : ActiveRun)
    (hid : r'.id = r.id) (hconn : r'.conn = r.conn) (haccepted : r'.accepted = r.accepted)
    (hpending : r'.pending = r.pending) {frames : List Frame} (hframes : NoStart frames)
    (room : Room) : Chain s (s.emitRunAudio room r' frames) := by
  have hold : NoStart r'.pending := hpending ▸ h.pending r hrun
  unfold emitRunAudio
  by_cases hacc : r'.accepted = true
  · rw [if_pos hacc]
    have hwork : Change s { s with run := some r' } :=
      .work hrun rfl hid hconn haccepted hold ⟨rfl, rfl, rfl, rfl, rfl, id⟩ rfl
    exact (Chain.single hwork).trans (chain_sendAll _ r'.conn hframes)
  · rw [if_neg hacc]
    dsimp only
    split_ifs with hbacklog
    · obtain ⟨hf₁, hf₂, hf₃, hf₄, hf₅, hf₆, hf₇⟩ :=
        forgetResponse_same ({ s with run := none }.send r'.conn .stop).1 r'.id
      have hclosure := change_closure (q := ⟨r'.id, .closed .audioBacklog, none⟩)
        (({ s with run := none }.send r'.conn .stop).1.forgetResponse r'.id) hrun hf₁ hid rfl
        (.inr (.inr rfl)) hf₂ hf₃ hf₄ hf₅ hf₆ hf₇ room
      exact .single hclosure
    · refine .single (.work hrun rfl hid hconn haccepted ?_ ⟨rfl, rfl, rfl, rfl, rfl, id⟩ rfl)
      exact hold.append hframes

theorem chain_runAudio (h : s.Attributed) (room : Room) (run : RunId) (bytes : ℕ) :
    Chain s (s.runAudio room run bytes) := by
  unfold runAudio
  cases hrun : s.run with
  | none => exact .refl
  | some r =>
      dsimp only
      by_cases hid : r.id = run ∧ r.audioEnded = false
      · rw [if_pos hid]
        refine chain_emitRunAudio h hrun
          { r with remainder := (r.remainder + bytes) % runAudioChunkBytes } rfl rfl rfl rfl
          (fun f hf => ?_) room
        rw [List.eq_of_mem_replicate hf]
        rfl
      · rw [if_neg hid]

theorem chain_endRunAudio (h : s.Attributed) (room : Room) (run : RunId) :
    Chain s (s.endRunAudio room run) := by
  unfold endRunAudio
  cases hrun : s.run with
  | none => exact .refl
  | some r =>
      dsimp only
      by_cases hid : r.id = run ∧ r.audioEnded = false
      · rw [if_pos hid]
        refine chain_emitRunAudio h hrun { r with audioEnded := true, remainder := 0 } rfl rfl rfl rfl
          (fun f hf => ?_) room
        rcases List.mem_append.mp hf with hf | hf
        · split_ifs at hf
          · exact absurd hf List.not_mem_nil
          · rw [List.mem_singleton.mp hf]
            rfl
        · rw [List.mem_singleton.mp hf]
          rfl
      · rw [if_neg hid]

/-! ### Messages -/

/-- The next message of a connection is gone. -/
def pop (s : Actor) (c : ConnId) (rest : List Message) : Actor :=
  { s with conns := Function.update s.conns c { s.conns c with outbox := rest } }

theorem SameBooks.pop (s : Actor) (c : ConnId) (rest : List Message) : SameBooks s (s.pop c rest) :=
  ⟨rfl, rfl, rfl, rfl, rfl, id⟩

/-- A message that arrives does no harm, unless it answers the run in progress and is not heard. -/
theorem change_pop {c : ConnId} {m : Message} {rest : List Message}
    (hout : (s.conns c).outbox = m :: rest)
    (hm : m.isAnswer = true → s.isOpen c = true → ∀ r, s.run = some r → r.conn = c →
      r.accepted = true) :
    Change s (s.pop c rest) := by
  refine .conn rfl (.pop s c rest) rfl fun r hr hc hon => ⟨hon.1, fun hopen => ?_⟩
  have hlane := hon.2 hopen
  cases m with
  | answer run error =>
      have hacc : r.accepted = true := by
        refine hm rfl ?_ r hr hc
        rw [isOpen, Conn.isOpen, hon.1]
        exact congrArg not hopen
      rw [ActiveRun.lane, if_pos hacc] at hlane
      exact (hlane.no_answer hout).elim
  | event run e =>
      by_cases hacc : r.accepted = true
      · rw [ActiveRun.lane, if_pos hacc] at hlane ⊢
        exact (hlane.event hout).2
      · rw [ActiveRun.lane, if_neg hacc] at hlane ⊢
        exact hlane.early hout

/-- A connection that is heard is known and not closing. -/
theorem open_iff {c : ConnId} :
    s.isOpen c = true ↔ (s.conns c).known = true ∧ (s.conns c).closing = false := by
  rw [isOpen, Conn.isOpen, Bool.and_eq_true, Bool.not_eq_true']

/-- The answer to the run in progress. -/
theorem chain_answer (h : s.Attributed) {c : ConnId} (hopen : s.isOpen c = true)
    (hrun : s.run = some r) (hc : r.conn = c) (hacc : r.accepted = false) {origin : RunId}
    {error : Bool} {rest : List Message} (hout : (s.conns c).outbox = .answer origin error :: rest)
    (room : Room) : Chain s ((s.pop c rest).onRunResponse room c origin error) := by
  obtain ⟨hknown, hclosing⟩ := open_iff.mp hopen
  have hlane := (h.lane r hrun).2 (hc ▸ hclosing)
  rw [ActiveRun.lane, hacc, if_neg Bool.false_ne_true, hc] at hlane
  obtain ⟨rfl, hsettled⟩ := hlane.answered hout
  have hown : ∀ e, (⟨r.id, e, some r.id⟩ : Request).Own := fun _ => .inl rfl
  have hpop : (s.pop c rest).run = some r := hrun
  unfold onRunResponse
  rw [hpop]
  dsimp only
  rw [if_pos ⟨hc, hacc⟩]
  cases error with
  | true =>
      rw [if_pos rfl]
      obtain ⟨hf₁, hf₂, hf₃, hf₄, hf₅, hf₆, hf₇⟩ :=
        forgetResponse_same { s.pop c rest with run := none } r.id
      have hclosure := change_closure (q := ⟨r.id, .closed .refused, some r.id⟩)
        ({ s.pop c rest with run := none }.forgetResponse r.id) hrun hf₁ rfl rfl (hown _) hf₂ hf₃
        hf₄ hf₅ hf₆ hf₇ room
      exact .single hclosure
  | false =>
      rw [if_neg Bool.false_ne_true]
      have haccept : Change s { s.pop c rest with
          run := some { r with accepted := true, pending := [], pendingBytes := 0 }
          accepts := s.accepts ++ [(r.id, r.id)] } := by
        refine .accept hrun rfl rfl ?_ (fun f hf => absurd hf List.not_mem_nil) rfl rfl rfl rfl rfl rfl
        dsimp only [pop]
        rw [hc, Function.update_self]
        exact ⟨hknown, fun _ => hsettled⟩
      refine ((Chain.single haccept).trans ?_).trans (chain_sendAll _ c (h.pending r hrun))
      exact chain_deliver (r := { r with accepted := true, pending := [], pendingBytes := 0 })
        (q := ⟨r.id, .accepted, some r.id⟩) rfl rfl rfl (hown _) room (some c)

/-- An event of the run in progress. -/
theorem chain_event (h : s.Attributed) {c : ConnId} (hopen : s.isOpen c = true)
    (hrun : s.run = some r) (hc : r.conn = c) (hacc : r.accepted = true) {origin : RunId}
    {e : VoiceAssistantEvent} {rest : List Message}
    (hout : (s.conns c).outbox = .event origin e :: rest) (room : Room) :
    Chain s ((s.pop c rest).onRunEvent room c origin e) := by
  have hlane := (h.lane r hrun).2 (hc ▸ (open_iff.mp hopen).2)
  rw [ActiveRun.lane, if_pos hacc, hc] at hlane
  obtain ⟨rfl, -⟩ := hlane.event hout
  have hown : (⟨r.id, runEvent e, some r.id⟩ : Request).Own := .inl rfl
  have hpop : Change s (s.pop c rest) := change_pop hout fun hanswer => by cases hanswer
  have hrun' : (s.pop c rest).run = some r := hrun
  unfold onRunEvent
  rw [hrun']
  dsimp only
  rw [if_pos ⟨hc, hacc⟩]
  by_cases hend : runEvent e = .closed .finished
  · rw [if_pos hend, hend]
    have hclosure := change_closure (q := ⟨r.id, .closed .finished, some r.id⟩)
      { s.pop c rest with run := none } hrun rfl rfl rfl (hend ▸ hown) rfl rfl rfl rfl rfl rfl room
    exact .single hclosure
  · rw [if_neg hend]
    have hcloses : (⟨r.id, runEvent e, some r.id⟩ : Request).closes = false := by
      cases e <;> first | rfl | exact absurd rfl hend
    have hdeliver : (s.pop c rest).deliverRun room ⟨r.id, runEvent e, some r.id⟩ (some c) =
        (s.pop c rest).deliver room ⟨r.id, runEvent e, some r.id⟩ (some c) := by
      cases e <;> first | rfl | exact absurd rfl hend
    rw [hdeliver]
    exact (Chain.single hpop).trans (chain_deliver hrun' rfl hcloses hown room (some c))

theorem chain_onMessage (h : s.Attributed) (room : Room) (c : ConnId) :
    Chain s (s.onMessage room c) := by
  unfold onMessage
  cases hout : (s.conns c).outbox with
  | nil => exact .refl
  | cons m rest =>
      have hheard : (s.pop c rest).isOpen c = s.isOpen c := by
        unfold isOpen pop
        dsimp only
        rw [Function.update_self]
        rfl
      by_cases hopen : s.isOpen c = true
      · have hopen' := hheard.trans hopen
        cases m with
        | answer run error =>
            change Chain s (if (s.pop c rest).isOpen c then (s.pop c rest).onRunResponse room c run error
              else s.pop c rest)
            rw [if_pos hopen']
            by_cases hanswers : ∃ r, s.run = some r ∧ r.conn = c ∧ r.accepted = false
            · obtain ⟨r, hrun, hc, hacc⟩ := hanswers
              exact chain_answer h hopen hrun hc hacc hout room
            · have hpop : Change s (s.pop c rest) := by
                refine change_pop hout fun _ _ r hrun hc => ?_
                by_contra hacc
                exact hanswers ⟨r, hrun, hc, (Bool.not_eq_true _).mp hacc⟩
              have hsame : (s.pop c rest).onRunResponse room c run error = s.pop c rest := by
                unfold onRunResponse
                split
                · exact if_neg fun hr => hanswers ⟨_, ‹_›, hr⟩
                · rfl
              rw [hsame]
              exact .single hpop
        | event run e =>
            change Chain s (if (s.pop c rest).isOpen c then (s.pop c rest).onRunEvent room c run e
              else s.pop c rest)
            rw [if_pos hopen']
            by_cases hheld : ∃ r, s.run = some r ∧ r.conn = c ∧ r.accepted = true
            · obtain ⟨r, hrun, hc, hacc⟩ := hheld
              exact chain_event h hopen hrun hc hacc hout room
            · have hsame : (s.pop c rest).onRunEvent room c run e = s.pop c rest := by
                unfold onRunEvent
                split
                · exact if_neg fun hr => hheld ⟨_, ‹_›, hr⟩
                · rfl
              rw [hsame]
              exact .single (change_pop hout fun hanswer => by cases hanswer)
      · have hpop : Chain s (s.pop c rest) :=
          .single (change_pop hout fun _ hheard => absurd hheard hopen)
        change Chain s (if (s.pop c rest).isOpen c then _ else s.pop c rest)
        rw [hheard, if_neg hopen]
        exact hpop

/-! ### Steps -/

/-- The step starts a run on a connection that still waits for an answer. -/
def crosses (s : Actor) (i : Room × Step) : Bool :=
  match i.2, s.subscriber with
  | .startRun fits, some c => fits && s.isOpen c && (s.conns c).unanswered
  | _, _ => false

theorem chain_stopped (s : Actor) : Chain s s.stopped := by
  unfold stopped
  cases hrun : s.run with
  | none => exact .refl
  | some r =>
      have hstop : Change s { s with run := none, ended := s.ended ++ [r.id] } := .stop hrun rfl
      dsimp only
      split_ifs
      · exact (Chain.single hstop).trans (.single (change_send _ r.conn rfl))
      · exact .single hstop

theorem stopped_run (s : Actor) : s.stopped.run = none := by
  unfold stopped
  cases hrun : s.run with
  | none => exact hrun
  | some r =>
      dsimp only
      split_ifs
      all_goals rfl

/-- A stop leaves an answered connection answered. -/
theorem send_unanswered {k : Conn} {f : Frame} (h : k.unanswered = false) (hf : f.isStart = false) :
    (k.send f).1.unanswered = false := by
  unfold Conn.send
  split_ifs
  · unfold Conn.unanswered Conn.frames at h ⊢
    dsimp only [Conn.answering] at h ⊢
    rw [← List.append_assoc, List.any_append, List.any_cons, hf, List.any_nil, Bool.or_false,
      Bool.or_false]
    exact h
  · unfold Conn.close
    split_ifs
    all_goals exact h
  · exact h

/-- Stopping a run leaves an answered connection answered. -/
theorem stopped_unanswered {c : ConnId} (h : (s.conns c).unanswered = false) :
    (s.stopped.conns c).unanswered = false := by
  unfold stopped
  cases s.run with
  | none => exact h
  | some r =>
      dsimp only
      split_ifs
      · unfold send
        dsimp only
        by_cases hc : c = r.conn
        · rw [← hc, Function.update_self]
          exact send_unanswered h rfl
        · rw [Function.update_of_ne hc]
          exact h
      · exact h

/-- A frame that is queued is the last on a connection the node knows. -/
theorem send_queued {k : Conn} {f : Frame} (h : (k.send f).2 = true) :
    k.known = true ∧ (k.send f).1 = { k with out := k.out ++ [f] } := by
  unfold Conn.send at h ⊢
  by_cases hopen : k.isOpen = true
  · rw [if_pos hopen] at h ⊢
    unfold Conn.isOpen at hopen
    rw [Bool.and_eq_true] at hopen
    by_cases hroom : k.out.length < outboundCapacity
    · rw [if_pos hroom]
      exact ⟨hopen.1, rfl⟩
    · rw [if_neg hroom] at h
      cases h
  · rw [if_neg hopen] at h
    cases h

/-- A start on a connection that waits for no answer. -/
theorem chain_started (hrun : s.run = none) {c : ConnId} (h : (s.conns c).unanswered = false) :
    Chain s (s.started c) := by
  unfold started
  dsimp only
  by_cases hqueued : (s.send c (.start s.nextRun)).2 = true
  · rw [if_pos hqueued]
    refine .single (.start hrun rfl rfl rfl ?_ (fun f hf => absurd hf List.not_mem_nil) rfl rfl rfl rfl
      rfl rfl)
    dsimp only [send]
    rw [Function.update_self]
    obtain ⟨hknown, hpushed⟩ := send_queued hqueued
    rw [hpushed]
    exact ⟨hknown, fun _ => Lane.holds_start h s.nextRun⟩
  · rw [if_neg hqueued]
    refine .single (.frames rfl ⟨rfl, rfl, rfl, rfl, rfl, id⟩ fun r hr => ?_)
    rw [hrun] at hr
    cases hr

theorem chain_startRun (s : Actor) (room : Room) (fits : Bool)
    (hclear : s.crosses (room, .startRun fits) = false) : Chain s (s.startRun fits) := by
  unfold startRun
  unfold crosses at hclear
  cases hsub : s.subscriber with
  | none => exact .refl
  | some c =>
      rw [hsub] at hclear
      dsimp only at hclear ⊢
      by_cases hskip : s.isOpen c = false ∨ fits = false
      · rw [if_pos hskip]
      · rw [if_neg hskip]
        rw [not_or, Bool.not_eq_false, Bool.not_eq_false] at hskip
        rw [hskip.1, hskip.2, Bool.true_and, Bool.true_and] at hclear
        exact (chain_stopped s).trans (chain_started (stopped_run s) (stopped_unanswered hclear))

/-- What the actor does in a step. -/
theorem chain_act (h : s.Attributed) (room : Room) (a : Step)
    (hclear : s.crosses (room, a) = false) : Chain s (s.act room a) := by
  cases a with
  | startRun fits => exact chain_startRun s room fits hclear
  | runAudio run bytes => exact chain_runAudio h room run bytes
  | endRunAudio run => exact chain_endRunAudio h room run
  | abortRun run => exact chain_abortRun s run
  | finishRunResponse run success => exact chain_finishRunResponse s run success
  | other c => exact .single (change_send s c rfl)
  | flush => exact chain_flush s room
  | message c => exact chain_onMessage h room c
  | subscription c subscribe =>
      change Chain s (if s.isOpen c then s.onVoiceSubscription room c subscribe else s)
      split_ifs
      · exact chain_onVoiceSubscription s room c subscribe
      · exact .refl
  | close c => exact .single (change_close s c)
  | closed c =>
      change Chain s (if (s.conns c).known then _ else s)
      split_ifs
      · exact chain_forgetConnection s room c { s.conns c with known := false }
      · exact .refl
  | connected =>
      refine .single (.conn rfl ⟨rfl, rfl, rfl, rfl, rfl, id⟩ rfl fun r hr hc hon => ?_)
      exact hon.kept hon.1.symm (fun hclosing => hclosing) fun hlane => hlane.same rfl rfl rfl
  | write c => exact .refl
  | home c step => exact .refl

/-- A step that starts no run on a connection that waits for an answer. -/
theorem chain_step (h : s.Attributed) (i : Room × Step) (hclear : s.crosses i = false) :
    Chain s (s.step i) := by
  obtain ⟨room, a⟩ := i
  have hact : Chain s (if s.runtimeGone then s else s.act room a) := by
    split_ifs
    · exact .refl
    · exact chain_act h room a hclear
  cases a with
  | write c =>
      exact .single (.conn rfl ⟨rfl, rfl, rfl, rfl, rfl, id⟩ rfl fun r hr hc hon => hon.write)
  | home c step =>
      exact .single (.conn rfl ⟨rfl, rfl, rfl, rfl, rfl, id⟩ rfl fun r hr hc hon => hon.home step)
  | _ => exact hact

end

end Actor

end EchoMuse.Satellite
