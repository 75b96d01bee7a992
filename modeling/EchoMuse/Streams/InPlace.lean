import EchoMuse.Calls
import EchoMuse.Streams.Registry

/-!
# Registry Calls in Place

The registry of `protocol/src/streams.rs` is changed in place. This module writes its fallible
calls as the assignments the source makes, in their order, and connects each to the pure
operation of the same name.

## Main results

* `open_settles`, `end_settles`, `check_settles`: every call answers as its operation does, and
  leaves the registry as it was when it fails.
-/

namespace EchoMuse.Streams

open EchoMuse.Ema EchoMuse.Calls

namespace StreamRegistry

/-- A call on the registry. -/
abbrev RegistryCall (α : Type) := Call StreamRegistry ProtocolError α

/-- The state of an epoch changed in place. -/
def amend (stream : StreamId) (epoch : UInt64) (f : EpochState → EpochState) :
    RegistryCall PUnit :=
  modify fun r => r.set stream epoch ((r.epochs stream epoch).map f)

/-- `StreamRegistry::open`. -/
def openCall (o : StreamOpen) : RegistryCall PUnit := do
  let r ← get
  if o.streamId = .afe ∧ ¬ r.afeMetadata then
    throw ⟨.badStream, "afe stream in a session without afe_metadata"⟩
  match r.epochs o.streamId o.epoch with
  | some state =>
    if state.ended then throw ⟨.badStream, s!"{o.streamId} epoch {o.epoch} already ended"⟩
  | none => modify fun r => r.set o.streamId o.epoch (some .opened)
  modify fun r =>
    { r with current := fun s => if s = o.streamId then some o.epoch else r.current s }

/-- `StreamRegistry::end`. -/
def endCall (e : StreamEnd) : RegistryCall PUnit := do
  match (← get).epochs e.streamId e.epoch with
  | none => throw ⟨.unknownEpoch, s!"stream.end for unknown {e.streamId} epoch {e.epoch}"⟩
  | some state =>
    if state.ended then return
    amend e.streamId e.epoch fun state => { state with ended := true }
    amend e.streamId e.epoch fun state => { state with runs := [] }
    amend e.streamId e.epoch fun state => { state with grants := 0 }
    modify fun r =>
      { r with
        current := fun s =>
          if s = e.streamId ∧ r.current s = some e.epoch then none else r.current s }
    modify fun r => { r with ended := r.ended ++ [(e.streamId, e.epoch)] }
    let r ← get
    match r.ended with
    | oldest :: rest =>
      if r.ended.length > ENDED_EPOCHS_REMEMBERED then
        modify fun r => { r with ended := rest }
        modify fun r => r.set oldest.1 oldest.2 none
    | [] => return

/-- The sample order rule of `StreamRegistry::check`, on the borrowed state of the epoch. -/
def orderCall (stream : StreamId) (packet : Packet) (state : EpochState) :
    RegistryCall PUnit :=
  let epoch := packet.header.epoch
  let first := packet.header.firstSample
  match state.live.filter (first < ·) with
  | some live =>
    match EpochState.continuing first state.runs with
    | some (i, _) =>
      amend stream epoch fun state => { state with runs := state.runs.set i packet.endSample }
    | none =>
      if state.grants > 0 then do
        amend stream epoch fun state => { state with grants := state.grants - 1 }
        amend stream epoch fun state => { state with runs := state.runs ++ [packet.endSample] }
      else
        throw ⟨.sampleOrder,
          s!"{stream} first sample {first} goes back from {live} " ++ "outside a backfill run"⟩
  | none => do
    amend stream epoch fun state => { state with runs := state.runs.filter (· < first) }
    amend stream epoch fun state => { state with live := some first }

/-- `StreamRegistry::check`. -/
def checkCall (packet : Packet) : RegistryCall StreamId := do
  let header := packet.header
  match (← get).streamOf header.kind with
  | none =>
    throw ⟨.unexpectedKind, s!"kind {header.kind.toU8} is not an uplink stream of this session"⟩
  | some stream =>
    let epoch := header.epoch
    match (← get).epochs stream epoch with
    | none => throw ⟨.unknownEpoch, s!"{stream} epoch {epoch} was never opened"⟩
    | some state =>
      if state.ended then throw ⟨.streamEnded, s!"{stream} epoch {epoch} already ended"⟩
      match state.lastSequence.filter (header.sequence ≤ ·) with
      | some last =>
        throw ⟨.sequence, s!"{stream} sequence {header.sequence} after {last}"⟩
      | none =>
        orderCall stream packet state
        amend stream epoch fun state => { state with lastSequence := some header.sequence }
        return stream

/-! ### The calls and the operations -/

@[simp] theorem set_epochs_self (r : StreamRegistry) (stream : StreamId) (epoch : UInt64)
    (state : Option EpochState) : (r.set stream epoch state).epochs stream epoch = state := by
  simp [set]

@[simp] theorem set_set (r : StreamRegistry) (stream : StreamId) (epoch : UInt64)
    (state state' : Option EpochState) :
    (r.set stream epoch state).set stream epoch state' = r.set stream epoch state' := by
  simp only [set, mk.injEq, true_and, and_true]
  funext s e
  split_ifs <;> rfl

@[simp] theorem set_current (r : StreamRegistry) (stream : StreamId) (epoch : UInt64)
    (state : Option EpochState) : (r.set stream epoch state).current = r.current := rfl

@[simp] theorem set_ended (r : StreamRegistry) (stream : StreamId) (epoch : UInt64)
    (state : Option EpochState) : (r.set stream epoch state).ended = r.ended := rfl

@[simp] theorem on_amend (stream : StreamId) (epoch : UInt64) (f : EpochState → EpochState)
    (r : StreamRegistry) : Call.on (amend stream epoch f) r =
      (.ok ⟨⟩, r.set stream epoch ((r.epochs stream epoch).map f)) := rfl

@[simp] theorem on_amend_bind {α : Type} (stream : StreamId) (epoch : UInt64)
    (f : EpochState → EpochState) (c : PUnit → RegistryCall α) (r : StreamRegistry) :
    Call.on (amend stream epoch f >>= c) r =
      (c ⟨⟩).on (r.set stream epoch ((r.epochs stream epoch).map f)) := rfl

/-- Opening an epoch in place. -/
theorem open_settles (r : StreamRegistry) (o : StreamOpen) :
    Settles (openCall o) r ((r.open o).map fun r' => (⟨⟩, r')) := by
  by_cases hafe : o.streamId = .afe ∧ ¬ r.afeMetadata
  · simp [openCall, «open», hafe, Settles, Except.map]
  · cases hs : r.epochs o.streamId o.epoch with
    | none =>
        simp only [openCall, «open», if_neg hafe, hs, Settles, Except.map, on_get_bind,
          on_modify_bind, on_modify]
        rfl
    | some state =>
        cases he : state.ended <;>
          simp only [openCall, «open», if_neg hafe, hs, he, Settles, Except.map, on_get_bind,
            on_modify, on_throw_bind, Bool.false_eq_true, if_true, if_false]

/-- Ending an epoch in place. -/
theorem end_settles (r : StreamRegistry) (e : StreamEnd) :
    Settles (endCall e) r ((r.end e).map fun r' => (⟨⟩, r')) := by
  cases hs : r.epochs e.streamId e.epoch with
  | none =>
      simp only [endCall, «end», hs, Settles, Except.map, on_get_bind, on_throw]
  | some state =>
      cases he : state.ended with
      | true =>
          simp only [endCall, «end», hs, he, Settles, Except.map, on_get_bind, on_pure, if_true]
      | false =>
          rcases hq : r.ended ++ [(e.streamId, e.epoch)] with - | ⟨oldest, rest⟩
          · simp at hq
          · simp only [endCall, «end», hs, he, hq, Settles, Except.map, on_get_bind,
              on_amend_bind, on_modify_bind, set_epochs_self, set_set, set_current, set_ended,
              Option.map_some, Bool.false_eq_true, if_false, on_ite, on_modify, on_pure]
            split_ifs <;> rfl

/-- The sample order rule in place. -/
theorem on_orderCall {r : StreamRegistry} {stream : StreamId} {p : Packet} {s : EpochState}
    (hs : r.epochs stream p.header.epoch = some s) :
    (orderCall stream p s).on r =
      match s.order p.header.firstSample p.endSample with
      | .ok s' => (.ok ⟨⟩, r.set stream p.header.epoch (some s'))
      | .error live =>
        (.error ⟨.sampleOrder,
          s!"{stream} first sample {p.header.firstSample} goes back from {live} " ++
            "outside a backfill run"⟩, r) := by
  rw [orderCall, EpochState.order]
  cases hl : s.live with
  | none =>
      simp only [Option.filter_none, on_amend_bind, on_amend, hs, set_epochs_self, set_set,
        Option.map_some, EpochState.advance]
  | some live =>
      by_cases hlt : p.header.firstSample < live
      · cases hc : EpochState.continuing p.header.firstSample s.runs with
        | some ib =>
            simp only [Option.filter_some, hlt, decide_true, if_true, on_amend, hs, hl,
              Option.map_some]
        | none =>
            by_cases hg : s.grants > 0
            · simp only [Option.filter_some, hlt, hg, decide_true, if_true, on_amend_bind,
                on_amend, hs, hl, set_epochs_self, set_set, Option.map_some]
            · simp only [Option.filter_some, hlt, hg, decide_true, if_true, if_false, on_throw]
      · simp only [Option.filter_some, hlt, decide_false, Bool.false_eq_true, if_false,
          on_amend_bind, on_amend, hs, set_epochs_self, set_set, Option.map_some,
          EpochState.advance]

/-- Checking a packet in place. -/
theorem check_settles (r : StreamRegistry) (p : Packet) :
    Settles (checkCall p) r (r.check p) := by
  cases hst : r.streamOf p.header.kind with
  | none => simp only [checkCall, check, hst, Settles, on_get_bind, on_throw]
  | some stream =>
      cases hs : r.epochs stream p.header.epoch with
      | none => simp only [checkCall, check, hst, hs, Settles, on_get_bind, on_throw]
      | some state =>
          cases he : state.ended with
          | true =>
              simp only [checkCall, check, hst, hs, he, Settles, on_get_bind, on_throw_bind,
                if_true]
          | false =>
              cases hq : state.lastSequence.filter (p.header.sequence ≤ ·) with
              | some last =>
                  simp only [checkCall, check, hst, hs, he, hq, Settles, on_get_bind,
                    on_throw, Bool.false_eq_true, if_false]
              | none =>
                  have horder := on_orderCall hs
                  cases ho : state.order p.header.firstSample p.endSample with
                  | ok state' =>
                      simp only [ho] at horder
                      simp only [checkCall, check, hst, hs, he, hq, ho, Settles, on_bind,
                        on_get, horder, on_amend, on_pure, set_epochs_self, set_set,
                        Option.map_some, Bool.false_eq_true, if_false]
                  | error live =>
                      simp only [ho] at horder
                      simp only [checkCall, check, hst, hs, he, hq, ho, Settles, on_bind,
                        on_get, horder, Bool.false_eq_true, if_false]

end StreamRegistry

end EchoMuse.Streams
