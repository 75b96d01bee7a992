import EchoMuse.Streams.InPlace
import EchoMuse.Streams.Order
import Mathlib.Data.Finset.Card
import Mathlib.Data.Finset.Dedup
import Mathlib.Data.List.DropRight

/-!
# Ended Epochs Are Remembered, Within Bounds

The registry keeps the epochs of a session in three collections: the states, the current epoch
of each stream, and the queue of ended epochs, whose oldest is forgotten when it grows past
`ENDED_EPOCHS_REMEMBERED`. This module follows them through every sequence of calls.

## Main results

* `Consistent.apply`: the collections agree after every call, failing ones included;
* `ended_run`: the queue holds the last epochs that ended;
* `memory_bounded`: both for every run, with the answers an ended epoch gets.
-/

namespace EchoMuse.Streams

open EchoMuse.Ema EchoMuse.Calls

/-! ### The last entries of a list -/

section

variable {α : Type}

/-- The last entries of a list do not depend on those forgotten before. -/
theorem rtake_rtake_append (n : ℕ) (l m : List α) :
    (l.rtake n ++ m).rtake n = (l ++ m).rtake n := by
  simp only [List.rtake_eq_reverse_take_reverse, List.reverse_append, List.reverse_reverse,
    List.take_append, List.length_reverse, List.take_take]
  rw [Nat.min_eq_left (Nat.sub_le n m.length)]

theorem rtake_eq_self {n : ℕ} {l : List α} (h : l.length ≤ n) : l.rtake n = l := by
  rw [List.rtake, Nat.sub_eq_zero_of_le h, List.drop_zero]

theorem rtake_cons {n : ℕ} {x : α} {l : List α} (h : l.length = n) : (x :: l).rtake n = l := by
  have hone : (x :: l).length - n = 1 := by
    rw [List.length_cons]
    omega
  rw [List.rtake, hone, List.drop_one, List.tail_cons]

theorem length_rtake_le (n : ℕ) (l : List α) : (l.rtake n).length ≤ n := by
  rw [List.rtake, List.length_drop]
  omega

theorem mem_of_mem_rtake {n : ℕ} {x : α} {l : List α} (h : x ∈ l.rtake n) : x ∈ l :=
  List.mem_of_mem_drop h

/-- An entry is among the last `n`, when these differ from one another and fewer than `n` others
follow it. -/
theorem mem_rtake_of_card_lt [DecidableEq α] {n : ℕ} {l m : List α} {x : α}
    (hnodup : ((l ++ x :: m).rtake n).Nodup) (hcard : (m.toFinset.erase x).card < n) :
    x ∈ (l ++ x :: m).rtake n := by
  by_contra hx
  have hlong : n ≤ m.length := by
    by_contra hshort
    refine hx ?_
    rw [List.rtake, List.drop_append, List.mem_append]
    refine .inr ?_
    have hzero : (l ++ x :: m).length - n - l.length = 0 := by
      simp only [List.length_append, List.length_cons]
      omega
    rw [hzero, List.drop_zero]
    exact List.mem_cons_self
  -- the last `n` all follow `x`
  have hlast : (l ++ x :: m).rtake n = m.rtake n := by
    have hdrop : (l ++ x :: m).length - n = l.length + (1 + (m.length - n)) := by
      simp only [List.length_append, List.length_cons]
      omega
    rw [List.rtake, hdrop, ← List.drop_drop, List.drop_left, ← List.drop_drop, List.drop_one,
      List.tail_cons, List.rtake]
  rw [hlast] at hnodup hx
  have hlength : (m.rtake n).length = n := by
    rw [List.rtake, List.length_drop]
    omega
  have hsub : (m.rtake n).toFinset ⊆ m.toFinset.erase x := by
    intro y hy
    rw [List.mem_toFinset] at hy
    refine Finset.mem_erase.mpr ⟨?_, List.mem_toFinset.mpr (mem_of_mem_rtake hy)⟩
    rintro rfl
    exact hx hy
  have hle := Finset.card_le_card hsub
  rw [List.toFinset_card_of_nodup hnodup, hlength] at hle
  omega

end

/-! ### Runs of the registry -/

/-- A call of the session on its registry. -/
inductive Op
  | open (o : StreamOpen)
  | end (e : StreamEnd)
  | grantBackfill (stream : StreamId) (grant : BackfillGrant)
  | check (packet : Packet)
  | clear

namespace StreamRegistry

/-- The call of an operation, without the stream a packet is answered with. -/
def call : Op → RegistryCall PUnit
  | .open o => openCall o
  | .end e => endCall e
  | .grantBackfill stream grant => modify fun r => r.grantBackfill stream grant
  | .check packet => do
    let _ ← checkCall packet
    return
  | .clear => modify StreamRegistry.clear

/-- The registry after an operation, whether it failed or not. -/
def apply (r : StreamRegistry) (op : Op) : StreamRegistry := ((call op).on r).2

/-- The registry after a run. -/
def run (r : StreamRegistry) (ops : List Op) : StreamRegistry := ops.foldl apply r

/-- The operations as pure ones. -/
def next (r : StreamRegistry) : Op → Except ProtocolError StreamRegistry
  | .open o => r.open o
  | .end e => r.end e
  | .grantBackfill stream grant => .ok (r.grantBackfill stream grant)
  | .check packet => (r.check packet).map Prod.snd
  | .clear => .ok r.clear

theorem call_settles (r : StreamRegistry) (op : Op) :
    Settles (call op) r ((r.next op).map fun r' => (⟨⟩, r')) := by
  cases op with
  | «open» o => exact open_settles r o
  | «end» e => exact end_settles r e
  | grantBackfill stream grant => rfl
  | check packet =>
      have h := check_settles r packet
      simp only [call, next]
      cases hc : r.check packet with
      | ok a =>
          have hon : (checkCall packet).on r = (.ok a.1, a.2) := by rwa [hc] at h
          simp only [Except.map, Settles, on_bind, hon, on_pure]
      | error e =>
          have hon : (checkCall packet).on r = (.error e, r) := by rwa [hc] at h
          simp only [Except.map, Settles, on_bind, hon]
  | clear => rfl

/-- An operation fails and changes nothing, or does what the pure one does. -/
theorem apply_cases (r : StreamRegistry) (op : Op) :
    r.apply op = r ∨ r.next op = .ok (r.apply op) := by
  obtain h | ⟨a, h⟩ := (call_settles r op).state
  · exact .inl h
  · cases hn : r.next op with
    | error e => simp [hn, Except.map] at h
    | ok r' =>
        simp only [hn, Except.map, Except.ok.injEq, Prod.mk.injEq] at h
        exact .inr (congrArg Except.ok h.2)

theorem apply_of_ok {r r' : StreamRegistry} {op : Op} (h : r.next op = .ok r') :
    r.apply op = r' := by
  have hs : Settles (call op) r (.ok (⟨⟩, r')) := by
    have hsettles := call_settles r op
    rwa [h] at hsettles
  exact congrArg Prod.snd hs

theorem run_append (r : StreamRegistry) (ops more : List Op) :
    r.run (ops ++ more) = (r.run ops).run more := List.foldl_append

/-! ### What the operations do -/

theorem open_cases {r r' : StreamRegistry} {o : StreamOpen} (h : r.open o = .ok r') :
    (o.streamId = .afe → r.afeMetadata = true) ∧
      r'.afeMetadata = r.afeMetadata ∧ r'.ended = r.ended ∧
      r'.current = (fun s => if s = o.streamId then some o.epoch else r.current s) ∧
      ((∃ state, r.epochs o.streamId o.epoch = some state ∧ state.ended = false ∧
          r'.epochs = r.epochs) ∨
        (r.epochs o.streamId o.epoch = none ∧
          r'.epochs = (r.set o.streamId o.epoch (some .opened)).epochs)) := by
  simp only [«open»] at h
  split_ifs at h with hafe
  have hmeta : o.streamId = .afe → r.afeMetadata = true := fun hs => by
    by_contra hm
    exact hafe ⟨hs, hm⟩
  cases hs : r.epochs o.streamId o.epoch with
  | none =>
      simp only [hs, Except.ok.injEq] at h
      subst h
      exact ⟨hmeta, rfl, rfl, rfl, .inr ⟨rfl, rfl⟩⟩
  | some state =>
      simp only [hs] at h
      split_ifs at h with he
      rw [Except.ok.injEq] at h
      subst h
      exact ⟨hmeta, rfl, rfl, rfl, .inl ⟨state, rfl, Bool.eq_false_of_not_eq_true he, rfl⟩⟩

/-- An open epoch ends: its state, the current epoch of its stream, the queue. -/
def ending (r : StreamRegistry) (stream : StreamId) (epoch : UInt64) (state : EpochState) :
    StreamRegistry :=
  { r.set stream epoch (some { state with ended := true, runs := [], grants := 0 }) with
    current := fun s => if s = stream ∧ r.current s = some epoch then none else r.current s
    ended := r.ended ++ [(stream, epoch)] }

/-- The oldest ended epoch is forgotten. -/
def evict (r : StreamRegistry) : StreamRegistry :=
  match r.ended with
  | oldest :: rest => { r.set oldest.1 oldest.2 none with ended := rest }
  | [] => r

theorem end_of_open {r : StreamRegistry} {e : StreamEnd} {state : EpochState}
    (hs : r.epochs e.streamId e.epoch = some state) (hopen : state.ended = false) :
    r.end e = .ok (if r.ended.length < ENDED_EPOCHS_REMEMBERED then
      r.ending e.streamId e.epoch state else (r.ending e.streamId e.epoch state).evict) := by
  rcases hq : r.ended ++ [(e.streamId, e.epoch)] with - | ⟨oldest, rest⟩
  · simp at hq
  · have hlength : (oldest :: rest).length = r.ended.length + 1 := by
      rw [← hq, List.length_append, List.length_singleton]
    simp only [«end», hs, hopen, hq, ending, evict, Bool.false_eq_true, if_false]
    by_cases hlong : (oldest :: rest).length > ENDED_EPOCHS_REMEMBERED
    · rw [if_pos hlong, if_neg (by omega)]
    · rw [if_neg hlong, if_pos (by omega)]

theorem end_cases {r r' : StreamRegistry} {e : StreamEnd} (h : r.end e = .ok r') :
    ∃ state, r.epochs e.streamId e.epoch = some state ∧
      ((state.ended = true ∧ r' = r) ∨
        (state.ended = false ∧ r' =
          if r.ended.length < ENDED_EPOCHS_REMEMBERED then r.ending e.streamId e.epoch state
          else (r.ending e.streamId e.epoch state).evict)) := by
  cases hs : r.epochs e.streamId e.epoch with
  | none => simp [«end», hs] at h
  | some state =>
      refine ⟨state, rfl, ?_⟩
      cases he : state.ended with
      | true => exact .inl ⟨rfl, by simpa [«end», hs, he] using h.symm⟩
      | false =>
          rw [end_of_open hs he] at h
          exact .inr ⟨rfl, (Except.ok.inj h).symm⟩

theorem check_cases {r r' : StreamRegistry} {p : Packet} {stream : StreamId}
    (h : r.check p = .ok (stream, r')) :
    ∃ state state', r.epochs stream p.header.epoch = some state ∧ state.ended = false ∧
      state'.ended = false ∧ r' = r.set stream p.header.epoch (some state') := by
  simp only [check] at h
  cases hst : r.streamOf p.header.kind with
  | none => simp [hst] at h
  | some found =>
      simp only [hst] at h
      cases hs : r.epochs found p.header.epoch with
      | none => simp [hs] at h
      | some state =>
          simp only [hs] at h
          by_cases he : state.ended = true
          · simp [he] at h
          · rw [if_neg he] at h
            cases hq : state.lastSequence.filter (p.header.sequence ≤ ·) with
            | some last => simp [hq] at h
            | none =>
                simp only [hq] at h
                cases ho : state.order p.header.firstSample p.endSample with
                | error live => simp [ho] at h
                | ok state' =>
                    simp only [ho, Except.ok.injEq, Prod.mk.injEq] at h
                    obtain ⟨rfl, rfl⟩ := h
                    have hopen := Bool.eq_false_of_not_eq_true he
                    refine ⟨state, { state' with lastSequence := some p.header.sequence }, hs,
                      hopen, ?_, rfl⟩
                    exact (EpochState.order_frame ho).1.trans hopen

/-! ### The three collections agree -/

/-- What holds between the states, the current epochs and the queue of ended epochs. -/
structure Agrees (r : StreamRegistry) : Prop where
  nodup : r.ended.Nodup
  mem_ended_iff : ∀ s e, (s, e) ∈ r.ended ↔
    ∃ state, r.epochs s e = some state ∧ state.ended = true
  current_open : ∀ s e, r.current s = some e →
    ∃ state, r.epochs s e = some state ∧ state.ended = false
  finished : ∀ s e state, r.epochs s e = some state → state.ended = true →
    state.runs = [] ∧ state.grants = 0
  afe : ∀ e state, r.epochs .afe e = some state → r.afeMetadata = true

/-- The collections agree, and the queue is within its bound. -/
structure Consistent (r : StreamRegistry) : Prop extends Agrees r where
  length_le : r.ended.length ≤ ENDED_EPOCHS_REMEMBERED

namespace Agrees

/-- Changes of open epochs that leave them open. -/
theorem of_epochs {r r' : StreamRegistry} (h : Agrees r) (hafe : r'.afeMetadata = r.afeMetadata)
    (hended : r'.ended = r.ended)
    (hepochs : ∀ s e, r'.epochs s e = r.epochs s e ∨
      ((∀ state, r.epochs s e = some state → state.ended = false) ∧
        (s = .afe → r.afeMetadata = true) ∧
        ∃ state, r'.epochs s e = some state ∧ state.ended = false))
    (hcurrent : ∀ s e, r'.current s = some e →
      r.current s = some e ∨ ∃ state, r'.epochs s e = some state ∧ state.ended = false) :
    Agrees r' where
  nodup := hended ▸ h.nodup
  mem_ended_iff s e := by
    rw [hended, h.mem_ended_iff]
    obtain heq | ⟨hopen, -, state, hs, he⟩ := hepochs s e
    · rw [heq]
    · constructor
      · rintro ⟨state, hstate, hended⟩
        simp [hopen state hstate] at hended
      · rintro ⟨state', hstate, hended⟩
        rw [hs, Option.some.injEq] at hstate
        simp [← hstate, he] at hended
  current_open s e hc := by
    obtain hc | hc := hcurrent s e hc
    · obtain ⟨state, hs, he⟩ := h.current_open s e hc
      obtain heq | ⟨-, -, hopen⟩ := hepochs s e
      · exact ⟨state, heq.trans hs, he⟩
      · exact hopen
    · exact hc
  finished s e state hs he := by
    obtain heq | ⟨-, -, state', hs', he'⟩ := hepochs s e
    · exact h.finished s e state (heq ▸ hs) he
    · rw [hs, Option.some.injEq] at hs'
      simp [hs', he'] at he
  afe e state hs := by
    obtain heq | ⟨-, hmeta, -⟩ := hepochs .afe e
    · exact hafe ▸ h.afe e state (heq ▸ hs)
    · exact hafe ▸ hmeta rfl

theorem «open» {r r' : StreamRegistry} {o : StreamOpen} (h : Agrees r)
    (ho : r.open o = .ok r') : Agrees r' := by
  obtain ⟨hmeta, hafe, hended, hcurrent, hepochs⟩ := open_cases ho
  have hopened : ∃ state, r'.epochs o.streamId o.epoch = some state ∧ state.ended = false := by
    obtain ⟨state, hs, he, heq⟩ | ⟨-, heq⟩ := hepochs
    · exact ⟨state, heq ▸ hs, he⟩
    · exact ⟨.opened, heq ▸ set_epochs_self _ _ _ _, rfl⟩
  refine h.of_epochs hafe hended (fun s e => ?_) fun s e hc => ?_
  · obtain ⟨state, hs, he, heq⟩ | ⟨hnone, heq⟩ := hepochs
    · exact .inl (by rw [heq])
    · by_cases hkey : s = o.streamId ∧ e = o.epoch
      · obtain ⟨rfl, rfl⟩ := hkey
        exact .inr ⟨by simp [hnone], hmeta, hopened⟩
      · exact .inl (by rw [heq]; simp [set, hkey])
  · rw [hcurrent] at hc
    by_cases hkey : s = o.streamId
    · subst hkey
      obtain rfl : o.epoch = e := by simpa using hc
      exact .inr hopened
    · exact .inl (by simpa [hkey] using hc)

theorem check {r r' : StreamRegistry} {p : Packet} {stream : StreamId} (h : Agrees r)
    (hc : r.check p = .ok (stream, r')) : Agrees r' := by
  obtain ⟨state, state', hs, hopen, hopen', rfl⟩ := check_cases hc
  refine h.of_epochs rfl rfl (fun s e => ?_) fun s e hcur => .inl hcur
  by_cases hkey : s = stream ∧ e = p.header.epoch
  · obtain ⟨rfl, rfl⟩ := hkey
    refine .inr ⟨fun state₁ hs₁ => ?_, ?_, state', set_epochs_self _ _ _ _, hopen'⟩
    · rw [hs, Option.some.injEq] at hs₁
      exact hs₁ ▸ hopen
    · rintro rfl
      exact h.afe _ _ hs
  · exact .inl (by simp [set, hkey])

theorem grantBackfill {r : StreamRegistry} (h : Agrees r) (stream : StreamId)
    (grant : BackfillGrant) : Agrees (r.grantBackfill stream grant) := by
  refine h.of_epochs rfl rfl (fun s e => ?_) fun s e hcur => .inl hcur
  simp only [StreamRegistry.grantBackfill]
  cases hs : r.epochs s e with
  | none => exact .inl rfl
  | some state =>
      by_cases hg : s = stream ∧ grant.covers e ∧ ¬ state.ended
      · have hopen := Bool.eq_false_of_not_eq_true hg.2.2
        refine .inr ⟨by simp [hopen], fun hafe => h.afe e state (hafe ▸ hs), state.grant, ?_, hopen⟩
        rw [Option.map_some, if_pos hg]
      · exact .inl (by rw [Option.map_some, if_neg hg])

/-- The queue takes an epoch that ends. -/
theorem ending {r : StreamRegistry} {stream : StreamId} {epoch : UInt64} {state : EpochState}
    (h : Agrees r) (hs : r.epochs stream epoch = some state) (hopen : state.ended = false) :
    Agrees (r.ending stream epoch state) where
  nodup := by
    refine List.Nodup.append h.nodup (List.nodup_singleton _) ?_
    rw [List.disjoint_singleton, h.mem_ended_iff]
    rintro ⟨state', hs', he⟩
    rw [hs, Option.some.injEq] at hs'
    simp [← hs', hopen] at he
  mem_ended_iff s e := by
    by_cases hkey : s = stream ∧ e = epoch
    · simp [StreamRegistry.ending, set, hkey]
    · simp [StreamRegistry.ending, set, hkey, h.mem_ended_iff]
  current_open s e hc := by
    simp only [StreamRegistry.ending] at hc
    split_ifs at hc with hcur
    obtain ⟨state', hs', he⟩ := h.current_open s e hc
    refine ⟨state', ?_, he⟩
    have hkey : ¬ (s = stream ∧ e = epoch) := fun hkey => hcur ⟨hkey.1, hkey.2 ▸ hc⟩
    simpa [StreamRegistry.ending, set, hkey] using hs'
  finished s e state' hs' he := by
    by_cases hkey : s = stream ∧ e = epoch
    · have hover : { state with ended := true, runs := [], grants := 0 } = state' := by
        simpa [StreamRegistry.ending, set, hkey] using hs'
      simp [← hover]
    · exact h.finished s e state' (by simpa [StreamRegistry.ending, set, hkey] using hs') he
  afe e state' hs' := by
    by_cases hkey : StreamId.afe = stream ∧ e = epoch
    · exact h.afe epoch state (hkey.1 ▸ hs)
    · exact h.afe e state' (by simpa [StreamRegistry.ending, set, hkey] using hs')

/-- The queue and the states forget its oldest epoch. -/
theorem evict {r : StreamRegistry} (h : Agrees r) : Agrees r.evict := by
  cases hq : r.ended with
  | nil => simpa [StreamRegistry.evict, hq] using h
  | cons oldest rest =>
      have hnodup : oldest ∉ rest ∧ rest.Nodup := List.nodup_cons.mp (hq ▸ h.nodup)
      have hepochs : ∀ s e state, r.evict.epochs s e = some state → r.epochs s e = some state := by
        intro s e state hs
        simp only [StreamRegistry.evict, hq, set] at hs
        split_ifs at hs
        exact hs
      refine ⟨?_, fun s e => ?_, fun s e hc => ?_, fun s e state hs => ?_, fun e state hs => ?_⟩
      · simpa [StreamRegistry.evict, hq] using hnodup.2
      · have hmem := h.mem_ended_iff s e
        rw [hq, List.mem_cons] at hmem
        simp only [StreamRegistry.evict, hq, set]
        by_cases hkey : s = oldest.1 ∧ e = oldest.2
        · have holdest : (s, e) = oldest := Prod.ext hkey.1 hkey.2
          simp [hkey, hnodup.1]
        · have hne : (s, e) ≠ oldest := fun heq => hkey (by simp [← heq])
          simpa [hkey, hne] using hmem
      · have hc' : r.current s = some e := by simpa [StreamRegistry.evict, hq] using hc
        obtain ⟨state, hs, he⟩ := h.current_open s e hc'
        refine ⟨state, ?_, he⟩
        have hkey : ¬ (s = oldest.1 ∧ e = oldest.2) := by
          rintro ⟨rfl, rfl⟩
          obtain ⟨state', hs', he'⟩ := (h.mem_ended_iff oldest.1 oldest.2).mp (by simp [hq])
          rw [hs, Option.some.injEq] at hs'
          simp [← hs', he] at he'
        simpa [StreamRegistry.evict, hq, set, hkey] using hs
      · exact h.finished s e state (hepochs s e state hs)
      · have hmeta : r.evict.afeMetadata = r.afeMetadata := by
          simp [StreamRegistry.evict, hq, set]
        exact hmeta ▸ h.afe e state (hepochs _ e state hs)

end Agrees

namespace Consistent

theorem new (afe : Bool) : Consistent (.new afe) where
  nodup := List.nodup_nil
  mem_ended_iff := by simp [StreamRegistry.new]
  current_open := by simp [StreamRegistry.new]
  finished := by simp [StreamRegistry.new]
  afe := by simp [StreamRegistry.new]
  length_le := Nat.zero_le _

theorem «end» {r r' : StreamRegistry} {e : StreamEnd} (h : Consistent r)
    (he : r.end e = .ok r') : Consistent r' := by
  obtain ⟨state, hs, ⟨-, rfl⟩ | ⟨hopen, rfl⟩⟩ := end_cases he
  · exact h
  · have hagrees := h.toAgrees.ending hs hopen
    have hlength := h.length_le
    have hended : (r.ending e.streamId e.epoch state).ended =
        r.ended ++ [(e.streamId, e.epoch)] := rfl
    split_ifs with hshort
    · refine ⟨hagrees, ?_⟩
      rw [hended, List.length_append, List.length_singleton]
      omega
    · refine ⟨hagrees.evict, ?_⟩
      rcases hq : r.ended ++ [(e.streamId, e.epoch)] with - | ⟨oldest, rest⟩
      · simp at hq
      · have hcount := congrArg List.length hq
        simp only [List.length_append, List.length_cons, List.length_nil] at hcount
        simp only [evict, hended, hq]
        omega

/-- **Every operation keeps the collections in agreement**, failing ones included. -/
theorem apply {r : StreamRegistry} (h : Consistent r) (op : Op) : Consistent (r.apply op) := by
  obtain heq | hnext := r.apply_cases op
  · rwa [heq]
  · generalize r.apply op = r' at hnext
    cases op with
    | «open» o =>
        have hended : r'.ended = r.ended := (open_cases hnext).2.2.1
        exact ⟨h.toAgrees.open hnext, hended ▸ h.length_le⟩
    | «end» e => exact h.end hnext
    | grantBackfill stream grant =>
        obtain rfl := Except.ok.inj hnext
        exact ⟨h.toAgrees.grantBackfill stream grant, h.length_le⟩
    | check p =>
        rw [next] at hnext
        cases hc : r.check p with
        | error e => simp [hc, Except.map] at hnext
        | ok a =>
            obtain rfl : a.2 = r' := by simpa [hc, Except.map] using hnext
            have hended : a.2.ended = r.ended := by
              obtain ⟨_, _, -, -, -, heq⟩ := @check_cases r a.2 p a.1 hc
              rw [heq, set_ended]
            exact ⟨@Agrees.check r a.2 p a.1 h.toAgrees hc, hended ▸ h.length_le⟩
    | clear =>
        obtain rfl := Except.ok.inj hnext
        exact new r.afeMetadata

theorem run {r : StreamRegistry} (h : Consistent r) (ops : List Op) : Consistent (r.run ops) := by
  induction ops generalizing r with
  | nil => exact h
  | cons op ops ih => exact ih (h.apply op)

end Consistent

/-! ### The epochs that ended -/

/-- The epoch an operation ends. -/
def endedBy (r : StreamRegistry) : Op → List (StreamId × UInt64)
  | .end e => if r.isOpen e.streamId e.epoch then [(e.streamId, e.epoch)] else []
  | _ => []

/-- The epochs that end in a run, in order. -/
def endings : StreamRegistry → List Op → List (StreamId × UInt64)
  | _, [] => []
  | r, op :: ops => r.endedBy op ++ endings (r.apply op) ops

/-- The queue after an epoch ends. -/
theorem ended_ending {r : StreamRegistry} (h : Consistent r) (stream : StreamId) (epoch : UInt64)
    (state : EpochState) :
    (if r.ended.length < ENDED_EPOCHS_REMEMBERED then r.ending stream epoch state
      else (r.ending stream epoch state).evict).ended =
      (r.ended ++ [(stream, epoch)]).rtake ENDED_EPOCHS_REMEMBERED := by
  have hended : (r.ending stream epoch state).ended = r.ended ++ [(stream, epoch)] := rfl
  split_ifs with hshort
  · rw [hended, rtake_eq_self]
    rw [List.length_append, List.length_singleton]
    omega
  · have hfull : r.ended.length = ENDED_EPOCHS_REMEMBERED :=
      le_antisymm h.length_le (not_lt.mp hshort)
    cases hq : r.ended with
    | nil =>
        rw [hq] at hfull
        cases hfull
    | cons oldest rest =>
        rw [hq, List.length_cons] at hfull
        simp only [evict, hended, hq, List.cons_append]
        rw [rtake_cons]
        rw [List.length_append, List.length_singleton, hfull]

/-- The queue after a `stream.end`. -/
theorem ended_apply_end {r : StreamRegistry} (h : Consistent r) (e : StreamEnd) :
    (r.apply (.end e)).ended = (r.ended ++ r.endedBy (.end e)).rtake ENDED_EPOCHS_REMEMBERED := by
  by_cases hopen : r.isOpen e.streamId e.epoch = true
  · rw [endedBy, if_pos hopen]
    cases hs : r.epochs e.streamId e.epoch with
    | none => simp [isOpen, hs] at hopen
    | some state =>
        have he : state.ended = false := by simpa [isOpen, hs] using hopen
        have hnext : r.next (.end e) = .ok _ := end_of_open hs he
        rw [apply_of_ok hnext, ended_ending h]
  · have hsame : r.apply (.end e) = r := by
      obtain heq | hnext := r.apply_cases (.end e)
      · exact heq
      · obtain ⟨state, hs, ⟨-, heq⟩ | ⟨he, -⟩⟩ := end_cases hnext
        · exact heq
        · exact absurd (by simp [isOpen, hs, he]) hopen
    rw [endedBy, if_neg hopen, hsame, List.append_nil, rtake_eq_self h.length_le]

/-- The queue after an operation that does not clear the registry. -/
theorem ended_apply {r : StreamRegistry} (h : Consistent r) {op : Op} (hop : op ≠ .clear) :
    (r.apply op).ended = (r.ended ++ r.endedBy op).rtake ENDED_EPOCHS_REMEMBERED := by
  have hsame : (r.apply op).ended = r.ended → r.endedBy op = [] →
      (r.apply op).ended = (r.ended ++ r.endedBy op).rtake ENDED_EPOCHS_REMEMBERED := by
    intro heq hnone
    rw [heq, hnone, List.append_nil, rtake_eq_self h.length_le]
  cases op with
  | «end» e => exact ended_apply_end h e
  | «open» o =>
      obtain heq | hnext := r.apply_cases (.open o)
      · exact hsame (by rw [heq]) rfl
      · exact hsame (open_cases hnext).2.2.1 rfl
  | grantBackfill stream grant => exact hsame rfl rfl
  | check p =>
      obtain heq | hnext := r.apply_cases (.check p)
      · exact hsame (by rw [heq]) rfl
      · rw [next] at hnext
        cases hc : r.check p with
        | error e => simp [hc, Except.map] at hnext
        | ok a =>
            obtain ⟨_, _, -, -, -, heq⟩ := @check_cases r a.2 p a.1 hc
            rw [hc] at hnext
            refine hsame ?_ rfl
            rw [← Except.ok.inj hnext, heq, set_ended]
  | clear => exact absurd rfl hop

/-- **The queue holds the last epochs that ended.** -/
theorem ended_run {r : StreamRegistry} (h : Consistent r) {ops : List Op} (hops : Op.clear ∉ ops) :
    (r.run ops).ended = (r.ended ++ r.endings ops).rtake ENDED_EPOCHS_REMEMBERED := by
  induction ops generalizing r with
  | nil =>
      simp only [endings, List.append_nil, rtake_eq_self h.length_le]
      rfl
  | cons op ops ih =>
      rw [List.mem_cons, not_or] at hops
      have hrun : (r.run (op :: ops)).ended = ((r.apply op).run ops).ended := rfl
      rw [hrun, ih (h.apply op) hops.2, ended_apply h (Ne.symm hops.1), rtake_rtake_append,
        List.append_assoc, endings]

/-- What is answered about an ended epoch: its packets and its reopening are refused. -/
def AnswersEnded (r : StreamRegistry) (stream : StreamId) (epoch : UInt64) : Prop :=
  (∀ p : Packet, StreamId.ofKind p.header.kind = some stream → p.header.epoch = epoch →
    ((checkCall p).on r).1 = .error ⟨.streamEnded, s!"{stream} epoch {epoch} already ended"⟩) ∧
  ∀ o : StreamOpen, o.streamId = stream → o.epoch = epoch →
    ((openCall o).on r).1 = .error ⟨.badStream, s!"{stream} epoch {epoch} already ended"⟩

/-- An epoch in the queue is answered as ended. -/
theorem answersEnded_of_mem {r : StreamRegistry} (h : Agrees r) {stream : StreamId}
    {epoch : UInt64} (hmem : (stream, epoch) ∈ r.ended) : r.AnswersEnded stream epoch := by
  obtain ⟨state, hs, he⟩ := (h.mem_ended_iff stream epoch).mp hmem
  have hafe : stream = .afe → r.afeMetadata = true := by
    rintro rfl
    exact h.afe epoch state hs
  constructor
  · rintro p hstream rfl
    have hid : r.streamOf p.header.kind = some stream := by
      rw [streamOf, hstream]
      cases stream with
      | afe => simp [hafe rfl]
      | mic | reference | cells => rfl
    have hcheck : r.check p =
        .error ⟨.streamEnded, s!"{stream} epoch {p.header.epoch} already ended"⟩ := by
      simp only [check, hid, hs, he, if_true]
    have hsettles := check_settles r p
    rw [hcheck] at hsettles
    exact congrArg Prod.fst hsettles
  · rintro o rfl rfl
    have hopen : r.open o =
        .error ⟨.badStream, s!"{o.streamId} epoch {o.epoch} already ended"⟩ := by
      have hnot : ¬ (o.streamId = .afe ∧ ¬ r.afeMetadata = true) := fun hbad =>
        hbad.2 (hafe hbad.1)
      simp only [«open», if_neg hnot, hs, he, if_true]
    have hsettles := open_settles r o
    rw [hopen] at hsettles
    exact congrArg Prod.fst hsettles

end StreamRegistry

open StreamRegistry in
/-- **The memory of ended epochs is bounded.** Whatever calls a session makes, the queue holds
without duplicates the ended epochs of the map, at most `ENDED_EPOCHS_REMEMBERED`; a current
epoch is open; an ended one has neither runs nor grants; a failing call changes nothing. An
epoch that ended is answered as ended until the registry is cleared or that many others have
ended after it. -/
theorem memory_bounded (afe : Bool) (ops : List Op) :
    ((new afe).run ops).Consistent ∧
    (∀ op e, ((call op).on ((new afe).run ops)).1 = .error e →
      ((call op).on ((new afe).run ops)).2 = (new afe).run ops) ∧
    ∀ before e after, ops = before ++ .end e :: after → .clear ∉ after →
      ((new afe).run before).isOpen e.streamId e.epoch = true →
      ((((new afe).run (before ++ [.end e])).endings after).toFinset.erase
        (e.streamId, e.epoch)).card < ENDED_EPOCHS_REMEMBERED →
      ((new afe).run ops).AnswersEnded e.streamId e.epoch := by
  have hrun : ∀ ops, ((new afe).run ops).Consistent := (Consistent.new afe).run
  refine ⟨hrun ops, fun op e he => (call_settles _ op).unchanged he, ?_⟩
  rintro before e after rfl hclear hopen hcard
  have hall := hrun (before ++ .end e :: after)
  refine answersEnded_of_mem hall.toAgrees ?_
  have hended : ((new afe).run (before ++ .end e :: after)).ended =
      (((new afe).run before).ended ++ (e.streamId, e.epoch) ::
        ((new afe).run (before ++ [.end e])).endings after).rtake ENDED_EPOCHS_REMEMBERED := by
    have hnot : Op.clear ∉ Op.end e :: after := by simp [hclear]
    rw [run_append, ended_run (hrun before) hnot, endings, endedBy, if_pos hopen, run_append]
    rfl
  rw [hended]
  exact mem_rtake_of_card_lt (hended ▸ hall.nodup) hcard

open StreamRegistry in
/-- A cleared registry has forgotten the epochs that ended in the session before. -/
theorem cleared_epoch_reopened :
    ¬ ∀ afe before e after, ((new afe).run before).isOpen e.streamId e.epoch = true →
      ((((new afe).run (before ++ [.end e])).endings after).toFinset.erase
        (e.streamId, e.epoch)).card < ENDED_EPOCHS_REMEMBERED →
      ((new afe).run (before ++ .end e :: after)).AnswersEnded e.streamId e.epoch := by
  intro h
  have hanswers := h false [.open ⟨.mic, 1, by decide⟩] ⟨.mic, 1, 0⟩ [.clear] rfl (by decide)
  have hpacket := hanswers.1 (micPacket 0 100 (by decide)) rfl rfl
  exact absurd (congrArg (fun answer => match answer with
    | .error e => e.code
    | .ok _ => .badStream) hpacket) (by decide)

end EchoMuse.Streams
