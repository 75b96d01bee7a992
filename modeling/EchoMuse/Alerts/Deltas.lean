import EchoMuse.Alerts.Link
import EchoMuse.Batches

/-!
# Deltas, Object by Object

`ApplyDelta` collects the objects of a delta into one transaction, computed against the state
before it, whose deletes all apply before its puts. Here that transaction is compared with the
objects applied one after the other, each as a transaction of its own.

## Main results

* `deltaTxn_carries`: the transaction of a delta is the transactions of its objects, joined;
* `occ_inOrder_iff`, `armed_inOrder_iff`, `rings_inOrder`: when the delivered occurrences, the
  armed records and the ring records come out as they do object by object;
* `applyDelta_inOrder`: a delta as a whole, and what a refused or failed one leaves.
-/

namespace EchoMuse.Alerts

/-! ### One object -/

/-- An accepted cache object. -/
abbrev Parsed := Occurrence ⊕ Tombstone

/-- The occurrence an object is about. -/
def Parsed.id : Parsed → Uuid
  | .inl o => o.occurrenceId
  | .inr t => t.occurrenceId

/-- The transaction of one object. -/
def objectTxn (c : TrustedClock) (s : State) : Parsed → Txn
  | .inr tomb =>
    { delOcc := [tomb.occurrenceId], delChildren := [tomb.occurrenceId]
      delArmed := [tomb.occurrenceId], delRings := [tomb.occurrenceId] }
  | .inl o => supersedeChildren s o (armOccurrence s c o { putOcc := [o] })

/-- The objects applied one after the other. -/
def applyObjects (c : TrustedClock) (s : State) (vs : List Parsed) : State :=
  vs.foldl (fun s v => s.apply (objectTxn c s v)) s

/-- `ApplyDelta`, with the outcome of its commit. -/
def Device.applyDelta (F : FloatText) (clock : TrustedClock) (outcome : CommitOutcome) (d : Device)
    (body : DeltaBody) : Device × AlertAck :=
  match deltaTxn F clock d.st body with
  | none => (d, d.ack true true)
  | some t => d.install outcome t

/-- The device's step on a delta of the controller. -/
theorem Device.receive_delta (F : FloatText) (digest : List (Json Text) → Option Text)
    (clock : TrustedClock) (outcome : CommitOutcome) (d : Device) (delta : AlertDelta) :
    d.receive F digest clock outcome (.delta delta) =
      ((d.applyDelta F clock outcome (delta.body F)).1,
        some (d.applyDelta F clock outcome (delta.body F)).2) := by
  unfold Device.receive Device.applyDelta
  dsimp only
  cases deltaTxn F clock d.st (delta.body F) <;> rfl

/-! ### What an object adds -/

/-- The local children a delivered occurrence replaces. -/
def superseded (s : State) (o : Occurrence) : List Uuid :=
  (s.children.toList.filter fun e => supersedes o e.2).map (·.1)

/-- The record of a ringing child that `o` replaces under another id. -/
def movedBy (s : State) (o : Occurrence) (e : Uuid × LocalChild) : Option (Uuid × RingRecord) :=
  if supersedes o e.2 ∧ e.1 ≠ o.occurrenceId then (s.rings[e.1]?).map (e.1, ·) else none

/-- The ring records that move to a delivered occurrence, under the ids they leave. -/
def moved (s : State) (o : Occurrence) : List (Uuid × RingRecord) :=
  s.children.toList.filterMap (movedBy s o)

/-- A ring record under another id. -/
def RingRecord.move (id : Uuid) (r : RingRecord) : RingRecord := { r with occurrenceId := id }

/-- The deadline of an occurrence on this boot's clock; `none` while UTC is not trusted. -/
def armedRecord (c : TrustedClock) (o : Occurrence) : Option ArmedRecord :=
  (c.monoAtUtc o.dueUtcMs).map fun due =>
    { occurrenceId := o.occurrenceId, bootId := c.bootId, dueMonoNs := due, dueUtcMs := o.dueUtcMs }

/-- The record a delivered occurrence arms; `none` when it is armed already. -/
def newlyArmed (s : State) (c : TrustedClock) (o : Occurrence) : Option ArmedRecord :=
  (armedRecord c o).filter fun r => s.armed[o.occurrenceId]? ≠ some r

/-- What the loop over the children adds. -/
theorem foldl_supersede (s : State) (o : Occurrence) (l : List (Uuid × LocalChild)) (t : Txn) :
    l.foldl (fun t (id, c) =>
      if supersedes o c then
        let t := { t with delChildren := t.delChildren ++ [id], delArmed := t.delArmed ++ [id] }
        match s.rings[id]? with
        | some r =>
          if id = o.occurrenceId then t
          else
            { t with
              delRings := t.delRings ++ [id]
              putRings := t.putRings ++ [{ r with occurrenceId := o.occurrenceId }] }
        | none => t
      else t) t =
      { t with
        delChildren := t.delChildren ++ (l.filter fun e => supersedes o e.2).map (·.1)
        delArmed := t.delArmed ++ (l.filter fun e => supersedes o e.2).map (·.1)
        delRings := t.delRings ++ (l.filterMap (movedBy s o)).map (·.1)
        putRings := t.putRings ++
          (l.filterMap (movedBy s o)).map fun e => e.2.move o.occurrenceId } := by
  induction l generalizing t with
  | nil => simp only [List.foldl_nil, List.filter_nil, List.map_nil, List.append_nil, List.filterMap_nil]
  | cons e l ih =>
      obtain ⟨id, child⟩ := e
      rw [List.foldl_cons, ih]
      by_cases hs : supersedes o child = true
      · cases hr : s.rings[id]? with
        | none =>
            have hmoved : movedBy s o (id, child) = none := by
              rw [movedBy, hr]
              exact ite_self none
            simp only [hs, hr, if_true, List.filter_cons_of_pos, List.map_cons,
              List.filterMap_cons_none hmoved, List.append_assoc, List.singleton_append]
        | some r =>
            by_cases hid : id = o.occurrenceId
            · have hmoved : movedBy s o (id, child) = none := if_neg fun h => h.2 hid
              simp only [hs, hr, if_true, if_pos hid, List.filter_cons_of_pos, List.map_cons,
                List.filterMap_cons_none hmoved, List.append_assoc, List.singleton_append]
            · have hmoved : movedBy s o (id, child) = some (id, r) := by
                rw [movedBy, if_pos ⟨hs, hid⟩, hr]
                rfl
              simp only [hs, hr, if_true, if_neg hid, List.filter_cons_of_pos, List.map_cons,
                List.filterMap_cons_some hmoved, List.append_assoc, List.singleton_append,
                RingRecord.move]
      · have hmoved : movedBy s o (id, child) = none := if_neg fun h => hs h.1
        simp only [hs, Bool.false_eq_true, if_false, List.filter_cons_of_neg, not_false_eq_true,
          List.filterMap_cons_none hmoved]

/-- What a delivered occurrence does to the children and the records. -/
theorem supersedeChildren_eq (s : State) (o : Occurrence) (t : Txn) :
    supersedeChildren s o t =
      { t with
        delChildren := t.delChildren ++ superseded s o
        delArmed := t.delArmed ++ superseded s o
        delRings := t.delRings ++ (moved s o).map (·.1)
        putRings := t.putRings ++ (moved s o).map fun e => e.2.move o.occurrenceId } :=
  foldl_supersede s o s.children.toList t

/-- An armed record already holds the deadline exactly when it is the one to be armed. -/
theorem armedAlready_iff {s : State} (hk : Table.Keyed (·.occurrenceId) s.armed) (c : TrustedClock)
    (o : Occurrence) (due : ℤ) :
    armedAlready s c o due = true ↔ s.armed[o.occurrenceId]? =
      some { occurrenceId := o.occurrenceId, bootId := c.bootId, dueMonoNs := due
             dueUtcMs := o.dueUtcMs } := by
  unfold armedAlready
  cases ha : s.armed[o.occurrenceId]? with
  | none => exact iff_of_false Bool.false_ne_true (fun h => by cases h)
  | some a =>
      have hid : a.occurrenceId = o.occurrenceId := hk _ _ ha
      obtain ⟨id, boot, mono, utc⟩ := a
      dsimp only at hid ⊢
      subst hid
      rw [Bool.and_eq_true, Bool.and_eq_true, beq_iff_eq, beq_iff_eq, beq_iff_eq, Option.some_inj,
        ArmedRecord.mk.injEq]
      constructor
      · rintro ⟨⟨rfl, rfl⟩, rfl⟩
        exact ⟨rfl, rfl, rfl, rfl⟩
      · rintro ⟨-, rfl, rfl, rfl⟩
        exact ⟨⟨rfl, rfl⟩, rfl⟩

/-- What arming adds to a transaction that is no snapshot. -/
theorem armOccurrence_eq {s : State} (hk : Table.Keyed (·.occurrenceId) s.armed) (c : TrustedClock)
    (o : Occurrence) {t : Txn} (ht : t.reset = false) :
    armOccurrence s c o t =
      { t with putArmed := t.putArmed ++ (newlyArmed s c o).toList } := by
  unfold armOccurrence newlyArmed armedRecord
  cases c.monoAtUtc o.dueUtcMs with
  | none => simp only [Option.map_none, Option.filter_none, Option.toList_none, List.append_nil]
  | some due =>
      have hguard : (!t.reset && armedAlready s c o due) = armedAlready s c o due := by
        rw [ht]
        rfl
      dsimp only
      rw [hguard, Option.map_some, Option.filter_some]
      by_cases ha : armedAlready s c o due = true
      · have heq := (armedAlready_iff hk c o due).mp ha
        rw [if_pos ha, if_neg (by simpa using heq)]
        simp only [Option.toList_none, List.append_nil]
      · have hne := (armedAlready_iff hk c o due).not.mp ha
        rw [if_neg ha, if_pos (by simpa using hne)]
        rfl

/-- The transaction of a delivered occurrence. -/
theorem objectTxn_occurrence {s : State} (hk : Table.Keyed (·.occurrenceId) s.armed)
    (c : TrustedClock) (o : Occurrence) :
    objectTxn c s (.inl o) =
      { putOcc := [o]
        putArmed := (newlyArmed s c o).toList
        delChildren := superseded s o
        delArmed := superseded s o
        delRings := (moved s o).map (·.1)
        putRings := (moved s o).map fun e => e.2.move o.occurrenceId } := by
  change supersedeChildren s o (armOccurrence s c o { putOcc := [o] }) = _
  have harm := armOccurrence_eq hk c o (t := { putOcc := [o] }) rfl
  rw [harm, supersedeChildren_eq]
  rfl

/-! ### The transaction of a delta -/

/-- The objects of a delta that the device accepts. -/
structure Accepted (F : FloatText) (s : State) (body : DeltaBody) (vs : List Parsed) : Prop where
  intact : s.corrupt = false
  epoch : s.epoch = some body.deliveryEpoch
  sequence : body.sequence = s.acked + 1
  objects : body.objects.map (parseObject F) = vs.map .ok

/-- A transaction carries the deletes and puts of the objects, in their order. -/
structure Carries (c : TrustedClock) (s : State) (vs : List Parsed) (t : Txn) : Prop where
  reset : t.reset = false
  delOcc : t.delOcc = vs.flatMap fun v => (objectTxn c s v).delOcc
  putOcc : t.putOcc = vs.flatMap fun v => (objectTxn c s v).putOcc
  delArmed : t.delArmed = vs.flatMap fun v => (objectTxn c s v).delArmed
  putArmed : t.putArmed = vs.flatMap fun v => (objectTxn c s v).putArmed
  delRings : t.delRings = vs.flatMap fun v => (objectTxn c s v).delRings
  putRings : t.putRings = vs.flatMap fun v => (objectTxn c s v).putRings

/-- One more object joins the transaction. -/
theorem Carries.concat {F : FloatText} {c : TrustedClock} {s : State}
    (hk : Table.Keyed (·.occurrenceId) s.armed) {vs : List Parsed} {v : Parsed} {t : Txn}
    (h : Carries c s vs t) {json : Json Text} (hv : parseObject F json = .ok v)
    (delivered : Table Uuid Occurrence) :
    ∃ acc, deltaObject F c s (t, delivered) json = some acc ∧ Carries c s (vs ++ [v]) acc.1 ∧
      acc.1.delivery = t.delivery := by
  unfold deltaObject
  rw [hv]
  obtain ⟨hr, hdo, hpo, hda, hpa, hdr, hpr⟩ := h
  cases v with
  | inr tomb =>
      refine ⟨_, rfl, ?_, rfl⟩
      constructor
      · exact hr
      all_goals
        dsimp only
        rw [List.flatMap_append, List.flatMap_singleton]
      · rw [hdo]
        rfl
      · rw [hpo]
        exact (List.append_nil _).symm
      · rw [hda]
        rfl
      · rw [hpa]
        exact (List.append_nil _).symm
      · rw [hdr]
        rfl
      · rw [hpr]
        exact (List.append_nil _).symm
  | inl o =>
      refine ⟨_, rfl, ?_, ?_⟩
      · have harm := armOccurrence_eq hk c o (t := { t with putOcc := t.putOcc ++ [o] }) hr
        dsimp only at harm ⊢
        rw [harm, supersedeChildren_eq]
        constructor
        · exact hr
        all_goals
          dsimp only
          rw [List.flatMap_append, List.flatMap_singleton, objectTxn_occurrence hk]
        · rw [hdo, List.append_nil]
        · rw [hpo]
        · rw [hda]
        · rw [hpa]
        · rw [hdr]
        · rw [hpr]
      · exact ((Txn.Frames.arm s c o _).trans (Txn.Frames.supersede s o _)).delivery

/-- The objects join the transaction one after the other. -/
theorem foldlM_carries {F : FloatText} {c : TrustedClock} {s : State}
    (hk : Table.Keyed (·.occurrenceId) s.armed) {objects : List (Json Text)} {vs : List Parsed}
    (hv : objects.map (parseObject F) = vs.map .ok) {done : List Parsed}
    {acc : Txn × Table Uuid Occurrence} (h : Carries c s done acc.1) :
    ∃ acc', objects.foldlM (deltaObject F c s) acc = some acc' ∧ Carries c s (done ++ vs) acc'.1 ∧
      acc'.1.delivery = acc.1.delivery := by
  induction objects generalizing vs done acc with
  | nil =>
      cases vs with
      | nil => exact ⟨acc, rfl, (List.append_nil done).symm ▸ h, rfl⟩
      | cons v vs => cases hv
  | cons json objects ih =>
      cases vs with
      | nil => cases hv
      | cons v vs =>
          rw [List.map_cons, List.map_cons] at hv
          obtain ⟨hhead, htail⟩ := List.cons.inj hv
          obtain ⟨mid, hmid, hc, hd⟩ := h.concat hk hhead acc.2
          obtain ⟨acc', hacc, hc', hd'⟩ := ih htail hc
          refine ⟨acc', ?_, ?_, hd'.trans hd⟩
          · rw [List.foldlM_cons, hmid]
            exact hacc
          · rw [List.append_assoc] at hc'
            exact hc'

/-- The transaction of an accepted delta is the transactions of its objects, joined. -/
theorem deltaTxn_carries {F : FloatText} {c : TrustedClock} {s : State} (hk : s.Keyed)
    {body : DeltaBody} {vs : List Parsed} (h : Accepted F s body vs) :
    ∃ t, deltaTxn F c s body = some t ∧ Carries c s vs t ∧
      t.delivery = some { epoch := body.deliveryEpoch, acked := body.sequence } := by
  have hempty : Carries c s []
      { delivery := some { epoch := body.deliveryEpoch, acked := body.sequence } } :=
    ⟨rfl, rfl, rfl, rfl, rfl, rfl, rfl⟩
  have hjoin : ∃ acc, body.objects.foldlM (deltaObject F c s)
      ({ delivery := some { epoch := body.deliveryEpoch, acked := body.sequence } }, s.occ) =
        some acc ∧ Carries c s ([] ++ vs) acc.1 ∧
      acc.1.delivery = some { epoch := body.deliveryEpoch, acked := body.sequence } :=
    foldlM_carries hk.armed h.objects hempty
  obtain ⟨acc, hacc, hc, hd⟩ := hjoin
  have hguard : ¬ (s.corrupt = true ∨ s.epoch ≠ some body.deliveryEpoch ∨
      body.sequence ≠ s.acked + 1) := by
    rintro (hcor | hne | hne)
    · exact Bool.false_ne_true (h.intact.symm.trans hcor)
    · exact hne h.epoch
    · exact hne h.sequence
  refine ⟨dropSettledOps s acc.2 acc.1, ?_, ?_, hd⟩
  · unfold deltaTxn
    rw [if_neg hguard]
    dsimp only
    rw [hacc]
    rfl
  · rw [List.nil_append] at hc
    exact ⟨hc.reset, hc.delOcc, hc.putOcc, hc.delArmed, hc.putArmed, hc.delRings, hc.putRings⟩

/-- A delta whose objects are not all valid, or that does not follow the device's position, is
no transaction. -/
theorem exists_accepted {F : FloatText} {c : TrustedClock} {s : State} {body : DeltaBody} {t : Txn}
    (h : deltaTxn F c s body = some t) : ∃ vs, Accepted F s body vs := by
  unfold deltaTxn at h
  by_cases hguard : s.corrupt = true ∨ s.epoch ≠ some body.deliveryEpoch ∨
      body.sequence ≠ s.acked + 1
  · rw [if_pos hguard] at h
    cases h
  · rw [if_neg hguard, Option.bind_eq_bind, Option.bind_eq_some_iff] at h
    obtain ⟨acc, hacc, -⟩ := h
    push Not at hguard
    have hparse : ∀ (objects : List (Json Text)) (acc acc' : Txn × Table Uuid Occurrence),
        objects.foldlM (deltaObject F c s) acc = some acc' →
        ∃ vs : List Parsed, objects.map (parseObject F) = vs.map .ok := by
      intro objects
      induction objects with
      | nil => exact fun _ _ _ => ⟨[], rfl⟩
      | cons json objects ih =>
          intro acc acc' hfold
          rw [List.foldlM_cons, Option.bind_eq_bind, Option.bind_eq_some_iff] at hfold
          obtain ⟨mid, hmid, hrest⟩ := hfold
          obtain ⟨vs, hvs⟩ := ih mid acc' hrest
          unfold deltaObject at hmid
          cases hp : parseObject F json with
          | error e =>
              rw [hp] at hmid
              cases hmid
          | ok v => exact ⟨v :: vs, by rw [List.map_cons, List.map_cons, hp, hvs]⟩
    obtain ⟨vs, hvs⟩ := hparse body.objects _ acc hacc
    exact ⟨vs, Bool.not_eq_true _ ▸ hguard.1, hguard.2.1, hguard.2.2, hvs⟩

/-! ### The delivered occurrences -/

open Table Table.Change

/-- What an object does to the delivered occurrences. -/
def occChange : Parsed → Change Uuid Occurrence
  | .inl o => ⟨[], [o]⟩
  | .inr t => ⟨[t.occurrenceId], []⟩

theorem objectTxn_occ (c : TrustedClock) (s : State) (v : Parsed) :
    (objectTxn c s v).delOcc = (occChange v).del ∧ (objectTxn c s v).putOcc = (occChange v).put ∧
      (objectTxn c s v).reset = false := by
  cases v with
  | inr tomb => exact ⟨rfl, rfl, rfl⟩
  | inl o =>
      have hf := (Txn.Frames.arm s c o { putOcc := [o] }).trans (Txn.Frames.supersede s o _)
      exact ⟨hf.delOcc, hf.putOcc, hf.reset⟩

/-- The delivered occurrences after a delta are a batch. -/
theorem Carries.apply_occ {c : TrustedClock} {s : State} {vs : List Parsed} {t : Txn}
    (h : Carries c s vs t) :
    (s.apply t).occ = together (·.occurrenceId) s.occ (vs.map occChange) := by
  have hdel : t.delOcc = (vs.map occChange).flatMap del := by
    rw [h.delOcc, List.flatMap_map]
    exact congrArg (List.flatMap · vs) (funext fun v => (objectTxn_occ c s v).1)
  have hput : t.putOcc = (vs.map occChange).flatMap put := by
    rw [h.putOcc, List.flatMap_map]
    exact congrArg (List.flatMap · vs) (funext fun v => (objectTxn_occ c s v).2.1)
  rw [State.apply_occ, h.reset, if_neg Bool.false_ne_true, hdel, hput]
  rfl

/-- One object changes the delivered occurrences by itself. -/
theorem apply_objectTxn_occ (c : TrustedClock) (s : State) (v : Parsed) :
    (s.apply (objectTxn c s v)).occ = (occChange v).apply (·.occurrenceId) s.occ := by
  obtain ⟨hdel, hput, hreset⟩ := objectTxn_occ c s v
  rw [State.apply_occ, hreset, if_neg Bool.false_ne_true, hdel, hput]
  rfl

/-- Object by object, the delivered occurrences change one after the other. -/
theorem applyObjects_occ (c : TrustedClock) (s : State) (vs : List Parsed) :
    (applyObjects c s vs).occ = inOrder (·.occurrenceId) s.occ (vs.map occChange) := by
  induction vs generalizing s with
  | nil => rfl
  | cons v vs ih =>
      change (applyObjects c (s.apply (objectTxn c s v)) vs).occ = _
      rw [ih, apply_objectTxn_occ]
      rfl

/-- No delivery is followed by a tombstone of its id without another object of that id later. -/
def NothingLost (vs : List Parsed) : Prop :=
  ∀ pre t post, vs = pre ++ .inr t :: post →
    (∃ o : Occurrence, .inl o ∈ pre ∧ o.occurrenceId = t.occurrenceId) →
    ∃ w ∈ post, Parsed.id w = t.occurrenceId

theorem occChange_at? (v : Parsed) (k : Uuid) :
    ((occChange v).at? (·.occurrenceId) k).isSome = true ↔
      ∃ o, v = .inl o ∧ o.occurrenceId = k := by
  cases v with
  | inr t =>
      refine iff_of_false Bool.false_ne_true ?_
      rintro ⟨o, h, -⟩
      cases h
  | inl o =>
      rw [occChange, at?_singleton]
      by_cases hk : o.occurrenceId = k
      · rw [if_pos hk]
        exact iff_of_true rfl ⟨o, rfl, hk⟩
      · rw [if_neg hk]
        refine iff_of_false Bool.false_ne_true ?_
        rintro ⟨o', h, hk'⟩
        cases h
        exact hk hk'

/-- An object spares the ids it is not about. -/
theorem occChange_spares (v : Parsed) (k : Uuid) :
    (occChange v).Spares (·.occurrenceId) k ↔ v.id ≠ k := by
  cases v with
  | inr t =>
      refine (and_iff_left (at?_nil _ k)).trans ?_
      rw [occChange, List.mem_singleton]
      exact not_congr eq_comm
  | inl o =>
      refine (and_iff_right List.not_mem_nil).trans ?_
      rw [occChange, at?_singleton]
      by_cases hk : o.occurrenceId = k
      · rw [if_pos hk]
        exact iff_of_false (fun h => by cases h) (fun h => h hk)
      · rw [if_neg hk]
        exact iff_of_true rfl hk

/-- The delivered occurrences come out as they do object by object exactly when nothing is
lost. -/
theorem occ_inOrder_iff {c : TrustedClock} {s : State} {vs : List Parsed} {t : Txn}
    (h : Carries c s vs t) :
    (s.apply t).occ = (applyObjects c s vs).occ ↔ NothingLost vs := by
  rw [h.apply_occ, applyObjects_occ, together_eq_inOrder_iff]
  constructor
  · rintro hlost pre tomb post rfl ⟨o, ho, hid⟩
    by_contra hnone
    refine hlost tomb.occurrenceId (lost_map.mpr ⟨pre, .inr tomb, post, rfl, ?_, ?_, ?_⟩)
    · exact ⟨List.mem_singleton_self _, rfl⟩
    · exact puts_map.mpr ⟨.inl o, ho, (occChange_at? _ _).mpr ⟨o, rfl, hid⟩⟩
    · intro w hw
      exact (occChange_spares w _).mpr fun heq => hnone ⟨w, hw, heq⟩
  · intro hkeep k hl
    obtain ⟨pre, v, post, rfl, hdel, hput, hpost⟩ := lost_map.mp hl
    cases v with
    | inl o => exact absurd hdel.1 List.not_mem_nil
    | inr tomb =>
        obtain rfl : k = tomb.occurrenceId := List.mem_singleton.mp hdel.1
        obtain ⟨w, hw, hsome⟩ := puts_map.mp hput
        obtain ⟨o, rfl, hid⟩ := (occChange_at? w _).mp hsome
        obtain ⟨w', hw', hid'⟩ := hkeep pre tomb post rfl ⟨o, hw, hid⟩
        exact (occChange_spares w' _).mp (hpost w' hw') hid'

/-! ### The local children -/

/-- The object removes the local child `y`. -/
def Settles (s : State) (y : Uuid) : Parsed → Prop
  | .inr t => t.occurrenceId = y
  | .inl o => y ∈ superseded s o

instance (s : State) (y : Uuid) (v : Parsed) : Decidable (Settles s y v) :=
  match v with
  | .inr t => inferInstanceAs (Decidable (t.occurrenceId = y))
  | .inl o => inferInstanceAs (Decidable (y ∈ superseded s o))

theorem mem_superseded {s : State} {o : Occurrence} {y : Uuid} :
    y ∈ superseded s o ↔ ∃ child, s.children[y]? = some child ∧ supersedes o child = true := by
  unfold superseded
  rw [List.mem_map]
  constructor
  · rintro ⟨⟨id, child⟩, he, rfl⟩
    rw [List.mem_filter] at he
    exact ⟨child, Std.ExtTreeMap.mem_toList_iff_getElem?_eq_some.mp he.1, he.2⟩
  · rintro ⟨child, hc, hs⟩
    exact ⟨(y, child), List.mem_filter.mpr
      ⟨Std.ExtTreeMap.mem_toList_iff_getElem?_eq_some.mpr hc, hs⟩, rfl⟩

/-- An object removes a local child with its own id. -/
theorem settles_self {s : State} (hk : s.Keyed) {v : Parsed} {child : LocalChild}
    (hc : s.children[v.id]? = some child) : Settles s v.id v := by
  cases v with
  | inr t => exact rfl
  | inl o =>
      have hid : child.occurrence.occurrenceId = o.occurrenceId := hk.children _ _ hc
      refine mem_superseded.mpr ⟨child, hc, ?_⟩
      rw [supersedes, Bool.or_eq_true, beq_iff_eq]
      exact Or.inl hid.symm

/-- Other objects remove a local child only where there is one. -/
theorem exists_child {s : State} {y : Uuid} {v : Parsed} (h : Settles s y v) (hid : v.id ≠ y) :
    ∃ o child, v = .inl o ∧ s.children[y]? = some child ∧ supersedes o child = true := by
  cases v with
  | inr t => exact absurd h hid
  | inl o =>
      obtain ⟨child, hc, hs⟩ := mem_superseded.mp h
      exact ⟨o, child, rfl, hc, hs⟩

theorem objectTxn_children (c : TrustedClock) {s : State} (hk : s.Keyed) (v : Parsed) (y : Uuid) :
    (y ∈ (objectTxn c s v).delChildren ↔ Settles s y v) ∧ (objectTxn c s v).putChildren = [] := by
  cases v with
  | inr t => exact ⟨List.mem_singleton.trans eq_comm, rfl⟩
  | inl o =>
      rw [objectTxn_occurrence hk.armed]
      exact ⟨Iff.rfl, rfl⟩

theorem apply_objectTxn_children (c : TrustedClock) {s : State} (hk : s.Keyed) (v : Parsed)
    (y : Uuid) :
    (s.apply (objectTxn c s v)).children[y]? = if Settles s y v then none else s.children[y]? := by
  obtain ⟨hdel, hput⟩ := objectTxn_children c hk v y
  change (Table.putAll _ (Table.deleteAll s.children _) _)[y]? = _
  rw [hput, Table.putAll_nil, Table.getElem?_deleteAll]
  by_cases h : Settles s y v
  · rw [if_pos (hdel.mpr h), if_pos h]
  · rw [if_neg (hdel.not.mpr h), if_neg h]

theorem applyObjects_concat (c : TrustedClock) (s : State) (vs : List Parsed) (v : Parsed) :
    applyObjects c s (vs ++ [v]) =
      (applyObjects c s vs).apply (objectTxn c (applyObjects c s vs) v) := List.foldl_append

theorem applyObjects_append (c : TrustedClock) (s : State) (vs ws : List Parsed) :
    applyObjects c s (vs ++ ws) = applyObjects c (applyObjects c s vs) ws := List.foldl_append

theorem keyed_applyObjects (c : TrustedClock) {s : State} (hk : s.Keyed) (vs : List Parsed) :
    (applyObjects c s vs).Keyed := by
  induction vs generalizing s with
  | nil => exact hk
  | cons v vs ih => exact ih (hk.apply _)

/-- Object by object, a local child goes with the first object that removes it. -/
theorem applyObjects_children (c : TrustedClock) {s : State} (hk : s.Keyed) (vs : List Parsed)
    (y : Uuid) :
    (applyObjects c s vs).children[y]? =
      if ∃ v ∈ vs, Settles s y v then none else s.children[y]? := by
  induction vs using List.reverseRecOn with
  | nil =>
      rw [if_neg]
      · rfl
      · rintro ⟨v, hv, -⟩
        exact List.not_mem_nil hv
  | append_singleton vs v ih =>
      rw [applyObjects_concat, apply_objectTxn_children c (keyed_applyObjects c hk vs), ih]
      by_cases hbefore : ∃ w ∈ vs, Settles s y w
      · have hafter : ∃ w ∈ vs ++ [v], Settles s y w := by
          obtain ⟨w, hw, hs⟩ := hbefore
          exact ⟨w, List.mem_append_left _ hw, hs⟩
        rw [if_pos hbefore, if_pos hafter, ite_self]
      · rw [if_neg hbefore]
        rw [if_neg hbefore] at ih
        -- While the child is there, the objects remove it as they would from the start.
        have hsame : Settles (applyObjects c s vs) y v ↔ Settles s y v := by
          cases v with
          | inr t => exact Iff.rfl
          | inl o =>
              refine mem_superseded.trans (Iff.trans ?_ mem_superseded.symm)
              rw [ih]
        refine if_congr (hsame.trans ?_) rfl rfl
        constructor
        · exact fun h => ⟨v, List.mem_append_right _ (List.mem_singleton_self v), h⟩
        · rintro ⟨w, hw, h⟩
          rcases List.mem_append.mp hw with hw | hw
          · exact absurd ⟨w, hw, h⟩ hbefore
          · exact List.mem_singleton.mp hw ▸ h

/-- Object by object, a child that is already removed is not removed again. -/
theorem mem_superseded_applyObjects (c : TrustedClock) {s : State} (hk : s.Keyed)
    (vs : List Parsed) (o : Occurrence) (y : Uuid) :
    y ∈ superseded (applyObjects c s vs) o ↔
      y ∈ superseded s o ∧ ¬ ∃ v ∈ vs, Settles s y v := by
  rw [mem_superseded, mem_superseded, applyObjects_children c hk]
  by_cases h : ∃ v ∈ vs, Settles s y v
  · rw [if_pos h]
    refine iff_of_false ?_ (fun hand => hand.2 h)
    rintro ⟨child, hc, -⟩
    cases hc
  · rw [if_neg h]
    exact (and_iff_left h).symm

/-! ### The armed records -/

/-- What an object does to the armed records. -/
def armedChange (c : TrustedClock) (s : State) (v : Parsed) : Change Uuid ArmedRecord :=
  ⟨(objectTxn c s v).delArmed, (objectTxn c s v).putArmed⟩

theorem mem_armedChange_del {c : TrustedClock} {s : State} (hk : s.Keyed) {v : Parsed} {z : Uuid} :
    z ∈ (armedChange c s v).del ↔ Settles s z v := by
  cases v with
  | inr t => exact List.mem_singleton.trans eq_comm
  | inl o =>
      unfold armedChange
      rw [objectTxn_occurrence hk.armed]
      exact Iff.rfl

theorem newlyArmed_id {s : State} {c : TrustedClock} {o : Occurrence} {r : ArmedRecord}
    (h : newlyArmed s c o = some r) : armedRecord c o = some r ∧ r.occurrenceId = o.occurrenceId ∧
      s.armed[o.occurrenceId]? ≠ some r := by
  unfold newlyArmed at h
  rw [Option.filter_eq_some_iff, decide_eq_true_eq] at h
  refine ⟨h.1, ?_, h.2⟩
  have hrec := h.1
  unfold armedRecord at hrec
  obtain ⟨due, -, rfl⟩ := Option.map_eq_some_iff.mp hrec
  rfl

theorem armedChange_put {c : TrustedClock} {s : State} (hk : s.Keyed) (v : Parsed) :
    (armedChange c s v).put =
      match v with
      | .inr _ => []
      | .inl o => (newlyArmed s c o).toList := by
  cases v with
  | inr t => rfl
  | inl o =>
      unfold armedChange
      rw [objectTxn_occurrence hk.armed]

/-- A delivery puts the record it arms under its own id, and nothing elsewhere. -/
theorem armedChange_at? {c : TrustedClock} {s : State} (hk : s.Keyed) (v : Parsed) (z : Uuid) :
    (armedChange c s v).at? (·.occurrenceId) z =
      match v with
      | .inr _ => none
      | .inl o => if o.occurrenceId = z then newlyArmed s c o else none := by
  unfold Change.at?
  rw [armedChange_put hk]
  cases v with
  | inr t => rfl
  | inl o =>
      dsimp only
      cases hn : newlyArmed s c o with
      | none =>
          rw [ite_self]
          rfl
      | some r =>
          rw [← (newlyArmed_id hn).2.1]
          exact at?_singleton [] r z

/-- Only deliveries of an id put its armed record. -/
theorem puts_armed {c : TrustedClock} {s : State} (hk : s.Keyed) {vs : List Parsed} {z : Uuid} :
    Puts (·.occurrenceId) (vs.map (armedChange c s)) z ↔
      ∃ o, .inl o ∈ vs ∧ o.occurrenceId = z ∧ (newlyArmed s c o).isSome = true := by
  rw [puts_map]
  constructor
  · rintro ⟨v, hv, hs⟩
    rw [armedChange_at? hk] at hs
    cases v with
    | inr t => cases hs
    | inl o =>
        dsimp only at hs
        by_cases hid : o.occurrenceId = z
        · rw [if_pos hid] at hs
          exact ⟨o, hv, hid, hs⟩
        · rw [if_neg hid] at hs
          cases hs
  · rintro ⟨o, hv, hid, hs⟩
    refine ⟨.inl o, hv, ?_⟩
    rw [armedChange_at? hk]
    dsimp only
    rw [if_pos hid]
    exact hs

theorem mem_armed_dels {c : TrustedClock} {s : State} (hk : s.Keyed) {vs : List Parsed} {z : Uuid} :
    z ∈ (vs.map (armedChange c s)).flatMap del ↔ ∃ v ∈ vs, Settles s z v := by
  rw [List.flatMap_map, List.mem_flatMap]
  exact exists_congr fun v => and_congr_right fun _ => mem_armedChange_del hk

/-- The armed records after a delta are a batch. -/
theorem Carries.apply_armed {c : TrustedClock} {s : State} {vs : List Parsed} {t : Txn}
    (h : Carries c s vs t) :
    (s.apply t).armed = together (·.occurrenceId) s.armed (vs.map (armedChange c s)) := by
  change Table.putAll _ (Table.deleteAll (if t.reset then ∅ else s.armed) t.delArmed) t.putArmed = _
  rw [h.reset, if_neg Bool.false_ne_true, h.delArmed, h.putArmed]
  unfold together
  rw [List.flatMap_map, List.flatMap_map]
  rfl

/-- Object by object, each object changes the armed records by itself. -/
theorem apply_objectTxn_armed (c : TrustedClock) {s : State} (hk : s.Keyed) (v : Parsed)
    (z : Uuid) :
    (s.apply (objectTxn c s v)).armed[z]? = ((armedChange c s v).at? (·.occurrenceId) z).or
      (if Settles s z v then none else s.armed[z]?) := by
  change (Table.putAll _ (Table.deleteAll (if (objectTxn c s v).reset then ∅ else s.armed) _) _)[z]?
    = _
  rw [(objectTxn_occ c s v).2.2, if_neg Bool.false_ne_true]
  refine (getElem?_apply s.armed (armedChange c s v) z).trans ?_
  by_cases h : Settles s z v
  · rw [if_pos ((mem_armedChange_del hk).mpr h), if_pos h]
  · rw [if_neg ((mem_armedChange_del hk).not.mpr h), if_neg h]

/-- Where nothing is armed, the objects only remove the record, one by one as at once. -/
theorem applyObjects_armed_of_none {c : TrustedClock} {s : State} (hk : s.Keyed)
    {vs : List Parsed} {z : Uuid}
    (h : ∀ o, .inl o ∈ vs → o.occurrenceId = z → armedRecord c o = none) :
    (applyObjects c s vs).armed[z]? =
      if ∃ v ∈ vs, Settles s z v then none else s.armed[z]? := by
  induction vs using List.reverseRecOn with
  | nil =>
      rw [if_neg]
      · rfl
      · rintro ⟨v, hv, -⟩
        exact List.not_mem_nil hv
  | append_singleton vs v ih =>
      have hkept := ih fun o ho => h o (List.mem_append_left _ ho)
      have hat : (armedChange c (applyObjects c s vs) v).at? (·.occurrenceId) z = none := by
        rw [armedChange_at? (keyed_applyObjects c hk vs)]
        cases v with
        | inr t => rfl
        | inl o =>
            dsimp only
            by_cases hid : o.occurrenceId = z
            · rw [if_pos hid, newlyArmed,
                h o (List.mem_append_right _ (List.mem_singleton_self _)) hid]
              rfl
            · rw [if_neg hid]
      rw [applyObjects_concat, apply_objectTxn_armed c (keyed_applyObjects c hk vs), hat,
        Option.none_or, hkept]
      by_cases hbefore : ∃ w ∈ vs, Settles s z w
      · have hafter : ∃ w ∈ vs ++ [v], Settles s z w := by
          obtain ⟨w, hw, hs⟩ := hbefore
          exact ⟨w, List.mem_append_left _ hw, hs⟩
        rw [if_pos hbefore, if_pos hafter, ite_self]
      · rw [if_neg hbefore]
        have hsame : Settles (applyObjects c s vs) z v ↔ ∃ w ∈ vs ++ [v], Settles s z w := by
          have hnow : Settles (applyObjects c s vs) z v ↔ Settles s z v := by
            cases v with
            | inr t => exact Iff.rfl
            | inl o => exact (mem_superseded_applyObjects c hk vs o z).trans (and_iff_left hbefore)
          refine hnow.trans ⟨fun hs => ⟨v, List.mem_append_right _ (List.mem_singleton_self v), hs⟩, ?_⟩
          rintro ⟨w, hw, hs⟩
          rcases List.mem_append.mp hw with hw | hw
          · exact absurd ⟨w, hw, hs⟩ hbefore
          · exact List.mem_singleton.mp hw ▸ hs
        exact if_congr hsame rfl rfl

/-- The same of the batch, where nothing is newly armed. -/
theorem together_armed_of_none {c : TrustedClock} {s : State} (hk : s.Keyed) {vs : List Parsed}
    {z : Uuid} (h : ¬ Puts (·.occurrenceId) (vs.map (armedChange c s)) z) :
    (together (·.occurrenceId) s.armed (vs.map (armedChange c s)))[z]? =
      if ∃ v ∈ vs, Settles s z v then none else s.armed[z]? := by
  rw [getElem?_together_of_not_puts h]
  by_cases hs : ∃ v ∈ vs, Settles s z v
  · rw [if_pos hs, if_pos ((mem_armed_dels hk).mpr hs)]
  · rw [if_neg hs, if_neg ((mem_armed_dels hk).not.mpr hs)]

/-- No delivery of the id arms anything. -/
theorem not_puts_armed {c : TrustedClock} {s : State} (hk : s.Keyed) {vs : List Parsed} {z : Uuid}
    (h : ∀ o, .inl o ∈ vs → o.occurrenceId = z → armedRecord c o = none) :
    ¬ Puts (·.occurrenceId) (vs.map (armedChange c s)) z := by
  intro hput
  obtain ⟨o, ho, hid, hs⟩ := (puts_armed hk).mp hput
  rw [newlyArmed, h o ho hid] at hs
  cases hs

/-! ### When the armed records come out the same -/

/-- An object before the last delivery of `z` that leaves its record `r` unarmed in the batch: it
removes the record, or arms another. -/
def Unarms (c : TrustedClock) (s : State) (z : Uuid) (r : ArmedRecord) (w : Parsed) : Prop :=
  Settles s z w ∨ ∃ o, w = .inl o ∧ o.occurrenceId = z ∧ armedRecord c o ≠ some r

/-- Where the last object of an id is a delivery whose deadline is armed already, no object before
it removes that record or delivers the id with another. -/
def StaysArmed (c : TrustedClock) (s : State) (vs : List Parsed) : Prop :=
  ∀ pre o post r, vs = pre ++ .inl o :: post → (∀ w ∈ post, Parsed.id w ≠ o.occurrenceId) →
    armedRecord c o = some r → s.armed[o.occurrenceId]? = some r →
    ∀ w ∈ pre, ¬ Unarms c s o.occurrenceId r w

/-- Whether UTC is trusted does not depend on the occurrence. -/
theorem armedRecord_eq_none {c : TrustedClock} {o : Occurrence} (h : armedRecord c o = none)
    (o' : Occurrence) : armedRecord c o' = none := by
  unfold armedRecord TrustedClock.monoAtUtc at h ⊢
  by_cases ht : c.trusted = true
  · rw [if_pos ht] at h
    cases h
  · rw [if_neg ht]
    rfl

/-- A child of an id is removed by its delivery. -/
theorem mem_superseded_self {s : State} (hk : s.Keyed) {o : Occurrence} :
    o.occurrenceId ∈ superseded s o ↔ (s.children[o.occurrenceId]?).isSome = true := by
  constructor
  · intro h
    obtain ⟨child, hc, -⟩ := mem_superseded.mp h
    rw [hc]
    rfl
  · intro h
    obtain ⟨child, hc⟩ := Option.isSome_iff_exists.mp h
    exact settles_self (v := .inl o) hk hc

/-- The record of an id after its last delivery, in the batch. -/
theorem together_armed_last {c : TrustedClock} {s : State} (hk : s.Keyed) {pre post : List Parsed}
    {o : Occurrence} (hpost : ∀ w ∈ post, Parsed.id w ≠ o.occurrenceId)
    [Decidable (Puts (·.occurrenceId) (pre.map (armedChange c s)) o.occurrenceId)] :
    (together (·.occurrenceId) s.armed ((pre ++ .inl o :: post).map (armedChange c s)))[o.occurrenceId]? =
      (newlyArmed s c o).or
        (if o.occurrenceId ∈ superseded s o ∧
            ¬ Puts (·.occurrenceId) (pre.map (armedChange c s)) o.occurrenceId then none
        else (together (·.occurrenceId) s.armed (pre.map (armedChange c s)))[o.occurrenceId]?) := by
  classical
  have hnot : ¬ Puts (·.occurrenceId) (post.map (armedChange c s)) o.occurrenceId := by
    intro hput
    obtain ⟨o', ho', hid, -⟩ := (puts_armed hk).mp hput
    exact hpost _ ho' hid
  have hdels : o.occurrenceId ∈ ((Sum.inl o :: post).map (armedChange c s)).flatMap del ↔
      o.occurrenceId ∈ superseded s o := by
    rw [mem_armed_dels hk]
    constructor
    · rintro ⟨w, hw, hs⟩
      rcases List.mem_cons.mp hw with rfl | hw
      · exact hs
      · obtain ⟨-, child, -, hc, -⟩ := exists_child hs (hpost w hw)
        rw [mem_superseded_self hk, hc]
        rfl
    · exact fun h => ⟨_, List.mem_cons_self, h⟩
  rw [List.map_append, getElem?_together_append]
  congr 1
  · rw [List.map_cons, List.flatMap_cons, List.filter_append, filter_put_eq_nil.mpr hnot,
      List.append_nil]
    exact (armedChange_at? hk (.inl o) o.occurrenceId).trans (if_pos rfl)
  · simp only [hdels]

/-- The record of an id after its last delivery, object by object. -/
theorem applyObjects_armed_last {c : TrustedClock} {s : State} (hk : s.Keyed)
    {pre post : List Parsed} {o : Occurrence}
    (hpost : ∀ w ∈ post, Parsed.id w ≠ o.occurrenceId) :
    (applyObjects c s (pre ++ .inl o :: post)).armed[o.occurrenceId]? =
      (newlyArmed (applyObjects c s pre) c o).or
        (if o.occurrenceId ∈ superseded (applyObjects c s pre) o then none
        else (applyObjects c s pre).armed[o.occurrenceId]?) := by
  have hkp := keyed_applyObjects c hk pre
  have hsplit : pre ++ Sum.inl o :: post = (pre ++ [Sum.inl o]) ++ post := by
    rw [List.append_assoc, List.singleton_append]
  rw [hsplit, applyObjects_append]
  have hk' := keyed_applyObjects c hk (pre ++ [Sum.inl o])
  -- The delivery leaves no child of its id, so nothing after it removes the record.
  have hchild : (applyObjects c s (pre ++ [Sum.inl o])).children[o.occurrenceId]? = none := by
    rw [applyObjects_concat, apply_objectTxn_children c hkp]
    by_cases hs : Settles (applyObjects c s pre) o.occurrenceId (.inl o)
    · rw [if_pos hs]
    · rw [if_neg hs]
      exact Option.not_isSome_iff_eq_none.mp ((mem_superseded_self hkp).not.mp hs)
  rw [applyObjects_armed_of_none hk', if_neg, applyObjects_concat,
    apply_objectTxn_armed c hkp, armedChange_at? hkp]
  · dsimp only
    rw [if_pos rfl]
    rfl
  · rintro ⟨w, hw, hs⟩
    obtain ⟨-, child, -, hc, -⟩ := exists_child hs (hpost w hw)
    rw [hchild] at hc
    cases hc
  · exact fun o' ho' hid => absurd hid (hpost _ ho')

/-- Where the clock is not trusted, a delivery arms nothing, and the record goes with the first
object that removes it. -/
theorem armed_last_untrusted {c : TrustedClock} {s : State} (hk : s.Keyed) {vs : List Parsed}
    {o : Occurrence} (hr : armedRecord c o = none) (z : Uuid) :
    (together (·.occurrenceId) s.armed (vs.map (armedChange c s)))[z]? =
      (applyObjects c s vs).armed[z]? := by
  have hnone : ∀ o, .inl o ∈ vs → o.occurrenceId = z → armedRecord c o = none :=
    fun o' _ _ => armedRecord_eq_none hr o'
  rw [together_armed_of_none hk (not_puts_armed hk hnone), applyObjects_armed_of_none hk hnone]

/-- A record the batch puts under an id is not the one that was there. -/
theorem together_armed_ne {c : TrustedClock} {s : State} (hk : s.Keyed) {vs : List Parsed}
    {z : Uuid} {r : ArmedRecord} (hput : Puts (·.occurrenceId) (vs.map (armedChange c s)) z)
    (h : (together (·.occurrenceId) s.armed (vs.map (armedChange c s)))[z]? = some r) :
    s.armed[z]? ≠ some r := by
  rw [together, getElem?_putAll_getLast?] at h
  have hne := mt filter_put_eq_nil.mp (not_not_intro hput)
  obtain ⟨r', hr'⟩ := Option.isSome_iff_exists.mp (List.getLast?_isSome.mpr hne)
  rw [hr'] at h
  obtain rfl : r' = r := Option.some.inj h
  obtain ⟨hmem, hid⟩ := List.mem_filter.mp (List.mem_of_getLast? hr')
  rw [decide_eq_true_eq] at hid
  rw [List.flatMap_map, List.mem_flatMap] at hmem
  obtain ⟨v, -, hv⟩ := hmem
  rw [armedChange_put hk] at hv
  cases v with
  | inr t => cases hv
  | inl o =>
      obtain ⟨-, hid', hnot⟩ := newlyArmed_id (Option.mem_toList.mp hv)
      rw [← hid', hid] at hnot
      exact hnot

theorem newlyArmed_eq {c : TrustedClock} {o : Occurrence} {r : ArmedRecord}
    (hr : armedRecord c o = some r) (s : State) :
    newlyArmed s c o = if s.armed[o.occurrenceId]? = some r then none else some r := by
  rw [newlyArmed, hr, Option.filter_some]
  by_cases h : s.armed[o.occurrenceId]? = some r
  · rw [if_pos h, if_neg (by simpa using h)]
  · rw [if_neg h, if_pos (by simpa using h)]

/-- Object by object the last delivery of an id leaves its record, unless it removes the armed
child it delivers. -/
theorem applyObjects_armed_delivered {c : TrustedClock} {s : State} (hk : s.Keyed)
    {pre post : List Parsed} {o : Occurrence} {r : ArmedRecord}
    (hpost : ∀ w ∈ post, Parsed.id w ≠ o.occurrenceId) (hr : armedRecord c o = some r) :
    (applyObjects c s (pre ++ .inl o :: post)).armed[o.occurrenceId]? =
      if s.armed[o.occurrenceId]? = some r ∧ o.occurrenceId ∈ superseded s o ∧
        ¬ ∃ v ∈ pre, Settles s o.occurrenceId v then none else some r := by
  rw [applyObjects_armed_last hk hpost, newlyArmed_eq hr]
  have hmem := mem_superseded_applyObjects c hk pre o o.occurrenceId
  by_cases hown : o.occurrenceId ∈ superseded (applyObjects c s pre) o
  · have hfirst := hmem.mp hown
    obtain ⟨child, hc, -⟩ := mem_superseded.mp hfirst.1
    -- An object of this id would have removed the child.
    have hnone : ∀ o', .inl o' ∈ pre → o'.occurrenceId = o.occurrenceId →
        armedRecord c o' = none := by
      intro o' ho' hid
      refine absurd ⟨.inl o', ho', ?_⟩ hfirst.2
      rw [← hid] at hc ⊢
      exact settles_self (v := .inl o') hk hc
    have hkept : (applyObjects c s pre).armed[o.occurrenceId]? = s.armed[o.occurrenceId]? := by
      rw [applyObjects_armed_of_none hk hnone, if_neg hfirst.2]
    rw [hkept, if_pos hown]
    by_cases h : s.armed[o.occurrenceId]? = some r
    · rw [if_pos h, if_pos ⟨h, hfirst⟩]
      rfl
    · rw [if_neg h, if_neg fun hand : _ ∧ _ => h hand.1]
      rfl
  · rw [if_neg hown, if_neg fun hand : _ ∧ _ => hown (hmem.mpr hand.2)]
    by_cases h : (applyObjects c s pre).armed[o.occurrenceId]? = some r
    · rw [if_pos h, h]
      rfl
    · rw [if_neg h]
      rfl

/-- Where the deadline is armed already, the objects before the delivery that unarm it are those
that remove its record, or the batch arms another. -/
theorem unarms_iff {c : TrustedClock} {s : State} (hk : s.Keyed) {pre : List Parsed}
    {o : Occurrence} {r : ArmedRecord} (hr : armedRecord c o = some r)
    (harmed : s.armed[o.occurrenceId]? = some r) :
    (∃ w ∈ pre, Unarms c s o.occurrenceId r w) ↔
      (∃ w ∈ pre, Settles s o.occurrenceId w) ∨
        Puts (·.occurrenceId) (pre.map (armedChange c s)) o.occurrenceId := by
  constructor
  · rintro ⟨w, hw, hs | ⟨o', rfl, hid, hne⟩⟩
    · exact Or.inl ⟨w, hw, hs⟩
    · refine Or.inr ((puts_armed hk).mpr ⟨o', hw, hid, ?_⟩)
      cases hrec : armedRecord c o' with
      | none =>
          rw [armedRecord_eq_none hrec o] at hr
          cases hr
      | some r' =>
          rw [newlyArmed_eq hrec, hid, harmed, if_neg]
          · rfl
          · rintro heq
            rw [hrec, ← heq] at hne
            exact hne rfl
  · rintro (⟨w, hw, hs⟩ | hput)
    · exact ⟨w, hw, Or.inl hs⟩
    · obtain ⟨o', ho', hid, hs⟩ := (puts_armed hk).mp hput
      refine ⟨.inl o', ho', Or.inr ⟨o', rfl, hid, fun heq => ?_⟩⟩
      rw [newlyArmed_eq heq, hid, if_pos harmed] at hs
      cases hs

/-- An id whose last object is a delivery comes out as it does object by object, unless the
delivery finds its deadline armed already and an object before it unarms it. -/
theorem armed_last_iff {c : TrustedClock} {s : State} (hk : s.Keyed) {pre post : List Parsed}
    {o : Occurrence} (hpost : ∀ w ∈ post, Parsed.id w ≠ o.occurrenceId) :
    (together (·.occurrenceId) s.armed ((pre ++ .inl o :: post).map (armedChange c s)))[o.occurrenceId]?
        = (applyObjects c s (pre ++ .inl o :: post)).armed[o.occurrenceId]? ↔
      ∀ r, armedRecord c o = some r → s.armed[o.occurrenceId]? = some r →
        ¬ ∃ w ∈ pre, Unarms c s o.occurrenceId r w := by
  classical
  cases hr : armedRecord c o with
  | none => exact iff_of_true (armed_last_untrusted hk hr _) (fun r h => by cases h)
  | some r =>
      rw [together_armed_last hk hpost, applyObjects_armed_delivered hk hpost hr, newlyArmed_eq hr]
      by_cases harmed : s.armed[o.occurrenceId]? = some r
      · have hall : (∀ r', some r = some r' → s.armed[o.occurrenceId]? = some r' →
            ¬ ∃ w ∈ pre, Unarms c s o.occurrenceId r' w) ↔
            ¬ ((∃ w ∈ pre, Settles s o.occurrenceId w) ∨
              Puts (·.occurrenceId) (pre.map (armedChange c s)) o.occurrenceId) := by
          rw [← unarms_iff hk hr harmed]
          exact ⟨fun h => h r rfl harmed, fun h r' hr' _ => Option.some.inj hr' ▸ h⟩
        rw [hall, if_pos harmed, Option.none_or]
        by_cases hput : Puts (·.occurrenceId) (pre.map (armedChange c s)) o.occurrenceId
        · -- An earlier delivery armed another record, which the batch keeps.
          obtain ⟨r', hr'⟩ := Option.isSome_iff_exists.mp (isSome_together (t := s.armed) hput)
          have hne : s.armed[o.occurrenceId]? ≠ some r' := together_armed_ne hk hput hr'
          rw [if_neg fun h : _ ∧ ¬ _ => h.2 hput, hr']
          refine iff_of_false (fun h => ?_) (not_not_intro (Or.inr hput))
          by_cases hown : s.armed[o.occurrenceId]? = some r ∧ o.occurrenceId ∈ superseded s o ∧
              ¬ ∃ v ∈ pre, Settles s o.occurrenceId v
          · rw [if_pos hown] at h
            cases h
          · rw [if_neg hown] at h
            exact hne (harmed.trans h.symm)
        · rw [together_armed_of_none hk hput, harmed, or_iff_left hput]
          by_cases hs : ∃ v ∈ pre, Settles s o.occurrenceId v
          · rw [if_pos hs, ite_self, if_neg fun h : _ ∧ _ ∧ ¬ _ => h.2.2 hs]
            exact iff_of_false (fun h => by cases h) (not_not_intro hs)
          · rw [if_neg hs]
            refine iff_of_true ?_ hs
            by_cases hown : o.occurrenceId ∈ superseded s o
            · rw [if_pos ⟨hown, hput⟩, if_pos ⟨rfl, hown, hs⟩]
            · rw [if_neg fun h : _ ∧ _ => hown h.1, if_neg fun h : _ ∧ _ ∧ _ => hown h.2.1]
      · rw [if_neg harmed, if_neg fun h : _ ∧ _ => harmed h.1]
        exact iff_of_true rfl fun r' hr' h => absurd (Option.some.inj hr' ▸ h) harmed

/-- The last object of an id splits the list. -/
theorem exists_last {vs : List Parsed} {z : Uuid} (h : ∃ v ∈ vs, Parsed.id v = z) :
    ∃ pre v post, vs = pre ++ v :: post ∧ Parsed.id v = z ∧ ∀ w ∈ post, Parsed.id w ≠ z := by
  induction vs using List.reverseRecOn with
  | nil =>
      obtain ⟨v, hv, -⟩ := h
      cases hv
  | append_singleton vs v ih =>
      by_cases hid : Parsed.id v = z
      · exact ⟨vs, v, [], rfl, hid, fun w hw => absurd hw List.not_mem_nil⟩
      · have hvs : ∃ w ∈ vs, Parsed.id w = z := by
          obtain ⟨w, hw, hwid⟩ := h
          rcases List.mem_append.mp hw with hw | hw
          · exact ⟨w, hw, hwid⟩
          · exact absurd (List.mem_singleton.mp hw ▸ hwid) hid
        obtain ⟨pre, u, post, rfl, hu, hpost⟩ := ih hvs
        refine ⟨pre, u, post ++ [v], List.append_assoc pre (u :: post) [v], hu, fun w hw => ?_⟩
        rcases List.mem_append.mp hw with hw | hw
        · exact hpost w hw
        · exact List.mem_singleton.mp hw ▸ hid

/-- With nothing lost, the armed records come out as they do object by object exactly when every
delivery stays armed. -/
theorem armed_inOrder_iff {c : TrustedClock} {s : State} (hk : s.Keyed) {vs : List Parsed} {t : Txn}
    (h : Carries c s vs t) (hkeep : NothingLost vs) :
    (s.apply t).armed = (applyObjects c s vs).armed ↔ StaysArmed c s vs := by
  rw [h.apply_armed]
  constructor
  · rintro heq pre o post r rfl hpost hr harmed
    have hlast := (armed_last_iff hk hpost).mp (by rw [heq]) r hr harmed
    exact fun w hw hu => hlast ⟨w, hw, hu⟩
  · intro hstay
    refine Std.ExtTreeMap.ext_getElem? fun z => ?_
    by_cases hdel : ∃ o, .inl o ∈ vs ∧ o.occurrenceId = z
    · obtain ⟨o, ho, hid⟩ := hdel
      obtain ⟨pre, v, post, rfl, hv, hpost⟩ := exists_last ⟨.inl o, ho, hid⟩
      cases v with
      | inl o' =>
          subst hv
          refine (armed_last_iff hk hpost).mpr fun r hr harmed => ?_
          rintro ⟨w, hw, hu⟩
          exact hstay pre o' post r rfl hpost hr harmed w hw hu
      | inr tomb =>
          have hbefore : .inl o ∈ pre := by
            rcases List.mem_append.mp ho with hm | hm
            · exact hm
            · rcases List.mem_cons.mp hm with hm | hm
              · cases hm
              · exact absurd hid (hpost _ hm)
          obtain ⟨w, hw, hwid⟩ := hkeep pre tomb post rfl ⟨o, hbefore, hid.trans hv.symm⟩
          exact absurd (hwid.trans hv) (hpost w hw)
    · have hnone : ∀ o, .inl o ∈ vs → o.occurrenceId = z → armedRecord c o = none :=
        fun o ho hid => absurd ⟨o, ho, hid⟩ hdel
      rw [together_armed_of_none hk (not_puts_armed hk hnone), applyObjects_armed_of_none hk hnone]

/-! ### The ring records -/

/-- What an object does to the ring records. -/
def ringChange (c : TrustedClock) (s : State) (v : Parsed) : Change Uuid RingRecord :=
  ⟨(objectTxn c s v).delRings, (objectTxn c s v).putRings⟩

/-- The record a delivery moves to its own id: that of the last child it replaces. -/
def movedRing (s : State) (o : Occurrence) : Option RingRecord :=
  (moved s o).getLast?.map fun e => e.2.move o.occurrenceId

theorem mem_moved {s : State} {o : Occurrence} {y : Uuid} {r : RingRecord} :
    (y, r) ∈ moved s o ↔
      y ∈ superseded s o ∧ y ≠ o.occurrenceId ∧ s.rings[y]? = some r := by
  unfold moved
  rw [List.mem_filterMap]
  constructor
  · rintro ⟨⟨id, child⟩, he, hm⟩
    unfold movedBy at hm
    by_cases h : supersedes o child ∧ id ≠ o.occurrenceId
    · rw [if_pos h] at hm
      obtain ⟨r', hr', heq⟩ := Option.map_eq_some_iff.mp hm
      cases heq
      exact ⟨mem_superseded.mpr ⟨child, Std.ExtTreeMap.mem_toList_iff_getElem?_eq_some.mp he, h.1⟩,
        h.2, hr'⟩
    · rw [if_neg h] at hm
      cases hm
  · rintro ⟨hy, hne, hr⟩
    obtain ⟨child, hc, hs⟩ := mem_superseded.mp hy
    refine ⟨(y, child), Std.ExtTreeMap.mem_toList_iff_getElem?_eq_some.mpr hc, ?_⟩
    rw [movedBy, if_pos ⟨hs, hne⟩, hr]
    rfl

theorem mem_moved_ids {s : State} {o : Occurrence} {y : Uuid} :
    y ∈ (moved s o).map (·.1) ↔
      y ∈ superseded s o ∧ y ≠ o.occurrenceId ∧ (s.rings[y]?).isSome = true := by
  rw [List.mem_map]
  constructor
  · rintro ⟨⟨id, r⟩, he, rfl⟩
    obtain ⟨hy, hne, hr⟩ := mem_moved.mp he
    exact ⟨hy, hne, by rw [hr]; rfl⟩
  · rintro ⟨hy, hne, hr⟩
    obtain ⟨r, hr⟩ := Option.isSome_iff_exists.mp hr
    exact ⟨(y, r), mem_moved.mpr ⟨hy, hne, hr⟩, rfl⟩

/-- The ids whose ring record an object removes. -/
theorem mem_ringChange_del {c : TrustedClock} {s : State} (hk : s.Keyed) {v : Parsed} {z : Uuid} :
    z ∈ (ringChange c s v).del ↔
      match v with
      | .inr t => t.occurrenceId = z
      | .inl o => z ∈ (moved s o).map (·.1) := by
  cases v with
  | inr t => exact List.mem_singleton.trans eq_comm
  | inl o =>
      unfold ringChange
      rw [objectTxn_occurrence hk.armed]

/-- A delivery puts the record it moves under its own id, and nothing elsewhere. -/
theorem ringChange_at? {c : TrustedClock} {s : State} (hk : s.Keyed) (v : Parsed) (z : Uuid) :
    (ringChange c s v).at? (·.occurrenceId) z =
      match v with
      | .inr _ => none
      | .inl o => if o.occurrenceId = z then movedRing s o else none := by
  cases v with
  | inr t => rfl
  | inl o =>
      unfold ringChange Change.at?
      rw [objectTxn_occurrence hk.armed]
      dsimp only
      rw [List.filter_map]
      by_cases hid : o.occurrenceId = z
      · have hall : ∀ e ∈ moved s o, ((decide <| ·.occurrenceId = z) ∘
            fun e : Uuid × RingRecord => e.2.move o.occurrenceId) e = true :=
          fun e _ => decide_eq_true hid
        rw [if_pos hid, List.filter_eq_self.mpr hall, List.getLast?_map]
        rfl
      · have hall : ∀ e ∈ moved s o, ¬ ((decide <| ·.occurrenceId = z) ∘
            fun e : Uuid × RingRecord => e.2.move o.occurrenceId) e = true :=
          fun e _ h => hid (of_decide_eq_true h)
        rw [if_neg hid, List.filter_eq_nil_iff.mpr hall]
        rfl

theorem movedRing_isSome {s : State} {o : Occurrence} :
    (movedRing s o).isSome = true ↔ moved s o ≠ [] := by
  rw [movedRing, Option.isSome_map, List.getLast?_isSome]

/-- Only deliveries that move a record put one. -/
theorem puts_ring {c : TrustedClock} {s : State} (hk : s.Keyed) {vs : List Parsed} {z : Uuid} :
    Puts (·.occurrenceId) (vs.map (ringChange c s)) z ↔
      ∃ o, .inl o ∈ vs ∧ o.occurrenceId = z ∧ moved s o ≠ [] := by
  rw [puts_map]
  constructor
  · rintro ⟨v, hv, hs⟩
    rw [ringChange_at? hk] at hs
    cases v with
    | inr t => cases hs
    | inl o =>
        dsimp only at hs
        by_cases hid : o.occurrenceId = z
        · rw [if_pos hid] at hs
          exact ⟨o, hv, hid, movedRing_isSome.mp hs⟩
        · rw [if_neg hid] at hs
          cases hs
  · rintro ⟨o, hv, hid, hs⟩
    refine ⟨.inl o, hv, ?_⟩
    rw [ringChange_at? hk]
    dsimp only
    rw [if_pos hid]
    exact movedRing_isSome.mpr hs

/-- The ring records after a delta are a batch. -/
theorem Carries.apply_rings {c : TrustedClock} {s : State} {vs : List Parsed} {t : Txn}
    (h : Carries c s vs t) :
    (s.apply t).rings = together (·.occurrenceId) s.rings (vs.map (ringChange c s)) := by
  change Table.putAll _ (Table.deleteAll s.rings t.delRings) t.putRings = _
  rw [h.delRings, h.putRings]
  unfold together
  rw [List.flatMap_map, List.flatMap_map]
  rfl

/-- Object by object, each object changes the ring records by itself. -/
theorem apply_objectTxn_rings (c : TrustedClock) (s : State) (v : Parsed) (z : Uuid) :
    (s.apply (objectTxn c s v)).rings[z]? = ((ringChange c s v).at? (·.occurrenceId) z).or
      (if z ∈ (ringChange c s v).del then none else s.rings[z]?) := by
  refine (getElem?_apply s.rings (ringChange c s v) z).trans ?_
  by_cases h : z ∈ (ringChange c s v).del
  · rw [if_pos h, if_pos h]
  · rw [if_neg h, if_neg h]

/-- The ring record of a child stays until the first object that removes the child. -/
theorem applyObjects_rings_child {c : TrustedClock} {s : State} (hk : s.Keyed) {vs : List Parsed}
    {y : Uuid} {child : LocalChild} (hc : s.children[y]? = some child)
    (h : ¬ ∃ v ∈ vs, Settles s y v) : (applyObjects c s vs).rings[y]? = s.rings[y]? := by
  induction vs using List.reverseRecOn with
  | nil => rfl
  | append_singleton vs v ih =>
      have hbefore : ¬ ∃ w ∈ vs, Settles s y w :=
        fun ⟨w, hw, hs⟩ => h ⟨w, List.mem_append_left _ hw, hs⟩
      have hv : ¬ Settles s y v :=
        fun hs => h ⟨v, List.mem_append_right _ (List.mem_singleton_self v), hs⟩
      have hkp := keyed_applyObjects c hk vs
      have hid : Parsed.id v ≠ y := by
        rintro rfl
        exact hv (settles_self hk hc)
      have hat : (ringChange c (applyObjects c s vs) v).at? (·.occurrenceId) y = none := by
        rw [ringChange_at? hkp]
        cases v with
        | inr t => rfl
        | inl o => exact if_neg hid
      have hdel : y ∉ (ringChange c (applyObjects c s vs) v).del := by
        rw [mem_ringChange_del hkp]
        cases v with
        | inr t => exact hid
        | inl o =>
            intro hmem
            exact hv ((mem_superseded_applyObjects c hk vs o y).mp (mem_moved_ids.mp hmem).1).1
      rw [applyObjects_concat, apply_objectTxn_rings, hat, Option.none_or, if_neg hdel]
      exact ih hbefore

/-- The children after some objects are those no object removed, in the same order. -/
theorem toList_children (c : TrustedClock) {s : State} (hk : s.Keyed) (vs : List Parsed) :
    (applyObjects c s vs).children.toList =
      s.children.toList.filter fun e => ¬ ∃ v ∈ vs, Settles s e.1 v := by
  have heq : (applyObjects c s vs).children =
      s.children.filter fun y _ => ¬ ∃ v ∈ vs, Settles s y v := by
    refine Std.ExtTreeMap.ext_getElem? fun y => ?_
    rw [applyObjects_children c hk, Std.ExtTreeMap.getElem?_filter']
    by_cases h : ∃ v ∈ vs, Settles s y v
    · rw [if_pos h, decide_eq_false (not_not_intro h)]
      cases s.children[y]? <;> rfl
    · rw [if_neg h, decide_eq_true h]
      cases s.children[y]? <;> rfl
  rw [heq, Std.ExtTreeMap.toList_filter]

/-- Object by object, a delivery moves the records of the children that are still there. -/
theorem moved_applyObjects (c : TrustedClock) {s : State} (hk : s.Keyed) (vs : List Parsed)
    (o : Occurrence) :
    moved (applyObjects c s vs) o = (moved s o).filter fun e => ¬ ∃ v ∈ vs, Settles s e.1 v := by
  unfold moved
  rw [toList_children c hk, List.filterMap_filter, List.filter_filterMap]
  refine List.filterMap_congr fun e he => ?_
  obtain ⟨y, child⟩ := e
  have hc : s.children[y]? = some child := Std.ExtTreeMap.mem_toList_iff_getElem?_eq_some.mp he
  have hfst : ∀ e, movedBy s o (y, child) = some e → e.1 = y := by
    intro e hm
    unfold movedBy at hm
    by_cases hs : supersedes o child ∧ y ≠ o.occurrenceId
    · rw [if_pos hs] at hm
      obtain ⟨r, -, rfl⟩ := Option.map_eq_some_iff.mp hm
      rfl
    · rw [if_neg hs] at hm
      cases hm
  have hkept : movedBy s o (y, child) = none ∨ ∃ r, movedBy s o (y, child) = some (y, r) := by
    cases hm : movedBy s o (y, child) with
    | none => exact Or.inl rfl
    | some e =>
        obtain rfl := hfst e hm
        exact Or.inr ⟨e.2, rfl⟩
  by_cases h : ∃ v ∈ vs, Settles s y v
  · have hnot : ¬ decide (¬ ∃ v ∈ vs, Settles s y v) = true := fun h' => of_decide_eq_true h' h
    rw [if_neg hnot]
    rcases hkept with hm | ⟨r, hm⟩
    · rw [hm]
      rfl
    · rw [hm, Option.filter_some, if_neg hnot]
  · have hpos : decide (¬ ∃ v ∈ vs, Settles s y v) = true := decide_eq_true h
    have hsame : movedBy (applyObjects c s vs) o (y, child) = movedBy s o (y, child) := by
      unfold movedBy
      rw [applyObjects_rings_child hk hc h]
    rw [if_pos hpos, hsame]
    rcases hkept with hm | ⟨r, hm⟩
    · rw [hm]
      rfl
    · rw [hm, Option.filter_some, if_pos hpos]

/-! ### When the ring records come out the same -/

/-- No record that moved to an id is removed by a later tombstone of it, and a record moves again
only to the id it moved to, with no other record moved there in between. -/
structure RingsApart (s : State) (vs : List Parsed) : Prop where
  removed : ∀ pre t post o, vs = pre ++ .inr t :: post → .inl o ∈ pre →
    o.occurrenceId = t.occurrenceId → moved s o = []
  settled : ∀ pre w mid o post y, vs = pre ++ w :: (mid ++ .inl o :: post) →
    y ∈ (moved s o).map (·.1) → Settles s y w →
    (∃ o', w = .inl o' ∧ o'.occurrenceId = o.occurrenceId) ∧
      ∀ o', .inl o' ∈ mid → o'.occurrenceId = o.occurrenceId →
        moved s o' = [] ∨ moved s o' = moved s o

theorem RingsApart.of_append {s : State} {vs ws : List Parsed} (h : RingsApart s (vs ++ ws)) :
    RingsApart s vs := by
  constructor
  · rintro pre t post o rfl
    exact h.removed pre t (post ++ ws) o (List.append_assoc pre (.inr t :: post) ws)
  · rintro pre w mid o post y rfl
    refine h.settled pre w mid o (post ++ ws) y ?_
    rw [List.append_assoc, List.cons_append, List.append_assoc, List.cons_append]

/-- Two deliveries of one id that replace the same child of another id move the same records. -/
theorem moved_congr {s : State} (hk : s.Keyed) {o o' : Occurrence} {y : Uuid}
    (hid : o'.occurrenceId = o.occurrenceId) (hne : y ≠ o.occurrenceId) (hy : y ∈ superseded s o)
    (hy' : y ∈ superseded s o') : moved s o' = moved s o := by
  obtain ⟨child, hc, hs⟩ := mem_superseded.mp hy
  obtain ⟨child', hc', hs'⟩ := mem_superseded.mp hy'
  obtain rfl : child = child' := Option.some.inj (hc.symm.trans hc')
  have hkey : child.occurrence.occurrenceId = y := hk.children _ _ hc
  unfold supersedes at hs hs'
  rw [Bool.or_eq_true, Bool.and_eq_true, beq_iff_eq, beq_iff_eq, beq_iff_eq] at hs hs'
  have hsame : ∀ c, supersedes o' c = supersedes o c := by
    intro c
    rcases hs with hs | ⟨hsched, hdue⟩
    · exact absurd (hkey.symm.trans hs.symm) hne
    · rcases hs' with hs' | ⟨hsched', hdue'⟩
      · exact absurd (hkey.symm.trans (hs'.symm.trans hid)) hne
      · unfold supersedes
        rw [hid, hsched, hdue, hsched', hdue']
  refine List.filterMap_congr fun e _ => ?_
  unfold movedBy
  rw [hsame, hid]

/-- A moved record stays in the batch while only the same record moves to its id. -/
theorem together_ring_kept {c : TrustedClock} {s : State} (hk : s.Keyed) {o : Occurrence}
    (hm : moved s o ≠ []) (pre mid : List Parsed)
    (h : ∀ o', .inl o' ∈ mid → o'.occurrenceId = o.occurrenceId →
      moved s o' = [] ∨ moved s o' = moved s o) :
    (together (·.occurrenceId) s.rings
      ((pre ++ .inl o :: mid).map (ringChange c s)))[o.occurrenceId]? = movedRing s o := by
  classical
  have hsome := movedRing_isSome.mpr hm
  obtain ⟨r, hr⟩ := Option.isSome_iff_exists.mp hsome
  induction mid using List.reverseRecOn with
  | nil =>
      rw [List.map_append, List.map_singleton, getElem?_together_concat, ringChange_at? hk]
      dsimp only
      rw [if_pos rfl, hr]
      rfl
  | append_singleton mid v ih =>
      have hlast := ih fun o' ho' => h o' (List.mem_append_left _ ho')
      have hput : Puts (·.occurrenceId) ((pre ++ .inl o :: mid).map (ringChange c s))
          o.occurrenceId :=
        (puts_ring hk).mpr ⟨o, List.mem_append_right _ List.mem_cons_self, rfl, hm⟩
      have hsplit : (pre ++ Sum.inl o :: (mid ++ [v])).map (ringChange c s) =
          (pre ++ Sum.inl o :: mid).map (ringChange c s) ++ [ringChange c s v] := by
        rw [← List.map_singleton, ← List.map_append, List.append_assoc, List.cons_append]
      rw [hsplit, getElem?_together_concat, if_neg fun hand : _ ∧ ¬ _ => hand.2 hput, hlast,
        ringChange_at? hk]
      cases v with
      | inr t => rfl
      | inl o' =>
          dsimp only
          by_cases hid : o'.occurrenceId = o.occurrenceId
          · rw [if_pos hid]
            rcases h o' (List.mem_append_right _ (List.mem_singleton_self _)) hid with hnil | heq
            · rw [movedRing, hnil]
              rfl
            · have hsame : movedRing s o' = movedRing s o := by
                rw [movedRing, heq, hid]
                rfl
              rw [hsame, hr]
              rfl
          · rw [if_neg hid]
            rfl

/-- One tombstone more. -/
theorem rings_tombstone {c : TrustedClock} {s : State} (hk : s.Keyed) {vs : List Parsed}
    {t : Tombstone} (h : RingsApart s (vs ++ [Sum.inr t])) {z : Uuid}
    (ih : (together (·.occurrenceId) s.rings (vs.map (ringChange c s)))[z]? =
      (applyObjects c s vs).rings[z]?) :
    (together (·.occurrenceId) s.rings ((vs ++ [Sum.inr t]).map (ringChange c s)))[z]? =
      (applyObjects c s (vs ++ [Sum.inr t])).rings[z]? := by
  classical
  have hkp := keyed_applyObjects c hk vs
  rw [List.map_append, List.map_singleton, getElem?_together_concat, applyObjects_concat,
    apply_objectTxn_rings, ringChange_at? hk, ringChange_at? hkp]
  dsimp only
  rw [Option.none_or, Option.none_or, ih]
  by_cases hid : t.occurrenceId = z
  · have hnot : ¬ Puts (·.occurrenceId) (vs.map (ringChange c s)) z := by
      intro hput
      obtain ⟨o, ho, hoid, hm⟩ := (puts_ring hk).mp hput
      exact hm (h.removed vs t [] o rfl ho (hoid.trans hid.symm))
    rw [if_pos ⟨(mem_ringChange_del hk).mpr hid, hnot⟩, if_pos ((mem_ringChange_del hkp).mpr hid)]
  · rw [if_neg fun hand : _ ∧ _ => hid ((mem_ringChange_del hk).mp hand.1),
      if_neg fun hmem => hid ((mem_ringChange_del hkp).mp hmem)]

/-- One delivery more: under its own id. -/
theorem rings_delivered {c : TrustedClock} {s : State} (hk : s.Keyed) {vs : List Parsed}
    {o : Occurrence} (h : RingsApart s (vs ++ [Sum.inl o]))
    (ih : (together (·.occurrenceId) s.rings (vs.map (ringChange c s)))[o.occurrenceId]? =
      (applyObjects c s vs).rings[o.occurrenceId]?) :
    (together (·.occurrenceId) s.rings ((vs ++ [Sum.inl o]).map (ringChange c s)))[o.occurrenceId]? =
      (applyObjects c s (vs ++ [Sum.inl o])).rings[o.occurrenceId]? := by
  classical
  have hkp := keyed_applyObjects c hk vs
  have hown : ∀ {u : State}, o.occurrenceId ∉ (moved u o).map (·.1) :=
    fun hmem => (mem_moved_ids.mp hmem).2.1 rfl
  rw [List.map_append, List.map_singleton, getElem?_together_concat, applyObjects_concat,
    apply_objectTxn_rings, ringChange_at? hk, ringChange_at? hkp,
    if_neg fun hand : _ ∧ _ => hown ((mem_ringChange_del hk).mp hand.1),
    if_neg fun hmem => hown ((mem_ringChange_del hkp).mp hmem)]
  dsimp only
  rw [if_pos rfl, if_pos rfl]
  by_cases hsettled : ∃ e ∈ moved s o, ∃ w ∈ vs, Settles s e.1 w
  · obtain ⟨⟨y, r⟩, he, w, hw, hs⟩ := hsettled
    obtain ⟨pre, mid, rfl⟩ := List.append_of_mem hw
    have hy : y ∈ (moved s o).map (·.1) := List.mem_map_of_mem he
    obtain ⟨⟨o', rfl, hid⟩, hmid⟩ := h.settled pre w mid o [] y (List.append_assoc _ _ _) hy hs
    have hsame : moved s o' = moved s o :=
      moved_congr hk hid (mem_moved_ids.mp hy).2.1 (mem_moved_ids.mp hy).1 hs
    have hm : moved s o' ≠ [] := hsame ▸ List.ne_nil_of_mem he
    -- An earlier delivery of this id moved the same records.
    have hnow : moved (applyObjects c s (pre ++ .inl o' :: mid)) o = [] := by
      rw [moved_applyObjects c hk, List.filter_eq_nil_iff]
      intro e hmem hdec
      refine of_decide_eq_true hdec ⟨.inl o', hw, ?_⟩
      rw [← hsame] at hmem
      exact (mem_moved.mp hmem).1
    have hbatch := together_ring_kept (c := c) hk hm pre mid fun u hu huid => by
      rw [hsame]
      exact hmid u hu (huid.trans hid)
    rw [hid] at hbatch
    have hring : movedRing s o' = movedRing s o := by
      rw [movedRing, hsame, hid]
      rfl
    rw [hbatch, hring] at ih
    rw [hbatch, hring, ← ih]
    have hnone : movedRing (applyObjects c s (pre ++ .inl o' :: mid)) o = none := by
      rw [movedRing, hnow]
      rfl
    rw [hnone, Option.none_or]
    cases movedRing s o <;> rfl
  · have hsame : moved (applyObjects c s vs) o = moved s o := by
      rw [moved_applyObjects c hk, List.filter_eq_self]
      exact fun e he => decide_eq_true fun ⟨w, hw, hs⟩ => hsettled ⟨e, he, w, hw, hs⟩
    have hring : movedRing (applyObjects c s vs) o = movedRing s o := by
      rw [movedRing, hsame]
      rfl
    rw [hring, ih]

/-- One delivery more: under another id. -/
theorem rings_other {c : TrustedClock} {s : State} (hk : s.Keyed) {vs : List Parsed}
    {o : Occurrence} (h : RingsApart s (vs ++ [Sum.inl o])) {z : Uuid} (hz : o.occurrenceId ≠ z)
    (ih : (together (·.occurrenceId) s.rings (vs.map (ringChange c s)))[z]? =
      (applyObjects c s vs).rings[z]?) :
    (together (·.occurrenceId) s.rings ((vs ++ [Sum.inl o]).map (ringChange c s)))[z]? =
      (applyObjects c s (vs ++ [Sum.inl o])).rings[z]? := by
  classical
  have hkp := keyed_applyObjects c hk vs
  rw [List.map_append, List.map_singleton, getElem?_together_concat, applyObjects_concat,
    apply_objectTxn_rings, ringChange_at? hk, ringChange_at? hkp]
  dsimp only
  rw [if_neg hz, if_neg hz, Option.none_or, Option.none_or]
  by_cases hmem : z ∈ (moved s o).map (·.1)
  · obtain ⟨hsup, -, hring⟩ := mem_moved_ids.mp hmem
    obtain ⟨child, hc, -⟩ := mem_superseded.mp hsup
    have hsettled : ∀ w ∈ vs, Settles s z w → ∃ o', w = .inl o' ∧ o'.occurrenceId = o.occurrenceId := by
      intro w hw hs
      obtain ⟨pre, mid, rfl⟩ := List.append_of_mem hw
      exact (h.settled pre w mid o [] z (List.append_assoc _ _ _) hmem hs).1
    have hnot : ¬ Puts (·.occurrenceId) (vs.map (ringChange c s)) z := by
      intro hput
      obtain ⟨o', ho', hid, -⟩ := (puts_ring hk).mp hput
      have hself : Settles s z (.inl o') := by
        rw [← hid] at hc ⊢
        exact settles_self (v := .inl o') hk hc
      obtain ⟨o'', heq, hid'⟩ := hsettled _ ho' hself
      cases heq
      exact hz (hid'.symm.trans hid)
    rw [if_pos ⟨(mem_ringChange_del hk).mpr hmem, hnot⟩]
    by_cases hgone : ∃ w ∈ vs, Settles s z w
    · -- The first delivery that replaced the child took its record already.
      obtain ⟨w, hw, hs⟩ := hgone
      obtain ⟨o', rfl, hid⟩ := hsettled w hw hs
      have hdel : z ∈ (vs.map (ringChange c s)).flatMap del := by
        rw [List.flatMap_map, List.mem_flatMap]
        refine ⟨.inl o', hw, (mem_ringChange_del hk).mpr ?_⟩
        exact mem_moved_ids.mpr ⟨hs, fun heq => hz (hid.symm.trans heq.symm), hring⟩
      rw [getElem?_together_of_not_puts hnot, if_pos hdel] at ih
      rw [← ih, ite_self]
    · rw [if_pos]
      refine (mem_ringChange_del hkp).mpr (mem_moved_ids.mpr ⟨?_, hz.symm, ?_⟩)
      · exact (mem_superseded_applyObjects c hk vs o z).mpr ⟨hsup, hgone⟩
      · rw [applyObjects_rings_child hk hc hgone]
        exact hring
  · have hnow : z ∉ (moved (applyObjects c s vs) o).map (·.1) := by
      rw [moved_applyObjects c hk, List.mem_map]
      rintro ⟨e, he, rfl⟩
      exact hmem (List.mem_map_of_mem (List.mem_filter.mp he).1)
    rw [if_neg fun hand : _ ∧ _ => hmem ((mem_ringChange_del hk).mp hand.1),
      if_neg fun hm => hnow ((mem_ringChange_del hkp).mp hm), ih]

/-- While no record moves twice or is removed after it moved, the ring records come out as they do
object by object. -/
theorem rings_inOrder {c : TrustedClock} {s : State} (hk : s.Keyed) {vs : List Parsed} {t : Txn}
    (h : Carries c s vs t) (hapart : RingsApart s vs) :
    (s.apply t).rings = (applyObjects c s vs).rings := by
  rw [h.apply_rings]
  clear h
  refine Std.ExtTreeMap.ext_getElem? fun z => ?_
  induction vs using List.reverseRecOn with
  | nil => rfl
  | append_singleton vs v ih =>
      have hbefore := ih hapart.of_append
      cases v with
      | inr t => exact rings_tombstone hk hapart hbefore
      | inl o =>
          by_cases hz : o.occurrenceId = z
          · subst hz
            exact rings_delivered hk hapart hbefore
          · exact rings_other hk hapart hz hbefore

/-! ### A delta as a whole -/

/-- Two states agree on the delivered occurrences, the armed records and the ring records. -/
structure SameCache (s s' : State) : Prop where
  occ : s.occ = s'.occ
  armed : s.armed = s'.armed
  rings : s.rings = s'.rings

/-- The objects of a delta keep out of each other's way. -/
structure ObjectsApart (c : TrustedClock) (s : State) (vs : List Parsed) : Prop where
  occ : NothingLost vs
  armed : StaysArmed c s vs
  rings : RingsApart s vs

namespace Device

/-- A delta that is committed leaves the state its transaction makes. -/
theorem applyDelta_durable {F : FloatText} (clock : TrustedClock) {d : Device} {body : DeltaBody}
    (hk : d.st.Keyed) {vs : List Parsed} (ha : Accepted F d.st body vs) (hb : d.broken = false) :
    ∃ t, Carries clock d.st vs t ∧
      (d.applyDelta F clock .durable body).1.st = d.st.apply t := by
  obtain ⟨t, ht, hc, hd⟩ := deltaTxn_carries (c := clock) hk ha
  refine ⟨t, hc, ?_⟩
  unfold applyDelta install commit
  rw [ht]
  dsimp only
  rw [Txn.empty_of_delivery hd, hb]
  rfl

/-- A delta that is no transaction changes nothing and asks for a snapshot. -/
theorem applyDelta_refused {F : FloatText} {clock : TrustedClock} {outcome : CommitOutcome}
    {d : Device} {body : DeltaBody} (h : ∀ vs, ¬ Accepted F d.st body vs) :
    (d.applyDelta F clock outcome body).1 = d ∧
      (d.applyDelta F clock outcome body).2.needSnapshot = true := by
  unfold applyDelta
  cases ht : deltaTxn F clock d.st body with
  | some t =>
      obtain ⟨vs, ha⟩ := exists_accepted ht
      exact absurd ha (h vs)
  | none => exact ⟨rfl, rfl⟩

/-- A delta whose commit fails leaves the state and asks for a snapshot; what a restart recovers
changes only when the record stayed on disk. -/
theorem applyDelta_failed {F : FloatText} {clock : TrustedClock} {outcome : CommitOutcome}
    {d : Device} {body : DeltaBody} (hk : d.st.Keyed) {vs : List Parsed}
    (ha : Accepted F d.st body vs) (h : d.broken = true ∨ outcome ≠ .durable) :
    (d.applyDelta F clock outcome body).1.st = d.st ∧
      (d.applyDelta F clock outcome body).2.needSnapshot = true ∧
      (d.broken = true ∨ outcome ≠ .broken true →
        (d.applyDelta F clock outcome body).1.disk = d.disk) := by
  obtain ⟨t, ht, -, hd⟩ := deltaTxn_carries (c := clock) hk ha
  unfold applyDelta install commit
  rw [ht]
  dsimp only
  rw [Txn.empty_of_delivery hd]
  cases hb : d.broken with
  | true => exact ⟨rfl, rfl, fun _ => rfl⟩
  | false =>
      have hfails : outcome ≠ .durable := h.resolve_left (by rw [hb]; exact Bool.false_ne_true)
      cases outcome with
      | durable => exact absurd rfl hfails
      | undone => exact ⟨rfl, rfl, fun _ => rfl⟩
      | broken onDisk =>
          refine ⟨rfl, rfl, ?_⟩
          rintro (h | h)
          · cases h
          · cases onDisk with
            | true => exact absurd rfl h
            | false => rfl

/-- A committed delta leaves what its objects leave one by one while they keep out of each
other's way, and only while no occurrence is lost and every delivery stays armed. A delta that is
refused or whose commit fails leaves the state and asks for a snapshot. -/
theorem applyDelta_inOrder (F : FloatText) (clock : TrustedClock) (outcome : CommitOutcome)
    (d : Device) (body : DeltaBody) (hk : d.st.Keyed) :
    (∀ vs, Accepted F d.st body vs → d.broken = false →
      (ObjectsApart clock d.st vs →
        SameCache (d.applyDelta F clock .durable body).1.st (applyObjects clock d.st vs)) ∧
      (SameCache (d.applyDelta F clock .durable body).1.st (applyObjects clock d.st vs) →
        NothingLost vs ∧ StaysArmed clock d.st vs)) ∧
    ((∀ vs, ¬ Accepted F d.st body vs) → (d.applyDelta F clock outcome body).1 = d ∧
      (d.applyDelta F clock outcome body).2.needSnapshot = true) ∧
    (∀ vs, Accepted F d.st body vs → d.broken = true ∨ outcome ≠ .durable →
      (d.applyDelta F clock outcome body).1.st = d.st ∧
      (d.applyDelta F clock outcome body).2.needSnapshot = true ∧
      (d.broken = true ∨ outcome ≠ .broken true →
        (d.applyDelta F clock outcome body).1.disk = d.disk)) := by
  refine ⟨fun vs ha hb => ?_, applyDelta_refused, fun vs ha h => applyDelta_failed hk ha h⟩
  obtain ⟨t, hc, hst⟩ := applyDelta_durable clock hk ha hb
  rw [hst]
  constructor
  · intro h
    exact ⟨(occ_inOrder_iff hc).mpr h.occ, (armed_inOrder_iff hk hc h.occ).mpr h.armed,
      rings_inOrder hk hc h.rings⟩
  · intro h
    have hocc := (occ_inOrder_iff hc).mp h.occ
    exact ⟨hocc, (armed_inOrder_iff hk hc hocc).mp h.armed⟩

/-! ### A sample -/

/-- A device of an epoch with nothing delivered. -/
def fresh : Device := { st := { epoch := some ['e'] }, disk := { epoch := some ['e'] } }

theorem fresh_keyed : fresh.st.Keyed where
  occ := Table.Keyed.empty _
  ops := Table.Keyed.empty _
  children := Table.Keyed.empty _
  armed := Table.Keyed.empty _
  rings := Table.Keyed.empty _

/-- A delta that deletes an alarm and delivers it again. -/
def redelivered : DeltaBody where
  deliveryEpoch := ['e']
  sequence := 1
  objects := [(CacheObject.tombstone ⟨Vector.replicate 16 1, 0, .deleted⟩).value.wire bitText,
    (CacheObject.occurrence (sampleAlarm 1 ['a'])).value.wire bitText]

/-- A delta that delivers an alarm and deletes it again. -/
def withdrawn : DeltaBody where
  deliveryEpoch := ['e']
  sequence := 1
  objects := redelivered.objects.reverse

theorem parse_sample :
    parseObject bitText ((CacheObject.occurrence (sampleAlarm 1 ['a'])).value.wire bitText) =
        .ok (.inl (sampleAlarm 1 ['a']).received) ∧
      parseObject bitText
        ((CacheObject.tombstone ⟨Vector.replicate 16 1, 0, .deleted⟩).value.wire bitText) =
        .ok (.inr ⟨Vector.replicate 16 1, 0, .deleted⟩) := by
  constructor
  · refine (parseObject_occurrence bitText (sampleAlarm 1 ['a']) _).mpr ⟨?_, rfl⟩
    constructor <;> decide
  · exact (parseObject_tombstone bitText ⟨Vector.replicate 16 1, 0, .deleted⟩ _).mpr
      ⟨by decide, rfl⟩

/-- A delivery after a tombstone of its id stays, armed and with its ring record. -/
theorem applyDelta_inOrder_redelivered :
    SameCache (fresh.applyDelta bitText untrustedClock .durable redelivered).1.st
      (applyObjects untrustedClock fresh.st
        [.inr ⟨Vector.replicate 16 1, 0, .deleted⟩, .inl (sampleAlarm 1 ['a']).received]) := by
  refine ((applyDelta_inOrder bitText untrustedClock .durable fresh redelivered fresh_keyed).1 _
    ⟨rfl, rfl, rfl, ?_⟩ rfl).1 ⟨?_, ?_, ?_⟩
  · change [parseObject bitText _, parseObject bitText _] = _
    rw [parse_sample.1, parse_sample.2]
    rfl
  · -- The only tombstone comes first.
    rintro pre tomb post heq ⟨o, ho, -⟩
    cases pre with
    | nil => cases ho
    | cons v pre =>
        cases pre with
        | nil => cases heq
        | cons w pre => cases pre <;> cases heq
  · intro pre o post r _ _ hr
    cases hr
  · constructor
    · intro pre tomb post o _ _ _
      rfl
    · intro pre w mid o post y _ hy
      cases hy

/-- A delivery before a tombstone of its id stays as well: the transaction deletes first. -/
theorem withdrawn_stays :
    ¬ ∀ (F : FloatText) (clock : TrustedClock) (d : Device) (body : DeltaBody) (vs : List Parsed),
      d.st.Keyed → Accepted F d.st body vs → d.broken = false →
      SameCache (d.applyDelta F clock .durable body).1.st (applyObjects clock d.st vs) := by
  intro h
  have ha : Accepted bitText fresh.st withdrawn
      [.inl (sampleAlarm 1 ['a']).received, .inr ⟨Vector.replicate 16 1, 0, .deleted⟩] := by
    refine ⟨rfl, rfl, rfl, ?_⟩
    change [parseObject bitText _, parseObject bitText _] = _
    rw [parse_sample.1, parse_sample.2]
    rfl
  obtain ⟨t, hc, hst⟩ := applyDelta_durable untrustedClock fresh_keyed ha rfl
  have hsame := h bitText untrustedClock fresh withdrawn _ fresh_keyed ha rfl
  rw [hst] at hsame
  obtain ⟨w, hw, -⟩ := (occ_inOrder_iff hc).mp hsame.occ [.inl (sampleAlarm 1 ['a']).received] _ []
    rfl ⟨_, List.mem_singleton_self _, rfl⟩
  cases hw

end Device

end EchoMuse.Alerts
