import EchoMuse.Alerts.State

/-!
# Deltas and Snapshots on the Device

How the firmware handles `alert.delta` and `alert.snapshot`: each becomes one transaction or is
refused. A delta applies only at the device's epoch and its acknowledged sequence plus one; a
snapshot's pages are staged until the last one, whose digest must match, and are then installed
whole. Everything else asks for another snapshot.

## Main results

* `deltaTxn_eq_some`: what a delta that becomes a transaction carries and does to the delivered
  occurrences;
* `stagePage_staged`, `stagePage_install`: what a page of the controller adds to its stage, and
  what the last one installs.
-/

namespace EchoMuse.Alerts

/-! ### Arming -/

/-- Two's complement `int64` of an unbounded result. -/
def int64 (z : ℤ) : ℤ := Int.bmod z (2 ^ 64)

/-- The trusted clock of one boot: `utc_ms = mono_ns / 1e6 + offset_ms`. -/
structure TrustedClock where
  bootId : Text
  trusted : Bool
  offsetMs : ℤ

/-- A UTC instant on this boot's monotonic clock. -/
def TrustedClock.monoAtUtc (c : TrustedClock) (utcMs : ℤ) : Option ℤ :=
  if c.trusted then some (int64 (int64 (utcMs - c.offsetMs) * 1000000)) else none

/-- Whether an armed record already holds the deadline. -/
def armedAlready (s : State) (c : TrustedClock) (o : Occurrence) (due : ℤ) : Bool :=
  match s.armed[o.occurrenceId]? with
  | some a => a.bootId == c.bootId && a.dueUtcMs == o.dueUtcMs && a.dueMonoNs == due
  | none => false

/-- Persists the monotonic deadline of `o` for this boot when UTC is trusted. -/
def armOccurrence (s : State) (c : TrustedClock) (o : Occurrence) (t : Txn) : Txn :=
  match c.monoAtUtc o.dueUtcMs with
  | none => t
  | some due =>
    if !t.reset && armedAlready s c o due then t
    else
      { t with
        putArmed := t.putArmed ++
          [{ occurrenceId := o.occurrenceId, bootId := c.bootId, dueMonoNs := due
             dueUtcMs := o.dueUtcMs }] }

/-- Removes the local children that the delivered `o` replaces; a ringing child's record moves to
the delivered id. -/
def supersedeChildren (s : State) (o : Occurrence) (t : Txn) : Txn :=
  s.children.toList.foldl (fun t (id, c) =>
    if supersedes o c then
      let t := { t with delChildren := t.delChildren ++ [id], delArmed := t.delArmed ++ [id] }
      match s.rings[id]? with
      | some r =>
        if id = o.occurrenceId then t
        else
          { t with
            delRings := t.delRings ++ [id]
            putRings := t.putRings ++ [{ r with occurrenceId := o.occurrenceId }] }
      | none => t
    else t) t

/-- Whether the operation's target is still delivered. -/
def targetDelivered (op : LocalOp) (delivered : Table Uuid Occurrence) : Bool :=
  delivered[op.occurrenceId]?.isSome || (Table.vals delivered).any (opTargets op)

/-- Drops the answered operations whose target is no longer delivered. -/
def dropSettledOps (s : State) (delivered : Table Uuid Occurrence) (t : Txn) : Txn :=
  { t with
    delOps := t.delOps ++ (s.ops.toList.filter fun (_, op) =>
      op.result.isSome && !targetDelivered op delivered).map (·.1) }

/-! ### Deltas -/

/-- A decoded `alert.delta`. -/
structure DeltaBody where
  deliveryEpoch : Text
  sequence : ℕ
  objects : List (Json Text)

/-- One object of a delta: the transaction so far and what is delivered after it. -/
def deltaObject (F : FloatText) (c : TrustedClock) (s : State)
    (acc : Txn × Table Uuid Occurrence) (v : Json Text) : Option (Txn × Table Uuid Occurrence) :=
  let (t, delivered) := acc
  match parseObject F v with
  | .error _ => none
  | .ok (.inr tomb) =>
    let id := tomb.occurrenceId
    some
      ({ t with
         delOcc := t.delOcc ++ [id]
         -- A tombstone also removes a local child with that id.
         delChildren := t.delChildren ++ [id]
         delArmed := t.delArmed ++ [id]
         delRings := t.delRings ++ [id] },
       delivered.erase id)
  | .ok (.inl o) =>
    some
      (supersedeChildren s o (armOccurrence s c o { t with putOcc := t.putOcc ++ [o] }),
       delivered.insert o.occurrenceId o)

/-- The transaction of a delta; `none` refuses it. -/
def deltaTxn (F : FloatText) (c : TrustedClock) (s : State) (d : DeltaBody) : Option Txn :=
  if s.corrupt ∨ s.epoch ≠ some d.deliveryEpoch ∨ d.sequence ≠ s.acked + 1 then none
  else do
    let t : Txn := { delivery := some { epoch := d.deliveryEpoch, acked := d.sequence } }
    let (t, delivered) ← d.objects.foldlM (deltaObject F c s) (t, s.occ)
    return dropSettledOps s delivered t

/-! ### Snapshots -/

/-- A decoded `alert.snapshot` page. -/
structure PageBody where
  deliveryEpoch : Text
  highWaterMark : ℕ
  pageIndex : ℤ
  pageCount : ℤ
  sha256 : Text
  objects : List (Json Text)

/-- The pages of one snapshot received so far. -/
structure SnapshotStage where
  epoch : Text
  high : ℕ
  count : ℤ
  sha : Text
  next : ℤ
  /-- The decoded objects, in page order. -/
  values : List (Json Text)

/-- What a page led to. -/
inductive PageResult
  /-- The staged pages are discarded and a snapshot is asked for. -/
  | rejected
  /-- More pages are expected. -/
  | staged (stage : SnapshotStage)
  /-- The snapshot is complete. -/
  | install (t : Txn)

/-- A live occurrence; a snapshot carries nothing else. -/
def parseLive (F : FloatText) (v : Json Text) : Option Occurrence :=
  match parseObject F v with
  | .ok (.inl o) => some o
  | _ => none

/-- Puts and arms the delivered occurrences, each replacing the local children it supersedes. -/
def putLive (s : State) (c : TrustedClock) (live : List Occurrence) (t : Txn) : Txn :=
  live.foldl (fun t o =>
    supersedeChildren s o (armOccurrence s c o { t with putOcc := t.putOcc ++ [o] })) t

/-- Removes the resolved children a snapshot omits. -/
def dropResolved (s : State) (delivered : Table Uuid Occurrence) (t : Txn) : Txn :=
  s.children.toList.foldl (fun t (id, child) =>
    if child.resolved && delivered[id]?.isNone then
      { t with
        delChildren := t.delChildren ++ [id]
        delArmed := t.delArmed ++ [id]
        delRings := t.delRings ++ [id] }
    else t) t

/-- Arms the children that stay, since a snapshot drops every armed record. -/
def rearmChildren (s : State) (c : TrustedClock) (t : Txn) : Txn :=
  s.children.toList.foldl (fun t' (id, child) =>
    if id ∈ t.delChildren then t' else armOccurrence s c child.occurrence t') t

/-- Drops the ring records of what is neither delivered nor a child. -/
def dropRings (s : State) (delivered : Table Uuid Occurrence) (t : Txn) : Txn :=
  { t with
    delRings := t.delRings ++ (s.rings.toList.filter fun (id, _) =>
      delivered[id]?.isNone && s.children[id]?.isNone).map (·.1) }

/-- The transaction that installs the staged occurrences. -/
def snapshotTxn (c : TrustedClock) (s : State) (epoch : Text) (high : ℕ) (live : List Occurrence) :
    Txn :=
  let delivered := Table.putAll (·.occurrenceId) ∅ live
  let t := putLive s c live { reset := true, delivery := some { epoch, acked := high } }
  dropSettledOps s delivered (dropRings s delivered (rearmChildren s c (dropResolved s delivered t)))

/-- The stage a page belongs to: a first page starts one. -/
def stageOf (stage : Option SnapshotStage) (p : PageBody) : Option SnapshotStage :=
  let stage := if p.pageIndex = 0 then
      some { epoch := p.deliveryEpoch, high := p.highWaterMark, count := p.pageCount
             sha := p.sha256, next := 0, values := [] }
    else stage
  stage.filter fun sg => sg.next = p.pageIndex ∧ sg.epoch = p.deliveryEpoch ∧
    sg.high = p.highWaterMark ∧ sg.count = p.pageCount ∧ sg.sha = p.sha256

/-- The page's own bounds. -/
def pageValid (p : PageBody) : Bool :=
  0 < p.pageCount ∧ 0 ≤ p.pageIndex ∧ p.pageIndex < p.pageCount ∧
    p.objects.length ≤ snapshotPageObjects ∧ p.sha256.length = 64 ∧ p.sha256.all isHexLower = true

/-- `ApplySnapshotPage` up to its commit; `digest` is the hexadecimal SHA-256 of the canonical
JSON array of the staged values, `none` when they have no canonical form. -/
def stagePage (F : FloatText) (digest : List (Json Text) → Option Text) (c : TrustedClock)
    (s : State) (stage : Option SnapshotStage) (p : PageBody) : PageResult :=
  if ¬ pageValid p then .rejected
  else
    match stageOf stage p with
    | none => .rejected
    | some sg =>
      if ¬ p.objects.all (fun v => (parseLive F v).isSome) then .rejected
      else
        let sg := { sg with values := sg.values ++ p.objects, next := sg.next + 1 }
        if sg.next < sg.count then .staged sg
        else if digest sg.values ≠ some sg.sha then .rejected
        else .install (snapshotTxn c s sg.epoch sg.high (sg.values.filterMap (parseLive F)))

/-! ### What the transactions leave alone -/

/-- Two transactions that agree on the position, the delivered occurrences, the clock and what is
put into the operations and children. -/
structure Txn.Frames (t t' : Txn) : Prop where
  reset : t'.reset = t.reset
  delivery : t'.delivery = t.delivery
  delOcc : t'.delOcc = t.delOcc
  putOcc : t'.putOcc = t.putOcc
  putOps : t'.putOps = t.putOps
  putChildren : t'.putChildren = t.putChildren
  clock : t'.clock = t.clock

namespace Txn.Frames

theorem refl (t : Txn) : Txn.Frames t t := ⟨rfl, rfl, rfl, rfl, rfl, rfl, rfl⟩

theorem trans {t t' t'' : Txn} (h : Txn.Frames t t') (h' : Txn.Frames t' t'') :
    Txn.Frames t t'' :=
  ⟨h'.reset.trans h.reset, h'.delivery.trans h.delivery, h'.delOcc.trans h.delOcc,
    h'.putOcc.trans h.putOcc, h'.putOps.trans h.putOps, h'.putChildren.trans h.putChildren,
    h'.clock.trans h.clock⟩

/-- A loop of framed steps. -/
theorem foldl {α : Type} {f : Txn → α → Txn} (h : ∀ t a, Txn.Frames t (f t a)) (l : List α)
    (t : Txn) : Txn.Frames t (l.foldl f t) := by
  induction l generalizing t with
  | nil => exact refl t
  | cons a l ih => exact (h t a).trans (ih (f t a))

theorem arm (s : State) (c : TrustedClock) (o : Occurrence) (t : Txn) :
    Txn.Frames t (armOccurrence s c o t) := by
  unfold armOccurrence
  cases c.monoAtUtc o.dueUtcMs with
  | none => exact refl t
  | some due =>
      dsimp only
      by_cases h : (!t.reset && armedAlready s c o due) = true
      · rw [if_pos h]
        exact refl t
      · rw [if_neg h]
        exact ⟨rfl, rfl, rfl, rfl, rfl, rfl, rfl⟩

theorem supersede (s : State) (o : Occurrence) (t : Txn) :
    Txn.Frames t (supersedeChildren s o t) := by
  refine foldl (fun t e => ?_) _ t
  obtain ⟨id, c⟩ := e
  dsimp only
  by_cases h : supersedes o c = true
  · rw [if_pos h]
    cases s.rings[id]? with
    | none => exact ⟨rfl, rfl, rfl, rfl, rfl, rfl, rfl⟩
    | some r =>
        dsimp only
        by_cases hid : id = o.occurrenceId
        · rw [if_pos hid]
          exact ⟨rfl, rfl, rfl, rfl, rfl, rfl, rfl⟩
        · rw [if_neg hid]
          exact ⟨rfl, rfl, rfl, rfl, rfl, rfl, rfl⟩
  · rw [if_neg h]
    exact refl t

theorem dropResolved (s : State) (delivered : Table Uuid Occurrence) (t : Txn) :
    Txn.Frames t (dropResolved s delivered t) := by
  refine foldl (fun t e => ?_) _ t
  obtain ⟨id, child⟩ := e
  dsimp only
  by_cases h : (child.resolved && delivered[id]?.isNone) = true
  · rw [if_pos h]
    exact ⟨rfl, rfl, rfl, rfl, rfl, rfl, rfl⟩
  · rw [if_neg h]
    exact refl t

theorem rearm (s : State) (c : TrustedClock) (t : Txn) :
    Txn.Frames t (rearmChildren s c t) := by
  refine foldl (fun t' e => ?_) _ t
  obtain ⟨id, child⟩ := e
  dsimp only
  by_cases h : id ∈ t.delChildren
  · rw [if_pos h]
    exact refl t'
  · rw [if_neg h]
    exact arm s c child.occurrence t'

theorem dropRings (s : State) (delivered : Table Uuid Occurrence) (t : Txn) :
    Txn.Frames t (dropRings s delivered t) := ⟨rfl, rfl, rfl, rfl, rfl, rfl, rfl⟩

theorem dropSettled (s : State) (delivered : Table Uuid Occurrence) (t : Txn) :
    Txn.Frames t (dropSettledOps s delivered t) := ⟨rfl, rfl, rfl, rfl, rfl, rfl, rfl⟩

end Txn.Frames

/-! ### The controller's deltas -/

/-- The ids a delta's tombstones name. -/
def tombstoned (objects : List CacheObject) : List Uuid :=
  objects.filterMap fun
    | .tombstone t => some t.occurrenceId
    | .occurrence _ => none

/-- The occurrences a delta puts. -/
def upserted (objects : List CacheObject) : List OccurrenceObject :=
  objects.filterMap fun
    | .tombstone _ => none
    | .occurrence o => some o

/-- What one accepted object adds to the transaction. -/
theorem deltaObject_eq_some {F : FloatText} {c : TrustedClock} {s : State}
    {acc acc' : Txn × Table Uuid Occurrence} {o : CacheObject}
    (h : deltaObject F c s acc (o.value.wire F) = some acc') :
    acc'.1.reset = acc.1.reset ∧ acc'.1.delivery = acc.1.delivery ∧
      acc'.1.delOcc = acc.1.delOcc ++ tombstoned [o] ∧
      acc'.1.putOcc = acc.1.putOcc ++ (upserted [o]).map OccurrenceObject.received := by
  unfold deltaObject at h
  cases hp : parseObject F (o.value.wire F) with
  | error e =>
      rw [hp] at h
      cases h
  | ok r =>
      rw [hp] at h
      cases o with
      | tombstone t =>
          obtain ⟨-, rfl⟩ := (parseObject_tombstone F t r).mp hp
          cases h
          exact ⟨rfl, rfl, rfl, (List.append_nil _).symm⟩
      | occurrence o =>
          obtain ⟨-, rfl⟩ := (parseObject_occurrence F o r).mp hp
          cases h
          have hf := (Txn.Frames.arm s c o.received
            { acc.1 with putOcc := acc.1.putOcc ++ [o.received] }).trans
            (Txn.Frames.supersede s o.received _)
          exact ⟨hf.reset, hf.delivery, hf.delOcc.trans (List.append_nil _).symm, hf.putOcc⟩

/-- What the accepted objects of a delta add to the transaction. -/
theorem foldlM_deltaObject {F : FloatText} {c : TrustedClock} {s : State}
    {acc acc' : Txn × Table Uuid Occurrence} {objects : List CacheObject}
    (h : (objects.map fun o => o.value.wire F).foldlM (deltaObject F c s) acc = some acc') :
    acc'.1.reset = acc.1.reset ∧ acc'.1.delivery = acc.1.delivery ∧
      acc'.1.delOcc = acc.1.delOcc ++ tombstoned objects ∧
      acc'.1.putOcc = acc.1.putOcc ++ (upserted objects).map OccurrenceObject.received := by
  induction objects generalizing acc with
  | nil =>
      cases h
      exact ⟨rfl, rfl, (List.append_nil _).symm, (List.append_nil _).symm⟩
  | cons o objects ih =>
      rw [List.map_cons, List.foldlM_cons, Option.bind_eq_bind, Option.bind_eq_some_iff] at h
      obtain ⟨mid, hmid, hrest⟩ := h
      obtain ⟨hr, hd, hdel, hput⟩ := deltaObject_eq_some hmid
      obtain ⟨hr', hd', hdel', hput'⟩ := ih hrest
      have htomb : tombstoned (o :: objects) = tombstoned [o] ++ tombstoned objects :=
        List.filterMap_append (l := [o])
      have hup : upserted (o :: objects) = upserted [o] ++ upserted objects :=
        List.filterMap_append (l := [o])
      exact ⟨hr'.trans hr, hd'.trans hd, by rw [hdel', hdel, htomb, List.append_assoc],
        by rw [hput', hput, hup, List.map_append, List.append_assoc]⟩

/-- A delta becomes a transaction only at the device's epoch and next sequence, and then carries
exactly its own tombstones and occurrences. -/
theorem deltaTxn_eq_some {F : FloatText} {c : TrustedClock} {s : State} {d : DeltaBody}
    {objects : List CacheObject} {t : Txn} (hd : d.objects = objects.map fun o => o.value.wire F)
    (h : deltaTxn F c s d = some t) :
    s.epoch = some d.deliveryEpoch ∧ d.sequence = s.acked + 1 ∧ t.reset = false ∧
      t.delivery = some { epoch := d.deliveryEpoch, acked := d.sequence } ∧
      t.delOcc = tombstoned objects ∧
      t.putOcc = (upserted objects).map OccurrenceObject.received := by
  unfold deltaTxn at h
  by_cases hc : s.corrupt = true ∨ s.epoch ≠ some d.deliveryEpoch ∨ d.sequence ≠ s.acked + 1
  · rw [if_pos hc] at h
    cases h
  · rw [if_neg hc, Option.bind_eq_bind, Option.bind_eq_some_iff] at h
    push Not at hc
    obtain ⟨acc, hacc, ht⟩ := h
    rw [hd] at hacc
    obtain ⟨hr, hdel, hdo, hpo⟩ := foldlM_deltaObject hacc
    cases ht
    exact ⟨hc.2.1, hc.2.2, hr, hdel, hdo, hpo⟩

/-! ### The controller's snapshots -/

/-- Putting and arming the delivered occurrences one after the other. -/
theorem putLive_spec (s : State) (c : TrustedClock) (live : List Occurrence) (t : Txn) :
    (putLive s c live t).reset = t.reset ∧ (putLive s c live t).delivery = t.delivery ∧
      (putLive s c live t).delOcc = t.delOcc ∧
      (putLive s c live t).putOcc = t.putOcc ++ live := by
  induction live generalizing t with
  | nil => exact ⟨rfl, rfl, rfl, (List.append_nil _).symm⟩
  | cons o live ih =>
      have hf := (Txn.Frames.arm s c o { t with putOcc := t.putOcc ++ [o] }).trans
        (Txn.Frames.supersede s o _)
      obtain ⟨hr, hd, hdel, hput⟩ := ih (supersedeChildren s o
        (armOccurrence s c o { t with putOcc := t.putOcc ++ [o] }))
      refine ⟨hr.trans hf.reset, hd.trans hf.delivery, hdel.trans hf.delOcc, hput.trans ?_⟩
      rw [hf.putOcc, List.append_assoc]
      rfl

/-- The transaction of a snapshot resets the cache, moves to its position and puts its
occurrences. -/
theorem snapshotTxn_spec (c : TrustedClock) (s : State) (epoch : Text) (high : ℕ)
    (live : List Occurrence) :
    (snapshotTxn c s epoch high live).reset = true ∧
      (snapshotTxn c s epoch high live).delivery = some { epoch, acked := high } ∧
      (snapshotTxn c s epoch high live).delOcc = [] ∧
      (snapshotTxn c s epoch high live).putOcc = live := by
  obtain ⟨hr, hd, hdel, hput⟩ := putLive_spec s c live
    { reset := true, delivery := some { epoch, acked := high } }
  have hrest : Txn.Frames _ (snapshotTxn c s epoch high live) :=
    (Txn.Frames.dropResolved s _ _).trans ((Txn.Frames.rearm s c _).trans
      ((Txn.Frames.dropRings s _ _).trans (Txn.Frames.dropSettled s _ _)))
  exact ⟨hrest.reset.trans hr, hrest.delivery.trans hd, hrest.delOcc.trans hdel,
    hrest.putOcc.trans hput⟩

/-- Live occurrences the firmware accepts are read as they were sent. -/
theorem filterMap_parseLive {F : FloatText} {objects : List OccurrenceObject}
    (h : (objects.map fun o => o.value.wire F).all (fun v => (parseLive F v).isSome) = true) :
    (objects.map fun o => o.value.wire F).filterMap (parseLive F) =
      objects.map OccurrenceObject.received := by
  induction objects with
  | nil => rfl
  | cons o objects ih =>
      rw [List.map_cons, List.all_cons, Bool.and_eq_true] at h
      obtain ⟨ho, hrest⟩ := h
      have hparse : parseLive F (o.value.wire F) = some o.received := by
        unfold parseLive at ho ⊢
        cases hp : parseObject F (o.value.wire F) with
        | error e =>
            rw [hp] at ho
            cases ho
        | ok r =>
            obtain ⟨-, rfl⟩ := (parseObject_occurrence F o r).mp hp
            rfl
      rw [List.map_cons, List.filterMap_cons_some hparse, ih hrest, List.map_cons]

/-- A snapshot page as the firmware decodes it. -/
def AlertSnapshotPage.body (F : FloatText) (p : AlertSnapshotPage) : PageBody where
  deliveryEpoch := p.deliveryEpoch
  highWaterMark := p.highWaterMark
  pageIndex := p.pageIndex
  pageCount := p.pageCount
  sha256 := p.sha256.hex
  objects := p.objects.map fun o => o.value.wire F

/-- The first `n` pages of a snapshot, staged. -/
structure Staged (F : FloatText) (epoch : Text) (high : ℕ) (sha : Sha256)
    (objects : List OccurrenceObject) (n : ℕ) (sg : SnapshotStage) : Prop where
  epoch : sg.epoch = epoch
  high : sg.high = high
  count : sg.count = pageCount objects
  sha : sg.sha = sha.hex
  next : sg.next = n
  values : sg.values = (objects.take (n * snapshotPageObjects)).map fun o => o.value.wire F
  live : sg.values.all (fun v => (parseLive F v).isSome) = true

/-- The next page joins the stage. -/
theorem Staged.snoc {F : FloatText} {epoch : Text} {high : ℕ} {sha : Sha256}
    {objects : List OccurrenceObject} {i : ℕ} {sg : SnapshotStage}
    (h : Staged F epoch high sha objects i sg)
    (hall : ((pageAt epoch high sha objects i).body F).objects.all
      (fun v => (parseLive F v).isSome) = true) :
    Staged F epoch high sha objects (i + 1)
      { sg with
        values := sg.values ++ ((pageAt epoch high sha objects i).body F).objects
        next := sg.next + 1 } := by
  refine ⟨h.epoch, h.high, h.count, h.sha, ?_, ?_, ?_⟩
  · change sg.next + 1 = _
    rw [h.next]
    rfl
  · change sg.values ++ _ = _
    rw [h.values, Nat.succ_mul, List.take_add, List.map_append]
    rfl
  · change (sg.values ++ _).all _ = true
    rw [List.all_append, h.live, hall]
    rfl

/-- With every page staged, the stage holds every object. -/
theorem Staged.values_all {F : FloatText} {epoch : Text} {high : ℕ} {sha : Sha256}
    {objects : List OccurrenceObject} {n : ℕ} {sg : SnapshotStage}
    (h : Staged F epoch high sha objects n sg) (hn : pageCount objects ≤ n) :
    sg.values = objects.map fun o => o.value.wire F := by
  have hall : objects.take (n * snapshotPageObjects) = objects :=
    List.take_of_length_le ((length_le_pageCount objects).trans (Nat.mul_le_mul_right _ hn))
  rw [h.values, hall]

/-- A page belongs to the stage that holds the pages before it. -/
theorem stageOf_page {F : FloatText} {epoch : Text} {high : ℕ} {sha : Sha256}
    {objects : List OccurrenceObject} {i : ℕ} {stage : Option SnapshotStage} {sg : SnapshotStage}
    (hstage : ∀ sg', stage = some sg' → sg'.epoch = epoch → sg'.high = high →
      ∃ n, Staged F epoch high sha objects n sg')
    (h : stageOf stage ((pageAt epoch high sha objects i).body F) = some sg) :
    Staged F epoch high sha objects i sg := by
  unfold stageOf at h
  rw [Option.filter_eq_some_iff] at h
  obtain ⟨hsome, htest⟩ := h
  rw [decide_eq_true_eq] at htest
  obtain ⟨hnext, hepoch, hhigh, hcount, hsha⟩ := htest
  by_cases hi : ((pageAt epoch high sha objects i).body F).pageIndex = 0
  · rw [if_pos hi] at hsome
    cases hsome
    have hzero : (i : ℤ) = 0 := hi
    refine ⟨rfl, rfl, rfl, rfl, hnext, ?_, rfl⟩
    rw [Int.natCast_eq_zero.mp hzero, Nat.zero_mul, List.take_zero]
    rfl
  · rw [if_neg hi] at hsome
    obtain ⟨n, hn⟩ := hstage sg hsome hepoch hhigh
    have heq : (n : ℤ) = i := hn.next.symm.trans hnext
    exact Int.natCast_inj.mp heq ▸ hn

/-- A page that is not refused is staged after the pages before it; the last one completes the
snapshot. -/
theorem stagePage_cases {F : FloatText} {digest : List (Json Text) → Option Text}
    {c : TrustedClock} {s : State} {epoch : Text} {high : ℕ} {sha : Sha256}
    {objects : List OccurrenceObject} {i : ℕ} {stage : Option SnapshotStage}
    (hstage : ∀ sg', stage = some sg' → sg'.epoch = epoch → sg'.high = high →
      ∃ n, Staged F epoch high sha objects n sg')
    (h : stagePage F digest c s stage ((pageAt epoch high sha objects i).body F) ≠ .rejected) :
    ∃ sg, Staged F epoch high sha objects (i + 1) sg ∧
      stagePage F digest c s stage ((pageAt epoch high sha objects i).body F) =
        if sg.next < sg.count then .staged sg
        else .install (snapshotTxn c s sg.epoch sg.high (sg.values.filterMap (parseLive F))) := by
  unfold stagePage at h ⊢
  by_cases hvalid : pageValid ((pageAt epoch high sha objects i).body F) = true
  · rw [if_neg (not_not_intro hvalid)] at h ⊢
    cases hsg : stageOf stage ((pageAt epoch high sha objects i).body F) with
    | none =>
        rw [hsg] at h
        exact absurd rfl h
    | some sg =>
        rw [hsg] at h
        have hs := stageOf_page hstage hsg
        dsimp only at h ⊢
        by_cases hall : ((pageAt epoch high sha objects i).body F).objects.all
            (fun v => (parseLive F v).isSome) = true
        · rw [if_neg (not_not_intro hall)] at h ⊢
          let sg' : SnapshotStage :=
            { sg with
              values := sg.values ++ ((pageAt epoch high sha objects i).body F).objects
              next := sg.next + 1 }
          have hs' : Staged F epoch high sha objects (i + 1) sg' := hs.snoc hall
          refine ⟨sg', hs', ?_⟩
          by_cases hnext : sg'.next < sg'.count
          · rw [if_pos hnext, if_pos hnext]
          · rw [if_neg hnext] at h ⊢
            rw [if_neg hnext]
            by_cases hdigest : digest sg'.values ≠ some sg'.sha
            · rw [if_pos hdigest] at h
              exact absurd rfl h
            · rw [if_neg hdigest]
        · rw [if_pos hall] at h
          exact absurd rfl h
  · rw [if_pos hvalid] at h
    exact absurd rfl h

/-- A page that is staged adds its objects to the stage. -/
theorem stagePage_staged {F : FloatText} {digest : List (Json Text) → Option Text}
    {c : TrustedClock} {s : State} {epoch : Text} {high : ℕ} {sha : Sha256}
    {objects : List OccurrenceObject} {i : ℕ} {stage : Option SnapshotStage} {sg : SnapshotStage}
    (hstage : ∀ sg', stage = some sg' → sg'.epoch = epoch → sg'.high = high →
      ∃ n, Staged F epoch high sha objects n sg')
    (h : stagePage F digest c s stage ((pageAt epoch high sha objects i).body F) = .staged sg) :
    Staged F epoch high sha objects (i + 1) sg := by
  obtain ⟨sg', hs, heq⟩ := stagePage_cases hstage (by rw [h]; nofun)
  rw [h] at heq
  by_cases hnext : sg'.next < sg'.count
  · rw [if_pos hnext] at heq
    cases heq
    exact hs
  · rw [if_neg hnext] at heq
    cases heq

/-- The last page installs the whole snapshot. -/
theorem stagePage_install {F : FloatText} {digest : List (Json Text) → Option Text}
    {c : TrustedClock} {s : State} {epoch : Text} {high : ℕ} {sha : Sha256}
    {objects : List OccurrenceObject} {i : ℕ} {stage : Option SnapshotStage} {t : Txn}
    (hstage : ∀ sg', stage = some sg' → sg'.epoch = epoch → sg'.high = high →
      ∃ n, Staged F epoch high sha objects n sg')
    (h : stagePage F digest c s stage ((pageAt epoch high sha objects i).body F) = .install t) :
    pageCount objects ≤ i + 1 ∧
      t = snapshotTxn c s epoch high (objects.map OccurrenceObject.received) := by
  obtain ⟨sg, hs, heq⟩ := stagePage_cases hstage (by rw [h]; nofun)
  rw [h] at heq
  by_cases hnext : sg.next < sg.count
  · rw [if_pos hnext] at heq
    cases heq
  · rw [if_neg hnext] at heq
    cases heq
    have hcount : pageCount objects ≤ i + 1 := by
      rw [hs.next, hs.count] at hnext
      omega
    have hvalues := hs.values_all hcount
    refine ⟨hcount, ?_⟩
    rw [hs.epoch, hs.high, hvalues, filterMap_parseLive (hvalues ▸ hs.live)]

end EchoMuse.Alerts
