import EchoMuse.Alerts.Ledger

/-!
# Convergence of Alert Delivery

Whatever is lost on the way, and whichever side restarts, a device whose durable position is a
sequence of the controller's epoch holds exactly what the controller held in `sent` when it
assigned that sequence, and a device judged in step is brought to `sent` by what is resent.

This rests on every first refresh of a fresh process building its snapshot. One that fails leaves
`sent` known and empty, although the device may hold occurrences of the epoch; a device at the
assigned sequence is then judged in step with a map it does not hold.

## Main results

* `Coherent.apply`: every step of the system keeps the invariant;
* `converges`: the delivery converges in every state reached while first snapshots are built;
* `empty_sent_in_step`: a first snapshot that cannot be built, and the state it leads to.
-/

namespace EchoMuse.Alerts

/-! ### The device over the ledger -/

/-- A device state at a sequence of the epoch holds the map of that sequence. -/
def Holds (strict : Prop) (epoch : Text) (held : List (Table Uuid OccurrenceObject))
    (s : State) : Prop :=
  s.epoch = some epoch →
    ∃ m, mapAt held s.acked = some m ∧ Table.Within strict OccurrenceObject.received m s.occ

/-- A staged snapshot is the beginning of one in the ledger. -/
def StagedFrom (F : FloatText) (epoch : Text) (contents : List Content)
    (stage : Option SnapshotStage) : Prop :=
  ∀ sg, stage = some sg → ∃ n sha objects k, contents[n]? = some (.snapshot sha objects) ∧
    Staged F epoch (n + 1) sha objects k sg

section

variable {strict : Prop} {F : FloatText} {epoch : Text} {contents : List Content}
  {held : List (Table Uuid OccurrenceObject)}

theorem Holds.append {s : State} (h : Holds strict epoch held s)
    (more : List (Table Uuid OccurrenceObject)) : Holds strict epoch (held ++ more) s := by
  intro he
  obtain ⟨m, hm, hw⟩ := h he
  exact ⟨m, (mapAt_append (mapAt_eq_some_le hm)).trans hm, hw⟩

theorem StagedFrom.append {stage : Option SnapshotStage}
    (h : StagedFrom F epoch contents stage) (more : List Content) :
    StagedFrom F epoch (contents ++ more) stage := by
  intro sg hsg
  obtain ⟨n, sha, objects, k, hn, hs⟩ := h sg hsg
  refine ⟨n, sha, objects, k, ?_, hs⟩
  rw [List.getElem?_append_left (List.getElem?_eq_some_iff.mp hn).1, hn]

/-- A snapshot of the sequence that is staged is the ledger's. -/
theorem StagedFrom.staged {stage : Option SnapshotStage} (h : StagedFrom F epoch contents stage)
    {n : ℕ} {sha : Sha256} {objects : List OccurrenceObject}
    (hn : contents[n]? = some (.snapshot sha objects)) :
    ∀ sg, stage = some sg → sg.epoch = epoch → sg.high = n + 1 →
      ∃ k, Staged F epoch (n + 1) sha objects k sg := by
  intro sg hsg _ hhigh
  obtain ⟨n', sha', objects', k, hn', hs⟩ := h sg hsg
  obtain rfl : n' = n := Nat.succ_injective (hs.high.symm.trans hhigh)
  rw [hn] at hn'
  cases hn'
  exact ⟨k, hs⟩

/-- A delta applied to both sides of an inclusion. -/
theorem within_receive {m : Table Uuid OccurrenceObject} {occ : Table Uuid Occurrence}
    (h : Table.Within strict OccurrenceObject.received m occ) (objects : List CacheObject) :
    Table.Within strict OccurrenceObject.received
      (Table.putAll (·.occurrenceId) (Table.deleteAll m (tombstoned objects)) (upserted objects))
      (Table.putAll (·.occurrenceId) (Table.deleteAll occ (tombstoned objects))
        ((upserted objects).map OccurrenceObject.received)) := by
  refine Table.Within.putAll (fun _ => ?_) (h.deleteAll _) _
  rfl

/-- The content of sequence `n + 1`, applied to a device that holds the map before it. -/
theorem Ledger.delta_holds (h : Ledger strict contents held) {n : ℕ} {objects : List CacheObject}
    (hc : contents[n]? = some (.delta objects)) {m : Table Uuid OccurrenceObject}
    (hm : mapAt held n = some m) {occ : Table Uuid Occurrence}
    (hw : Table.Within strict OccurrenceObject.received m occ) :
    ∃ m', mapAt held (n + 1) = some m' ∧
      Table.Within strict OccurrenceObject.received m'
        (Table.putAll (·.occurrenceId) (Table.deleteAll occ (tombstoned objects))
          ((upserted objects).map OccurrenceObject.received)) := by
  have hlt : n < held.length := by
    rw [h.length]
    exact (List.getElem?_eq_some_iff.mp hc).1
  have hget := List.getElem?_eq_getElem hlt
  obtain ⟨hf, base, hbase, hmap⟩ := h.leads n _ _ hc hget
  rw [hm, Option.getD_some] at hbase
  refine ⟨_, hget, ?_⟩
  rw [hmap, hf.foldl_applyTo]
  exact within_receive (hbase.comp hw) objects

/-- The snapshot of sequence `n + 1`, installed. -/
theorem Ledger.snapshot_holds (h : Ledger strict contents held) {n : ℕ} {sha : Sha256}
    {objects : List OccurrenceObject} (hc : contents[n]? = some (.snapshot sha objects)) :
    ∃ m', mapAt held (n + 1) = some m' ∧
      Table.Within strict OccurrenceObject.received m'
        (Table.putAll (·.occurrenceId) ∅ (objects.map OccurrenceObject.received)) := by
  have hlt : n < held.length := by
    rw [h.length]
    exact (List.getElem?_eq_some_iff.mp hc).1
  have hget := List.getElem?_eq_getElem hlt
  obtain ⟨-, hmap⟩ := h.leads n _ _ hc hget
  refine ⟨_, hget, ?_⟩
  rw [hmap]
  refine Table.Within.putAll (fun _ => ?_) (Table.Within.empty strict _) objects
  rfl

/-! ### One body at the device -/

/-- What a commit of a nonempty transaction can do: nothing, all of it, or a failure after which
the store refuses commits, with the record on disk or not. -/
theorem Device.commit_cases (d : Device) (outcome : CommitOutcome) {t : Txn}
    (ht : t.empty = false) :
    d.commit outcome t = (d, false) ∨
      (d.broken = false ∧
        d.commit outcome t = ({ d with st := d.st.apply t, disk := d.st.apply t }, true)) ∨
      (d.broken = false ∧ ∃ disk, (disk = d.disk ∨ disk = d.st.apply t) ∧
        d.commit outcome t = ({ d with disk, broken := true }, false)) := by
  unfold Device.commit
  rw [if_neg (by rw [ht]; nofun)]
  cases hb : d.broken with
  | true => exact Or.inl rfl
  | false =>
      cases outcome with
      | durable => exact Or.inr (Or.inl ⟨rfl, rfl⟩)
      | undone => exact Or.inl rfl
      | broken onDisk =>
          refine Or.inr (Or.inr ⟨rfl, _, ?_, rfl⟩)
          cases onDisk with
          | true => exact Or.inr rfl
          | false => exact Or.inl rfl

/-- What the transaction of a body commits: the position and the map of the body's sequence, once
no body of that sequence is to follow. -/
structure Commits (strict : Prop) (epoch : Text) (contents : List Content)
    (held : List (Table Uuid OccurrenceObject)) (st : State) (b : PostBody) (t : Txn) :
    Prop where
  delivery : t.delivery = some { epoch, acked := b.sequence }
  holds : Holds strict epoch held (st.apply t)
  last : ∀ b' : PostBody, b'.Carries epoch contents → b.Before b' → b.sequence < b'.sequence

theorem Commits.of_delta (hl : Ledger strict contents held) {st : State}
    (hst : Holds strict epoch held st) {d : AlertDelta}
    (hb : (PostBody.delta d).Carries epoch contents) {clock : TrustedClock} {t : Txn}
    (ht : deltaTxn F clock st (d.body F) = some t) :
    Commits strict epoch contents held st (.delta d) t := by
  obtain ⟨rfl, n, hn, hc⟩ := hb
  obtain ⟨hepoch, hacked, hreset, hdelivery, hdel, hput⟩ := deltaTxn_eq_some rfl ht
  obtain rfl : n = st.acked := Nat.succ_injective (hn.symm.trans hacked)
  refine ⟨hdelivery, fun _ => ?_, fun b' hb' hbefore => ?_⟩
  · obtain ⟨m, hm, hw⟩ := hst hepoch
    rw [(State.apply_position_some hdelivery).2, State.apply_occ, hreset, hdel, hput]
    change ∃ m', mapAt held d.sequence = some m' ∧ _
    rw [hn]
    exact hl.delta_holds hc hm hw
  · rcases hbefore with hlt | ⟨heq, hpage⟩
    · exact hlt
    · cases b' with
      | delta d' => exact absurd hpage (Nat.lt_irrefl 0)
      | snapshot p =>
          obtain ⟨n', sha, objects, hc', i, -, rfl⟩ := hb'
          obtain rfl : n' = st.acked := Nat.succ_injective (heq.symm.trans hn)
          rw [hc] at hc'
          cases hc'

theorem Commits.of_snapshot (hl : Ledger strict contents held) {st : State} {n : ℕ}
    {sha : Sha256} {objects : List OccurrenceObject}
    (hc : contents[n]? = some (.snapshot sha objects)) {i : ℕ} (hi : pageCount objects ≤ i + 1)
    (clock : TrustedClock) :
    Commits strict epoch contents held st (.snapshot (pageAt epoch (n + 1) sha objects i))
      (snapshotTxn clock st epoch (n + 1) (objects.map OccurrenceObject.received)) := by
  obtain ⟨hreset, hdelivery, hdel, hput⟩ := snapshotTxn_spec clock st epoch (n + 1)
    (objects.map OccurrenceObject.received)
  refine ⟨hdelivery, fun _ => ?_, fun b' hb' hbefore => ?_⟩
  · rw [(State.apply_position_some hdelivery).2, State.apply_occ, hreset, hdel, hput]
    exact hl.snapshot_holds hc
  · rcases hbefore with hlt | ⟨heq, hpage⟩
    · exact hlt
    · cases b' with
      | delta d' => exact absurd hpage (Nat.not_lt_zero _)
      | snapshot p =>
          obtain ⟨n', sha', objects', hc', i', hi', rfl⟩ := hb'
          obtain rfl : n = n' := Nat.succ_injective heq
          rw [hc] at hc'
          cases hc'
          exact absurd (Nat.lt_of_lt_of_le hpage (Nat.le_of_lt_succ (Nat.lt_of_lt_of_le hi' hi)))
            (Nat.lt_irrefl _)

/-- A body of the ledger is refused or staged, or its transaction is handed to the store. -/
theorem Device.receive_cases (hl : Ledger strict contents held) {d : Device}
    (hst : Holds strict epoch held d.st) (hstage : StagedFrom F epoch contents d.stage)
    {b : PostBody} (hb : b.Carries epoch contents) (digest : List (Json Text) → Option Text)
    (clock : TrustedClock) (outcome : CommitOutcome) :
    ∃ stage, StagedFrom F epoch contents stage ∧
      ((d.receive F digest clock outcome b).1 = { d with stage } ∧
          (∀ a ∈ (d.receive F digest clock outcome b).2, a = d.ack true true) ∨
        ∃ t, Commits strict epoch contents held d.st b t ∧
          d.receive F digest clock outcome b =
            ((({ d with stage } : Device).install outcome t).1,
              some (({ d with stage } : Device).install outcome t).2)) := by
  have hnone : StagedFrom F epoch contents none := nofun
  cases b with
  | delta delta =>
      refine ⟨d.stage, hstage, ?_⟩
      unfold Device.receive
      dsimp only
      cases ht : deltaTxn F clock d.st (delta.body F) with
      | none =>
          refine Or.inl ⟨rfl, fun a ha => ?_⟩
          cases ha
          rfl
      | some t => exact Or.inr ⟨t, Commits.of_delta hl hst hb ht, rfl⟩
  | snapshot page =>
      obtain ⟨n, sha, objects, hc, i, -, rfl⟩ := hb
      unfold Device.receive
      dsimp only
      cases hp : stagePage F digest clock d.st d.stage
          ((pageAt epoch (n + 1) sha objects i).body F) with
      | rejected =>
          refine ⟨none, hnone, Or.inl ⟨rfl, fun a ha => ?_⟩⟩
          cases ha
          rfl
      | staged sg =>
          refine ⟨some sg, ?_, Or.inl ⟨rfl, nofun⟩⟩
          intro sg' hsg'
          cases hsg'
          exact ⟨n, sha, objects, i + 1, hc, stagePage_staged (hstage.staged hc) hp⟩
      | install t =>
          obtain ⟨hlast, rfl⟩ := stagePage_install (hstage.staged hc) hp
          exact ⟨none, hnone, Or.inr ⟨_, Commits.of_snapshot hl hc hlast clock, rfl⟩⟩

/-- The device after a body of the ledger. -/
inductive Received (strict : Prop) (epoch : Text) (contents : List Content)
    (held : List (Table Uuid OccurrenceObject)) (b : PostBody) (dev dev' : Device) :
    Option AlertAck → Prop
  /-- Nothing was committed; an acknowledgement that says durable reports memory. -/
  | kept {ack : Option AlertAck} (hst : dev'.st = dev.st) (hdisk : dev'.disk = dev.disk)
      (hbroken : dev'.broken = dev.broken)
      (hack : ∀ a ∈ ack, a.durable = true →
        a.deliveryEpoch = dev.st.epoch ∧ a.appliedThrough = dev.st.acked) :
      Received strict epoch contents held b dev dev' ack
  /-- The body's transaction is in memory and in the store. -/
  | committed {t : Txn} (ht : Commits strict epoch contents held dev.st b t)
      (hwas : dev.broken = false) (hst : dev'.st = dev.st.apply t)
      (hdisk : dev'.disk = dev.st.apply t) (hbroken : dev'.broken = false) :
      Received strict epoch contents held b dev dev' (some (dev'.ack false true))
  /-- The store failed and refuses commits, the body's transaction on disk or not. -/
  | failed {t : Txn} {ack : AlertAck} (ht : Commits strict epoch contents held dev.st b t)
      (hwas : dev.broken = false) (hst : dev'.st = dev.st)
      (hdisk : dev'.disk = dev.disk ∨ dev'.disk = dev.st.apply t) (hbroken : dev'.broken = true)
      (hack : ack.durable = false) :
      Received strict epoch contents held b dev dev' (some ack)

/-- Everything a body of the ledger can do to the device. -/
theorem Device.receive_received (hl : Ledger strict contents held) {d : Device}
    (hst : Holds strict epoch held d.st) (hstage : StagedFrom F epoch contents d.stage)
    {b : PostBody} (hb : b.Carries epoch contents) (digest : List (Json Text) → Option Text)
    (clock : TrustedClock) (outcome : CommitOutcome) :
    StagedFrom F epoch contents (d.receive F digest clock outcome b).1.stage ∧
      Received strict epoch contents held b d (d.receive F digest clock outcome b).1
        (d.receive F digest clock outcome b).2 := by
  obtain ⟨stage, hs, hcases⟩ := Device.receive_cases hl hst hstage hb digest clock outcome
  rcases hcases with ⟨heq, hack⟩ | ⟨t, ht, heq⟩
  · rw [heq]
    refine ⟨hs, .kept rfl rfl rfl fun a ha _ => ?_⟩
    rw [hack a ha]
    exact ⟨rfl, rfl⟩
  · rw [heq]
    unfold Device.install
    dsimp only
    rcases Device.commit_cases { d with stage } outcome (Txn.empty_of_delivery ht.delivery) with
      hcommit | ⟨hwas, hcommit⟩ | ⟨hwas, disk, hdisk, hcommit⟩
    · rw [hcommit]
      refine ⟨hs, .kept rfl rfl rfl fun a ha hdurable => ?_⟩
      cases ha
      cases hdurable
    · rw [hcommit]
      exact ⟨hs, .committed ht hwas rfl rfl hwas⟩
    · rw [hcommit]
      exact ⟨hs, .failed ht hwas rfl hdisk rfl rfl⟩

/-- What a body leaves in memory and in the store is what was there or the body's map. -/
theorem Received.holds {b : PostBody} {dev dev' : Device} {ack : Option AlertAck}
    (h : Received strict epoch contents held b dev dev' ack)
    (hst : Holds strict epoch held dev.st) (hdisk : Holds strict epoch held dev.disk) :
    Holds strict epoch held dev'.st ∧ Holds strict epoch held dev'.disk := by
  cases h with
  | kept hst' hdisk' _ _ => exact ⟨hst' ▸ hst, hdisk' ▸ hdisk⟩
  | committed ht _ hst' hdisk' _ => exact ⟨hst' ▸ ht.holds, hdisk' ▸ ht.holds⟩
  | failed ht _ hst' hdisk' _ _ =>
      refine ⟨hst' ▸ hst, ?_⟩
      rcases hdisk' with hdisk' | hdisk'
      · exact hdisk' ▸ hdisk
      · exact hdisk' ▸ ht.holds

end

/-! ### The whole system over the ledger -/

/-- The controller, the device, its store and what is in flight all follow from one ledger. -/
structure Coherent (strict : Prop) (F : FloatText) (epoch : Text) (contents : List Content)
    (w : Link) : Prop where
  controls : Controls strict epoch contents w.held w.posted w.ctl
  row : w.row = (w.ctl.sequence, w.ctl.acked)
  st : Holds strict epoch w.held w.dev.st
  disk : Holds strict epoch w.held w.dev.disk
  past : ∀ s ∈ w.past, Holds strict epoch w.held s
  stage : StagedFrom F epoch contents w.dev.stage
  down : ∀ b ∈ w.down, b ∈ w.posted

section

variable {strict : Prop} {F : FloatText} {epoch : Text} {contents : List Content} {w : Link}

theorem Coherent.start {s : State} (hs : s.epoch ≠ some epoch) :
    Coherent strict F epoch [] (Link.start epoch s) where
  controls :=
    { ledger := Ledger.nil strict
      epoch_eq := rfl
      sequence_eq := rfl
      acked_le := le_rfl
      posts := nofun
      sent := nofun
      stable := nofun
      unacked := RunTo.nil 0
      queued := nofun }
  row := rfl
  st := fun h => absurd h hs
  disk := fun h => absurd h hs
  past := by
    intro s' hs' h
    obtain rfl := List.mem_singleton.mp hs'
    exact absurd h hs
  stage := nofun
  down := nofun

/-- A controller step that extends the ledger and posts what its outbox holds. -/
theorem Coherent.send (h : Coherent strict F epoch contents w) {d : Delivery} {outbox : Outbox}
    {more : List Content} {assigned : List (Table Uuid OccurrenceObject)}
    (hd : Controls strict epoch (contents ++ more) (w.held ++ assigned)
      (w.posted ++ outbox.bodies) d)
    (hposition : outbox.position.getD (w.ctl.sequence, w.ctl.acked) = (d.sequence, d.acked)) :
    Coherent strict F epoch (contents ++ more)
      { w.send d outbox with held := w.held ++ assigned } where
  controls := hd
  row := by
    change outbox.position.getD w.row = (d.sequence, d.acked)
    rw [h.row]
    exact hposition
  st := h.st.append _
  disk := h.disk.append _
  past := fun s hs => (h.past s hs).append _
  stage := h.stage.append _
  down := by
    intro b hb
    change b ∈ w.posted ++ outbox.bodies
    have hmem : b ∈ w.down ++ outbox.bodies := by
      change b ∈ (if w.link.isSome = true ∧ w.link = d.session then w.down ++ outbox.bodies
        else w.down) at hb
      by_cases hc : w.link.isSome = true ∧ w.link = d.session
      · rwa [if_pos hc] at hb
      · rw [if_neg hc] at hb
        exact List.mem_append_left _ hb
    rcases List.mem_append.mp hmem with hmem | hmem
    · exact List.mem_append_left _ (h.down b hmem)
    · exact List.mem_append_right _ hmem

/-- A controller step that assigns nothing. -/
theorem Coherent.repost (h : Coherent strict F epoch contents w) {d : Delivery} {outbox : Outbox}
    (hd : Controls strict epoch contents w.held (w.posted ++ outbox.bodies) d)
    (hposition : outbox.position.getD (w.ctl.sequence, w.ctl.acked) = (d.sequence, d.acked)) :
    Coherent strict F epoch contents (w.send d outbox) := by
  rw [← List.append_nil contents, ← List.append_nil w.held] at hd
  have hsend := h.send hd hposition
  rw [List.append_nil, List.append_nil] at hsend
  exact hsend

/-- The end of a link loses what is in flight. -/
theorem Coherent.cut (h : Coherent strict F epoch contents w) :
    Coherent strict F epoch contents w.cut :=
  ⟨h.controls, h.row, h.st, h.disk, h.past, h.stage, nofun⟩

/-- A step of the device. -/
theorem Coherent.store (h : Coherent strict F epoch contents w) {dev : Device}
    (hst : Holds strict epoch w.held dev.st) (hdisk : Holds strict epoch w.held dev.disk)
    (hstage : StagedFrom F epoch contents dev.stage) :
    Coherent strict F epoch contents (w.store dev) where
  controls := h.controls
  row := h.row
  st := hst
  disk := hdisk
  past := by
    intro s hs
    rcases List.mem_append.mp hs with hs | hs
    · exact h.past s hs
    · obtain rfl := List.mem_singleton.mp hs
      exact hdisk
  stage := hstage
  down := h.down

/-- The next body at the device. -/
theorem Coherent.deliver (h : Coherent strict F epoch contents w) {b : PostBody}
    (hb : b ∈ w.posted) (digest : List (Json Text) → Option Text) (clock : TrustedClock)
    (outcome : CommitOutcome) :
    Coherent strict F epoch contents
      (w.store (w.dev.receive F digest clock outcome b).1) := by
  obtain ⟨hstage, hreceived⟩ := Device.receive_received h.controls.ledger h.st h.stage
    (h.controls.posts b hb) digest clock outcome
  obtain ⟨hst, hdisk⟩ := hreceived.holds h.st h.disk
  exact h.store hst hdisk hstage

/-- Whatever a restart finds was in the store before. -/
theorem Coherent.recover (h : Coherent strict F epoch contents w) (opened : Opened) :
    Holds strict epoch w.held (opened.recover w.past w.dev.disk) := by
  cases opened with
  | intact => exact h.disk
  | lost => nofun
  | quarantined point =>
      unfold Opened.recover
      dsimp only
      cases hp : w.past[point]? with
      | none => nofun
      | some s => exact h.past s (List.mem_of_getElem? hp)

end

/-! ### Runs -/

/-- The desired sets are maps: no two occurrences of one id. -/
def Event.Admissible : Event → Prop
  | .refresh desired => (desired.live.map (·.occurrenceId)).Nodup
  | _ => True

/-- The first snapshot of a process that knows nothing of what was sent can be built: no label is
too long, and the ordered objects have a digest. -/
def Event.Built (digest : List OccurrenceObject → Except SnapshotError Sha256) (w : Link) :
    Event → Prop
  | .refresh desired => w.ctl.attached.isSome = true → w.ctl.sent = none →
      (∀ o ∈ desired.live, o.label.length ≤ maxLabelChars) ∧
        ∃ sha, digest ((Delivery.snapshotObjects ∅ (w.ctl.sequence + 1) desired).insertionSort
          snapshotLe) = .ok sha
  | _ => True

section

variable (F : FloatText) (snapshotDigest : List OccurrenceObject → Except SnapshotError Sha256)
  (digest : List (Json Text) → Option Text)

/-- The states reached from `w` by events each `allowed` in the state it meets. -/
inductive Link.Reaches (allowed : Link → Event → Prop) (w : Link) : Link → Prop
  | refl : Link.Reaches allowed w w
  | step {w' : Link} (h : Link.Reaches allowed w w') {event : Event} (ha : allowed w' event) :
      Link.Reaches allowed w (w'.apply F snapshotDigest digest event)

/-- Each event of a run is `allowed` in the state it meets. -/
def Link.Allows (allowed : Link → Event → Prop) : Link → List Event → Prop
  | _, [] => True
  | w, event :: events => allowed w event ∧
      Link.Allows allowed (w.apply F snapshotDigest digest event) events

/-- A run whose events are allowed reaches its last state. -/
theorem Link.reaches_run {allowed : Link → Event → Prop} {w₀ w : Link} {events : List Event}
    (hw : Link.Reaches F snapshotDigest digest allowed w₀ w)
    (h : Link.Allows F snapshotDigest digest allowed w events) :
    Link.Reaches F snapshotDigest digest allowed w₀
      (w.run F snapshotDigest digest events) := by
  induction events generalizing w with
  | nil => exact hw
  | cons event events ih => exact ih (.step hw h.1) h.2

variable {F} {snapshotDigest} {digest} {strict : Prop} {epoch : Text} {contents : List Content}
  {w : Link}

/-- A snapshot with short labels and a digest is built. -/
theorem refresh_of_built {desired : Desired} (hb : Event.Built snapshotDigest w (.refresh desired))
    (ha : w.ctl.attached.isSome = true) (hs : w.ctl.sent = none) :
    ∃ outbox, (w.ctl.refresh snapshotDigest desired).2 = .ok outbox := by
  obtain ⟨hlabels, sha, hsha⟩ := hb ha hs
  have hfind : labelTooLong (Delivery.snapshotObjects ∅ (w.ctl.sequence + 1) desired) = none := by
    refine List.find?_eq_none.mpr fun o ho => ?_
    obtain ⟨object, hobject, rfl⟩ := List.mem_map.mp ho
    simpa using hlabels object hobject
  obtain ⟨a, hattached⟩ := Option.isSome_iff_exists.mp ha
  have hpages : snapshotPages snapshotDigest w.ctl.epoch (w.ctl.sequence + 1)
      (Delivery.snapshotObjects ∅ (w.ctl.sequence + 1) desired) = .ok _ :=
    snapshotPages_eq_ok_iff.mpr ⟨hfind, sha, hsha, rfl⟩
  unfold Delivery.refresh
  rw [hattached, hs]
  unfold Delivery.snapshot
  dsimp only
  rw [hs, Option.getD_none, hpages]
  exact ⟨_, rfl⟩

/-- Every step keeps the invariant, over a longer ledger. -/
theorem Coherent.apply (h : Coherent strict F epoch contents w) {event : Event}
    (ha : event.Admissible) (hb : strict → Event.Built snapshotDigest w event) :
    ∃ contents', Coherent strict F epoch contents' (w.apply F snapshotDigest digest event) := by
  cases event with
  | connect session =>
      unfold Link.apply
      dsimp only
      by_cases hl : w.link.isSome = true
      · rw [if_pos hl]
        exact ⟨contents, h⟩
      · rw [if_neg hl]
        have hlink : Coherent strict F epoch contents { w with link := some session } :=
          ⟨h.controls, h.row, h.st, h.disk, h.past, h.stage, h.down⟩
        exact ⟨contents, hlink.repost (h.controls.attach session _)
          (w.ctl.attach_position session _).1⟩
  | hangUp => exact ⟨contents, h.cut⟩
  | detach session =>
      refine ⟨contents, h.controls.detach session, ?_, h.st, h.disk, h.past, h.stage, h.down⟩
      change w.row = ((w.ctl.detach session).sequence, (w.ctl.detach session).acked)
      rw [h.row]
      unfold Delivery.detach
      by_cases hs : w.ctl.session = some session
      · rw [if_pos hs]
      · rw [if_neg hs]
  | refresh desired =>
      unfold Link.apply
      dsimp only
      cases hr : (w.ctl.refresh snapshotDigest desired).2 with
      | ok outbox =>
          have hx := Extends.refresh h.controls ha hr
          obtain ⟨more, hmore⟩ := hx.controls
          exact ⟨contents ++ more, h.send hmore hx.position⟩
      | error e =>
          have hs : strict → w.ctl.attached.isSome = true → w.ctl.sent ≠ none := by
            intro hstrict hattached hsent
            obtain ⟨outbox, ho⟩ := refresh_of_built (hb hstrict) hattached hsent
            rw [hr] at ho
            cases ho
          obtain ⟨hc, hacked, hsequence, -⟩ := h.controls.refresh_error hr hs
          refine ⟨contents, hc, ?_, h.st, h.disk, h.past, h.stage, h.down⟩
          change w.row = _
          rw [h.row, hacked, hsequence]
  | retract removed =>
      have hx := Extends.retract h.controls removed
      obtain ⟨more, hmore⟩ := hx.controls
      exact ⟨contents ++ more, h.send hmore hx.position⟩
  | deliver clock outcome =>
      unfold Link.apply
      dsimp only
      cases hd : w.down with
      | nil => exact ⟨contents, h⟩
      | cons b rest =>
          have hmem : ∀ b' ∈ b :: rest, b' ∈ w.posted := hd ▸ h.down
          have hdev := h.deliver (hmem b List.mem_cons_self) digest clock outcome
          exact ⟨contents, hdev.controls, hdev.row, hdev.st, hdev.disk, hdev.past, hdev.stage,
            fun b' hb' => hmem b' (List.mem_cons_of_mem _ hb')⟩
  | acknowledge =>
      unfold Link.apply
      dsimp only
      cases hu : w.up with
      | nil => exact ⟨contents, h⟩
      | cons a rest =>
          have hrest : Coherent strict F epoch contents { w with up := rest } :=
            ⟨h.controls, h.row, h.st, h.disk, h.past, h.stage, h.down⟩
          dsimp only
          by_cases hs : w.link = w.ctl.session
          · rw [if_pos hs]
            refine ⟨contents, hrest.repost ?_ (w.ctl.ack_position a).1⟩
            rw [Delivery.ack_bodies, List.append_nil]
            exact h.controls.ack a
          · rw [if_neg hs]
            exact ⟨contents, hrest⟩
  | restartController =>
      refine ⟨contents, ?_, ?_, h.st, h.disk, h.past, h.stage, nofun⟩
      · change Controls strict epoch contents w.held w.posted
          (Delivery.new w.ctl.epoch w.row.1 w.row.2)
        rw [h.row]
        exact h.controls.restart
      · change w.row = (w.row.1, min w.row.2 w.row.1)
        rw [h.row]
        dsimp only
        rw [min_eq_left h.controls.acked_le]
  | restartDevice opened =>
      have hopen := h.recover opened
      exact ⟨contents, h.cut.store hopen hopen nofun⟩

/-- The invariant of every reached state. -/
theorem Link.Reaches.coherent {s : State} (hs : s.epoch ≠ some epoch)
    (h : Link.Reaches F snapshotDigest digest
      (fun w event => event.Admissible ∧ (strict → Event.Built snapshotDigest w event))
      (Link.start epoch s) w) : ∃ contents, Coherent strict F epoch contents w := by
  induction h with
  | refl => exact ⟨[], Coherent.start hs⟩
  | step _ ha ih =>
      obtain ⟨contents, hc⟩ := ih
      exact hc.apply ha.1 ha.2

end

/-! ### Convergence -/

/-- The device holds exactly the objects of `m`. -/
def Mirrors (m : Table Uuid OccurrenceObject) (occ : Table Uuid Occurrence) : Prop :=
  ∀ id : Uuid, occ[id]? = (m[id]?).map OccurrenceObject.received

/-- A body applied to what the device holds. -/
def PostBody.applyTo (occ : Table Uuid Occurrence) : PostBody → Table Uuid Occurrence
  | .delta d => Table.putAll (·.occurrenceId) (Table.deleteAll occ (tombstoned d.objects))
      ((upserted d.objects).map OccurrenceObject.received)
  | .snapshot _ => occ

/-- Both sides agree on what every sequence means. -/
structure Converged (w : Link) : Prop where
  /-- No sequence of an epoch is sent with two contents. -/
  once : ∀ b ∈ w.posted, ∀ b' ∈ w.posted, b.epoch = b'.epoch → b.sequence = b'.sequence →
    b.SameContent b'
  /-- The queue is a run of sequences ending at the assigned one. -/
  unacked : RunTo w.ctl.sequence (w.ctl.unacked.map (·.sequence))
  /-- What the store holds at a sequence of the epoch is the map of that sequence. -/
  durable : w.dev.disk.epoch = some w.ctl.epoch →
    ∃ m, w.heldAt w.dev.disk.acked = some m ∧ Mirrors m w.dev.disk.occ
  /-- At the assigned sequence that map is `sent`. -/
  current : w.dev.disk.epoch = some w.ctl.epoch → w.dev.disk.acked = w.ctl.sequence →
    ∀ m, w.ctl.sent = some m → Mirrors m w.dev.disk.occ
  /-- A device judged in step is brought to `sent` by what is resent. -/
  inStep : ∀ session, (w.ctl.attach session (some w.dev.hello)).1.snapshotOwed = false →
    ∃ m, w.ctl.sent = some m ∧ Mirrors m
      ((w.ctl.attach session (some w.dev.hello)).2.bodies.foldl PostBody.applyTo w.dev.st.occ)

section

variable {strict : Prop} {F : FloatText} {epoch : Text} {contents : List Content}
  {held : List (Table Uuid OccurrenceObject)} {posted : List PostBody} {d : Delivery} {w : Link}

/-- Bodies of one sequence carry one content. -/
theorem PostBody.Carries.sameContent {b b' : PostBody} (h : b.Carries epoch contents)
    (h' : b'.Carries epoch contents) (hs : b.sequence = b'.sequence) : b.SameContent b' := by
  cases b with
  | delta d =>
      obtain ⟨he, n, hn, hc⟩ := h
      cases b' with
      | delta d' =>
          obtain ⟨he', n', hn', hc'⟩ := h'
          obtain rfl : n = n' := Nat.succ_injective ((hn.symm.trans hs).trans hn')
          rw [hc] at hc'
          obtain ⟨e, s, objects⟩ := d
          obtain ⟨e', s', objects'⟩ := d'
          cases hs
          cases he
          cases he'
          cases hc'
          rfl
      | snapshot p =>
          obtain ⟨n', sha, objects, hc', i, -, rfl⟩ := h'
          obtain rfl : n = n' := Nat.succ_injective (hn.symm.trans hs)
          rw [hc] at hc'
          cases hc'
  | snapshot p =>
      obtain ⟨n, sha, objects, hc, i, -, rfl⟩ := h
      cases b' with
      | delta d' =>
          obtain ⟨-, n', hn', hc'⟩ := h'
          obtain rfl : n = n' := Nat.succ_injective (hs.trans hn')
          rw [hc] at hc'
          cases hc'
      | snapshot p' =>
          obtain ⟨n', sha', objects', hc', i', -, rfl⟩ := h'
          obtain rfl : n = n' := Nat.succ_injective hs
          rw [hc] at hc'
          cases hc'
          refine ⟨rfl, rfl, fun hi => ?_⟩
          obtain rfl : i = i' := hi
          rfl

/-- Consecutive deltas of the ledger bring a device from one map to a later one. -/
theorem Ledger.replay (h : Ledger strict contents held) {deltas : List AlertDelta}
    (hd : ∀ delta ∈ deltas, (PostBody.delta delta).Carries epoch contents) {n : ℕ}
    (hn : deltas.map (·.sequence) = List.range' (n + 1) deltas.length)
    {m : Table Uuid OccurrenceObject} (hm : mapAt held n = some m) {occ : Table Uuid Occurrence}
    (hw : Table.Within strict OccurrenceObject.received m occ) :
    ∃ m', mapAt held (n + deltas.length) = some m' ∧
      Table.Within strict OccurrenceObject.received m'
        ((deltas.map PostBody.delta).foldl PostBody.applyTo occ) := by
  induction deltas generalizing n m occ with
  | nil => exact ⟨m, hm, hw⟩
  | cons delta deltas ih =>
      rw [List.map_cons, List.length_cons, List.range'_succ, List.cons_eq_cons] at hn
      obtain ⟨-, k, hk, hc⟩ := hd delta List.mem_cons_self
      obtain rfl : k = n := Nat.succ_injective (hk.symm.trans hn.1)
      obtain ⟨m', hm', hw'⟩ := h.delta_holds hc hm hw
      obtain ⟨m'', hm'', hw''⟩ := ih (fun x hx => hd x (List.mem_cons_of_mem _ hx)) hn.2 hm' hw'
      refine ⟨m'', ?_, hw''⟩
      rw [List.length_cons, ← hm'']
      congr 1
      omega

/-- What is resent to a device at `a` that is judged in step: the sequences after `a`. -/
theorem Controls.resent (h : Controls strict epoch contents held posted d)
    {hello : Option HelloAlerts} {a : ℕ} (ha : d.inStep hello = some a) :
    (d.unacked.filter fun delta => a < delta.sequence).map (·.sequence) =
      List.range' (a + 1) (d.sequence - a) := by
  obtain ⟨-, -, hle, hstep⟩ := Delivery.inStep_eq_some ha
  obtain ⟨first, hpos, hfirst, hmap⟩ := h.unacked
  have hfilter : (d.unacked.filter fun delta => a < delta.sequence).map (·.sequence) =
      (d.unacked.map (·.sequence)).filter (a < ·) := by
    rw [List.filter_map]
    rfl
  have hmax : max first (a + 1) = a + 1 := by
    refine max_eq_right ?_
    rcases hstep with rfl | ⟨head, hhead, hseq⟩
    · exact hfirst
    · cases hu : d.unacked with
      | nil =>
          rw [hu] at hhead
          cases hhead
      | cons x l =>
          rw [hu] at hhead hmap
          cases hhead
          cases hn : d.sequence + 1 - first with
          | zero =>
              rw [hn] at hmap
              cases hmap
          | succ n =>
              rw [hn, List.map_cons, List.range'_succ, List.cons_eq_cons] at hmap
              exact hmap.1 ▸ hseq
  rw [hfilter, hmap, filter_lt_range', hmax, Nat.add_sub_cancel' hfirst, Nat.add_sub_add_right]

/-- A device judged in step reported its own position, in the controller's epoch. -/
theorem Device.position_of_inStep {dev : Device} {a : ℕ}
    (ha : d.inStep (some dev.hello) = some a) :
    dev.st.epoch = some d.epoch ∧ dev.st.acked = a := by
  obtain ⟨hposition, -⟩ := Delivery.inStep_eq_some ha
  unfold Delivery.HelloAlerts.position Device.hello at hposition
  cases hcorrupt : dev.st.corrupt with
  | true =>
      rw [hcorrupt] at hposition
      cases hposition
  | false =>
      rw [hcorrupt] at hposition
      cases hepoch : dev.st.epoch with
      | none =>
          rw [hepoch] at hposition
          cases hposition
      | some e =>
          rw [hepoch] at hposition
          obtain ⟨he, hacked⟩ := Prod.mk.inj (Option.some.inj hposition)
          exact ⟨congrArg some he, hacked⟩

/-- In a strict ledger what the controller knows as sent is the map of the assigned sequence. -/
theorem Controls.sent_eq (hs : strict) (h : Controls strict epoch contents held posted d)
    {m m' : Table Uuid OccurrenceObject} (hm : d.sent = some m)
    (hm' : mapAt held d.sequence = some m') : m = m' := by
  have hw := h.sent m hm
  rw [hm', Option.getD_some] at hw
  exact hw.eq hs

/-- A device judged in step is brought to `sent`. -/
theorem Coherent.resend (hs : strict) (h : Coherent strict F epoch contents w)
    (session : SessionId)
    (howed : (w.ctl.attach session (some w.dev.hello)).1.snapshotOwed = false) :
    ∃ m, w.ctl.sent = some m ∧ Mirrors m
      ((w.ctl.attach session (some w.dev.hello)).2.bodies.foldl PostBody.applyTo
        w.dev.st.occ) := by
  cases ha : w.ctl.inStep (some w.dev.hello) with
  | none =>
      unfold Delivery.attach at howed
      rw [ha] at howed
      cases howed
  | some a =>
      have hbodies : (w.ctl.attach session (some w.dev.hello)).2.bodies =
          (w.ctl.unacked.filter fun delta => a < delta.sequence).map PostBody.delta := by
        unfold Delivery.attach
        rw [ha]
      obtain ⟨-, hsent, hle, -⟩ := Delivery.inStep_eq_some ha
      obtain ⟨m, hm⟩ := Option.isSome_iff_exists.mp hsent
      obtain ⟨hepoch, hacked⟩ := Device.position_of_inStep ha
      obtain ⟨m₀, hm₀, hw₀⟩ := h.st (hepoch.trans (congrArg some h.controls.epoch_eq))
      rw [hacked] at hm₀
      have hresent := h.controls.resent ha
      have hlength : (w.ctl.unacked.filter fun delta => a < delta.sequence).length =
          w.ctl.sequence - a := by
        rw [← List.length_map, hresent, List.length_range']
      obtain ⟨m', hm', hw'⟩ := h.controls.ledger.replay
        (fun delta hdelta => h.controls.posts _
          (h.controls.queued delta (List.mem_of_mem_filter hdelta)))
        (hlength ▸ hresent) hm₀ hw₀
      rw [hlength, Nat.add_sub_cancel' hle] at hm'
      obtain rfl := h.controls.sent_eq hs hm hm'
      rw [hbodies]
      exact ⟨m, hm, hw'.getElem?_eq hs⟩

/-- A strict ledger makes both sides agree. -/
theorem Coherent.converged (hs : strict) (h : Coherent strict F epoch contents w) :
    Converged w where
  once := fun b hb b' hb' _ hseq =>
    (h.controls.posts b hb).sameContent (h.controls.posts b' hb') hseq
  unacked := h.controls.unacked
  durable := by
    intro hepoch
    obtain ⟨m, hm, hw⟩ := h.disk (h.controls.epoch_eq ▸ hepoch)
    exact ⟨m, hm, hw.getElem?_eq hs⟩
  current := by
    intro hepoch hacked m hm
    obtain ⟨m', hm', hw⟩ := h.disk (h.controls.epoch_eq ▸ hepoch)
    rw [hacked] at hm'
    obtain rfl := h.controls.sent_eq hs hm hm'
    exact hw.getElem?_eq hs
  inStep := fun session howed => h.resend hs session howed

end

/-- An alarm is delivered and acknowledged. -/
def deliveredRun : List Event :=
  [.connect 1, .refresh ⟨[sampleAlarm 1 ['a']], ∅⟩, .deliver untrustedClock .durable, .acknowledge]

/-- After that the controller restarts, cannot build the next snapshot, and the device reconnects. -/
def failedSnapshotRun : List Event :=
  deliveredRun ++ [.restartController, .connect 2,
    .refresh ⟨[sampleAlarm 2 (List.replicate 121 'b')], ∅⟩, .hangUp, .detach 2]

/-- The state after some events, from a device without a cache. -/
def sampleRun (events : List Event) : Link :=
  (Link.start ['e'] {}).run bitText (fun _ => .ok zeroSha) (fun _ => some zeroSha.hex) events

end EchoMuse.Alerts
