import EchoMuse.Alerts.Ledger

/-!
# Recorded Delivery Positions

The service posts what a step of delivery produced after it has written the step's position to the
speaker's row (`send_outbox`), and rebuilds the delivery state from the row when it restarts. A
write can fail; then nothing of the step is posted, but the state in memory has moved on.

An attach writes no position when the device acknowledged nothing new, and reposts what it lacks.
A delta whose write failed is posted then without a record of its sequence, and a restart gives
the sequence to other content.

## Main results

* `Delivery.Assigns`: what a step of delivery puts under new sequences;
* `Courier.row_mono`: a recorded position never moves back;
* `posted_recorded`: while every attach reposts recorded deltas only, nothing is posted before it
  is recorded, and no sequence is posted with two contents.
-/

namespace EchoMuse.Alerts

/-! ### The row -/

/-- The largest value of an SQLite integer. -/
def maxI64 : ℕ := 2 ^ 63 - 1

/-- A row of `alert_delivery`: the delivery epoch and the recorded position. -/
structure DeliveryRow where
  deliveryEpoch : Text
  sequence : ℕ
  ackedSequence : ℕ
deriving DecidableEq

/-- `SetDeliveryPosition`: both only rise, and the acknowledged one never passes the other. -/
def DeliveryRow.setPosition (row : DeliveryRow) (sequence acked : ℕ) : DeliveryRow :=
  { row with
    sequence := max row.sequence (min sequence maxI64)
    ackedSequence :=
      min (max row.ackedSequence (min acked maxI64)) (max row.sequence (min sequence maxI64)) }

/-- How a write ends; a failed one may have been applied. -/
inductive Write
  | done
  | failed (applied : Bool)
deriving DecidableEq

/-! ### The service -/

/-- A body posted to the device, and the sequence recorded at that moment. -/
structure Posted where
  body : PostBody
  recorded : ℕ
deriving DecidableEq

/-- The service's part of one speaker's delivery, and everything it has posted. -/
structure Courier where
  row : Option DeliveryRow := none
  delivery : Option Delivery := none
  posted : List Posted := []

/-- What happens to a speaker's delivery. -/
inductive CourierEvent
  /-- The speaker is registered, after a start of the process or again: its row is loaded. -/
  | register
  /-- The calendar is bound (`BindCalendar`), with the session attached at that time. -/
  | bind (newEpoch : Text) (attached : Option (SessionId × Option HelloAlerts)) (write : Write)
  | attach (session : SessionId) (hello : Option HelloAlerts) (write : Write)
  | detach (session : SessionId)
  | ack (ack : AlertAck) (write : Write)
  | refresh (desired : Desired) (write : Write)
  | retract (removed : List (Uuid × TombstoneReason)) (write : Write)

namespace Courier

/-- The recorded sequence. -/
def recorded (w : Courier) : ℕ := (w.row.map (·.sequence)).getD 0

/-- Posts bodies in order. -/
def post (w : Courier) (bodies : List PostBody) : Courier :=
  { w with posted := w.posted ++ bodies.map fun body => { body, recorded := w.recorded } }

/-- Writes the position of an outbox, then posts its bodies; after a failed write nothing. -/
def sendOutbox (w : Courier) (outbox : Outbox) (write : Write) : Courier :=
  match outbox.position with
  | none => w.post outbox.bodies
  | some (sequence, acked) =>
    let written := { w with row := w.row.map (·.setPosition sequence acked) }
    match write with
    | .done => written.post outbox.bodies
    | .failed true => written
    | .failed false => w

/-- The state a row is loaded as. -/
def DeliveryRow.load (row : DeliveryRow) : Delivery :=
  Delivery.new row.deliveryEpoch row.sequence row.ackedSequence

section

variable (digest : List OccurrenceObject → Except SnapshotError Sha256)

/-- One event. -/
def step (w : Courier) : CourierEvent → Courier
  | .register => { w with delivery := w.row.map DeliveryRow.load }
  | .bind newEpoch attached write =>
    let row := w.row.getD { deliveryEpoch := newEpoch, sequence := 0, ackedSequence := 0 }
    match w.delivery with
    | some _ => { w with row := some row }
    | none =>
      let d := DeliveryRow.load row
      match attached with
      | none => { w with row := some row, delivery := some d }
      | some (session, hello) =>
        let r := d.attach session hello
        { w with row := some row, delivery := some r.1 }.sendOutbox r.2 write
  | .attach session hello write =>
    match w.delivery with
    | none => w
    | some d =>
      let r := d.attach session hello
      { w with delivery := some r.1 }.sendOutbox r.2 write
  | .detach session => { w with delivery := w.delivery.map (·.detach session) }
  | .ack ack write =>
    match w.delivery with
    | none => w
    | some d =>
      let r := d.ack ack
      { w with delivery := some r.1 }.sendOutbox r.2 write
  | .refresh desired write =>
    match w.delivery with
    | none => w
    | some d =>
      match d.refresh digest desired with
      | (d, .error _) => { w with delivery := some d }
      | (d, .ok outbox) => { w with delivery := some d }.sendOutbox outbox write
  | .retract removed write =>
    match w.delivery with
    | none => w
    | some d =>
      let r := d.retract removed
      { w with delivery := some r.1 }.sendOutbox r.2 write

/-- A run. -/
def run (w : Courier) (events : List CourierEvent) : Courier := events.foldl (step digest) w

end

end Courier

/-! ### What a step assigns -/

instance (a b : PostBody) : Decidable (a.SameContent b) :=
  match a, b with
  | .delta a, .delta b => inferInstanceAs (Decidable (a = b))
  | .snapshot a, .snapshot b => inferInstanceAs (Decidable
      (a.sha256 = b.sha256 ∧ a.pageCount = b.pageCount ∧ (a.pageIndex = b.pageIndex → a = b)))
  | .delta _, .snapshot _ => inferInstanceAs (Decidable False)
  | .snapshot _, .delta _ => inferInstanceAs (Decidable False)

theorem PostBody.SameContent.refl (b : PostBody) : b.SameContent b := by
  cases b with
  | delta d => exact rfl
  | snapshot p => exact ⟨rfl, rfl, fun _ => rfl⟩

theorem PostBody.SameContent.symm {a b : PostBody} (h : a.SameContent b) : b.SameContent a := by
  cases a <;> cases b
  · exact ⟨h.1.symm, h.2.1.symm, fun hi => (h.2.2 hi.symm).symm⟩
  · exact h
  · exact h
  · exact Eq.symm h

/-- What a step that sends new content does: it puts one content each under the next sequences, and
queues at most the deltas among them. -/
structure Delivery.Assigns (d d' : Delivery) (bodies : List PostBody) : Prop where
  epoch : d'.epoch = d.epoch
  acked : d'.acked = d.acked
  le : d.sequence ≤ d'.sequence
  fresh : ∀ b ∈ bodies, d.sequence < b.sequence ∧ b.sequence ≤ d'.sequence
  own : ∀ b ∈ bodies, b.epoch = d.epoch
  same : ∀ a ∈ bodies, ∀ b ∈ bodies, a.sequence = b.sequence → a.SameContent b
  unacked : ∀ q ∈ d'.unacked, q ∈ d.unacked ∨ .delta q ∈ bodies

/-- New content comes with the position it leads to. -/
def Outbox.Leads (outbox : Outbox) (d : Delivery) : Prop :=
  outbox.position = some (d.sequence, d.acked) ∨ outbox.position = none ∧ outbox.bodies = []

namespace Delivery

variable {d d' : Delivery}

/-- A step that sends nothing. -/
theorem Assigns.nothing (hepoch : d'.epoch = d.epoch) (hacked : d'.acked = d.acked)
    (hsequence : d'.sequence = d.sequence) (hunacked : d'.unacked = d.unacked) :
    d.Assigns d' [] where
  epoch := hepoch
  acked := hacked
  le := hsequence.ge
  fresh := nofun
  own := nofun
  same := nofun
  unacked _ hq := .inl (hunacked ▸ hq)

theorem assigns_nextDelta (d : Delivery) (sent : Table Uuid OccurrenceObject)
    (objects : List CacheObject) :
    d.Assigns (d.nextDelta sent objects).1 [.delta (d.nextDelta sent objects).2] where
  epoch := rfl
  acked := rfl
  le := Nat.le_succ _
  fresh b hb := by
    rw [List.mem_singleton.mp hb]
    exact ⟨Nat.lt_succ_self _, le_rfl⟩
  own b hb := by
    rw [List.mem_singleton.mp hb]
    rfl
  same a ha b hb _ := by
    rw [List.mem_singleton.mp ha, List.mem_singleton.mp hb]
    exact .refl _
  unacked q hq := by
    rcases List.mem_append.mp hq with hq | hq
    · exact .inl hq
    · rw [List.mem_singleton.mp hq]
      exact .inr List.mem_cons_self

/-- Steps one after the other. -/
theorem Assigns.trans {d'' : Delivery} {bodies more : List PostBody} (h : d.Assigns d' bodies)
    (h' : d'.Assigns d'' more) : d.Assigns d'' (bodies ++ more) where
  epoch := h'.epoch.trans h.epoch
  acked := h'.acked.trans h.acked
  le := h.le.trans h'.le
  fresh b hb := by
    have hle := h.le
    have hle' := h'.le
    rcases List.mem_append.mp hb with hb | hb
    · have hfresh := h.fresh b hb
      omega
    · have hfresh := h'.fresh b hb
      omega
  own b hb := by
    rcases List.mem_append.mp hb with hb | hb
    · exact h.own b hb
    · exact (h'.own b hb).trans h.epoch
  same a ha b hb hab := by
    rcases List.mem_append.mp ha with ha | ha <;> rcases List.mem_append.mp hb with hb | hb
    · exact h.same a ha b hb hab
    · have hfresh := h.fresh a ha
      have hfresh' := h'.fresh b hb
      omega
    · have hfresh := h.fresh b hb
      have hfresh' := h'.fresh a ha
      omega
    · exact h'.same a ha b hb hab
  unacked q hq := by
    rcases h'.unacked q hq with hq | hq
    · exact (h.unacked q hq).imp_right (List.mem_append_left _)
    · exact .inr (List.mem_append_right _ hq)

theorem assigns_deltas (d : Delivery) (pieces : List (List CacheObject)) :
    d.Assigns (d.lastOf (d.deltas pieces)) ((d.deltas pieces).map fun s => .delta s.2) := by
  induction pieces generalizing d with
  | nil => exact .nothing rfl rfl rfl rfl
  | cons objects pieces ih =>
      rcases hs : d.sent with _ | sent
      · rw [deltas_of_none hs]
        exact .nothing rfl rfl rfl rfl
      · obtain ⟨hcons, hlast⟩ := deltas_cons hs objects pieces
        rw [hlast, hcons]
        exact (d.assigns_nextDelta sent objects).trans (ih _)

theorem assigns_snapshot {digest : List OccurrenceObject → Except SnapshotError Sha256}
    {desired : Desired} {outbox : Outbox} (h : d.snapshot digest desired = (d', .ok outbox)) :
    d.Assigns d' outbox.bodies ∧ outbox.position = some (d'.sequence, d'.acked) ∧
      d'.sequence = d.sequence + 1 := by
  unfold snapshot at h
  dsimp only at h
  rcases hp : snapshotPages digest d.epoch (d.sequence + 1)
      (snapshotObjects (d.sent.getD ∅) (d.sequence + 1) desired) with e | pages
  · rw [hp] at h
    cases h
  · rw [hp] at h
    cases h
    obtain ⟨-, sha, -, rfl⟩ := snapshotPages_eq_ok_iff.mp hp
    refine ⟨⟨rfl, rfl, Nat.le_succ _, fun b hb => ?_, fun b hb => ?_, fun a ha b hb _ => ?_,
      nofun⟩, rfl, rfl⟩
    · obtain ⟨page, hpage, rfl⟩ := List.mem_map.mp hb
      obtain ⟨i, -, rfl⟩ := mem_pagesOf.mp hpage
      exact ⟨Nat.lt_succ_self _, le_rfl⟩
    · obtain ⟨page, hpage, rfl⟩ := List.mem_map.mp hb
      obtain ⟨i, -, rfl⟩ := mem_pagesOf.mp hpage
      rfl
    · obtain ⟨page, hpage, rfl⟩ := List.mem_map.mp ha
      obtain ⟨i, -, rfl⟩ := mem_pagesOf.mp hpage
      obtain ⟨page, hpage, rfl⟩ := List.mem_map.mp hb
      obtain ⟨j, -, rfl⟩ := mem_pagesOf.mp hpage
      refine ⟨rfl, rfl, ?_⟩
      rintro (rfl : i = j)
      rfl

/-- A snapshot that cannot be built assigns nothing. -/
theorem assigns_snapshot_error {digest : List OccurrenceObject → Except SnapshotError Sha256}
    {desired : Desired} {e : SnapshotError} (h : d.snapshot digest desired = (d', .error e)) :
    d.Assigns d' [] ∧ d'.sequence = d.sequence := by
  unfold snapshot at h
  dsimp only at h
  rcases hp : snapshotPages digest d.epoch (d.sequence + 1)
      (snapshotObjects (d.sent.getD ∅) (d.sequence + 1) desired) with e | pages
  · rw [hp] at h
    cases h
    exact ⟨.nothing rfl rfl rfl rfl, rfl⟩
  · rw [hp] at h
    cases h

/-- How many sequences a refresh assigns: one for a snapshot, one for each delta. -/
def refreshes (d : Delivery) (desired : Desired) : ℕ :=
  match d.attached, d.sent with
  | some { snapshotOwed := false, .. }, some sent =>
    (chunks snapshotPageObjects (changes sent desired)).length
  | some _, _ => 1
  | none, _ => 0

theorem deltas_length_le (d : Delivery) (pieces : List (List CacheObject)) :
    (d.deltas pieces).length ≤ pieces.length := by
  induction pieces generalizing d with
  | nil => exact le_rfl
  | cons objects pieces ih =>
      rcases hs : d.sent with _ | sent
      · rw [deltas_of_none hs]
        exact Nat.zero_le _
      · rw [(deltas_cons hs objects pieces).1, List.length_cons, List.length_cons]
        exact Nat.succ_le_succ (ih _)

theorem assigns_refresh {digest : List OccurrenceObject → Except SnapshotError Sha256}
    {desired : Desired} {outbox : Outbox} (h : d.refresh digest desired = (d', .ok outbox)) :
    d.Assigns d' outbox.bodies ∧ Outbox.Leads outbox d' ∧
      d'.sequence ≤ d.sequence + d.refreshes desired := by
  unfold refresh at h
  rcases ha : d.attached with _ | attached
  · rw [ha] at h
    cases h
    exact ⟨.nothing rfl rfl rfl rfl, .inr ⟨rfl, rfl⟩, Nat.le_add_right _ _⟩
  · rw [ha] at h
    have hsnapshot : d.refreshes desired = 1 → d.snapshot digest desired = (d', .ok outbox) →
        d.Assigns d' outbox.bodies ∧ Outbox.Leads outbox d' ∧
          d'.sequence ≤ d.sequence + d.refreshes desired := by
      intro hone hs
      obtain ⟨hassigns, hposition, hsequence⟩ := assigns_snapshot hs
      exact ⟨hassigns, .inl hposition, by rw [hone, hsequence]⟩
    rcases hs : d.sent with _ | sent
    · rw [hs] at h
      exact hsnapshot (by simp [refreshes, ha, hs]) h
    · rw [hs] at h
      dsimp only at h
      by_cases howed : attached.snapshotOwed = true
      · rw [if_pos howed] at h
        exact hsnapshot (by obtain ⟨session, owed⟩ := attached; cases howed; simp [refreshes, ha]) h
      · rw [if_neg howed] at h
        cases h
        have hlength := d.deltas_length_le (chunks snapshotPageObjects (changes sent desired))
        have hcount : d.refreshes desired =
            (chunks snapshotPageObjects (changes sent desired)).length := by
          obtain ⟨session, owed⟩ := attached
          rw [Bool.not_eq_true] at howed
          cases howed
          simp only [refreshes, ha, hs]
        refine ⟨d.assigns_deltas _, ?_, ?_⟩
        · by_cases hempty : (d.deltas (chunks snapshotPageObjects (changes sent desired))).isEmpty
          · right
            rw [List.isEmpty_iff] at hempty
            dsimp only
            rw [hempty]
            exact ⟨rfl, rfl⟩
          · left
            dsimp only
            rw [if_neg hempty]
        · rw [(d.deltas_sequences _).2.1, hcount]
          omega

theorem assigns_refresh_error {digest : List OccurrenceObject → Except SnapshotError Sha256}
    {desired : Desired} {e : SnapshotError} (h : d.refresh digest desired = (d', .error e)) :
    d.Assigns d' [] ∧ d'.sequence = d.sequence := by
  unfold refresh at h
  rcases ha : d.attached with _ | attached
  · rw [ha] at h
    cases h
  · rw [ha] at h
    rcases hs : d.sent with _ | sent
    · rw [hs] at h
      exact assigns_snapshot_error h
    · rw [hs] at h
      dsimp only at h
      by_cases howed : attached.snapshotOwed = true
      · rw [if_pos howed] at h
        exact assigns_snapshot_error h
      · rw [if_neg howed] at h
        cases h

theorem assigns_retract (d : Delivery) (removed : List (Uuid × TombstoneReason)) :
    d.Assigns (d.retract removed).1 (d.retract removed).2.bodies ∧
      Outbox.Leads (d.retract removed).2 (d.retract removed).1 ∧
      (d.retract removed).1.sequence ≤ d.sequence + 1 := by
  have hnothing : d.Assigns d ([] : List PostBody) ∧ Outbox.Leads {} d ∧
      d.sequence ≤ d.sequence + 1 := ⟨.nothing rfl rfl rfl rfl, .inr ⟨rfl, rfl⟩, Nat.le_succ _⟩
  unfold retract
  split
  · next attached sent _ _ =>
      by_cases hskip : attached.snapshotOwed = true ∨ removed = []
      · rw [if_pos hskip]
        exact hnothing
      · rw [if_neg hskip]
        exact ⟨d.assigns_nextDelta sent _, .inl rfl, le_rfl⟩
  · exact hnothing

end Delivery

/-! ### Rows -/

/-- A row whose positions fit their columns and are in order. -/
def DeliveryRow.Sound (row : DeliveryRow) : Prop :=
  row.ackedSequence ≤ row.sequence ∧ row.sequence ≤ maxI64

/-- A later state of the same row. -/
def DeliveryRow.Le (a b : DeliveryRow) : Prop :=
  a.deliveryEpoch = b.deliveryEpoch ∧ a.sequence ≤ b.sequence ∧ a.ackedSequence ≤ b.ackedSequence

theorem DeliveryRow.setPosition_spec {row : DeliveryRow} (h : row.Sound) (sequence acked : ℕ) :
    (row.setPosition sequence acked).Sound ∧ row.Le (row.setPosition sequence acked) := by
  obtain ⟨hle, hmax⟩ := h
  simp only [Sound, Le, setPosition, true_and]
  omega

namespace Courier

section

variable {digest : List OccurrenceObject → Except SnapshotError Sha256} {w : Courier}

theorem row_post (w : Courier) (bodies : List PostBody) : (w.post bodies).row = w.row := rfl

theorem delivery_post (w : Courier) (bodies : List PostBody) :
    (w.post bodies).delivery = w.delivery := rfl

/-- What sending an outbox can do to the row and to what is posted. -/
theorem sendOutbox_cases (w : Courier) (outbox : Outbox) (write : Write) :
    (w.sendOutbox outbox write).delivery = w.delivery ∧
    ((outbox.position = none ∧ w.sendOutbox outbox write = w.post outbox.bodies) ∨
      w.sendOutbox outbox write = w ∨
      ∃ p, outbox.position = some p ∧
        ((w.sendOutbox outbox write).posted = w.posted ∧
            (w.sendOutbox outbox write).row = w.row.map (·.setPosition p.1 p.2) ∨
          w.sendOutbox outbox write =
            { w with row := w.row.map (DeliveryRow.setPosition · p.1 p.2) }.post
            outbox.bodies)) := by
  rcases hp : outbox.position with _ | ⟨sequence, acked⟩
  · simp [sendOutbox, hp, delivery_post]
  · cases write with
    | done => simp [sendOutbox, hp, delivery_post]
    | failed applied =>
        cases applied
        · simp [sendOutbox, hp]
        · simp [sendOutbox, hp]

/-- Sending an outbox moves a recorded position forwards at most. -/
theorem row_sendOutbox (w : Courier) (outbox : Outbox) (write : Write) {row : DeliveryRow}
    (hrow : w.row = some row) (hsound : row.Sound) :
    ∃ row', (w.sendOutbox outbox write).row = some row' ∧ row'.Sound ∧ row.Le row' := by
  have hsame : ∃ row', w.row = some row' ∧ row'.Sound ∧ row.Le row' :=
    ⟨row, hrow, hsound, rfl, le_rfl, le_rfl⟩
  rcases (w.sendOutbox_cases outbox write).2 with ⟨-, h⟩ | h | ⟨p, -, ⟨-, h⟩ | h⟩
  · rw [h]
    exact hsame
  · rw [h]
    exact hsame
  · rw [h, hrow]
    exact ⟨_, rfl, DeliveryRow.setPosition_spec hsound _ _⟩
  · rw [h, row_post, hrow]
    exact ⟨_, rfl, DeliveryRow.setPosition_spec hsound _ _⟩

/-- **Recorded positions only rise**, whatever happens. -/
theorem row_mono {row : DeliveryRow} (hrow : w.row = some row) (hsound : row.Sound)
    (e : CourierEvent) : ∃ row', (w.step digest e).row = some row' ∧ row'.Sound ∧ row.Le row' := by
  have hsame : ∃ row', w.row = some row' ∧ row'.Sound ∧ row.Le row' :=
    ⟨row, hrow, hsound, rfl, le_rfl, le_rfl⟩
  cases e with
  | register => exact hsame
  | bind newEpoch attached write =>
      unfold step
      dsimp only
      rw [hrow, Option.getD_some]
      rcases w.delivery with _ | d
      · rcases attached with _ | ⟨session, hello⟩
        · exact ⟨row, rfl, hsound, rfl, le_rfl, le_rfl⟩
        · exact row_sendOutbox _ _ _ rfl hsound
      · exact ⟨row, rfl, hsound, rfl, le_rfl, le_rfl⟩
  | attach session hello write =>
      unfold step
      rcases w.delivery with _ | d
      · exact hsame
      · exact row_sendOutbox _ _ _ hrow hsound
  | detach session => exact hsame
  | ack ack write =>
      unfold step
      rcases w.delivery with _ | d
      · exact hsame
      · exact row_sendOutbox _ _ _ hrow hsound
  | refresh desired write =>
      unfold step
      rcases w.delivery with _ | d
      · exact hsame
      · dsimp only
        rcases d.refresh digest desired with ⟨d', e | outbox⟩
        · exact hsame
        · exact row_sendOutbox _ _ _ hrow hsound
  | retract removed write =>
      unfold step
      rcases w.delivery with _ | d
      · exact hsame
      · exact row_sendOutbox _ _ _ hrow hsound

end

end Courier

/-! ### What is posted is recorded -/

/-- What has been posted is recorded, and has one content for each sequence. -/
structure Posts (row : DeliveryRow) (posted : List Posted) : Prop where
  recorded : ∀ p ∈ posted, p.body.sequence ≤ p.recorded ∧ p.recorded ≤ row.sequence
  epoch : ∀ p ∈ posted, p.body.epoch = row.deliveryEpoch
  same : ∀ p ∈ posted, ∀ q ∈ posted, p.body.sequence = q.body.sequence →
    p.body.SameContent q.body

/-- The state in memory is at or ahead of the record, and its queue agrees with what has been
posted. -/
structure Keeps (row : DeliveryRow) (posted : List Posted) (d : Delivery) : Prop where
  epoch : d.epoch = row.deliveryEpoch
  ahead : row.sequence ≤ d.sequence
  fits : d.sequence ≤ maxI64
  queued : ∀ q ∈ d.unacked, q.deliveryEpoch = d.epoch ∧ q.sequence ≤ d.sequence
  distinct : ∀ p ∈ d.unacked, ∀ q ∈ d.unacked, p.sequence = q.sequence → p = q
  reposts : ∀ p ∈ posted, ∀ q ∈ d.unacked, p.body.sequence = q.sequence → p.body = .delta q

/-- Bodies that can be posted as soon as the position of `d` is recorded. -/
structure Ready (posted : List Posted) (d : Delivery) (bodies : List PostBody) : Prop where
  epoch : ∀ b ∈ bodies, b.epoch = d.epoch
  le : ∀ b ∈ bodies, b.sequence ≤ d.sequence
  same : ∀ a ∈ bodies, ∀ b ∈ bodies, a.sequence = b.sequence → a.SameContent b
  posted : ∀ p ∈ posted, ∀ b ∈ bodies, p.body.sequence = b.sequence → p.body.SameContent b
  queued : ∀ b ∈ bodies, ∀ q ∈ d.unacked, b.sequence = q.sequence → b = .delta q

section

variable {row row' : DeliveryRow} {posted : List Posted} {d d' : Delivery}
  {bodies : List PostBody}

theorem Posts.mono (h : Posts row posted) (hle : row.Le row') : Posts row' posted where
  recorded p hp := by
    have hrecorded := h.recorded p hp
    have hsequence := hle.2.1
    omega
  epoch p hp := (h.epoch p hp).trans hle.1
  same := h.same

theorem Keeps.mono (h : Keeps row posted d) (hle : row.Le row')
    (hahead : row'.sequence ≤ d.sequence) : Keeps row' posted d :=
  { h with epoch := h.epoch.trans hle.1, ahead := hahead }

/-- Recorded bodies are posted. -/
theorem Posts.post (h : Posts row posted) (hd : Keeps row posted d)
    (hready : Ready posted d bodies) (hrecorded : ∀ b ∈ bodies, b.sequence ≤ row.sequence) :
    Posts row (posted ++ bodies.map fun body => { body, recorded := row.sequence }) where
  recorded p hp := by
    rcases List.mem_append.mp hp with hp | hp
    · exact h.recorded p hp
    · obtain ⟨b, hb, rfl⟩ := List.mem_map.mp hp
      exact ⟨hrecorded b hb, le_rfl⟩
  epoch p hp := by
    rcases List.mem_append.mp hp with hp | hp
    · exact h.epoch p hp
    · obtain ⟨b, hb, rfl⟩ := List.mem_map.mp hp
      exact (hready.epoch b hb).trans hd.epoch
  same p hp q hq hpq := by
    rcases List.mem_append.mp hp with hp | hp <;> rcases List.mem_append.mp hq with hq | hq
    · exact h.same p hp q hq hpq
    · obtain ⟨b, hb, rfl⟩ := List.mem_map.mp hq
      exact hready.posted p hp b hb hpq
    · obtain ⟨b, hb, rfl⟩ := List.mem_map.mp hp
      exact (hready.posted q hq b hb hpq.symm).symm
    · obtain ⟨a, ha, rfl⟩ := List.mem_map.mp hp
      obtain ⟨b, hb, rfl⟩ := List.mem_map.mp hq
      exact hready.same a ha b hb hpq

theorem Keeps.post (h : Keeps row posted d) (hready : Ready posted d bodies) (recorded : ℕ) :
    Keeps row (posted ++ bodies.map fun body => { body := body, recorded }) d :=
  { h with
    reposts := by
      intro p hp q hq hpq
      rcases List.mem_append.mp hp with hp | hp
      · exact h.reposts p hp q hq hpq
      · obtain ⟨b, hb, rfl⟩ := List.mem_map.mp hp
        exact hready.queued b hb q hq hpq }

/-- New content can be posted, and whether it is or not the queue stays in agreement. -/
theorem Keeps.assigns (h : Keeps row posted d) (hposts : Posts row posted)
    (ha : d.Assigns d' bodies) (hfits : d'.sequence ≤ maxI64) :
    Keeps row posted d' ∧ Ready posted d' bodies := by
  have hle := ha.le
  have hahead := h.ahead
  have hold : ∀ p ∈ posted, p.body.sequence ≤ d.sequence := by
    intro p hp
    have hrecorded := hposts.recorded p hp
    omega
  have hqueue : ∀ b ∈ bodies, ∀ q ∈ d'.unacked, b.sequence = q.sequence → b = .delta q := by
    intro b hb q hq hbq
    have hfresh := ha.fresh b hb
    rcases ha.unacked q hq with hq | hq
    · have hqueued := (h.queued q hq).2
      omega
    · have hsame := ha.same b hb (.delta q) hq hbq
      cases b with
      | delta c => exact congrArg PostBody.delta hsame
      | snapshot p => exact absurd hsame id
  refine ⟨⟨ha.epoch.trans h.epoch, hahead.trans hle, hfits, fun q hq => ?_, fun p hp q hq hpq => ?_,
    fun p hp q hq hpq => ?_⟩, ⟨fun b hb => (ha.own b hb).trans ha.epoch.symm,
    fun b hb => (ha.fresh b hb).2, ha.same, fun p hp b hb hpb => ?_, hqueue⟩⟩
  · rcases ha.unacked q hq with hq | hq
    · obtain ⟨hepoch, hsequence⟩ := h.queued q hq
      exact ⟨hepoch.trans ha.epoch.symm, hsequence.trans hle⟩
    · exact ⟨(ha.own _ hq).trans ha.epoch.symm, (ha.fresh _ hq).2⟩
  · rcases ha.unacked p hp with hold' | hnew
    · rcases ha.unacked q hq with hold'' | hnew'
      · exact h.distinct p hold' q hold'' hpq
      · have hfresh := (ha.fresh _ hnew').1
        have hqueued := (h.queued p hold').2
        change d.sequence < q.sequence at hfresh
        omega
    · exact PostBody.delta.inj (hqueue _ hnew q hq hpq)
  · have hsequence := hold p hp
    rcases ha.unacked q hq with hq | hq
    · exact h.reposts p hp q hq hpq
    · have hfresh := (ha.fresh _ hq).1
      change d.sequence < q.sequence at hfresh
      omega
  · have hsequence := hold p hp
    have hfresh := (ha.fresh b hb).1
    omega

/-- A step that sends again at most what is queued. -/
theorem Keeps.resends (h : Keeps row posted d) (hepoch : d'.epoch = d.epoch)
    (hsequence : d'.sequence = d.sequence) (hunacked : ∀ q ∈ d'.unacked, q ∈ d.unacked)
    (hbodies : ∀ b ∈ bodies, ∃ q ∈ d'.unacked, b = .delta q) :
    Keeps row posted d' ∧ Ready posted d' bodies := by
  have hbody : ∀ b ∈ bodies, ∃ q ∈ d.unacked, b = .delta q := fun b hb => by
    obtain ⟨q, hq, rfl⟩ := hbodies b hb
    exact ⟨q, hunacked q hq, rfl⟩
  refine ⟨⟨hepoch.trans h.epoch, hsequence ▸ h.ahead, hsequence ▸ h.fits, fun q hq => ?_,
    fun p hp q hq => h.distinct p (hunacked p hp) q (hunacked q hq),
    fun p hp q hq => h.reposts p hp q (hunacked q hq)⟩, ⟨fun b hb => ?_, fun b hb => ?_,
    fun a ha b hb hab => ?_, fun p hp b hb hpb => ?_, fun b hb q hq hbq => ?_⟩⟩
  · rw [hepoch, hsequence]
    exact h.queued q (hunacked q hq)
  · obtain ⟨q, hq, rfl⟩ := hbody b hb
    exact (h.queued q hq).1.trans hepoch.symm
  · obtain ⟨q, hq, rfl⟩ := hbody b hb
    rw [hsequence]
    exact (h.queued q hq).2
  · obtain ⟨p, hp, rfl⟩ := hbody a ha
    obtain ⟨q, hq, rfl⟩ := hbody b hb
    exact h.distinct p hp q hq hab
  · obtain ⟨q, hq, rfl⟩ := hbody b hb
    rw [h.reposts p hp q hq hpb]
    exact .refl _
  · obtain ⟨p, hp, rfl⟩ := hbody b hb
    rw [h.distinct p hp q (hunacked q hq) hbq]

end

/-- The invariant of a courier. -/
def Courier.Inv (w : Courier) : Prop :=
  match w.row with
  | none => w.delivery = none ∧ w.posted = []
  | some row => row.Sound ∧ Posts row w.posted ∧ ∀ d, w.delivery = some d → Keeps row w.posted d

theorem Courier.inv_iff {w : Courier} {row : DeliveryRow} (hrow : w.row = some row) :
    w.Inv ↔ row.Sound ∧ Posts row w.posted ∧ ∀ d, w.delivery = some d → Keeps row w.posted d := by
  unfold Inv
  rw [hrow]

/-- Sending an outbox whose bodies are ready keeps the invariant, when its position is that of the
state in memory, or it has none and its bodies are recorded. -/
theorem Courier.inv_sendOutbox {w : Courier} {row : DeliveryRow} {d : Delivery} {outbox : Outbox}
    (hrow : w.row = some row) (hd : w.delivery = some d) (hsound : row.Sound)
    (hposts : Posts row w.posted) (hkeeps : Keeps row w.posted d)
    (hready : Ready w.posted d outbox.bodies)
    (hposition : (∃ acked, outbox.position = some (d.sequence, acked)) ∨
      outbox.position = none ∧ ∀ b ∈ outbox.bodies, b.sequence ≤ row.sequence) (write : Write) :
    (w.sendOutbox outbox write).Inv := by
  have hinv : w.Inv := by
    refine (inv_iff hrow).mpr ⟨hsound, hposts, fun d' hd' => ?_⟩
    rw [hd] at hd'
    cases hd'
    exact hkeeps
  obtain ⟨hdelivery, hcases⟩ := w.sendOutbox_cases outbox write
  rcases hposition with ⟨acked, hposition⟩ | ⟨hposition, hrecorded⟩
  · -- the row after the write holds the position in memory
    have hspec := DeliveryRow.setPosition_spec hsound d.sequence acked
    have hsequence : (row.setPosition d.sequence acked).sequence = d.sequence := by
      have hahead := hkeeps.ahead
      have hfits := hkeeps.fits
      simp only [DeliveryRow.setPosition]
      omega
    have hposts' := hposts.mono hspec.2
    have hkeeps' := hkeeps.mono hspec.2 hsequence.le
    rcases hcases with ⟨hnone, -⟩ | h | ⟨p, hp, ⟨hposted, hrow'⟩ | h⟩
    · rw [hposition] at hnone
      cases hnone
    · rw [h]
      exact hinv
    · rw [hposition] at hp
      cases hp
      rw [hrow] at hrow'
      refine (inv_iff hrow').mpr ⟨hspec.1, hposted ▸ hposts', fun d' hd' => ?_⟩
      rw [hdelivery, hd] at hd'
      cases hd'
      rw [hposted]
      exact hkeeps'
    · rw [hposition] at hp
      cases hp
      rw [h, hrow]
      refine (inv_iff rfl).mpr ⟨hspec.1, ?_, fun d' hd' => ?_⟩
      · exact hposts'.post hkeeps' hready fun b hb =>
          (hready.le b hb).trans hsequence.ge
      · change w.delivery = some d' at hd'
        rw [hd] at hd'
        cases hd'
        exact hkeeps'.post hready _
  · rcases hcases with ⟨-, h⟩ | h | ⟨p, hp, -⟩
    · rw [h]
      have hrecordedRow : w.recorded = row.sequence := by simp [recorded, hrow]
      have hrow' : (w.post outbox.bodies).row = some row := hrow
      refine (inv_iff hrow').mpr ⟨hsound, ?_, fun d' hd' => ?_⟩
      · change Posts row (w.posted ++ _)
        rw [hrecordedRow]
        exact hposts.post hkeeps hready hrecorded
      · change w.delivery = some d' at hd'
        rw [hd] at hd'
        cases hd'
        exact hkeeps.post hready _
    · rw [h]
      exact hinv
    · rw [hposition] at hp
      cases hp

/-! ### Attach and acknowledge -/

theorem Delivery.attach_spec (d : Delivery) (session : SessionId) (hello : Option HelloAlerts) :
    (d.attach session hello).1.epoch = d.epoch ∧
      (d.attach session hello).1.sequence = d.sequence ∧
      (∀ q ∈ (d.attach session hello).1.unacked, q ∈ d.unacked) ∧
      (∀ b ∈ (d.attach session hello).2.bodies,
        ∃ q ∈ (d.attach session hello).1.unacked, b = .delta q) ∧
      ((∃ acked, (d.attach session hello).2.position = some (d.sequence, acked)) ∨
        (d.attach session hello).2.position = none ∧
          ∀ b ∈ (d.attach session hello).2.bodies, ∃ a, d.inStep hello = some a ∧ a ≤ d.acked ∧
            ∃ q ∈ d.unacked, a < q.sequence ∧ b = .delta q) := by
  unfold attach
  rcases ha : d.inStep hello with _ | a
  · exact ⟨rfl, rfl, fun _ h => h, nofun, .inr ⟨rfl, nofun⟩⟩
  · refine ⟨rfl, rfl, fun _ => List.mem_of_mem_filter, fun b hb => ?_, ?_⟩
    · obtain ⟨q, hq, rfl⟩ := List.mem_map.mp hb
      exact ⟨q, hq, rfl⟩
    · by_cases hlt : d.acked < a
      · exact .inl ⟨a, if_pos hlt⟩
      · refine .inr ⟨if_neg hlt, fun b hb => ?_⟩
        obtain ⟨q, hq, rfl⟩ := List.mem_map.mp hb
        obtain ⟨hmem, hq⟩ := List.mem_filter.mp hq
        exact ⟨a, rfl, Nat.le_of_not_lt hlt, q, hmem, of_decide_eq_true hq, rfl⟩

theorem Delivery.ack_spec (d : Delivery) (a : AlertAck) :
    (d.ack a).1.epoch = d.epoch ∧ (d.ack a).1.sequence = d.sequence ∧
      (∀ q ∈ (d.ack a).1.unacked, q ∈ d.unacked) ∧ (d.ack a).2.bodies = [] ∧
      ((∃ acked, (d.ack a).2.position = some (d.sequence, acked)) ∨
        (d.ack a).2.position = none) := by
  obtain ⟨owed, howed⟩ : ∃ d' : Delivery, (if a.needSnapshot = true then
      { d with attached := d.attached.map fun x => { x with snapshotOwed := true } }
    else d) = d' ∧ d'.epoch = d.epoch ∧ d'.sequence = d.sequence ∧ d'.unacked = d.unacked := by
    refine ⟨_, rfl, ?_⟩
    by_cases hneed : a.needSnapshot = true
    · rw [if_pos hneed]
      exact ⟨rfl, rfl, rfl⟩
    · rw [if_neg hneed]
      exact ⟨rfl, rfl, rfl⟩
  obtain ⟨heq, hepoch, hsequence, hunacked⟩ := howed
  unfold ack
  dsimp only
  rw [heq]
  by_cases hc : a.durable = true ∧ a.deliveryEpoch = some owed.epoch ∧
      a.appliedThrough ≤ owed.sequence ∧ owed.acked < a.appliedThrough
  · rw [if_pos hc]
    refine ⟨hepoch, hsequence, fun q hq => ?_, rfl, .inl ⟨a.appliedThrough, ?_⟩⟩
    · exact hunacked ▸ List.mem_of_mem_filter hq
    · rw [← hsequence]
  · rw [if_neg hc]
    exact ⟨hepoch, hsequence, fun q hq => hunacked ▸ hq, rfl, .inr rfl⟩

/-! ### Runs -/

namespace Courier

/-- The condition under which a step keeps to the record: an attach that writes no position sends
again recorded deltas only, and the sequences it assigns fit in their column. -/
def Meets (w : Courier) : CourierEvent → Prop
  | .attach _ hello _ => ∀ d ∈ w.delivery, ∀ a ∈ d.inStep hello, a ≤ d.acked →
      ∀ q ∈ d.unacked, a < q.sequence → q.sequence ≤ w.recorded
  | .refresh desired _ => ∀ d ∈ w.delivery, d.sequence + d.refreshes desired ≤ maxI64
  | .retract _ _ => ∀ d ∈ w.delivery, d.sequence + 1 ≤ maxI64
  | _ => True

instance (w : Courier) (e : CourierEvent) : Decidable (w.Meets e) :=
  match e with
  | .attach _ hello _ => inferInstanceAs (Decidable (∀ d ∈ w.delivery, ∀ a ∈ d.inStep hello,
      a ≤ d.acked → ∀ q ∈ d.unacked, a < q.sequence → q.sequence ≤ w.recorded))
  | .refresh desired _ =>
    inferInstanceAs (Decidable (∀ d ∈ w.delivery, d.sequence + d.refreshes desired ≤ maxI64))
  | .retract _ _ => inferInstanceAs (Decidable (∀ d ∈ w.delivery, d.sequence + 1 ≤ maxI64))
  | .register | .bind .. | .detach _ | .ack .. => inferInstanceAs (Decidable True)

section

variable (digest : List OccurrenceObject → Except SnapshotError Sha256)

/-- A run whose every step meets the condition. -/
def Careful (w : Courier) : List CourierEvent → Prop
  | [] => True
  | e :: events => w.Meets e ∧ Careful (w.step digest e) events

instance decidableCareful (w : Courier) (events : List CourierEvent) :
    Decidable (Careful digest w events) :=
  match events with
  | [] => inferInstanceAs (Decidable True)
  | e :: events =>
    have := decidableCareful (w.step digest e) events
    inferInstanceAs (Decidable (w.Meets e ∧ Careful digest (w.step digest e) events))

end

variable {digest : List OccurrenceObject → Except SnapshotError Sha256} {w : Courier}

/-- What is loaded from a row is at the record, with nothing queued. -/
theorem keeps_load {row : DeliveryRow} (hsound : row.Sound) (posted : List Posted) :
    Keeps row posted (DeliveryRow.load row) where
  epoch := rfl
  ahead := le_rfl
  fits := hsound.2
  queued := nofun
  distinct := nofun
  reposts _ _ := nofun

/-- An attach keeps the invariant when what it sends again without a position is recorded. -/
theorem inv_attach {row : DeliveryRow} {d : Delivery} (hrow : w.row = some row)
    (hsound : row.Sound) (hposts : Posts row w.posted) (hkeeps : Keeps row w.posted d)
    {session : SessionId} {hello : Option HelloAlerts}
    (hmeets : ∀ a ∈ d.inStep hello, a ≤ d.acked → ∀ q ∈ d.unacked, a < q.sequence →
      q.sequence ≤ row.sequence) (write : Write) :
    ({ w with delivery := some (d.attach session hello).1 }.sendOutbox
      (d.attach session hello).2 write).Inv := by
  obtain ⟨hepoch, hsequence, hunacked, hbodies, hposition⟩ := d.attach_spec session hello
  obtain ⟨hkeeps', hready⟩ := hkeeps.resends hepoch hsequence hunacked hbodies
  refine inv_sendOutbox (w := { w with delivery := some (d.attach session hello).1 }) hrow rfl
    hsound hposts hkeeps' hready ?_ write
  rcases hposition with ⟨acked, hp⟩ | ⟨hp, hsent⟩
  · exact .inl ⟨acked, by rw [hp, hsequence]⟩
  · refine .inr ⟨hp, fun b hb => ?_⟩
    obtain ⟨a, ha, hle, q, hq, hlt, rfl⟩ := hsent b hb
    exact hmeets a ha hle q hq hlt

/-- New content keeps the invariant. -/
theorem inv_assigns {row : DeliveryRow} {d d' : Delivery} (hrow : w.row = some row)
    (hsound : row.Sound) (hposts : Posts row w.posted) (hkeeps : Keeps row w.posted d)
    {outbox : Outbox} (ha : d.Assigns d' outbox.bodies) (hleads : outbox.Leads d')
    (hfits : d'.sequence ≤ maxI64) (write : Write) :
    ({ w with delivery := some d' }.sendOutbox outbox write).Inv := by
  obtain ⟨hkeeps', hready⟩ := hkeeps.assigns hposts ha hfits
  refine inv_sendOutbox (w := { w with delivery := some d' }) hrow rfl hsound hposts hkeeps' hready
    ?_ write
  rcases hleads with hposition | ⟨hposition, hbodies⟩
  · exact .inl ⟨_, hposition⟩
  · refine .inr ⟨hposition, ?_⟩
    rw [hbodies]
    nofun

/-- Nothing is delivered before a calendar is bound. -/
theorem inv_unbound (hrow : w.row = none) {delivery : Option Delivery} (hd : delivery = none)
    (hposted : w.posted = []) : { w with delivery }.Inv := by
  unfold Inv
  dsimp only
  rw [hrow]
  exact ⟨hd, hposted⟩

/-- A step in memory only keeps the invariant. -/
theorem inv_quiet {row : DeliveryRow} (hrow : w.row = some row) (hsound : row.Sound)
    (hposts : Posts row w.posted) {delivery : Option Delivery}
    (hkeeps : ∀ d, delivery = some d → Keeps row w.posted d) :
    { w with delivery }.Inv :=
  (inv_iff (w := { w with delivery }) hrow).mpr ⟨hsound, hposts, hkeeps⟩

/-- **One step.** -/
theorem inv_step (h : w.Inv) {e : CourierEvent} (hmeets : w.Meets e) :
    (w.step digest e).Inv := by
  rcases hrow : w.row with _ | row
  · -- nothing is delivered before a calendar is bound
    have hnone : w.delivery = none ∧ w.posted = [] := by
      unfold Inv at h
      rwa [hrow] at h
    have hsame : ∀ e', w.step digest e' = w → (w.step digest e').Inv := by
      intro e' he
      rw [he]
      exact h
    cases e with
    | register => exact inv_unbound hrow (by rw [hrow]; rfl) hnone.2
    | bind newEpoch attached write =>
        have hsound : DeliveryRow.Sound ⟨newEpoch, 0, 0⟩ := ⟨le_rfl, Nat.zero_le _⟩
        have hposts : Posts ⟨newEpoch, 0, 0⟩ w.posted := by
          rw [hnone.2]
          exact ⟨nofun, nofun, nofun⟩
        have hload := keeps_load hsound w.posted
        unfold step
        dsimp only
        rw [hrow, Option.getD_none, hnone.1]
        rcases attached with _ | ⟨session, hello⟩
        · refine (inv_iff rfl).mpr ⟨hsound, hposts, fun d hd => ?_⟩
          cases hd
          exact hload
        · exact inv_attach (w := { w with row := some ⟨newEpoch, 0, 0⟩ }) rfl hsound hposts hload
            (fun _ _ _ _ hq => nomatch hq) write
    | attach session hello write => exact hsame _ (by simp [step, hnone.1])
    | detach session => exact inv_unbound hrow (by rw [hnone.1]; rfl) hnone.2
    | ack ack write => exact hsame _ (by simp [step, hnone.1])
    | refresh desired write => exact hsame _ (by simp [step, hnone.1])
    | retract removed write => exact hsame _ (by simp [step, hnone.1])
  · obtain ⟨hsound, hposts, hkeeps⟩ := (inv_iff hrow).mp h
    have hload := keeps_load hsound w.posted
    cases e with
    | register =>
        refine inv_quiet hrow hsound hposts fun d hd => ?_
        rw [hrow] at hd
        cases hd
        exact hload
    | bind newEpoch attached write =>
        unfold step
        dsimp only
        rw [hrow, Option.getD_some]
        rcases hd : w.delivery with _ | d
        · rcases attached with _ | ⟨session, hello⟩
          · refine (inv_iff rfl).mpr ⟨hsound, hposts, fun d hd => ?_⟩
            cases hd
            exact hload
          · exact inv_attach (w := { w with row := some row }) rfl hsound hposts hload
              (fun _ _ _ _ hq => nomatch hq) write
        · exact (inv_iff (w := { w with row := some row, delivery := some d }) rfl).mpr
            ⟨hsound, hposts, fun d' hd' => hkeeps d' (hd.trans hd')⟩
    | attach session hello write =>
        rcases hd : w.delivery with _ | d
        · simpa only [step, hd] using h
        · simp only [step, hd]
          refine inv_attach hrow hsound hposts (hkeeps d hd) (fun a ha hle q hq hlt => ?_) write
          have hrecorded := hmeets d hd a ha hle q hq hlt
          simpa [recorded, hrow] using hrecorded
    | detach session =>
        refine inv_quiet hrow hsound hposts fun d' hd' => ?_
        obtain ⟨d, hd, rfl⟩ := Option.map_eq_some_iff.mp hd'
        unfold Delivery.detach
        by_cases hsession : d.session = some session
        · rw [if_pos hsession]
          exact { hkeeps d hd with }
        · rw [if_neg hsession]
          exact hkeeps d hd
    | ack ack write =>
        rcases hd : w.delivery with _ | d
        · simpa only [step, hd] using h
        · simp only [step, hd]
          obtain ⟨hepoch, hsequence, hunacked, hbodies, hposition⟩ := d.ack_spec ack
          have hsent : ∀ b ∈ (d.ack ack).2.bodies, ∃ q ∈ (d.ack ack).1.unacked, b = .delta q := by
            rw [hbodies]
            nofun
          obtain ⟨hkeeps', hready⟩ := (hkeeps d hd).resends hepoch hsequence hunacked
            hsent
          refine inv_sendOutbox (w := { w with delivery := some (d.ack ack).1 }) hrow rfl hsound
            hposts hkeeps' hready ?_ write
          rcases hposition with ⟨acked, hp⟩ | hp
          · exact .inl ⟨acked, by rw [hp, hsequence]⟩
          · exact .inr ⟨hp, by rw [hbodies]; nofun⟩
    | refresh desired write =>
        rcases hd : w.delivery with _ | d
        · simpa only [step, hd] using h
        · have hfits := hmeets d hd
          simp only [step, hd]
          rcases hr : d.refresh digest desired with ⟨d', e | outbox⟩
          · obtain ⟨hassigns, hsequence⟩ := Delivery.assigns_refresh_error hr
            obtain ⟨hkeeps', -⟩ := (hkeeps d hd).assigns hposts hassigns
              (hsequence ▸ (hkeeps d hd).fits)
            refine inv_quiet hrow hsound hposts fun d'' hd'' => ?_
            cases hd''
            exact hkeeps'
          · obtain ⟨hassigns, hleads, hle⟩ := Delivery.assigns_refresh hr
            exact inv_assigns hrow hsound hposts (hkeeps d hd) hassigns hleads
              (hle.trans hfits) write
    | retract removed write =>
        rcases hd : w.delivery with _ | d
        · simpa only [step, hd] using h
        · have hfits := hmeets d hd
          simp only [step, hd]
          obtain ⟨hassigns, hleads, hle⟩ := d.assigns_retract removed
          exact inv_assigns hrow hsound hposts (hkeeps d hd) hassigns hleads (hle.trans hfits)
            write

/-- **A whole run.** -/
theorem inv_run (h : w.Inv) {events : List CourierEvent} (hcareful : Careful digest w events) :
    (w.run digest events).Inv := by
  induction events generalizing w with
  | nil => exact h
  | cons e events ih => exact ih (inv_step h hcareful.1) hcareful.2

/-- **Posted is recorded.** In every run whose attaches send again recorded deltas only: every
delta and snapshot posted has a sequence at most the one recorded at that moment; no sequence of an
epoch is posted with two contents; and the recorded positions never decrease and stay in order. -/
theorem posted_recorded (digest : List OccurrenceObject → Except SnapshotError Sha256)
    {events : List CourierEvent} (hcareful : Careful digest {} events) :
    let w := run digest {} events
    (∀ p ∈ w.posted, p.body.sequence ≤ p.recorded) ∧
      (∀ p ∈ w.posted, ∀ q ∈ w.posted, p.body.epoch = q.body.epoch →
        p.body.sequence = q.body.sequence → p.body.SameContent q.body) ∧
      (∀ row, w.row = some row → row.ackedSequence ≤ row.sequence ∧
        ∀ e, ∃ row', (w.step digest e).row = some row' ∧ row.Le row') := by
  have hinv : (run digest {} events).Inv := inv_run (w := {}) ⟨rfl, rfl⟩ hcareful
  intro w
  rcases hrow : w.row with _ | row
  · have hnone : w.posted = [] := by
      change w.Inv at hinv
      unfold Inv at hinv
      rw [hrow] at hinv
      exact hinv.2
    rw [hnone]
    exact ⟨nofun, nofun, nofun⟩
  · obtain ⟨hsound, hposts, -⟩ := (inv_iff hrow).mp hinv
    refine ⟨fun p hp => (hposts.recorded p hp).1, fun p hp q hq _ => hposts.same p hp q hq, ?_⟩
    rintro row' hrow'
    cases hrow'
    refine ⟨hsound.1, fun e => ?_⟩
    obtain ⟨row', hrow', -, hle⟩ := row_mono hrow hsound e
    exact ⟨row', hrow', hle⟩

end Courier

/-! ### A write that fails -/

/-- A live set of one alarm, or none. -/
def oneAlarm : Desired := { live := [sampleAlarm 1 ['a']], reasons := ∅ }

def noAlarm : Desired := { live := [], reasons := ∅ }

/-- A session up to the acknowledgement of its snapshot. -/
def openedSession : List CourierEvent :=
  [.bind ['e'] none .done, .attach 1 none .done, .refresh noAlarm .done,
    .ack { deliveryEpoch := some ['e'], appliedThrough := 1, durable := true,
           needSnapshot := false } .done]

/-- A delta whose write failed, recorded with the next one, can be sent again. -/
theorem posted_recorded_sample :
    let w := Courier.run (fun _ => .ok zeroSha) {} (openedSession ++
      [.refresh oneAlarm (.failed false), .refresh noAlarm .done, .detach 1,
        .attach 2 (some { deliveryEpoch := some ['e'], ackedSequence := some 1 }) .done])
    w.posted.map (fun p => (p.body.sequence, p.recorded)) = [(1, 1), (3, 3), (2, 3), (3, 3)] ∧
      ∀ p ∈ w.posted, p.body.sequence ≤ p.recorded := by
  exact ⟨by decide +kernel, (Courier.posted_recorded _ (by decide +kernel)).1⟩

/-- After a failed write the delta of sequence 2 is posted while 1 is recorded; a restart then
gives the sequence to a snapshot. -/
theorem unrecorded_delta_posted :
    let w := Courier.run (fun _ => .ok zeroSha) {} (openedSession ++
      [.refresh oneAlarm (.failed false), .detach 1,
        .attach 2 (some { deliveryEpoch := some ['e'], ackedSequence := some 1 }) .done,
        .register, .attach 3 (some { deliveryEpoch := some ['e'], ackedSequence := some 1 }) .done,
        .refresh noAlarm .done])
    ∃ p ∈ w.posted, ∃ q ∈ w.posted, p.recorded < p.body.sequence ∧
      p.body.epoch = q.body.epoch ∧ p.body.sequence = q.body.sequence ∧
      ¬ p.body.SameContent q.body := by
  decide +kernel

end EchoMuse.Alerts
