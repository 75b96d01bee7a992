import EchoMuse.Alerts.Convergence

/-!
# What `armed` Promises

An occurrence is armed when the revision the controller last sent for it is at or below the
acknowledged sequence. The acknowledged sequence never goes back, so the promise holds as long as
the store of the device an attached session belongs to is at or past every acknowledged revision
in `sent`. A device that has lost its store is behind, and its session is attached all the same:
until it acknowledges the snapshot it is owed, its occurrences are armed and not there.

## Main results

* `Faithful.apply`: acknowledgements in flight tell the truth about the store, whatever happens;
* `armed_durable`: the promise, while sessions open on stores that hold what was acknowledged;
* `armed_after_loss`: a device that lost its store is attached with an alarm armed.
-/

namespace EchoMuse.Alerts

/-! ### What the store of a session holds -/

/-- The store is at or past the revision of every acknowledged object in `sent`. -/
def Covered (disk : State) (d : Delivery) : Prop :=
  ∀ m, d.sent = some m → ∀ (id : Uuid) o, m[id]? = some o → o.revision ≤ d.acked →
    disk.epoch = some d.epoch ∧ o.revision ≤ disk.acked

section

variable {disk disk' : State} {d d' : Delivery}

/-- New objects are not acknowledged yet. -/
theorem Covered.renew (h : Covered disk d) (hepoch : d'.epoch = d.epoch)
    (hacked : d'.acked = d.acked) (hle : d.acked ≤ d.sequence)
    (hr : Renews d.sequence d.sent d'.sent) : Covered disk d' := by
  intro m' hm' id o ho hrev
  rw [hepoch]
  rw [hacked] at hrev
  rcases hr m' hm' id o ho with ⟨m, hm, ho⟩ | hnew
  · exact h m hm id o ho hrev
  · exact absurd (hnew.trans_le (hrev.trans hle)) (Nat.lt_irrefl _)

/-- A sequence the store has reached may be acknowledged. -/
theorem Covered.advance (h : Covered disk d) (hepoch : d'.epoch = d.epoch)
    (hsent : d'.sent = d.sent)
    (hacked : d'.acked = d.acked ∨ disk.epoch = some d.epoch ∧ d'.acked ≤ disk.acked) :
    Covered disk d' := by
  intro m hm id o ho hrev
  rw [hepoch]
  rw [hsent] at hm
  rcases hacked with hacked | ⟨he, hle⟩
  · exact h m hm id o ho (hacked ▸ hrev)
  · exact ⟨he, hrev.trans hle⟩

/-- A store that moves on covers what it covered. -/
theorem Covered.store (h : Covered disk d)
    (hdisk : disk.epoch = some d.epoch → disk'.epoch = some d.epoch ∧ disk.acked ≤ disk'.acked) :
    Covered disk' d := by
  intro m hm id o ho hrev
  obtain ⟨he, hle⟩ := h m hm id o ho hrev
  obtain ⟨he', hle'⟩ := hdisk he
  exact ⟨he', hle.trans hle'⟩

end

/-! ### Acknowledgements in flight -/

/-- What is in flight and what the device has in memory agree with its store. -/
structure Faithful (epoch : Text) (w : Link) : Prop where
  /-- Memory is at most as far as the store. -/
  durable : w.dev.st.epoch = some epoch →
    w.dev.disk.epoch = some epoch ∧ w.dev.st.acked ≤ w.dev.disk.acked
  store : w.dev.broken = false → w.dev.disk = w.dev.st
  acks : ∀ a ∈ w.up, a.durable = true → a.deliveryEpoch = some epoch →
    w.dev.st.epoch = some epoch ∧ a.appliedThrough ≤ w.dev.st.acked
  idle : w.link = none → w.down = [] ∧ w.up = []
  ordered : w.down.Pairwise PostBody.Before
  ahead : w.dev.st.epoch = some epoch → ∀ b ∈ w.down, w.dev.st.acked < b.sequence
  covered : w.ctl.attached.isSome = true → Covered w.dev.disk w.ctl

/-- When a session opens, and when a store is lost or quarantined under an attached session, the
store is at or past every acknowledged revision. -/
def Event.Covers (w : Link) : Event → Prop
  | .connect _ => w.link = none → Covered w.dev.disk w.ctl
  | .restartDevice .intact => True
  | .restartDevice opened =>
      w.ctl.attached.isSome = true → Covered (opened.recover w.past w.dev.disk) w.ctl
  | _ => True

section

variable {F : FloatText} {snapshotDigest : List OccurrenceObject → Except SnapshotError Sha256}
  {digest : List (Json Text) → Option Text} {epoch : Text} {contents : List Content} {w : Link}

theorem Faithful.start (epoch : Text) {s : State} (hs : s.epoch ≠ some epoch) :
    Faithful epoch (Link.start epoch s) where
  durable := fun h => absurd h hs
  store := fun _ => rfl
  acks := nofun
  idle := fun _ => ⟨rfl, rfl⟩
  ordered := List.Pairwise.nil
  ahead := fun h => absurd h hs
  covered := nofun

/-- A body of the ledger carries an assigned sequence. -/
theorem Coherent.sequence_le (h : Coherent False F epoch contents w) {b : PostBody}
    (hb : b ∈ w.posted) : b.sequence ≤ w.ctl.sequence := by
  have hlt : ∀ {n : ℕ} {c : Content}, contents[n]? = some c → n + 1 ≤ w.ctl.sequence := by
    intro n c hc
    rw [← h.controls.sequence_eq, h.controls.ledger.length]
    exact (List.getElem?_eq_some_iff.mp hc).1
  cases b with
  | delta delta =>
      obtain ⟨-, n, hn, hc⟩ := h.controls.posts _ hb
      exact hn.le.trans (hlt hc)
  | snapshot page =>
      obtain ⟨n, sha, objects, hc, i, -, rfl⟩ := h.controls.posts _ hb
      exact hlt hc

/-- New bodies follow the old ones. -/
theorem Faithful.send (hf : Faithful epoch w) (hc : Coherent False F epoch contents w)
    {d : Delivery} {outbox : Outbox} (held : List (Table Uuid OccurrenceObject))
    (hordered : outbox.bodies.Pairwise PostBody.Before)
    (hfresh : ∀ b ∈ outbox.bodies, w.ctl.sequence < b.sequence)
    (hcovered : d.attached.isSome = true → Covered w.dev.disk d) :
    Faithful epoch { w.send d outbox with held } where
  durable := hf.durable
  store := hf.store
  acks := hf.acks
  idle := by
    intro hl
    obtain ⟨hdown, hup⟩ := hf.idle hl
    refine ⟨?_, hup⟩
    change (if w.link.isSome = true ∧ w.link = d.session then _ else w.down) = []
    rw [if_neg, hdown]
    rintro ⟨hsome, -⟩
    have hl' : w.link = none := hl
    rw [hl'] at hsome
    cases hsome
  ordered := by
    change (if w.link.isSome = true ∧ w.link = d.session then w.down ++ outbox.bodies
      else w.down).Pairwise PostBody.Before
    by_cases hl : w.link.isSome = true ∧ w.link = d.session
    · rw [if_pos hl]
      refine List.pairwise_append.mpr ⟨hf.ordered, hordered, fun a ha b hb => Or.inl ?_⟩
      exact (hc.sequence_le (hc.down a ha)).trans_lt (hfresh b hb)
    · rw [if_neg hl]
      exact hf.ordered
  ahead := by
    intro hepoch b hb
    change b ∈ (if w.link.isSome = true ∧ w.link = d.session then w.down ++ outbox.bodies
      else w.down) at hb
    have hnew : ∀ b ∈ outbox.bodies, w.dev.st.acked < b.sequence := by
      intro b hb
      obtain ⟨m, hm, -⟩ := hc.st hepoch
      exact (hc.controls.sequence_eq ▸ mapAt_eq_some_le hm).trans_lt (hfresh b hb)
    by_cases hl : w.link.isSome = true ∧ w.link = d.session
    · rw [if_pos hl] at hb
      rcases List.mem_append.mp hb with hb | hb
      · exact hf.ahead hepoch b hb
      · exact hnew b hb
    · rw [if_neg hl] at hb
      exact hf.ahead hepoch b hb
  covered := hcovered

/-- The next body at the device. -/
theorem Faithful.deliver (hf : Faithful epoch w) (hc : Coherent False F epoch contents w)
    {b : PostBody} {rest : List PostBody} (hdown : w.down = b :: rest) {dev : Device}
    {ack : Option AlertAck}
    (hr : Received False epoch contents w.held b w.dev dev ack) :
    Faithful epoch { w.store dev with down := rest, up := w.up ++ ack.toList } := by
  have hord : (b :: rest).Pairwise PostBody.Before := hdown ▸ hf.ordered
  have hcarries : ∀ b' ∈ rest, b'.Carries epoch contents := fun b' hb' =>
    hc.controls.posts b' (hc.down b' (hdown ▸ List.mem_cons_of_mem _ hb'))
  have hidle : ∀ {p : Prop}, w.link = none → p := by
    intro p hl
    rw [(hf.idle hl).1] at hdown
    cases hdown
  have hacks : ∀ {P : AlertAck → Prop}, (∀ a ∈ w.up, P a) → (∀ a ∈ ack, P a) →
      ∀ a ∈ w.up ++ ack.toList, P a := by
    intro P hold hnew a ha
    rcases List.mem_append.mp ha with ha | ha
    · exact hold a ha
    · exact hnew a (Option.mem_toList.mp ha)
  have hahead : w.dev.st.epoch = some epoch → w.dev.st.acked < b.sequence := fun hepoch =>
    hf.ahead hepoch b (hdown ▸ List.mem_cons_self)
  have hepoch_eq := hc.controls.epoch_eq
  cases hr with
  | kept hst hdisk hbroken hack =>
      refine ⟨?_, ?_, hacks ?_ ?_, fun hl => hidle hl, (List.pairwise_cons.mp hord).2, ?_, ?_⟩
      · change dev.st.epoch = some epoch → dev.disk.epoch = some epoch ∧
          dev.st.acked ≤ dev.disk.acked
        rw [hst, hdisk]
        exact hf.durable
      · change dev.broken = false → dev.disk = dev.st
        rw [hst, hdisk, hbroken]
        exact hf.store
      · change ∀ a ∈ w.up, _ → _ → dev.st.epoch = _ ∧ _ ≤ dev.st.acked
        rw [hst]
        exact hf.acks
      · intro a ha hdurable hepoch
        change dev.st.epoch = _ ∧ _ ≤ dev.st.acked
        obtain ⟨he, hacked⟩ := hack a ha hdurable
        rw [hst]
        exact ⟨he.symm.trans hepoch, hacked.le⟩
      · change dev.st.epoch = _ → ∀ b' ∈ rest, dev.st.acked < _
        rw [hst]
        exact fun hepoch b' hb' => hf.ahead hepoch b' (hdown ▸ List.mem_cons_of_mem _ hb')
      · change _ → Covered dev.disk w.ctl
        rw [hdisk]
        exact hf.covered
  | committed ht hwas hst hdisk hbroken =>
      obtain ⟨hepoch, hacked⟩ := State.apply_position_some (s := w.dev.st) ht.delivery
      rw [← hst] at hepoch hacked
      have hsame : dev.disk = dev.st := hdisk.trans hst.symm
      refine ⟨?_, fun _ => hsame, hacks ?_ ?_, fun hl => hidle hl, (List.pairwise_cons.mp hord).2,
        ?_, ?_⟩
      · intro _
        change dev.disk.epoch = some epoch ∧ dev.st.acked ≤ dev.disk.acked
        rw [hsame]
        exact ⟨hepoch, le_rfl⟩
      · intro a ha hdurable he
        obtain ⟨hst', hle⟩ := hf.acks a ha hdurable he
        change dev.st.epoch = some epoch ∧ a.appliedThrough ≤ dev.st.acked
        rw [hacked]
        exact ⟨hepoch, hle.trans (hahead hst').le⟩
      · intro a ha _ _
        cases ha
        exact ⟨hepoch, le_rfl⟩
      · intro _ b' hb'
        change dev.st.acked < b'.sequence
        rw [hacked]
        exact ht.last b' (hcarries b' hb') ((List.pairwise_cons.mp hord).1 b' hb')
      · intro hattached
        refine (hf.covered hattached).store fun he => ?_
        change dev.disk.epoch = _ ∧ w.dev.disk.acked ≤ dev.disk.acked
        rw [hf.store hwas, hepoch_eq] at he
        rw [hsame, hacked, hepoch_eq, hf.store hwas]
        exact ⟨hepoch, (hahead he).le⟩
  | failed ht hwas hst hdisk hbroken hack =>
      obtain ⟨hepoch, hacked⟩ := State.apply_position_some (s := w.dev.st) ht.delivery
      -- The store is where memory was, or at the body's sequence beyond it.
      have hmoved : w.dev.st.epoch = some epoch →
          dev.disk.epoch = some epoch ∧ w.dev.st.acked ≤ dev.disk.acked := by
        intro he
        rcases hdisk with hdisk | hdisk
        · rw [hdisk]
          exact hf.durable he
        · rw [hdisk, hacked]
          exact ⟨hepoch, (hahead he).le⟩
      refine ⟨?_, ?_, hacks ?_ ?_, fun hl => hidle hl, (List.pairwise_cons.mp hord).2, ?_, ?_⟩
      · change dev.st.epoch = some epoch → dev.disk.epoch = some epoch ∧
          dev.st.acked ≤ dev.disk.acked
        rw [hst]
        exact hmoved
      · intro hb
        exact absurd (hbroken.symm.trans hb) nofun
      · change ∀ a ∈ w.up, _ → _ → dev.st.epoch = some epoch ∧ a.appliedThrough ≤ dev.st.acked
        rw [hst]
        exact hf.acks
      · intro a ha hdurable _
        cases ha
        exact absurd (hack.symm.trans hdurable) nofun
      · change dev.st.epoch = some epoch → ∀ b' ∈ rest, dev.st.acked < b'.sequence
        rw [hst]
        exact fun he b' hb' => hf.ahead he b' (hdown ▸ List.mem_cons_of_mem _ hb')
      · intro hattached
        refine (hf.covered hattached).store fun he => ?_
        change dev.disk.epoch = _ ∧ w.dev.disk.acked ≤ dev.disk.acked
        rw [hf.store hwas, hepoch_eq] at he
        rw [hepoch_eq, hf.store hwas]
        exact hmoved he

/-- What an attach resends: nothing, or the queue above the device's position, in order. -/
theorem Delivery.attach_bodies {d : Delivery} {held : List (Table Uuid OccurrenceObject)}
    {posted : List PostBody} (h : Controls False epoch contents held posted d) (dev : Device)
    (session : SessionId) :
    (d.attach session (some dev.hello)).2.bodies.Pairwise PostBody.Before ∧
      (∀ b ∈ (d.attach session (some dev.hello)).2.bodies, dev.st.acked < b.sequence) ∧
      ((d.attach session (some dev.hello)).1.acked = d.acked ∨
        dev.st.epoch = some d.epoch ∧
          (d.attach session (some dev.hello)).1.acked = dev.st.acked) := by
  cases ha : d.inStep (some dev.hello) with
  | none =>
      unfold Delivery.attach
      rw [ha]
      exact ⟨List.Pairwise.nil, nofun, Or.inl rfl⟩
  | some a =>
      obtain ⟨hepoch, hacked⟩ := Device.position_of_inStep ha
      have hresent := h.resent ha
      unfold Delivery.attach
      rw [ha]
      dsimp only
      have hmap : ((d.unacked.filter fun delta => a < delta.sequence).map PostBody.delta).map
          PostBody.sequence = List.range' (a + 1) (d.sequence - a) := by
        rw [List.map_map]
        exact hresent
      refine ⟨?_, fun b hb => ?_, ?_⟩
      · have hlt : (((d.unacked.filter fun delta => a < delta.sequence).map PostBody.delta).map
            PostBody.sequence).Pairwise (· < ·) := hmap ▸ List.pairwise_lt_range'
        exact (List.pairwise_map.mp hlt).imp Or.inl
      · have hmem := List.mem_map_of_mem (f := PostBody.sequence) hb
        rw [hmap, List.mem_range'_1] at hmem
        exact hacked ▸ hmem.1
      · rcases le_total a d.acked with hle | hle
        · exact Or.inl (max_eq_left hle)
        · exact Or.inr ⟨hepoch, (max_eq_right hle).trans hacked.symm⟩

/-- A session opens. -/
theorem Faithful.connect (hf : Faithful epoch w) (hc : Coherent False F epoch contents w)
    (hl : w.link = none) (session : SessionId) (hcovered : Covered w.dev.disk w.ctl) :
    Faithful epoch ({ w with link := some session }.send
      (w.ctl.attach session (some w.dev.hello)).1
      (w.ctl.attach session (some w.dev.hello)).2) := by
  obtain ⟨hordered, hahead, hacked⟩ := Delivery.attach_bodies hc.controls w.dev session
  obtain ⟨hdown, hup⟩ := hf.idle hl
  have hepoch : (w.ctl.attach session (some w.dev.hello)).1.epoch = w.ctl.epoch :=
    (hc.controls.attach session _).epoch_eq.trans hc.controls.epoch_eq.symm
  set r := w.ctl.attach session (some w.dev.hello) with hr
  have hflight : ({ w with link := some session }.send r.1 r.2).down = [] ∨
      ({ w with link := some session }.send r.1 r.2).down = r.2.bodies := by
    change (if _ then w.down ++ r.2.bodies else w.down) = [] ∨
      (if _ then w.down ++ r.2.bodies else w.down) = r.2.bodies
    rw [hdown]
    exact (ite_eq_or_eq _ _ _).symm
  refine ⟨hf.durable, hf.store, hf.acks, nofun, ?_, fun _ b hb => ?_, fun _ => ?_⟩
  · rcases hflight with heq | heq
    · rw [heq]
      exact List.Pairwise.nil
    · rw [heq]
      exact hordered
  · rcases hflight with heq | heq
    · rw [heq] at hb
      cases hb
    · rw [heq] at hb
      exact hahead b hb
  · refine hcovered.advance hepoch (w.ctl.attach_position session _).2 (hacked.imp_right ?_)
    rintro ⟨he, hacked⟩
    rw [hc.controls.epoch_eq] at he ⊢
    obtain ⟨he', hle⟩ := hf.durable he
    exact ⟨he', hacked.le.trans hle⟩

/-- An acknowledgement raises the acknowledged sequence to what it says durable, or not at all. -/
theorem Delivery.ack_acked (d : Delivery) (a : AlertAck) :
    ((d.ack a).1.acked = d.acked ∨ a.durable = true ∧ a.deliveryEpoch = some d.epoch ∧
        (d.ack a).1.acked = a.appliedThrough) ∧
      ((d.ack a).1.attached.isSome = d.attached.isSome) := by
  unfold Delivery.ack
  dsimp only
  have hd : ∃ d' : Delivery, (if a.needSnapshot = true then
        { d with attached := d.attached.map fun x => { x with snapshotOwed := true } }
      else d) = d' ∧ d'.acked = d.acked ∧ d'.epoch = d.epoch ∧
        d'.attached.isSome = d.attached.isSome := by
    refine ⟨_, rfl, ?_⟩
    by_cases hn : a.needSnapshot = true
    · rw [if_pos hn]
      exact ⟨rfl, rfl, Option.isSome_map⟩
    · rw [if_neg hn]
      exact ⟨rfl, rfl, rfl⟩
  obtain ⟨d', heq, hacked, hepoch, hattached⟩ := hd
  rw [heq]
  by_cases hc : a.durable = true ∧ a.deliveryEpoch = some d'.epoch ∧
      a.appliedThrough ≤ d'.sequence ∧ d'.acked < a.appliedThrough
  · rw [if_pos hc]
    exact ⟨Or.inr ⟨hc.1, hepoch ▸ hc.2.1, rfl⟩, hattached⟩
  · rw [if_neg hc]
    exact ⟨Or.inl hacked, hattached⟩

/-- Without an attached session a refresh or a retraction attaches none. -/
theorem Delivery.attached_of_none
    (snapshotDigest : List OccurrenceObject → Except SnapshotError Sha256) (desired : Desired)
    (removed : List (Uuid × TombstoneReason)) {d : Delivery} (ha : d.attached = none) :
    (d.refresh snapshotDigest desired).1.attached = none ∧
      (d.retract removed).1.attached = none := by
  unfold Delivery.refresh Delivery.retract
  rw [ha]
  exact ⟨ha, ha⟩

/-- A step of the controller over its ledger keeps what the store covers. -/
theorem Faithful.covered_renew (hf : Faithful epoch w) (hc : Coherent False F epoch contents w)
    {d' : Delivery} (hattached : w.ctl.attached = none → d'.attached = none)
    (hepoch : d'.epoch = epoch) (hacked : d'.acked = w.ctl.acked)
    (hr : Renews w.ctl.sequence w.ctl.sent d'.sent) (h : d'.attached.isSome = true) :
    Covered w.dev.disk d' := by
  have hsome : w.ctl.attached.isSome = true := by
    cases ha : w.ctl.attached with
    | some a => rfl
    | none =>
        rw [hattached ha] at h
        cases h
  exact (hf.covered hsome).renew (hepoch.trans hc.controls.epoch_eq.symm) hacked
    hc.controls.acked_le hr

/-- Every step keeps what is in flight faithful, as long as sessions open on stores that hold what
was acknowledged. -/
theorem Faithful.apply (hf : Faithful epoch w) (hc : Coherent False F epoch contents w)
    {event : Event} (ha : event.Admissible) (hcovers : event.Covers w) :
    Faithful epoch (w.apply F snapshotDigest digest event) := by
  cases event with
  | connect session =>
      unfold Link.apply
      dsimp only
      cases hl : w.link with
      | some s =>
          rw [if_pos Option.isSome_some]
          exact hf
      | none =>
          rw [if_neg (by simp)]
          exact hf.connect hc hl session (hcovers hl)
  | hangUp =>
      exact ⟨hf.durable, hf.store, nofun, fun _ => ⟨rfl, rfl⟩, List.Pairwise.nil, nofun,
        hf.covered⟩
  | detach session =>
      refine ⟨hf.durable, hf.store, hf.acks, hf.idle, hf.ordered, hf.ahead, fun h => ?_⟩
      change (w.ctl.detach session).attached.isSome = true at h
      change Covered w.dev.disk (w.ctl.detach session)
      unfold Delivery.detach at h ⊢
      by_cases hs : w.ctl.session = some session
      · rw [if_pos hs] at h
        cases h
      · rw [if_neg hs] at h ⊢
        exact hf.covered h
  | refresh desired =>
      unfold Link.apply
      dsimp only
      have hnone : w.ctl.attached = none →
          (w.ctl.refresh snapshotDigest desired).1.attached = none :=
        fun h => (Delivery.attached_of_none snapshotDigest desired [] h).1
      cases hr : (w.ctl.refresh snapshotDigest desired).2 with
      | ok outbox =>
          have hx := Extends.refresh hc.controls ha hr
          obtain ⟨more, hmore⟩ := hx.controls
          exact hf.send hc _ hx.ordered hx.fresh
            (hf.covered_renew hc hnone hmore.epoch_eq hx.acked hx.renews)
      | error e =>
          obtain ⟨hcontrols, hacked, -, hrenews⟩ := hc.controls.refresh_error hr nofun
          exact ⟨hf.durable, hf.store, hf.acks, hf.idle, hf.ordered, hf.ahead,
            hf.covered_renew hc hnone hcontrols.epoch_eq hacked hrenews⟩
  | retract removed =>
      have hx := Extends.retract hc.controls removed
      obtain ⟨more, hmore⟩ := hx.controls
      have hnone : w.ctl.attached = none → (w.ctl.retract removed).1.attached = none :=
        fun h => (Delivery.attached_of_none snapshotDigest ⟨[], ∅⟩ removed h).2
      exact hf.send hc _ hx.ordered hx.fresh
        (hf.covered_renew hc hnone hmore.epoch_eq hx.acked hx.renews)
  | deliver clock outcome =>
      unfold Link.apply
      dsimp only
      cases hd : w.down with
      | nil => exact hf
      | cons b rest =>
          have hmem : b ∈ w.posted := hc.down b (hd ▸ List.mem_cons_self)
          exact hf.deliver hc hd (Device.receive_received hc.controls.ledger hc.st hc.stage
            (hc.controls.posts b hmem) digest clock outcome).2
  | acknowledge =>
      unfold Link.apply
      dsimp only
      cases hu : w.up with
      | nil => exact hf
      | cons a rest =>
          dsimp only
          have hidle : ∀ {p : Prop}, w.link = none → p := by
            intro p hl
            rw [(hf.idle hl).2] at hu
            cases hu
          have hrest : Faithful epoch { w with up := rest } :=
            ⟨hf.durable, hf.store, fun a' ha' => hf.acks a' (hu ▸ List.mem_cons_of_mem _ ha'),
              fun hl => hidle hl, hf.ordered, hf.ahead, hf.covered⟩
          by_cases hs : w.link = w.ctl.session
          · rw [if_pos hs]
            have hcrest : Coherent False F epoch contents { w with up := rest } :=
              ⟨hc.controls, hc.row, hc.st, hc.disk, hc.past, hc.stage, hc.down⟩
            have hbodies := w.ctl.ack_bodies a
            refine hrest.send hcrest w.held (hbodies ▸ List.Pairwise.nil) (by rw [hbodies]; nofun)
              fun h => ?_
            obtain ⟨hacked, hattached⟩ := w.ctl.ack_acked a
            refine (hf.covered (hattached ▸ h)).advance
              ((hc.controls.ack a).epoch_eq.trans hc.controls.epoch_eq.symm)
              (w.ctl.ack_position a).2 (hacked.imp_right ?_)
            rintro ⟨hdurable, hepoch, hto⟩
            rw [hc.controls.epoch_eq] at hepoch ⊢
            obtain ⟨hst, hle⟩ := hf.acks a (hu ▸ List.mem_cons_self) hdurable hepoch
            obtain ⟨hdisk, hle'⟩ := hf.durable hst
            exact ⟨hdisk, hto.le.trans (hle.trans hle')⟩
          · rw [if_neg hs]
            exact hrest
  | restartController =>
      exact ⟨hf.durable, hf.store, nofun, fun _ => ⟨rfl, rfl⟩, List.Pairwise.nil, nofun, nofun⟩
  | restartDevice opened =>
      refine ⟨fun h => ⟨h, le_rfl⟩, fun _ => rfl, nofun, fun _ => ⟨rfl, rfl⟩, List.Pairwise.nil,
        nofun, ?_⟩
      cases opened with
      | intact => exact hf.covered
      | lost => exact hcovers
      | quarantined point => exact hcovers

end

/-! ### The promise -/

/-- With a session attached, what is armed is in the device's store as it was last sent. -/
def Promised (w : Link) : Prop :=
  w.ctl.attached.isSome = true → ∀ id, w.ctl.armed id = true →
    ∃ m o, w.ctl.sent = some m ∧ m[id]? = some o ∧ w.dev.disk.occ[id]? = some o.received

/-- What `armed` reads. -/
theorem Delivery.armed_eq_true {d : Delivery} {id : Uuid} (h : d.armed id = true) :
    ∃ m o, d.sent = some m ∧ m[id]? = some o ∧ o.revision ≤ d.acked := by
  unfold Delivery.armed at h
  cases hs : d.sent with
  | none =>
      rw [hs] at h
      cases h
  | some m =>
      rw [hs] at h
      dsimp only at h
      cases ho : m[id]? with
      | none =>
          rw [ho] at h
          cases h
      | some o =>
          rw [ho] at h
          exact ⟨m, o, rfl, ho, of_decide_eq_true h⟩

/-- A store past the revision of an object in `sent` holds that object. -/
theorem Coherent.promised {F : FloatText} {epoch : Text} {contents : List Content} {w : Link}
    (hc : Coherent False F epoch contents w) (hf : Faithful epoch w) : Promised w := by
  intro hattached id harmed
  obtain ⟨m, o, hm, ho, hrev⟩ := Delivery.armed_eq_true harmed
  obtain ⟨hepoch, hle⟩ := hf.covered hattached m hm id o ho hrev
  rw [hc.controls.epoch_eq] at hepoch
  obtain ⟨m', hm', hw⟩ := hc.disk hepoch
  obtain ⟨-, hstable⟩ := hc.controls.stable m hm id o ho
  obtain ⟨m'', hm'', ho'⟩ := hstable _ hle (mapAt_eq_some_le hm')
  rw [hm'] at hm''
  cases hm''
  exact ⟨m, o, hm, ho, hw.get id o ho'⟩

/-- In every state reached while sessions open, and stores are lost under attached sessions, only
where the store holds every acknowledged revision, what is armed is durable on the device. -/
theorem armed_durable (F : FloatText)
    (snapshotDigest : List OccurrenceObject → Except SnapshotError Sha256)
    (digest : List (Json Text) → Option Text) {epoch : Text} {s : State}
    (hs : s.epoch ≠ some epoch) {w : Link}
    (h : Link.Reaches F snapshotDigest digest
      (fun w event => event.Admissible ∧ event.Covers w) (Link.start epoch s) w) :
    Promised w := by
  have hinv : (∃ contents, Coherent False F epoch contents w) ∧ Faithful epoch w := by
    induction h with
    | refl => exact ⟨⟨[], Coherent.start hs⟩, Faithful.start epoch hs⟩
    | step _ ha ih =>
        obtain ⟨⟨contents, hc⟩, hf⟩ := ih
        exact ⟨hc.apply ha.1 nofun, hf.apply hc ha.1 ha.2⟩
  obtain ⟨⟨contents, hc⟩, hf⟩ := hinv
  exact hc.promised hf

/-- After its delivery the alarm is armed, and the device holds it. -/
theorem armed_durable_delivered :
    (sampleRun deliveredRun).ctl.armed (Vector.replicate 16 1) = true ∧
      Promised (sampleRun deliveredRun) := by
  refine ⟨by decide +kernel, armed_durable bitText _ _ (s := {}) nofun
    (Link.reaches_run _ _ _ .refl ⟨?_, ?_, ?_, ?_, trivial⟩)⟩
  · exact ⟨trivial, fun _ m hm => nomatch hm⟩
  · exact ⟨List.nodup_singleton _, trivial⟩
  · exact ⟨trivial, trivial⟩
  · exact ⟨trivial, trivial⟩

/-- The alarm is delivered, the device loses its store and opens a session. -/
def lostStoreRun : List Event :=
  deliveredRun ++ [.hangUp, .detach 1, .restartDevice .lost, .connect 2]

/-- The promise is not kept in every reachable state: a device without a store is attached, and the
alarm it lost is still armed. -/
theorem armed_after_loss :
    ¬ ∀ (F : FloatText) (snapshotDigest : List OccurrenceObject → Except SnapshotError Sha256)
      (digest : List (Json Text) → Option Text) (epoch : Text) (s : State) (w : Link),
      s.epoch ≠ some epoch →
      Link.Reaches F snapshotDigest digest (fun _ event => event.Admissible)
        (Link.start epoch s) w → Promised w := by
  intro h
  have hreach : Link.Reaches bitText (fun _ => .ok zeroSha) (fun _ => some zeroSha.hex)
      (fun _ event => event.Admissible) (Link.start ['e'] {}) (sampleRun lostStoreRun) :=
    Link.reaches_run _ _ _ .refl ⟨trivial, List.nodup_singleton _, trivial, trivial, trivial,
      trivial, trivial, trivial, trivial⟩
  obtain ⟨m, o, -, -, hocc⟩ := h bitText _ _ _ {} _ nofun hreach (by decide +kernel)
    (Vector.replicate 16 1) (by decide +kernel)
  have hnone : (sampleRun lostStoreRun).dev.disk.occ[(Vector.replicate 16 1 : Uuid)]? = none := by
    decide +kernel
  rw [hocc] at hnone
  cases hnone

end EchoMuse.Alerts
