import EchoMuse.Alerts.Link

/-!
# The Ledger of Assigned Sequences

What the controller sent under each sequence number. `Content` is the content of one sequence, the
objects of a delta or a whole snapshot; a `Ledger` pairs it with the map the controller held in
`sent` when it assigned the sequence. `Controls` is the controller's invariant over a ledger: its
posted bodies, its queue of unacknowledged deltas and its map all follow from the ledger.

A ledger and `Controls` carry a parameter `strict`: a strict ledger says that each map is exactly
what the content leaves of the map before it, the other only that nothing is missing from what the
device then holds.

## Main results

* `Ledger.snoc`: a ledger grows by the content of the next sequence;
* `Controls.deltas`, `Controls.snapshot`: a refresh extends the ledger;
* `Controls.attach`, `Controls.ack`: a hello or an acknowledgement shortens the queue.
-/

namespace EchoMuse.Alerts

/-! ### Contents -/

/-- What was sent under one sequence. -/
inductive Content
  | delta (objects : List CacheObject)
  | snapshot (sha256 : Sha256) (objects : List OccurrenceObject)

/-- Whether the object is a tombstone. -/
def CacheObject.isTombstone : CacheObject → Bool
  | .tombstone _ => true
  | .occurrence _ => false

/-- The tombstones of a delta come before its occurrences. -/
def TombstonesFirst (objects : List CacheObject) : Prop :=
  objects.Pairwise fun a b => b.isTombstone = true → a.isTombstone = true

theorem TombstonesFirst.sublist {a b : List CacheObject} (h : TombstonesFirst b)
    (hs : a.Sublist b) : TombstonesFirst a := List.Pairwise.sublist hs h

@[simp] theorem isTombstone_stamp (n : ℕ) (o : CacheObject) :
    (o.stamp n).isTombstone = o.isTombstone := by
  cases o <;> rfl

/-- Stamping keeps the order. -/
theorem TombstonesFirst.stamp {objects : List CacheObject} (h : TombstonesFirst objects) (n : ℕ) :
    TombstonesFirst (objects.map (CacheObject.stamp n)) := by
  refine List.Pairwise.map _ (fun a b hab => ?_) h
  rwa [isTombstone_stamp, isTombstone_stamp]

/-- Occurrences alone name no tombstone. -/
theorem tombstoned_eq_nil {objects : List CacheObject}
    (h : ∀ o ∈ objects, o.isTombstone = false) : tombstoned objects = [] := by
  refine List.filterMap_eq_nil_iff.mpr fun o ho => ?_
  cases o with
  | tombstone t => exact absurd (h _ ho) nofun
  | occurrence o => rfl

/-- With its tombstones first, a delta does to a map what the device does: delete, then put. -/
theorem TombstonesFirst.foldl_applyTo {objects : List CacheObject} (h : TombstonesFirst objects)
    (m : Table Uuid OccurrenceObject) :
    objects.foldl CacheObject.applyTo m =
      Table.putAll (·.occurrenceId) (Table.deleteAll m (tombstoned objects))
        (upserted objects) := by
  induction objects generalizing m with
  | nil => rfl
  | cons o objects ih =>
      obtain ⟨hfirst, hrest⟩ := List.pairwise_cons.mp h
      rw [List.foldl_cons, ih hrest]
      cases o with
      | tombstone t => rfl
      | occurrence o =>
          have hnone : tombstoned objects = [] := by
            refine tombstoned_eq_nil fun x hx => ?_
            cases hb : x.isTombstone with
            | false => rfl
            | true => exact (hfirst x hx hb).symm
          have hcons : tombstoned (.occurrence o :: objects) = [] := hnone
          rw [hnone, hcons]
          rfl

/-! ### The ledger -/

/-- The map held when sequence `s` was assigned. -/
def mapAt (held : List (Table Uuid OccurrenceObject)) : ℕ → Option (Table Uuid OccurrenceObject)
  | 0 => none
  | s + 1 => held[s]?

theorem mapAt_eq_some_le {held : List (Table Uuid OccurrenceObject)} {s : ℕ}
    {m : Table Uuid OccurrenceObject} (h : mapAt held s = some m) : s ≤ held.length := by
  cases s with
  | zero => exact Nat.zero_le _
  | succ s => exact (List.getElem?_eq_some_iff.mp h).1

/-- A longer history keeps the maps of the sequences already assigned. -/
theorem mapAt_append {held more : List (Table Uuid OccurrenceObject)} {s : ℕ}
    (h : s ≤ held.length) : mapAt (held ++ more) s = mapAt held s := by
  cases s with
  | zero => rfl
  | succ s => exact List.getElem?_append_left h

theorem mapAt_snoc (held : List (Table Uuid OccurrenceObject)) (m : Table Uuid OccurrenceObject) :
    mapAt (held ++ [m]) (held.length + 1) = some m := List.getElem?_concat_length

/-- A content leads from the map before it to the map held with it. A snapshot replaces the whole
map; a delta changes `base`, which is the map before it or, unless `strict`, a part of it. -/
def Content.Leads (strict : Prop) (prev : Table Uuid OccurrenceObject) :
    Content → Table Uuid OccurrenceObject → Prop
  | .delta objects, m => TombstonesFirst objects ∧
      ∃ base, Table.Within strict id base prev ∧ m = objects.foldl CacheObject.applyTo base
  | .snapshot _ objects, m => (objects.map (·.occurrenceId)).Nodup ∧
      m = Table.putAll (·.occurrenceId) ∅ objects

/-- The contents of the assigned sequences and the maps held with them, from sequence 1 on. -/
structure Ledger (strict : Prop) (contents : List Content)
    (held : List (Table Uuid OccurrenceObject)) : Prop where
  length : held.length = contents.length
  leads : ∀ n (c : Content) m, contents[n]? = some c → held[n]? = some m →
    c.Leads strict ((mapAt held n).getD ∅) m

theorem Ledger.nil (strict : Prop) : Ledger strict [] [] := ⟨rfl, nofun⟩

/-- The next sequence extends the ledger by its content. -/
theorem Ledger.snoc {strict : Prop} {contents : List Content}
    {held : List (Table Uuid OccurrenceObject)} (h : Ledger strict contents held) {c : Content}
    {m : Table Uuid OccurrenceObject}
    (hc : c.Leads strict ((mapAt held held.length).getD ∅) m) :
    Ledger strict (contents ++ [c]) (held ++ [m]) where
  length := by rw [List.length_append, List.length_append, h.length]; rfl
  leads := by
    intro n c' m' hc' hm'
    have hn : n < (held ++ [m]).length := (List.getElem?_eq_some_iff.mp hm').1
    rw [List.length_append, List.length_singleton] at hn
    rw [mapAt_append (Nat.le_of_lt_succ hn)]
    rcases Nat.lt_succ_iff_lt_or_eq.mp hn with hlt | rfl
    · rw [List.getElem?_append_left (h.length ▸ hlt)] at hc'
      rw [List.getElem?_append_left hlt] at hm'
      exact h.leads n c' m' hc' hm'
    · rw [List.getElem?_concat_length] at hm'
      rw [h.length, List.getElem?_concat_length] at hc'
      cases hm'
      cases hc'
      exact hc

/-- A body carries the content the ledger has under its sequence. -/
def PostBody.Carries (epoch : Text) (contents : List Content) : PostBody → Prop
  | .delta d => d.deliveryEpoch = epoch ∧
      ∃ n, d.sequence = n + 1 ∧ contents[n]? = some (.delta d.objects)
  | .snapshot p => ∃ n sha objects, contents[n]? = some (.snapshot sha objects) ∧
      ∃ i < pageCount objects, p = pageAt epoch (n + 1) sha objects i

/-- The sequence of a body. -/
def PostBody.sequence : PostBody → ℕ
  | .delta d => d.sequence
  | .snapshot p => p.highWaterMark

/-- The epoch of a body. -/
def PostBody.epoch : PostBody → Text
  | .delta d => d.deliveryEpoch
  | .snapshot p => p.deliveryEpoch

/-- Two bodies of one content: the same delta, or pages of the same snapshot. -/
def PostBody.SameContent : PostBody → PostBody → Prop
  | .delta d, .delta d' => d = d'
  | .snapshot p, .snapshot p' =>
      p.sha256 = p'.sha256 ∧ p.pageCount = p'.pageCount ∧ (p.pageIndex = p'.pageIndex → p = p')
  | _, _ => False

/-- The page of a body within its sequence. -/
def PostBody.page : PostBody → ℕ
  | .delta _ => 0
  | .snapshot p => p.pageIndex

/-- The order bodies are sent in: by sequence, then by page. -/
def PostBody.Before (a b : PostBody) : Prop :=
  a.sequence < b.sequence ∨ a.sequence = b.sequence ∧ a.page < b.page

/-- A longer ledger has the contents of a shorter one. -/
theorem PostBody.Carries.append {epoch : Text} {contents : List Content} {b : PostBody}
    (h : b.Carries epoch contents) (more : List Content) : b.Carries epoch (contents ++ more) := by
  have hget : ∀ {n : ℕ} {c : Content}, contents[n]? = some c →
      (contents ++ more)[n]? = some c := by
    intro n c hc
    rw [List.getElem?_append_left (List.getElem?_eq_some_iff.mp hc).1, hc]
  cases b with
  | delta d =>
      obtain ⟨he, n, hn, hc⟩ := h
      exact ⟨he, n, hn, hget hc⟩
  | snapshot p =>
      obtain ⟨n, sha, objects, hc, hp⟩ := h
      exact ⟨n, sha, objects, hget hc, hp⟩

/-! ### Runs of sequences -/

/-- Consecutive sequences up to `last`, none of them zero; there may be none. -/
def RunTo (last : ℕ) (sequences : List ℕ) : Prop :=
  ∃ first, 0 < first ∧ first ≤ last + 1 ∧ sequences = List.range' first (last + 1 - first)

theorem RunTo.nil (last : ℕ) : RunTo last [] :=
  ⟨last + 1, Nat.succ_pos _, le_rfl, by rw [Nat.sub_self]; rfl⟩

/-- The next sequence extends a run. -/
theorem RunTo.snoc {last : ℕ} {l : List ℕ} (h : RunTo last l) :
    RunTo (last + 1) (l ++ [last + 1]) := by
  obtain ⟨first, hpos, hle, rfl⟩ := h
  refine ⟨first, hpos, hle.trans (Nat.le_succ _), ?_⟩
  rw [Nat.succ_sub hle, List.range'_concat, Nat.one_mul, Nat.add_sub_cancel' hle]

/-- The sequences above `a` in a range. -/
theorem filter_lt_range' (a first n : ℕ) :
    (List.range' first n).filter (a < ·) =
      List.range' (max first (a + 1)) (first + n - max first (a + 1)) := by
  induction n generalizing first with
  | zero =>
      have hzero : first + 0 - max first (a + 1) = 0 := by omega
      rw [hzero]
      rfl
  | succ n ih =>
      rw [List.range'_succ, List.filter_cons, ih]
      by_cases ha : a < first
      · have hmax : max (first + 1) (a + 1) = first + 1 := by omega
        have hmax' : max first (a + 1) = first := by omega
        rw [if_pos (decide_eq_true ha), hmax, hmax', Nat.add_sub_cancel_left,
          Nat.add_sub_cancel_left, ← List.range'_succ]
      · have hmax : max (first + 1) (a + 1) = max first (a + 1) := by omega
        have hlen : first + 1 + n = first + (n + 1) := by omega
        rw [if_neg (by simpa using ha), hmax, hlen]

/-- A run cut off below is a run, from the first sequence above the cut or its own first one. -/
theorem RunTo.filter {last a : ℕ} {l : List ℕ} (h : RunTo last l) (ha : a ≤ last) :
    RunTo last (l.filter (a < ·)) := by
  obtain ⟨first, hpos, hle, rfl⟩ := h
  refine ⟨max first (a + 1), Nat.lt_of_lt_of_le hpos (le_max_left _ _), max_le hle (Nat.succ_le_succ ha), ?_⟩
  rw [filter_lt_range', Nat.add_sub_cancel' hle]

/-! ### The controller over its ledger -/

/-- Every object of `m` has been in the maps held since the sequence that is its revision. -/
def Stable (held : List (Table Uuid OccurrenceObject)) (m : Table Uuid OccurrenceObject) : Prop :=
  ∀ (id : Uuid) o, m[id]? = some o → o.revision ≤ held.length ∧
    ∀ s, o.revision ≤ s → s ≤ held.length →
      ∃ m', mapAt held s = some m' ∧ m'[id]? = some o

/-- A map made of stable objects and of objects of its own sequence is stable. -/
theorem Stable.snoc {held : List (Table Uuid OccurrenceObject)}
    {m m' : Table Uuid OccurrenceObject} (h : Stable held m)
    (hnew : ∀ (id : Uuid) o, m'[id]? = some o →
      m[id]? = some o ∨ o.revision = held.length + 1) : Stable (held ++ [m']) m' := by
  intro id o ho
  rw [List.length_append, List.length_singleton]
  have hlast : ∃ m'', mapAt (held ++ [m']) (held.length + 1) = some m'' ∧ m''[id]? = some o :=
    ⟨m', mapAt_snoc held m', ho⟩
  rcases hnew id o ho with hold | hrev
  · obtain ⟨hle, hkept⟩ := h id o hold
    refine ⟨Nat.le_succ_of_le hle, fun s hs hs' => ?_⟩
    rcases Nat.le_succ_iff.mp hs' with hs' | rfl
    · obtain ⟨m'', hm'', ho''⟩ := hkept s hs hs'
      exact ⟨m'', (mapAt_append hs').trans hm'', ho''⟩
    · exact hlast
  · refine ⟨hrev.le, fun s hs hs' => ?_⟩
    obtain rfl : s = held.length + 1 := Nat.le_antisymm hs' (hrev ▸ hs)
    exact hlast

/-- The controller's state follows from its ledger and what it posted. -/
structure Controls (strict : Prop) (epoch : Text) (contents : List Content)
    (held : List (Table Uuid OccurrenceObject)) (posted : List PostBody) (d : Delivery) :
    Prop where
  ledger : Ledger strict contents held
  epoch_eq : d.epoch = epoch
  sequence_eq : held.length = d.sequence
  acked_le : d.acked ≤ d.sequence
  posts : ∀ b ∈ posted, b.Carries epoch contents
  sent : ∀ m, d.sent = some m → Table.Within strict id m ((mapAt held d.sequence).getD ∅)
  stable : ∀ m, d.sent = some m → Stable held m
  unacked : RunTo d.sequence (d.unacked.map (·.sequence))
  queued : ∀ delta ∈ d.unacked, PostBody.delta delta ∈ posted

section

variable {strict : Prop} {epoch : Text} {contents : List Content}
  {held : List (Table Uuid OccurrenceObject)} {posted : List PostBody} {d : Delivery}

/-- A fresh process knows nothing of what was sent. -/
theorem Controls.restart (h : Controls strict epoch contents held posted d) :
    Controls strict epoch contents held posted (Delivery.new d.epoch d.sequence d.acked) where
  ledger := h.ledger
  epoch_eq := h.epoch_eq
  sequence_eq := h.sequence_eq
  acked_le := min_le_right _ _
  posts := h.posts
  sent := nofun
  stable := nofun
  unacked := RunTo.nil _
  queued := nofun

/-- Which session is attached, and whether a snapshot is owed to it, is not in the ledger. -/
theorem Controls.attached (h : Controls strict epoch contents held posted d)
    (a : Option Attached) : Controls strict epoch contents held posted { d with attached := a } :=
  ⟨h.ledger, h.epoch_eq, h.sequence_eq, h.acked_le, h.posts, h.sent, h.stable, h.unacked, h.queued⟩

theorem Controls.detach (h : Controls strict epoch contents held posted d) (session : SessionId) :
    Controls strict epoch contents held posted (d.detach session) := by
  unfold Delivery.detach
  by_cases hs : d.session = some session
  · rw [if_pos hs]
    exact h.attached none
  · rw [if_neg hs]
    exact h

/-- An acknowledged sequence shortens the queue. -/
theorem Controls.advance (h : Controls strict epoch contents held posted d) {acked a : ℕ}
    (ha : a ≤ d.sequence) (hacked : acked ≤ d.sequence) :
    Controls strict epoch contents held posted
      { d with acked, unacked := d.unacked.filter fun delta => a < delta.sequence } where
  ledger := h.ledger
  epoch_eq := h.epoch_eq
  sequence_eq := h.sequence_eq
  acked_le := hacked
  posts := h.posts
  sent := h.sent
  stable := h.stable
  unacked := by
    have hmap := h.unacked.filter ha
    rwa [List.filter_map] at hmap
  queued := fun delta hdelta => h.queued delta (List.mem_of_mem_filter hdelta)

/-- Sending again what was posted changes nothing. -/
theorem Controls.repost (h : Controls strict epoch contents held posted d)
    {bodies : List PostBody} (hb : ∀ b ∈ bodies, b ∈ posted) :
    Controls strict epoch contents held (posted ++ bodies) d where
  ledger := h.ledger
  epoch_eq := h.epoch_eq
  sequence_eq := h.sequence_eq
  acked_le := h.acked_le
  posts := by
    intro b hmem
    rcases List.mem_append.mp hmem with hmem | hmem
    · exact h.posts b hmem
    · exact h.posts b (hb b hmem)
  sent := h.sent
  stable := h.stable
  unacked := h.unacked
  queued := fun delta hdelta => List.mem_append_left _ (h.queued delta hdelta)

/-- What it takes for a device to be judged in step. -/
theorem Delivery.inStep_eq_some {hello : Option HelloAlerts} {a : ℕ}
    (h : d.inStep hello = some a) :
    Delivery.HelloAlerts.position hello = some (d.epoch, a) ∧ d.sent.isSome = true ∧
      a ≤ d.sequence ∧
      (a = d.sequence ∨ ∃ first ∈ d.unacked.head?, first.sequence ≤ a + 1) := by
  unfold Delivery.inStep at h
  cases hp : Delivery.HelloAlerts.position hello with
  | none =>
      rw [hp] at h
      cases h
  | some p =>
      obtain ⟨e, a'⟩ := p
      rw [hp] at h
      dsimp only at h
      by_cases hc : e = d.epoch ∧ d.sent.isSome = true ∧ a' ≤ d.sequence ∧
          (a' = d.sequence ∨ ∃ first ∈ d.unacked.head?, first.sequence ≤ a' + 1)
      · rw [if_pos hc] at h
        cases h
        obtain ⟨rfl, hrest⟩ := hc
        exact ⟨rfl, hrest⟩
      · rw [if_neg hc] at h
        cases h

/-- An attach reposts deltas of the queue at most. -/
theorem Controls.attach (h : Controls strict epoch contents held posted d) (session : SessionId)
    (hello : Option HelloAlerts) :
    Controls strict epoch contents held (posted ++ (d.attach session hello).2.bodies)
      (d.attach session hello).1 := by
  unfold Delivery.attach
  cases ha : d.inStep hello with
  | none =>
      refine (h.attached _).repost ?_
      nofun
  | some a =>
      obtain ⟨-, -, hle, -⟩ := Delivery.inStep_eq_some ha
      refine Controls.repost ((h.advance hle (max_le h.acked_le hle)).attached _) fun b hb => ?_
      obtain ⟨delta, hdelta, rfl⟩ := List.mem_map.mp hb
      exact h.queued delta (List.mem_of_mem_filter hdelta)

/-- An attach says where it leaves the controller; what it knows of `sent` stays. -/
theorem Delivery.attach_position (d : Delivery) (session : SessionId)
    (hello : Option HelloAlerts) :
    (d.attach session hello).2.position.getD (d.sequence, d.acked) =
        ((d.attach session hello).1.sequence, (d.attach session hello).1.acked) ∧
      (d.attach session hello).1.sent = d.sent := by
  unfold Delivery.attach
  cases d.inStep hello with
  | none => exact ⟨rfl, rfl⟩
  | some a =>
      dsimp only
      refine ⟨?_, rfl⟩
      by_cases ha : d.acked < a
      · rw [if_pos ha, max_eq_right ha.le]
        rfl
      · rw [if_neg ha, max_eq_left (Nat.le_of_not_lt ha)]
        rfl

/-- An acknowledgement posts nothing. -/
theorem Delivery.ack_bodies (d : Delivery) (a : AlertAck) : (d.ack a).2.bodies = [] := by
  unfold Delivery.ack
  dsimp only
  generalize (if a.needSnapshot = true then _ else _ : Delivery) = d'
  by_cases hc : a.durable = true ∧ a.deliveryEpoch = some d'.epoch ∧
      a.appliedThrough ≤ d'.sequence ∧ d'.acked < a.appliedThrough
  · rw [if_pos hc]
  · rw [if_neg hc]

/-- An acknowledgement says where it leaves the controller; what it knows of `sent` stays. -/
theorem Delivery.ack_position (d : Delivery) (a : AlertAck) :
    (d.ack a).2.position.getD (d.sequence, d.acked) = ((d.ack a).1.sequence, (d.ack a).1.acked) ∧
      (d.ack a).1.sent = d.sent := by
  unfold Delivery.ack
  dsimp only
  have hd : ∃ d' : Delivery, (if a.needSnapshot = true then
        { d with attached := d.attached.map fun x => { x with snapshotOwed := true } }
      else d) = d' ∧ d'.sequence = d.sequence ∧ d'.acked = d.acked ∧ d'.sent = d.sent := by
    refine ⟨_, rfl, ?_⟩
    by_cases hn : a.needSnapshot = true
    · rw [if_pos hn]
      exact ⟨rfl, rfl, rfl⟩
    · rw [if_neg hn]
      exact ⟨rfl, rfl, rfl⟩
  obtain ⟨d', heq, hseq, hacked, hsent⟩ := hd
  rw [heq]
  by_cases hc : a.durable = true ∧ a.deliveryEpoch = some d'.epoch ∧
      a.appliedThrough ≤ d'.sequence ∧ d'.acked < a.appliedThrough
  · rw [if_pos hc]
    exact ⟨rfl, hsent⟩
  · rw [if_neg hc, ← hseq, ← hacked]
    exact ⟨rfl, hsent⟩

theorem Controls.ack (h : Controls strict epoch contents held posted d) (a : AlertAck) :
    Controls strict epoch contents held posted (d.ack a).1 := by
  unfold Delivery.ack
  dsimp only
  have hd : Controls strict epoch contents held posted
      (if a.needSnapshot = true then
        { d with attached := d.attached.map fun x => { x with snapshotOwed := true } }
      else d) := by
    by_cases hn : a.needSnapshot = true
    · rw [if_pos hn]
      exact h.attached _
    · rw [if_neg hn]
      exact h
  generalize (if a.needSnapshot = true then _ else _ : Delivery) = d' at hd ⊢
  by_cases hc : a.durable = true ∧ a.deliveryEpoch = some d'.epoch ∧
      a.appliedThrough ≤ d'.sequence ∧ d'.acked < a.appliedThrough
  · rw [if_pos hc]
    exact hd.advance hc.2.2.1 hc.2.2.1
  · rw [if_neg hc]
    exact hd

/-! ### Deltas -/

theorem mem_upserted {objects : List CacheObject} {o : OccurrenceObject} :
    o ∈ upserted objects ↔ CacheObject.occurrence o ∈ objects := by
  rw [upserted, List.mem_filterMap]
  constructor
  · rintro ⟨x, hx, hxo⟩
    cases x with
    | tombstone t => cases hxo
    | occurrence o' =>
        cases hxo
        exact hx
  · exact fun h => ⟨_, h, rfl⟩

/-- The occurrences of a stamped delta carry its sequence. -/
theorem revision_of_upserted_stamp {objects : List CacheObject} {n : ℕ} {o : OccurrenceObject}
    (h : o ∈ upserted (objects.map (CacheObject.stamp n))) : o.revision = n := by
  obtain ⟨x, -, hx⟩ := List.mem_map.mp (mem_upserted.mp h)
  cases x with
  | tombstone t => cases hx
  | occurrence o' =>
      cases hx
      rfl

/-- What a delta leaves under an id is an object of its own or an old one. -/
theorem of_getElem?_applyTo {objects : List CacheObject} (hf : TombstonesFirst objects)
    {m : Table Uuid OccurrenceObject} {id : Uuid} {o : OccurrenceObject}
    (h : (objects.foldl CacheObject.applyTo m)[id]? = some o) :
    m[id]? = some o ∨ o ∈ upserted objects := by
  rw [hf.foldl_applyTo] at h
  rcases Table.of_getElem?_putAll h with ⟨ho, -⟩ | h
  · exact Or.inr ho
  · rw [Table.getElem?_deleteAll] at h
    by_cases hid : id ∈ tombstoned objects
    · rw [if_pos hid] at h
      cases h
    · rw [if_neg hid] at h
      exact Or.inl h

/-- The next delta extends the ledger by its objects. -/
theorem Controls.nextDelta (h : Controls strict epoch contents held posted d)
    {m : Table Uuid OccurrenceObject} (hsent : d.sent = some m) {objects : List CacheObject}
    (hf : TombstonesFirst objects) :
    Controls strict epoch (contents ++ [.delta (d.nextDelta m objects).2.objects])
      (held ++ [(objects.map (CacheObject.stamp (d.sequence + 1))).foldl CacheObject.applyTo m])
      (posted ++ [.delta (d.nextDelta m objects).2]) (d.nextDelta m objects).1 := by
  have hf' := hf.stamp (d.sequence + 1)
  have hlead : Content.Leads strict ((mapAt held held.length).getD ∅)
      (.delta (objects.map (CacheObject.stamp (d.sequence + 1))))
      ((objects.map (CacheObject.stamp (d.sequence + 1))).foldl CacheObject.applyTo m) :=
    ⟨hf', m, h.sequence_eq ▸ h.sent m hsent, rfl⟩
  refine ⟨h.ledger.snoc hlead, h.epoch_eq, ?_, h.acked_le.trans (Nat.le_succ _), ?_, ?_, ?_, ?_,
    ?_⟩
  · rw [List.length_append, h.sequence_eq]
    rfl
  · intro b hb
    rcases List.mem_append.mp hb with hb | hb
    · exact (h.posts b hb).append _
    · obtain rfl := List.mem_singleton.mp hb
      refine ⟨h.epoch_eq, d.sequence, rfl, ?_⟩
      rw [← h.sequence_eq, h.ledger.length, List.getElem?_concat_length]
  · intro m' hm'
    cases hm'
    have hmap := mapAt_snoc held ((objects.map (CacheObject.stamp (d.sequence + 1))).foldl
      CacheObject.applyTo m)
    rw [h.sequence_eq] at hmap
    change Table.Within strict id _ ((mapAt (held ++ [_]) (d.sequence + 1)).getD ∅)
    rw [hmap]
    exact Table.Within.refl strict _
  · intro m' hm'
    cases hm'
    refine (h.stable m hsent).snoc fun id o ho => ?_
    rcases of_getElem?_applyTo hf' ho with ho | ho
    · exact Or.inl ho
    · exact Or.inr (h.sequence_eq ▸ revision_of_upserted_stamp ho)
  · change RunTo (d.sequence + 1) ((d.unacked ++ [_]).map _)
    rw [List.map_append]
    exact h.unacked.snoc
  · intro delta hdelta
    rcases List.mem_append.mp hdelta with hdelta | hdelta
    · exact List.mem_append_left _ (h.queued delta hdelta)
    · rw [List.mem_singleton.mp hdelta]
      exact List.mem_append_right _ (List.mem_singleton_self _)

theorem Delivery.deltas_cons {m : Table Uuid OccurrenceObject} (hs : d.sent = some m)
    (objects : List CacheObject) (pieces : List (List CacheObject)) :
    d.deltas (objects :: pieces) =
        d.nextDelta m objects :: (d.nextDelta m objects).1.deltas pieces ∧
      d.lastOf (d.deltas (objects :: pieces)) =
        (d.nextDelta m objects).1.lastOf ((d.nextDelta m objects).1.deltas pieces) := by
  have hcons : d.deltas (objects :: pieces) =
      d.nextDelta m objects :: (d.nextDelta m objects).1.deltas pieces := by
    rw [Delivery.deltas, hs]
  refine ⟨hcons, ?_⟩
  rw [hcons]
  unfold Delivery.lastOf
  cases (d.nextDelta m objects).1.deltas pieces with
  | nil => rfl
  | cons a l => rw [List.getLast?_cons_cons, List.getLast?_cons]

theorem Delivery.deltas_of_none (hs : d.sent = none) (pieces : List (List CacheObject)) :
    d.deltas pieces = [] := by
  cases pieces with
  | nil => rfl
  | cons objects pieces => rw [Delivery.deltas, hs]

/-- The deltas of a refresh take the next sequences, one each, and leave what is acknowledged. -/
theorem Delivery.deltas_sequences (d : Delivery) (pieces : List (List CacheObject)) :
    (d.deltas pieces).map (·.2.sequence) =
        List.range' (d.sequence + 1) (d.deltas pieces).length ∧
      (d.lastOf (d.deltas pieces)).sequence = d.sequence + (d.deltas pieces).length ∧
      (d.lastOf (d.deltas pieces)).acked = d.acked := by
  induction pieces generalizing d with
  | nil => exact ⟨rfl, rfl, rfl⟩
  | cons objects pieces ih =>
      cases hs : d.sent with
      | none =>
          rw [Delivery.deltas_of_none hs]
          exact ⟨rfl, rfl, rfl⟩
      | some m =>
          obtain ⟨hcons, hlast⟩ := Delivery.deltas_cons hs objects pieces
          obtain ⟨hmap, hseq, hacked⟩ := ih (d.nextDelta m objects).1
          rw [hlast, hcons, List.map_cons, hmap, hseq, hacked, List.length_cons, List.range'_succ]
          exact ⟨rfl, Nat.add_right_comm _ _ _, rfl⟩

/-- What a map holds is what an older one held or carries a sequence above `last`. -/
def Renews (last : ℕ) (old new : Option (Table Uuid OccurrenceObject)) : Prop :=
  ∀ m', new = some m' → ∀ (id : Uuid) o, m'[id]? = some o →
    (∃ m, old = some m ∧ m[id]? = some o) ∨ last < o.revision

theorem Renews.refl (last : ℕ) (m : Option (Table Uuid OccurrenceObject)) : Renews last m m :=
  fun m' hm' _ _ ho => Or.inl ⟨m', hm', ho⟩

theorem Renews.trans {last last' : ℕ} {a b c : Option (Table Uuid OccurrenceObject)}
    (h : Renews last a b) (hle : last ≤ last') (h' : Renews last' b c) : Renews last a c := by
  intro m' hm' id o ho
  rcases h' m' hm' id o ho with ⟨m, hm, ho⟩ | hrev
  · exact h m hm id o ho
  · exact Or.inr (hle.trans_lt hrev)

theorem Delivery.nextDelta_renews {m : Table Uuid OccurrenceObject} (hs : d.sent = some m)
    {objects : List CacheObject} (hf : TombstonesFirst objects) :
    Renews d.sequence d.sent (d.nextDelta m objects).1.sent := by
  intro m' hm' id o ho
  cases hm'
  rcases of_getElem?_applyTo (hf.stamp (d.sequence + 1)) ho with ho | ho
  · exact Or.inl ⟨m, hs, ho⟩
  · exact Or.inr (Nat.lt_of_lt_of_eq (Nat.lt_succ_self _) (revision_of_upserted_stamp ho).symm)

theorem Delivery.deltas_renews {pieces : List (List CacheObject)}
    (hf : ∀ piece ∈ pieces, TombstonesFirst piece) :
    Renews d.sequence d.sent (d.lastOf (d.deltas pieces)).sent := by
  induction pieces generalizing d with
  | nil => exact Renews.refl _ _
  | cons objects pieces ih =>
      cases hs : d.sent with
      | none =>
          rw [Delivery.deltas_of_none hs, ← hs]
          exact Renews.refl _ _
      | some m =>
          obtain ⟨-, hlast⟩ := Delivery.deltas_cons hs objects pieces
          rw [hlast, ← hs]
          exact (Delivery.nextDelta_renews hs (hf objects List.mem_cons_self)).trans
            (Nat.le_succ _) (ih fun piece hp => hf piece (List.mem_cons_of_mem _ hp))

/-- No piece, no change. -/
theorem Controls.deltas_nil (h : Controls strict epoch contents held posted d)
    {pieces : List (List CacheObject)} (hnil : d.deltas pieces = []) :
    Controls strict epoch (contents ++ []) (held ++ (d.deltas pieces).filterMap (·.1.sent))
      (posted ++ (d.deltas pieces).map fun s => .delta s.2) (d.lastOf (d.deltas pieces)) := by
  rw [hnil, List.append_nil, List.filterMap_nil, List.map_nil, List.append_nil, List.append_nil]
  exact h

/-- The deltas of a refresh extend the ledger one after the other. -/
theorem Controls.deltas (h : Controls strict epoch contents held posted d)
    {pieces : List (List CacheObject)} (hf : ∀ piece ∈ pieces, TombstonesFirst piece) :
    ∃ more, Controls strict epoch (contents ++ more)
      (held ++ (d.deltas pieces).filterMap (·.1.sent))
      (posted ++ (d.deltas pieces).map fun s => .delta s.2) (d.lastOf (d.deltas pieces)) := by
  induction pieces generalizing contents held posted d with
  | nil => exact ⟨[], h.deltas_nil rfl⟩
  | cons objects pieces ih =>
      cases hs : d.sent with
      | none => exact ⟨[], h.deltas_nil (Delivery.deltas_of_none hs _)⟩
      | some m =>
          obtain ⟨hcons, hlast⟩ := Delivery.deltas_cons hs objects pieces
          obtain ⟨more, hmore⟩ := ih (h.nextDelta hs (hf objects List.mem_cons_self))
            fun piece hp => hf piece (List.mem_cons_of_mem _ hp)
          refine ⟨.delta (d.nextDelta m objects).2.objects :: more, ?_⟩
          rw [hlast, hcons, List.filterMap_cons_some (by rfl), List.map_cons]
          simpa only [List.append_assoc, List.singleton_append] using hmore

/-- The changes of a refresh name what left before what is there. -/
theorem tombstonesFirst_changes (sent : Table Uuid OccurrenceObject) (desired : Desired) :
    TombstonesFirst (Delivery.changes sent desired) := by
  have htomb : ∀ {l : List (Uuid × OccurrenceObject)} {f : Uuid × OccurrenceObject → CacheObject},
      (∀ e, (f e).isTombstone = true) → TombstonesFirst (l.map f) := by
    intro l f hf
    refine List.pairwise_of_forall_mem_list fun a ha b _ _ => ?_
    obtain ⟨e, -, rfl⟩ := List.mem_map.mp ha
    exact hf e
  refine List.pairwise_append.mpr ⟨htomb fun _ => rfl, ?_, ?_⟩
  · refine List.pairwise_of_forall_mem_list fun a _ b hb hbt => ?_
    obtain ⟨e, -, rfl⟩ := List.mem_map.mp hb
    cases hbt
  · intro a ha b _ _
    obtain ⟨e, -, rfl⟩ := List.mem_map.mp ha
    rfl

/-- Each piece of a list is part of it. -/
theorem sublist_of_mem_chunks {α : Type} {n : ℕ} {l piece : List α} (h : piece ∈ chunks n l) :
    piece.Sublist l := by
  obtain ⟨i, -, rfl⟩ := List.mem_map.mp h
  exact (List.take_sublist _ _).trans (List.drop_sublist _ _)

/-! ### Snapshots -/

theorem map_occurrenceId_snapshotObjects (previous : Table Uuid OccurrenceObject) (high : ℕ)
    (desired : Desired) :
    (Delivery.snapshotObjects previous high desired).map (·.occurrenceId) =
      desired.live.map (·.occurrenceId) := by
  rw [Delivery.snapshotObjects, List.map_map]
  rfl

/-- Objects of one content differ in their revisions only. -/
theorem eq_of_sameContent {old o : OccurrenceObject} (h : sameContent old o = true) :
    { o with revision := old.revision } = old := by
  have heq : { old with revision := 0 } = { o with revision := 0 } := eq_of_beq h
  cases old
  cases o
  cases heq
  rfl

/-- An object of a snapshot is an unchanged old one or carries the snapshot's sequence. -/
theorem mem_snapshotObjects {previous : Table Uuid OccurrenceObject} {high : ℕ}
    {desired : Desired} {o : OccurrenceObject}
    (h : o ∈ Delivery.snapshotObjects previous high desired) :
    previous[o.occurrenceId]? = some o ∨ o.revision = high := by
  obtain ⟨object, -, rfl⟩ := List.mem_map.mp h
  dsimp only
  cases hp : previous[object.occurrenceId]? with
  | none => exact Or.inr rfl
  | some old =>
      by_cases hsame : sameContent old object = true
      · refine Or.inl ?_
        simp only [if_pos hsame, eq_of_sameContent hsame]
      · refine Or.inr ?_
        simp only [if_neg hsame]

/-- A built snapshot extends the ledger by its objects. -/
theorem Controls.snapshot {digest : List OccurrenceObject → Except SnapshotError Sha256}
    (h : Controls strict epoch contents held posted d) {desired : Desired}
    (hd : (desired.live.map (·.occurrenceId)).Nodup) {outbox : Outbox}
    (ho : (d.snapshot digest desired).2 = .ok outbox) :
    ∃ c m, (d.snapshot digest desired).1.sent = some m ∧
      Controls strict epoch (contents ++ [c]) (held ++ [m]) (posted ++ outbox.bodies)
        (d.snapshot digest desired).1 := by
  unfold Delivery.snapshot at ho ⊢
  dsimp only at ho ⊢
  set objects := Delivery.snapshotObjects (d.sent.getD ∅) (d.sequence + 1) desired with hobjects
  cases hp : snapshotPages digest d.epoch (d.sequence + 1) objects with
  | error e =>
      rw [hp] at ho
      cases ho
  | ok pages =>
      rw [hp] at ho
      cases ho
      obtain ⟨-, sha, -, hpages⟩ := snapshotPages_eq_ok_iff.mp hp
      set sorted := objects.insertionSort snapshotLe with hsorted
      have hnodup : (objects.map (·.occurrenceId)).Nodup := by
        rw [hobjects, map_occurrenceId_snapshotObjects]
        exact hd
      have hperm : sorted.Perm objects := List.perm_insertionSort snapshotLe objects
      have hnodup' : (sorted.map (·.occurrenceId)).Nodup :=
        (hperm.map (·.occurrenceId)).nodup_iff.mpr hnodup
      have htable : Table.putAll (·.occurrenceId) ∅ objects =
          Table.putAll (·.occurrenceId) ∅ sorted := Table.putAll_perm ∅ hperm.symm hnodup
      refine ⟨.snapshot sha sorted, Table.putAll (·.occurrenceId) ∅ objects, rfl,
        ⟨h.ledger.snoc ⟨hnodup', htable⟩, h.epoch_eq, ?_, h.acked_le.trans (Nat.le_succ _), ?_, ?_,
          ?_, RunTo.nil _, nofun⟩⟩
      · rw [List.length_append, h.sequence_eq]
        rfl
      · intro b hb
        rcases List.mem_append.mp hb with hb | hb
        · exact (h.posts b hb).append _
        · obtain ⟨page, hpage, rfl⟩ := List.mem_map.mp hb
          rw [hpages] at hpage
          obtain ⟨i, hi, rfl⟩ := mem_pagesOf.mp hpage
          refine ⟨d.sequence, sha, sorted, ?_, i, hi, h.epoch_eq ▸ rfl⟩
          rw [← h.sequence_eq, h.ledger.length, List.getElem?_concat_length]
      · intro m hm
        cases hm
        have hmap := mapAt_snoc held (Table.putAll (·.occurrenceId) ∅ objects)
        rw [h.sequence_eq] at hmap
        dsimp only
        rw [hmap]
        exact Table.Within.refl strict _
      · intro m hm
        cases hm
        have hold : Stable held (d.sent.getD ∅) := by
          cases hs : d.sent with
          | none =>
              intro id o ho
              rw [Option.getD_none, Std.ExtTreeMap.getElem?_empty] at ho
              cases ho
          | some m => exact h.stable m hs
        refine hold.snoc fun id o ho => ?_
        rcases Table.of_getElem?_putAll ho with ⟨hmem, rfl⟩ | ho
        · exact (mem_snapshotObjects hmem).imp_right fun hr => by rw [hr, h.sequence_eq]
        · rw [Std.ExtTreeMap.getElem?_empty] at ho
          cases ho

/-- A snapshot that cannot be built leaves the map, or an empty one where none was known. -/
theorem Controls.snapshot_error {digest : List OccurrenceObject → Except SnapshotError Sha256}
    (h : Controls strict epoch contents held posted d) {desired : Desired} {e : SnapshotError}
    (he : (d.snapshot digest desired).2 = .error e) (hs : strict → d.sent ≠ none) :
    Controls strict epoch contents held posted (d.snapshot digest desired).1 ∧
      (d.snapshot digest desired).1.acked = d.acked ∧
      (d.snapshot digest desired).1.sequence = d.sequence ∧
      Renews d.sequence d.sent (d.snapshot digest desired).1.sent := by
  unfold Delivery.snapshot at he ⊢
  dsimp only at he ⊢
  cases hp : snapshotPages digest d.epoch (d.sequence + 1)
      (Delivery.snapshotObjects (d.sent.getD ∅) (d.sequence + 1) desired) with
  | ok pages =>
      rw [hp] at he
      cases he
  | error e' =>
      refine ⟨⟨h.ledger, h.epoch_eq, h.sequence_eq, h.acked_le, h.posts, ?_, ?_, h.unacked,
        h.queued⟩, rfl, rfl, ?_⟩
      · intro m hm
        cases hm
        cases hsent : d.sent with
        | some m => exact h.sent m hsent
        | none =>
            constructor
            · intro k v hv
              rw [Option.getD_none, Std.ExtTreeMap.getElem?_empty] at hv
              cases hv
            · exact fun hstrict => absurd hsent (hs hstrict)
      · intro m hm
        cases hm
        cases hsent : d.sent with
        | some m => exact h.stable m hsent
        | none =>
            intro id o ho
            rw [Option.getD_none, Std.ExtTreeMap.getElem?_empty] at ho
            cases ho
      · intro m hm id o ho
        cases hm
        cases hsent : d.sent with
        | some m =>
            rw [hsent] at ho
            exact Or.inl ⟨m, rfl, ho⟩
        | none =>
            rw [hsent, Option.getD_none, Std.ExtTreeMap.getElem?_empty] at ho
            cases ho

/-! ### Refreshes -/

/-- A refresh or retraction over a ledger: it keeps `Controls` over a longer ledger whose maps are
`assigned`, posts bodies of new sequences in order, and the outbox says where it now stands. -/
structure Extends (strict : Prop) (epoch : Text) (contents : List Content)
    (held : List (Table Uuid OccurrenceObject)) (posted : List PostBody) (d d' : Delivery)
    (outbox : Outbox) (assigned : List (Table Uuid OccurrenceObject)) : Prop where
  controls : ∃ more, Controls strict epoch (contents ++ more) (held ++ assigned)
    (posted ++ outbox.bodies) d'
  position : outbox.position.getD (d.sequence, d.acked) = (d'.sequence, d'.acked)
  ordered : outbox.bodies.Pairwise PostBody.Before
  fresh : ∀ b ∈ outbox.bodies, d.sequence < b.sequence
  acked : d'.acked = d.acked
  renews : Renews d.sequence d.sent d'.sent

theorem Extends.refl (h : Controls strict epoch contents held posted d) :
    Extends strict epoch contents held posted d d {} [] where
  controls := by
    refine ⟨[], ?_⟩
    rw [List.append_nil, List.append_nil]
    change Controls strict epoch contents held (posted ++ []) d
    rw [List.append_nil]
    exact h
  position := rfl
  ordered := List.Pairwise.nil
  fresh := nofun
  acked := rfl
  renews := Renews.refl _ _

/-- The bodies of a snapshot, in order, and where it leaves the controller. -/
theorem Delivery.snapshot_ok {digest : List OccurrenceObject → Except SnapshotError Sha256}
    {desired : Desired} {outbox : Outbox} (ho : (d.snapshot digest desired).2 = .ok outbox) :
    outbox.position = some (d.sequence + 1, d.acked) ∧
      (d.snapshot digest desired).1.sequence = d.sequence + 1 ∧
      (d.snapshot digest desired).1.acked = d.acked ∧
      outbox.bodies.Pairwise PostBody.Before ∧
      (∀ b ∈ outbox.bodies, b.sequence = d.sequence + 1) ∧
      Renews d.sequence d.sent (d.snapshot digest desired).1.sent := by
  unfold Delivery.snapshot at ho ⊢
  dsimp only at ho ⊢
  cases hp : snapshotPages digest d.epoch (d.sequence + 1)
      (Delivery.snapshotObjects (d.sent.getD ∅) (d.sequence + 1) desired) with
  | error e =>
      rw [hp] at ho
      cases ho
  | ok pages =>
      rw [hp] at ho
      cases ho
      obtain ⟨-, sha, -, rfl⟩ := snapshotPages_eq_ok_iff.mp hp
      refine ⟨rfl, rfl, rfl, ?_, ?_, ?_⟩
      · rw [pagesOf, List.map_map]
        refine List.Pairwise.map _ (fun i j hij => ?_) List.pairwise_lt_range
        exact Or.inr ⟨rfl, hij⟩
      · intro b hb
        obtain ⟨page, hpage, rfl⟩ := List.mem_map.mp hb
        obtain ⟨i, -, rfl⟩ := mem_pagesOf.mp hpage
        rfl
      · intro m hm id o ho
        cases hm
        rcases Table.of_getElem?_putAll ho with ⟨hmem, rfl⟩ | ho
        · rcases mem_snapshotObjects hmem with hold | hrev
          · cases hs : d.sent with
            | none =>
                rw [hs, Option.getD_none, Std.ExtTreeMap.getElem?_empty] at hold
                cases hold
            | some m =>
                rw [hs] at hold
                exact Or.inl ⟨m, rfl, hold⟩
          · exact Or.inr (Nat.lt_of_lt_of_eq (Nat.lt_succ_self _) hrev.symm)
        · rw [Std.ExtTreeMap.getElem?_empty] at ho
          cases ho

theorem Extends.snapshot {digest : List OccurrenceObject → Except SnapshotError Sha256}
    (h : Controls strict epoch contents held posted d) {desired : Desired}
    (hd : (desired.live.map (·.occurrenceId)).Nodup) {outbox : Outbox}
    (ho : (d.snapshot digest desired).2 = .ok outbox) :
    Extends strict epoch contents held posted d (d.snapshot digest desired).1 outbox
      (d.assigned (d.snapshot digest desired).1) := by
  obtain ⟨c, m, hsent, hcontrols⟩ := h.snapshot hd ho
  obtain ⟨hposition, hsequence, hacked, hordered, hfresh, hrenews⟩ := Delivery.snapshot_ok ho
  have hassigned : d.assigned (d.snapshot digest desired).1 = [m] := by
    unfold Delivery.assigned
    rw [if_neg (hsequence ▸ Nat.succ_ne_self _), hsent]
    rfl
  refine ⟨⟨[c], ?_⟩, ?_, hordered, fun b hb => ?_, hacked, hrenews⟩
  · rw [hassigned]
    exact hcontrols
  · rw [hposition, hsequence, hacked]
    rfl
  · exact Nat.lt_of_lt_of_eq (Nat.lt_succ_self _) (hfresh b hb).symm

/-- A refresh that succeeds extends the ledger. -/
theorem Extends.refresh {digest : List OccurrenceObject → Except SnapshotError Sha256}
    (h : Controls strict epoch contents held posted d) {desired : Desired}
    (hd : (desired.live.map (·.occurrenceId)).Nodup) {outbox : Outbox}
    (ho : (d.refresh digest desired).2 = .ok outbox) :
    Extends strict epoch contents held posted d (d.refresh digest desired).1 outbox
      (d.refreshHeld digest desired) := by
  unfold Delivery.refreshHeld
  cases ha : d.attached with
  | none =>
      have hrefresh : d.refresh digest desired = (d, .ok {}) := by
        rw [Delivery.refresh, ha]
      rw [hrefresh] at ho ⊢
      cases ho
      dsimp only
      rw [Delivery.assigned, if_pos rfl]
      exact Extends.refl h
  | some a =>
      obtain ⟨session, owed⟩ := a
      cases hs : d.sent with
      | none =>
          have hrefresh : d.refresh digest desired = d.snapshot digest desired := by
            rw [Delivery.refresh, ha, hs]
          rw [hrefresh] at ho ⊢
          cases owed <;> exact Extends.snapshot h hd ho
      | some sent =>
          cases owed with
          | true =>
              have hrefresh : d.refresh digest desired = d.snapshot digest desired := by
                rw [Delivery.refresh, ha, hs]
                rfl
              rw [hrefresh] at ho ⊢
              exact Extends.snapshot h hd ho
          | false =>
              have hf : ∀ piece ∈ chunks snapshotPageObjects (Delivery.changes sent desired),
                  TombstonesFirst piece := fun piece hp =>
                (tombstonesFirst_changes sent desired).sublist (sublist_of_mem_chunks hp)
              obtain ⟨more, hmore⟩ := h.deltas hf
              have hrenews := Delivery.deltas_renews (d := d) hf
              obtain ⟨hseqs, -, hacked⟩ := d.deltas_sequences
                (chunks snapshotPageObjects (Delivery.changes sent desired))
              dsimp only
              set steps := d.deltas (chunks snapshotPageObjects (Delivery.changes sent desired))
                with hsteps
              have hrefresh : d.refresh digest desired =
                  (d.lastOf steps, .ok
                    { bodies := steps.map fun s => .delta s.2
                      position := if steps.isEmpty then none else
                        some ((d.lastOf steps).sequence, (d.lastOf steps).acked) }) := by
                rw [Delivery.refresh, ha, hs]
                rfl
              rw [hrefresh] at ho ⊢
              cases ho
              have hmap : (steps.map fun s => PostBody.delta s.2).map PostBody.sequence =
                  List.range' (d.sequence + 1) steps.length := by
                rw [List.map_map]
                exact hseqs
              refine ⟨⟨more, hmore⟩, ?_, ?_, fun b hb => ?_, hacked, hrenews⟩
              · cases hlist : steps with
                | nil => rfl
                | cons s l => rfl
              · have hlt : ((steps.map fun s => PostBody.delta s.2).map
                    PostBody.sequence).Pairwise (· < ·) := hmap ▸ List.pairwise_lt_range'
                exact (List.pairwise_map.mp hlt).imp Or.inl
              · have hmem := List.mem_map_of_mem (f := PostBody.sequence) hb
                rw [hmap, List.mem_range'_1] at hmem
                exact hmem.1

/-- A refresh that fails assigns nothing. -/
theorem Controls.refresh_error {digest : List OccurrenceObject → Except SnapshotError Sha256}
    (h : Controls strict epoch contents held posted d) {desired : Desired} {e : SnapshotError}
    (he : (d.refresh digest desired).2 = .error e)
    (hs : strict → d.attached.isSome = true → d.sent ≠ none) :
    Controls strict epoch contents held posted (d.refresh digest desired).1 ∧
      (d.refresh digest desired).1.acked = d.acked ∧
      (d.refresh digest desired).1.sequence = d.sequence ∧
      Renews d.sequence d.sent (d.refresh digest desired).1.sent := by
  have hsnapshot : d.refresh digest desired = d.snapshot digest desired ∧
      d.attached.isSome = true := by
    unfold Delivery.refresh at he ⊢
    cases ha : d.attached with
    | none =>
        rw [ha] at he
        cases he
    | some a =>
        rw [ha] at he
        cases hsent : d.sent with
        | none => exact ⟨rfl, rfl⟩
        | some sent =>
            rw [hsent] at he
            dsimp only at he ⊢
            by_cases ho : a.snapshotOwed = true
            · rw [if_pos ho]
              exact ⟨rfl, rfl⟩
            · rw [if_neg ho] at he
              cases he
  rw [hsnapshot.1] at he ⊢
  exact h.snapshot_error he fun hstrict => hs hstrict hsnapshot.2

/-- A retraction sends one delta or nothing. -/
theorem Extends.retract (h : Controls strict epoch contents held posted d)
    (removed : List (Uuid × TombstoneReason)) :
    Extends strict epoch contents held posted d (d.retract removed).1 (d.retract removed).2
      (d.assigned (d.retract removed).1) := by
  have hnone : d.retract removed = (d, {}) → Extends strict epoch contents held posted d
      (d.retract removed).1 (d.retract removed).2 (d.assigned (d.retract removed).1) := by
    intro heq
    rw [heq, Delivery.assigned, if_pos rfl]
    exact Extends.refl h
  cases ha : d.attached with
  | none =>
      refine hnone ?_
      unfold Delivery.retract
      rw [ha]
  | some a =>
      cases hs : d.sent with
      | none =>
          refine hnone ?_
          unfold Delivery.retract
          rw [ha, hs]
      | some sent =>
          by_cases hc : a.snapshotOwed = true ∨ removed = []
          · refine hnone ?_
            unfold Delivery.retract
            rw [ha, hs]
            exact if_pos hc
          · let objects : List CacheObject := removed.map fun e =>
              .tombstone { occurrenceId := e.1, revision := 0, tombstone := e.2 }
            have heq : d.retract removed =
                ((d.nextDelta sent objects).1,
                  { bodies := [.delta (d.nextDelta sent objects).2]
                    position := some ((d.nextDelta sent objects).1.sequence,
                      (d.nextDelta sent objects).1.acked) }) := by
              unfold Delivery.retract
              rw [ha, hs]
              exact if_neg hc
            have hf : TombstonesFirst objects := by
              refine List.pairwise_of_forall_mem_list fun x hx y _ _ => ?_
              obtain ⟨e, -, rfl⟩ := List.mem_map.mp hx
              rfl
            have hassigned : d.assigned (d.nextDelta sent objects).1 =
                [(objects.map (CacheObject.stamp (d.sequence + 1))).foldl
                  CacheObject.applyTo sent] := by
              unfold Delivery.assigned
              exact if_neg (Nat.succ_ne_self _)
            rw [heq]
            dsimp only
            rw [hassigned]
            refine ⟨⟨_, h.nextDelta hs hf⟩, rfl, List.pairwise_singleton _ _, fun b hb => ?_, rfl,
              Delivery.nextDelta_renews hs hf⟩
            rw [List.mem_singleton.mp hb]
            exact Nat.lt_succ_self _

end

end EchoMuse.Alerts
