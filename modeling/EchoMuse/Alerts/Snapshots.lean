import EchoMuse.Alerts.Canonical
import EchoMuse.Alerts.Link

/-!
# A Snapshot at the Firmware

What the firmware makes of the pages of one snapshot, received in order: every page passes its
checks, the digest over what it decoded is the controller's, and the last page installs the
objects, as long as each of them is one the firmware accepts. The controller's `u64` fields and
local due times admit objects that it refuses; then it asks for another snapshot.

## Main results

* `stagePage_page`, `stagePage_misfit`: what one page does, and when it is refused;
* `stagedDigest_wire`: both sides compute the same digest;
* `snapshot_installs_iff`: a snapshot is installed exactly when all its objects fit.
-/

namespace EchoMuse.Alerts

section

variable (F : FloatText) (sha256 : Text → Sha256)

/-- The digest of an ordered object array: the SHA-256 of its canonical JSON. -/
def snapshotDigest (ordered : List OccurrenceObject) : Except SnapshotError Sha256 :=
  match writeValue F (.arr (ordered.map OccurrenceObject.value)) with
  | .ok text => .ok (sha256 text)
  | .error e => .error (.canonical e)

/-- The digest over the canonical JSON array of all staged objects. -/
def stagedDigest (values : List (Json Text)) : Option Text :=
  match appendCanonical F (.arr values) with
  | .ok text => some (sha256 text).hex
  | .error _ => none

/-- The device handles bodies one after the other, each of its commits durable. -/
def Device.feed (digest : List (Json Text) → Option Text) (clock : TrustedClock) :
    Device → List PostBody → Device × List AlertAck
  | d, [] => (d, [])
  | d, b :: bs =>
    let r := d.receive F digest clock .durable b
    let rest := Device.feed digest clock r.1 bs
    (rest.1, r.2.toList ++ rest.2)

end

/-! ### The digest -/

theorem mapItems_map_value (F : FloatText) (objects : List OccurrenceObject) :
    mapItems (Number.text F) (objects.map OccurrenceObject.value) =
      objects.map fun o => o.value.wire F := by
  induction objects with
  | nil => rfl
  | cons o objects ih =>
      rw [List.map_cons, mapItems, ih]
      rfl

/-- The firmware computes the controller's digest over what it received. -/
theorem stagedDigest_wire {F : FloatText} {sha256 : Text → Sha256}
    {objects : List OccurrenceObject} {sha : Sha256}
    (h : snapshotDigest F sha256 objects = .ok sha) :
    stagedDigest F sha256 (objects.map fun o => o.value.wire F) = some sha.hex := by
  unfold snapshotDigest at h
  cases hw : writeValue F (.arr (objects.map OccurrenceObject.value)) with
  | error e =>
      rw [hw] at h
      cases h
  | ok text =>
      rw [hw] at h
      cases h
      have happend := appendCanonical_wire F _ text hw
      change appendCanonical F (.arr (mapItems (Number.text F) _)) = _ at happend
      rw [mapItems_map_value] at happend
      rw [stagedDigest, happend]

/-! ### One page -/

section

variable {F : FloatText} {digest : List (Json Text) → Option Text} {clock : TrustedClock}
  {epoch : Text} {high : ℕ} {sha : Sha256} {objects : List OccurrenceObject} {i : ℕ}

/-- A live object is accepted exactly when it fits. -/
theorem parseLive_isSome_iff (F : FloatText) (o : OccurrenceObject) :
    (parseLive F (o.value.wire F)).isSome = true ↔ o.Fits := by
  unfold parseLive
  constructor
  · intro h
    cases hp : parseObject F (o.value.wire F) with
    | error e =>
        rw [hp] at h
        cases h
    | ok r => exact ((parseObject_occurrence F o r).mp hp).1
  · intro h
    rw [(parseObject_occurrence F o (.inl o.received)).mpr ⟨h, rfl⟩]
    rfl

theorem all_parseLive_iff (F : FloatText) (objects : List OccurrenceObject) :
    (objects.map fun o => o.value.wire F).all (fun v => (parseLive F v).isSome) = true ↔
      ∀ o ∈ objects, o.Fits := by
  rw [List.all_eq_true]
  constructor
  · intro h o ho
    exact (parseLive_isSome_iff F o).mp (h _ (List.mem_map_of_mem ho))
  · intro h v hv
    obtain ⟨o, ho, rfl⟩ := List.mem_map.mp hv
    exact (parseLive_isSome_iff F o).mpr (h o ho)

/-- The stage that awaits page `i`: any for the first page, else the pages before it. -/
def Awaits (F : FloatText) (epoch : Text) (high : ℕ) (sha : Sha256)
    (objects : List OccurrenceObject) (i : ℕ) (stage : Option SnapshotStage) : Prop :=
  i = 0 ∨ ∃ sg, stage = some sg ∧ Staged F epoch high sha objects i sg

/-- A page of the controller passes the page's own checks. -/
theorem pageValid_page (F : FloatText) (epoch : Text) (high : ℕ) (sha : Sha256)
    (hi : i < pageCount objects) :
    pageValid ((pageAt epoch high sha objects i).body F) = true := by
  have hpos := pageCount_pos objects
  have hlength : (((objects.drop (i * snapshotPageObjects)).take snapshotPageObjects).map
      fun o => o.value.wire F).length ≤ snapshotPageObjects := by
    rw [List.length_map]
    exact List.length_take_le _ _
  have hhex : sha.hex.all isHexLower = true := List.all_eq_true.mpr sha.valid.2
  refine decide_eq_true ⟨?_, Int.natCast_nonneg i, ?_, hlength, sha.valid.1, hhex⟩
  · change (0 : ℤ) < (pageCount objects : ℤ)
    omega
  · change (i : ℤ) < (pageCount objects : ℤ)
    omega

/-- The awaited page finds its stage. -/
theorem stageOf_awaits {stage : Option SnapshotStage}
    (h : Awaits F epoch high sha objects i stage) :
    ∃ sg, stageOf stage ((pageAt epoch high sha objects i).body F) = some sg := by
  unfold stageOf
  rcases h with rfl | ⟨sg, rfl, hs⟩
  · refine ⟨_, Option.filter_eq_some_iff.mpr ⟨if_pos rfl, ?_⟩⟩
    exact decide_eq_true ⟨rfl, rfl, rfl, rfl, rfl⟩
  · by_cases hi : ((pageAt epoch high sha objects i).body F).pageIndex = 0
    · refine ⟨_, Option.filter_eq_some_iff.mpr ⟨if_pos hi, ?_⟩⟩
      exact decide_eq_true ⟨hi.symm, rfl, rfl, rfl, rfl⟩
    · refine ⟨sg, Option.filter_eq_some_iff.mpr ⟨if_neg hi, ?_⟩⟩
      exact decide_eq_true ⟨hs.next, hs.epoch, hs.high, hs.count, hs.sha⟩

/-- The awaited page joins its stage. -/
theorem stageOf_awaited {stage : Option SnapshotStage}
    (h : Awaits F epoch high sha objects i stage) :
    ∃ sg, stageOf stage ((pageAt epoch high sha objects i).body F) = some sg ∧
      Staged F epoch high sha objects i sg := by
  obtain ⟨sg, hsg⟩ := stageOf_awaits h
  refine ⟨sg, hsg, ?_⟩
  rcases h with rfl | ⟨sg', rfl, hs⟩
  · -- The first page starts a stage of its own, whatever was staged before.
    have hnone : stageOf none ((pageAt epoch high sha objects 0).body F) = some sg := hsg
    refine stageOf_page (fun sg' h _ _ => ?_) hnone
    cases h
  · refine stageOf_page (fun sg'' h _ _ => ?_) hsg
    cases h
    exact ⟨i, hs⟩

/-- A page with an object that does not fit is refused. -/
theorem stagePage_misfit {s : State} {stage : Option SnapshotStage}
    (hbad : ∃ o ∈ (pageAt epoch high sha objects i).objects, ¬ o.Fits) :
    stagePage F digest clock s stage ((pageAt epoch high sha objects i).body F) = .rejected := by
  have hall : ¬ ((pageAt epoch high sha objects i).body F).objects.all
      (fun v => (parseLive F v).isSome) = true := by
    obtain ⟨o, ho, hfits⟩ := hbad
    exact fun hall => hfits ((all_parseLive_iff F _).mp hall o ho)
  unfold stagePage
  by_cases hvalid : pageValid ((pageAt epoch high sha objects i).body F) = true
  · rw [if_neg (not_not_intro hvalid)]
    cases stageOf stage ((pageAt epoch high sha objects i).body F) with
    | none => rfl
    | some sg =>
        dsimp only
        rw [if_pos hall]
  · rw [if_pos hvalid]

/-- The awaited page, all its objects fitting, is staged; the last one completes the snapshot. -/
theorem stagePage_page (clock : TrustedClock) (s : State) {stage : Option SnapshotStage}
    (hi : i < pageCount objects) (h : Awaits F epoch high sha objects i stage)
    (hfits : ∀ o ∈ (pageAt epoch high sha objects i).objects, o.Fits)
    (hdigest : digest (objects.map fun o => o.value.wire F) = some sha.hex) :
    (i + 1 < pageCount objects → ∃ sg, Staged F epoch high sha objects (i + 1) sg ∧
      stagePage F digest clock s stage ((pageAt epoch high sha objects i).body F) =
        .staged sg) ∧
    (i + 1 = pageCount objects →
      stagePage F digest clock s stage ((pageAt epoch high sha objects i).body F) =
        .install (snapshotTxn clock s epoch high (objects.map OccurrenceObject.received))) := by
  obtain ⟨sg, hsg, hs⟩ := stageOf_awaited h
  have hall : ((pageAt epoch high sha objects i).body F).objects.all
      (fun v => (parseLive F v).isSome) = true := (all_parseLive_iff F _).mpr hfits
  let sg' : SnapshotStage :=
    { sg with
      values := sg.values ++ ((pageAt epoch high sha objects i).body F).objects
      next := sg.next + 1 }
  have hs' : Staged F epoch high sha objects (i + 1) sg' := hs.snoc hall
  have hstep : stagePage F digest clock s stage ((pageAt epoch high sha objects i).body F) =
      if sg'.next < sg'.count then .staged sg'
      else if digest sg'.values ≠ some sg'.sha then .rejected
      else .install (snapshotTxn clock s sg'.epoch sg'.high
        (sg'.values.filterMap (parseLive F))) := by
    unfold stagePage
    rw [if_neg (not_not_intro (pageValid_page F epoch high sha hi)), hsg]
    dsimp only
    rw [if_neg (not_not_intro hall)]
  rw [hstep, hs'.next, hs'.count]
  constructor
  · intro hlt
    exact ⟨sg', hs', if_pos (by omega)⟩
  · intro heq
    have hvalues := hs'.values_all heq.symm.le
    have hmatch : ¬ digest sg'.values ≠ some sg'.sha := by
      rw [hvalues, hs'.sha]
      exact not_not_intro hdigest
    rw [if_neg (by omega), if_neg hmatch, hs'.epoch, hs'.high, hvalues,
      filterMap_parseLive (hvalues ▸ hs'.live)]

end

/-! ### The whole snapshot -/

section

variable {F : FloatText} {digest : List (Json Text) → Option Text} {clock : TrustedClock}
  {epoch : Text} {high : ℕ} {sha : Sha256} {objects : List OccurrenceObject} {i : ℕ}

/-- The bodies of the pages from `i` on. -/
def bodiesFrom (epoch : Text) (high : ℕ) (sha : Sha256) (objects : List OccurrenceObject)
    (i n : ℕ) : List PostBody :=
  (List.range' i n).map fun j => .snapshot (pageAt epoch high sha objects j)

/-- All pages. -/
theorem map_pagesOf (epoch : Text) (high : ℕ) (sha : Sha256) (objects : List OccurrenceObject) :
    (pagesOf epoch high sha objects).map PostBody.snapshot =
      bodiesFrom epoch high sha objects 0 (pageCount objects) := by
  rw [pagesOf, bodiesFrom, List.map_map, List.range_eq_range']
  rfl

/-- The objects from page `i` on are those of the page and those after it. -/
theorem mem_drop_pages {o : OccurrenceObject}
    (h : o ∈ objects.drop (i * snapshotPageObjects)) :
    o ∈ (pageAt epoch high sha objects i).objects ∨
      o ∈ objects.drop ((i + 1) * snapshotPageObjects) := by
  rw [← List.take_append_drop snapshotPageObjects (objects.drop (i * snapshotPageObjects)),
    List.drop_drop, ← Nat.succ_mul] at h
  exact List.mem_append.mp h

theorem bodiesFrom_succ (epoch : Text) (high : ℕ) (sha : Sha256)
    (objects : List OccurrenceObject) (i n : ℕ) :
    bodiesFrom epoch high sha objects i (n + 1) =
      .snapshot (pageAt epoch high sha objects i) ::
        bodiesFrom epoch high sha objects (i + 1) n := by
  rw [bodiesFrom, List.range'_succ]
  rfl

theorem Device.receive_staged {d : Device} {page : AlertSnapshotPage} {sg : SnapshotStage}
    (h : stagePage F digest clock d.st d.stage (page.body F) = .staged sg)
    (outcome : CommitOutcome) :
    d.receive F digest clock outcome (.snapshot page) = ({ d with stage := some sg }, none) := by
  unfold Device.receive
  dsimp only
  rw [h]

theorem Device.receive_rejected {d : Device} {page : AlertSnapshotPage}
    (h : stagePage F digest clock d.st d.stage (page.body F) = .rejected)
    (outcome : CommitOutcome) :
    d.receive F digest clock outcome (.snapshot page) =
      ({ d with stage := none }, some (d.ack true true)) := by
  unfold Device.receive
  dsimp only
  rw [h]

theorem Device.receive_installed {d : Device} {page : AlertSnapshotPage} {t : Txn}
    (h : stagePage F digest clock d.st d.stage (page.body F) = .install t)
    (ht : t.empty = false) (hb : d.broken = false) :
    ∃ d' : Device, d.receive F digest clock .durable (.snapshot page) =
      (d', some (d'.ack false true)) ∧ d'.st = d.st.apply t := by
  unfold Device.receive Device.install Device.commit
  dsimp only
  rw [h]
  dsimp only
  rw [if_neg (by rw [ht]; nofun), if_neg (by rw [hb]; nofun)]
  exact ⟨_, rfl, rfl⟩

/-- Pages whose objects all fit install the snapshot and are acknowledged once. -/
theorem feed_fits (clock : TrustedClock)
    (hdigest : digest (objects.map fun o => o.value.wire F) = some sha.hex)
    {n : ℕ} (hn : i + (n + 1) = pageCount objects) {d : Device} (hb : d.broken = false)
    (hstage : Awaits F epoch high sha objects i d.stage) (hfits : ∀ o ∈ objects, o.Fits) :
    ∃ d' : Device, d.feed F digest clock (bodiesFrom epoch high sha objects i (n + 1)) =
        (d', [d'.ack false true]) ∧
      d'.st = d.st.apply
        (snapshotTxn clock d.st epoch high (objects.map OccurrenceObject.received)) := by
  induction n generalizing i d with
  | zero =>
      have hpage := (stagePage_page clock d.st (by omega) hstage (fun o ho =>
        hfits o (List.mem_of_mem_drop (List.mem_of_mem_take ho))) hdigest).2 hn
      obtain ⟨d', hreceive, hst⟩ := Device.receive_installed hpage
        (Txn.empty_of_delivery (snapshotTxn_spec clock d.st epoch high _).2.1) hb
      refine ⟨d', ?_, hst⟩
      rw [bodiesFrom_succ, Device.feed, hreceive]
      rfl
  | succ n ih =>
      obtain ⟨sg, hs, hpage⟩ := (stagePage_page clock d.st (by omega) hstage (fun o ho =>
        hfits o (List.mem_of_mem_drop (List.mem_of_mem_take ho))) hdigest).1 (by omega)
      obtain ⟨d', hfeed, hst⟩ := ih (i := i + 1) (d := { d with stage := some sg }) (by omega) hb
        (Or.inr ⟨sg, rfl, hs⟩)
      refine ⟨d', ?_, hst⟩
      rw [bodiesFrom_succ, Device.feed, Device.receive_staged hpage]
      dsimp only
      rw [hfeed]
      rfl

/-- Pages with an object that does not fit have another snapshot asked for. -/
theorem feed_misfit (clock : TrustedClock)
    (hdigest : digest (objects.map fun o => o.value.wire F) = some sha.hex)
    {n : ℕ} (hn : i + n = pageCount objects) {d : Device}
    (hstage : Awaits F epoch high sha objects i d.stage)
    (hbad : ∃ o ∈ objects.drop (i * snapshotPageObjects), ¬ o.Fits) :
    ∃ a ∈ (d.feed F digest clock (bodiesFrom epoch high sha objects i n)).2,
      a.needSnapshot = true := by
  induction n generalizing i d with
  | zero =>
      obtain ⟨o, ho, -⟩ := hbad
      have hlength := length_le_pageCount objects
      rw [← hn, Nat.add_zero] at hlength
      rw [List.drop_eq_nil_of_le hlength] at ho
      cases ho
  | succ n ih =>
      rw [bodiesFrom_succ, Device.feed]
      by_cases hpage : ∃ o ∈ (pageAt epoch high sha objects i).objects, ¬ o.Fits
      · rw [Device.receive_rejected (stagePage_misfit hpage)]
        exact ⟨_, List.mem_cons_self, rfl⟩
      · have hfits : ∀ o ∈ (pageAt epoch high sha objects i).objects, o.Fits := fun o ho =>
          not_not.mp fun h => hpage ⟨o, ho, h⟩
        obtain ⟨o, ho, hnot⟩ := hbad
        have hnext : o ∈ objects.drop ((i + 1) * snapshotPageObjects) :=
          (mem_drop_pages ho).resolve_left fun h => hpage ⟨o, h, hnot⟩
        have hlt : i + 1 < pageCount objects := by
          by_contra hge
          have hlength := length_le_pageCount objects
          have hle := Nat.mul_le_mul_right snapshotPageObjects (Nat.le_of_not_lt hge)
          rw [List.drop_eq_nil_of_le (hlength.trans hle)] at hnext
          cases hnext
        obtain ⟨sg, hs, hstaged⟩ := (stagePage_page clock d.st (by omega) hstage hfits
          hdigest).1 hlt
        rw [Device.receive_staged hstaged]
        obtain ⟨a, ha, hneed⟩ := ih (i := i + 1) (d := { d with stage := some sg }) (by omega)
          (Or.inr ⟨sg, rfl, hs⟩) ⟨o, hnext, hnot⟩
        exact ⟨a, ha, hneed⟩

/-- The firmware takes the pages in order: it asks for no other snapshot, stands at the snapshot's
position, and delivers exactly the given objects with the fields they were given. -/
structure Installs (F : FloatText) (sha256 : Text → Sha256) (clock : TrustedClock) (epoch : Text)
    (high : ℕ) (objects : List OccurrenceObject) (pages : List AlertSnapshotPage) (d : Device) :
    Prop where
  acks : ∀ a ∈ (d.feed F (stagedDigest F sha256) clock (pages.map .snapshot)).2,
    a.needSnapshot = false
  position : (d.feed F (stagedDigest F sha256) clock (pages.map .snapshot)).1.st.epoch =
      some epoch ∧
    (d.feed F (stagedDigest F sha256) clock (pages.map .snapshot)).1.st.acked = high
  occurrences : (objects.map (·.occurrenceId)).Nodup → ∀ (id : Uuid) r,
    (d.feed F (stagedDigest F sha256) clock (pages.map .snapshot)).1.st.occ[id]? = some r ↔
      ∃ o ∈ objects, o.occurrenceId = id ∧ r = o.received

/-- A snapshot the controller builds is installed exactly when every object is one the firmware
accepts: its numbers fit an `int64`, and `time.Parse` reads its local due time. -/
theorem snapshot_installs_iff (F : FloatText) (sha256 : Text → Sha256) (clock : TrustedClock)
    {epoch : Text} {high : ℕ} {objects : List OccurrenceObject} {pages : List AlertSnapshotPage}
    (hp : snapshotPages (snapshotDigest F sha256) epoch high objects = .ok pages) {d : Device}
    (hb : d.broken = false) :
    Installs F sha256 clock epoch high objects pages d ↔ ∀ o ∈ objects, o.Fits := by
  obtain ⟨-, sha, hsha, rfl⟩ := snapshotPages_eq_ok_iff.mp hp
  have hperm : (objects.insertionSort snapshotLe).Perm objects :=
    List.perm_insertionSort snapshotLe objects
  set sorted := objects.insertionSort snapshotLe with hsorted
  have hdigest := stagedDigest_wire hsha
  obtain ⟨n, hn⟩ := Nat.exists_eq_add_of_lt (pageCount_pos sorted)
  rw [Nat.zero_add] at hn
  have hmap := map_pagesOf epoch high sha sorted
  constructor
  · intro h
    by_contra hbad
    push Not at hbad
    obtain ⟨o, ho, hnot⟩ := hbad
    obtain ⟨a, ha, hneed⟩ := feed_misfit clock (d := d) hdigest (Nat.zero_add _)
      (Or.inl rfl) ⟨o, by rw [Nat.zero_mul, List.drop_zero]; exact hperm.mem_iff.mpr ho, hnot⟩
    rw [← hmap] at ha
    rw [h.acks a ha] at hneed
    cases hneed
  · intro hfits
    obtain ⟨d', hfeed, hst⟩ := feed_fits clock hdigest (i := 0) (n := n)
      (by rw [hn, Nat.zero_add]) hb (Or.inl rfl) fun o ho => hfits o (hperm.mem_iff.mp ho)
    rw [← hn, ← hmap] at hfeed
    obtain ⟨hreset, hdelivery, hdel, hput⟩ := snapshotTxn_spec clock d.st epoch high
      (sorted.map OccurrenceObject.received)
    obtain ⟨hepoch, hacked⟩ := State.apply_position_some (s := d.st) hdelivery
    rw [← hst] at hepoch hacked
    constructor
    · rw [hfeed]
      intro a ha
      rw [List.mem_singleton.mp ha]
      change (false || d'.st.corrupt) = false
      rw [Bool.false_or, hst]
      exact if_pos hreset
    · rw [hfeed]
      exact ⟨hepoch, hacked⟩
    · rw [hfeed]
      intro hnodup id r
      dsimp only
      have hkeys : ((sorted.map OccurrenceObject.received).map (·.occurrenceId)).Nodup := by
        rw [List.map_map]
        exact (hperm.map (·.occurrenceId)).nodup_iff.mpr hnodup
      rw [hst, State.apply_occ, hreset, if_pos rfl, hdel, hput, Table.deleteAll_nil,
        Table.getElem?_putAll_empty_iff hkeys]
      constructor
      · rintro ⟨hr, rfl⟩
        obtain ⟨o, ho, rfl⟩ := List.mem_map.mp hr
        exact ⟨o, hperm.mem_iff.mp ho, rfl, rfl⟩
      · rintro ⟨o, ho, rfl, rfl⟩
        exact ⟨List.mem_map_of_mem (hperm.mem_iff.mpr ho), rfl⟩

end

/-- An alarm with defaults is installed on an empty device. -/
theorem snapshot_installs_sample :
    Installs bitText (fun _ => zeroSha) untrustedClock ['e'] 1 [sampleAlarm 1 ['a']]
      (pagesOf ['e'] 1 zeroSha [sampleAlarm 1 ['a']]) { st := {}, disk := {} } := by
  refine (snapshot_installs_iff bitText (fun _ => zeroSha) untrustedClock
    (snapshotPages_eq_ok_iff.mpr ⟨by decide, zeroSha, rfl, rfl⟩) rfl).mpr fun o ho => ?_
  obtain rfl := List.mem_singleton.mp ho
  exact ⟨by decide, by decide, by decide, by decide, by decide, by decide, by decide, by decide,
    by decide⟩

/-- An alarm whose loop gap is an `u64` but no `int64`. -/
def hugeGapAlarm : OccurrenceObject := { sampleAlarm 1 ['a'] with loopGapMs := 2 ^ 63 }

/-- Not every snapshot the controller builds is installed: a loop gap of `2 ^ 63` ms has the
snapshot refused. -/
theorem huge_gap_refused :
    ¬ ∀ (F : FloatText) (sha256 : Text → Sha256) (clock : TrustedClock) (epoch : Text) (high : ℕ)
      (objects : List OccurrenceObject) (pages : List AlertSnapshotPage) (d : Device),
      high < 2 ^ 63 →
      (∀ o ∈ objects, o.dueUtcMs < 2 ^ 64 ∧ o.loopGapMs < 2 ^ 64 ∧ o.maxRingMs < 2 ^ 64 ∧
        o.maxRingMs ≠ 0 ∧ o.rampMs < 2 ^ 64 ∧ o.revision < 2 ^ 64 ∧ o.snoozeMs < 2 ^ 64 ∧
        parseTime o.dueLocal ≠ none) →
      snapshotPages (snapshotDigest F sha256) epoch high objects = .ok pages →
      d.broken = false → Installs F sha256 clock epoch high objects pages d := by
  intro h
  have hpages : snapshotPages (snapshotDigest bitText fun _ => zeroSha) ['e'] 1 [hugeGapAlarm] =
      .ok (pagesOf ['e'] 1 zeroSha [hugeGapAlarm]) :=
    snapshotPages_eq_ok_iff.mpr ⟨by decide, zeroSha, rfl, rfl⟩
  have hinstalls := h bitText _ untrustedClock _ _ _ _ { st := {}, disk := {} } (by decide)
    (fun o ho => by rw [List.mem_singleton.mp ho]; decide) hpages rfl
  have hbad : ∃ a ∈ (Device.feed bitText (stagedDigest bitText fun _ => zeroSha) untrustedClock
      { st := {}, disk := {} }
      ((pagesOf ['e'] 1 zeroSha [hugeGapAlarm]).map PostBody.snapshot)).2,
      a.needSnapshot = true := by decide +kernel
  obtain ⟨a, ha, hneed⟩ := hbad
  rw [hinstalls.acks a ha] at hneed
  cases hneed

end EchoMuse.Alerts
