import EchoMuse.Uplink.Postings
import EchoMuse.Uplink.Runs

/-!
# The Accounts of a Session

Every operation of an `Uplink` changes the book by entries, so the accounts count the queue in
every state a run reaches. The one exception is a device's report of a mute for an ID whose
earlier subscription still has an end notice waiting: `discardChunksOf` keeps the notice and
resets the account.

## Main results

* `entries_apply`: every operation but the drain is entries;
* `unmarked_apply`: no subscription stays marked between operations;
* `accounting_iff`: the accounts of a run match the queue exactly when no report of a mute finds
  an end notice of its ID waiting.
-/

namespace EchoMuse.Uplink

open EchoMuse.Ema EchoMuse.Streams EchoMuse.Intervals EchoMuse.Traverse
open Relation

variable {R D : Prop}

/-- No live subscription is marked overflowed. -/
def Unmarked (u : Uplink) : Prop := ∀ sub ∈ u.subs, sub.overflowed = false

/-- The live subscription a device report ends. -/
def reported (u : Uplink) (report : UplinkEnded) : Option Sub :=
  if u.zombies.any (·.id.text = report.subscriptionId) then none
  else (u.subs.find? (·.id.text = report.subscriptionId)).filter (·.phase.isActive)

/-- A report of a mute ends a live subscription while an end notice waits for an earlier
subscription of the same ID. -/
def Op.reuses (u : Uplink) : Op → Bool
  | .deviceEnded report _ =>
    report.reason = .mute && (u.reported report).isSome &&
      u.outbox.queue.any fun d => d.isEnded && d.subscription.text = report.subscriptionId
  | _ => false

/-! ### Entries -/

namespace Entries

/-- No operation but an overflow ends a subscription for overflow. -/
theorem same_of_unmarked {u : Uplink} (hu : u.Unmarked) {cause : EndCause}
    (hcause : cause.isOverflow = false) :
    ∀ sub ∈ u.subs, cause.isOverflow = sub.overflowed :=
  fun sub hsub => hcause.trans (hu sub hsub).symm

/-- A change of a subscription's wants and phase. -/
theorem noted {u : Uplink} {index : ℕ} {sub sub' : Sub} (h : u.subs[index]? = some sub)
    (hid : sub'.id = sub.id) (hmark : sub'.overflowed = sub.overflowed) :
    Entries R D (book u) ⟨u.subs.set index sub', u.outbox⟩ := by
  obtain ⟨pre, post, hsubs, -, hset⟩ := exists_around_of_getElem? h
  rw [book, hset, hsubs]
  exact ReflTransGen.single (Entry.note pre post u.outbox hid hmark)

theorem deviceEnded {u : Uplink} (hu : u.Unmarked) (report : UplinkEnded) (now : ℕ) (hR : R)
    (hdrops : report.reason = .mute → D)
    (hreuse : Op.reuses u (.deviceEnded report now) = false) :
    Entries R D (book u) (book (u.deviceEnded report now)) := by
  simp only [Uplink.deviceEnded]
  split_ifs with hzombie
  · exact ReflTransGen.refl
  split
  · exact ReflTransGen.refl
  · rename_i sub hsub
    by_cases hactive : sub.phase.isActive = true
    · rw [if_neg (not_not.mpr hactive)]
      have hcause : (EndCause.device report).isOverflow = sub.overflowed :=
        same_of_unmarked hu rfl sub (List.mem_of_getElem? hsub)
      have hfind : u.subs.find? (·.id.text = report.subscriptionId) = some sub := by
        rw [List.find?_eq_getElem?_findIdx]
        exact hsub
      let draining : Sub :=
        { sub with
          wants := sub.wants.map (Uplink.reportWant report)
          phase := .draining report (after now u.config.holeWait) }
      let v : Uplink :=
        { u with subs := u.subs.set (u.subs.findIdx (·.id.text = report.subscriptionId)) draining }
      have hdrain : Entries R D (book u) (book ((v.releaseAll now).settleSubs now)) := by
        have hnoted : Entries R D (book u) (book v) := noted hsub rfl rfl
        exact settleSubs (hnoted.trans (releaseAll hR v now)) now
      cases hreason : report.reason with
      | mute =>
          have hclear : ∀ d ∈ u.outbox.queue, d.subscription = sub.id → d.isEnded = false := by
            intro d hd hid
            have htext : d.subscription.text = report.subscriptionId := by
              rw [hid]
              simpa using List.find?_some hfind
            simp only [Op.reuses, reported, hreason, hfind, Option.filter, hactive,
              Bool.eq_false_iff.mpr hzombie, decide_true, Bool.true_and, if_true,
              Bool.false_eq_true, if_false, Option.isSome_some, List.any_eq_false] at hreuse
            simpa [htext] using hreuse d hd
          let cleared : Uplink := { u with outbox := u.outbox.discardChunksOf sub.id }
          have hend : Entries R D (book cleared) (book (cleared.endSub
              (u.subs.findIdx (·.id.text = report.subscriptionId)) sub (.device report) .gone
              now)) :=
            endSub (u := cleared) hsub hcause .gone now
          exact ReflTransGen.head
            (Entry.discardOf u.subs sub.id u.outbox (hdrops hreason) hclear) hend
      | epoch => exact endSub hsub hcause .gone now
      | session => exact endSub hsub hcause .gone now
      | closed => exact hdrain
      | ttl => exact hdrain
      | overrun => exact hdrain
    · rw [if_pos hactive]

/-! ### Packets and streams -/

theorem attributeTo {stream : StreamId} {epoch : UInt64} (attributed : List (SubKey × Attribution))
    (subs : List Sub) (o : Outbox) :
    Entries R D ⟨subs, o⟩ ⟨attributed.foldl (attributeTo stream epoch) subs, o⟩ := by
  induction attributed generalizing subs with
  | nil => exact ReflTransGen.refl
  | cons a attributed ih =>
      have hone : Entries R D ⟨subs, o⟩ ⟨Uplink.attributeTo stream epoch subs a, o⟩ :=
        updateFirst_steps (fun subs (_ : Unit) => (⟨subs, o⟩ : Book))
          (fun _ _ _ pre post _ => ReflTransGen.single (Entry.note pre post o rfl rfl)) [] ()
      exact hone.trans (ih _)

theorem packetTo (hR : R) (source : Source) (path : Path) (first holeWait now : ℕ)
    (pre post : List Sub) (sub : Sub) (o : Outbox) :
    Entries R D ⟨pre ++ sub :: post, o⟩
      ⟨pre ++ (packetTo source path first holeWait now sub o).1 :: post,
        (packetTo source path first holeWait now sub o).2⟩ :=
  Moves.findCursor_steps (around pre sub post)
    (fun w _ _ c _ _ before behind cs ds s =>
      release hR source sub holeWait now pre post before behind w cs ds c
        (c.onPacket path first sub.key source.stream) s) (o, sub.overflowed)

theorem ingest (hR : R) (u : Uplink) (packet : Packet) (now : ℕ) :
    Entries R D (book u) (book (u.ingest packet now).1) := by
  rcases u.ingest_cases packet now with heq | ⟨stream, held, -, -, -, heq⟩
  · rw [heq]
  · rw [heq]
    have hreceived : Entries R D (book u) (book (u.received stream held packet now)) :=
      (attributeTo _ u.subs u.outbox).trans
        (mapState_steps (fun subs (o : Outbox) => (⟨subs, o⟩ : Book))
          (fun sub _ pre post o => packetTo hR _ _ _ _ now pre post sub o) [] u.outbox)
    exact settleSubs hreceived now

theorem endReference (hR : R) (source : Source) (finalSample holeWait now : ℕ)
    (pre post : List Sub) (sub : Sub) (o : Outbox) :
    Entries R D ⟨pre ++ sub :: post, o⟩
      ⟨pre ++ (endReference source finalSample holeWait now sub o).1 :: post,
        (endReference source finalSample holeWait now sub o).2⟩ := by
  refine updateFirst_steps (around pre sub post) (fun w _ _ before behind s => ?_) []
    (o, sub.overflowed)
  dsimp only
  split
  · exact ReflTransGen.refl
  · rename_i c hfind
    obtain ⟨cs, ds, hcs, herase, -⟩ := exists_around_of_find? (σ := Unit) hfind
    have hrelease := release (D := D) hR source sub holeWait now pre post before behind w cs ds c
      (if c.pos.isSome then ({ c with target := none } : Cursor).settle finalSample .notSent
        else { c with target := none }) s
    rw [← hcs] at hrelease
    exact hrelease.trans (quiet pre post sub _ _ _)

theorem streamEnded {u : Uplink} (hu : u.Unmarked) (e : StreamEnd) (now : ℕ) (hR : R) :
    Entries R D (book u) (book (u.streamEnded e now)) := by
  simp only [Uplink.streamEnded]
  by_cases hstream : e.streamId = .reference
  · rw [if_neg (not_not.mpr hstream)]
    have hends : ∀ source : Source, ∀ v : Uplink, book v = book u →
        Entries R D (book u) ⟨(mapState (Uplink.endReference source e.finalSample.toNat
          v.config.holeWait now) v.subs v.outbox).1, (mapState (Uplink.endReference source
            e.finalSample.toNat v.config.holeWait now) v.subs v.outbox).2⟩ := by
      intro source v hv
      rw [← hv]
      exact mapState_steps (fun subs (o : Outbox) => (⟨subs, o⟩ : Book))
        (fun sub _ pre post o => endReference hR source e.finalSample.toNat v.config.holeWait now
          pre post sub o) [] v.outbox
    by_cases hreference : u.timeline.reference = some e.epoch
    · rw [if_pos hreference]
      split
      · exact ReflTransGen.refl
      · refine settleSubs ?_ now
        exact hends _ { u with timeline := { u.timeline with reference := none } } rfl
    · rw [if_neg hreference]
      split
      · exact ReflTransGen.refl
      · refine settleSubs ?_ now
        exact hends _ u rfl
  · rw [if_pos hstream]
    split_ifs
    · exact endAll (same_of_unmarked hu rfl)
    · exact ReflTransGen.refl

theorem streamOpened {u : Uplink} (hu : u.Unmarked) (o : StreamOpen) :
    Entries R D (book u) (book (u.streamOpened o)) := by
  rw [Uplink.streamOpened]
  split_ifs
  · exact ReflTransGen.refl
  · refine map_steps (fun subs => (⟨subs, u.outbox⟩ : Book)) (fun sub _ pre post => ?_) []
    have hsame : (openReference o.epoch sub).id = sub.id ∧
        (openReference o.epoch sub).overflowed = sub.overflowed := by
      rw [openReference]
      split_ifs <;> exact ⟨rfl, rfl⟩
    exact ReflTransGen.single (Entry.note pre post u.outbox hsame.1 hsame.2)
  · exact ReflTransGen.refl
  · exact endAll (same_of_unmarked hu rfl)

/-! ### Commands and time -/

theorem convertToTurn {u u' : Uplink} {id : SubscriptionId} {turn : Owner} {now : ℕ}
    (h : u.convertToTurn id turn now = .ok u') : Entries R D (book u) (book u') := by
  rw [Uplink.convertToTurn] at h
  split at h
  · cases h
  · rename_i sub hsub
    obtain ⟨pre, post, hsubs, -, hupdate⟩ := exists_around_of_find? (σ := Unit) hsub
    split_ifs at h
    dsimp only at h
    rw [hupdate] at h
    cases h
    rw [book, hsubs]
    exact ReflTransGen.single (Entry.note pre post _ rfl rfl)

theorem close {u u' : Uplink} (hu : u.Unmarked) {id : SubscriptionId} {reason : CloseReason}
    {now : ℕ} (h : u.close id reason now = .ok u') : Entries R D (book u) (book u') := by
  simp only [Uplink.close] at h
  split at h
  · cases h
  · rename_i sub hsub
    cases h
    exact closeAt hsub reason (same_of_unmarked hu rfl sub (List.mem_of_getElem? hsub)) now

theorem commandRejected {u : Uplink} (hu : u.Unmarked) (id : SubscriptionId)
    (generation : Generation) (code : Option String) (now : ℕ) :
    Entries R D (book u) (book (u.commandRejected id generation code now)) := by
  simp only [Uplink.commandRejected]
  split
  · exact ReflTransGen.refl
  · rename_i sub hsub
    split_ifs
    · exact ReflTransGen.refl
    · exact endSub hsub (same_of_unmarked hu rfl sub (List.mem_of_getElem? hsub)) .gone now

theorem poll (hR : R) (u : Uplink) (now : ℕ) : Entries R D (book u) (book (u.poll now)) := by
  let v : Uplink :=
    { u with
      subs := (mapState (renew now) u.subs u.commands).1
      commands := (mapState (renew now) u.subs u.commands).2 }
  have hrenew : ∀ sub commands, (renew now sub commands).1.id = sub.id ∧
      (renew now sub commands).1.overflowed = sub.overflowed := by
    intro sub commands
    rw [renew]
    split
    · split_ifs <;> exact ⟨rfl, rfl⟩
    · exact ⟨rfl, rfl⟩
  have hrenewed : Entries R D (book u) (book v) :=
    mapState_steps (fun subs (_ : List Outgoing) => (⟨subs, u.outbox⟩ : Book))
      (fun sub _ pre post commands => ReflTransGen.single (Entry.note pre post u.outbox
        (hrenew sub commands).1 (hrenew sub commands).2)) [] u.commands
  rw [Uplink.poll]
  refine settleSubs ?_ now
  exact hrenewed.trans (releaseAll hR v now)

/-! ### Openings -/

/-- A subscription joins, unmarked, and nothing is queued. -/
theorem activate (u : Uplink) (id : SubscriptionId) (owner : Owner)
    (reason : SubscriptionReason) (capture : UInt64) (streams : Starts)
    (nearMiss : Option NearMissPlan) (now : ℕ) :
    Entries R D (book u) (book (u.activate id owner reason capture streams nearMiss now).1) :=
  ReflTransGen.single (Entry.opened u.subs _ u.outbox rfl)

theorem openWith {u : Uplink} {id : SubscriptionId} {reason : OpenReason} {owner : Owner}
    {starts : Starts} {nearMiss : Option NearMissPlan} {now : ℕ} {r : Uplink × List Grant}
    (h : u.openWith id reason owner starts nearMiss now = .ok r) :
    Entries R D (book u) (book r.1) := by
  rw [Uplink.openWith] at h
  split at h
  · cases h
  · split_ifs at h
    cases h
    exact activate u id owner (.of reason) _ starts nearMiss now

theorem «open» {u : Uplink} {id : SubscriptionId} {reason : OpenReason} {owner : Owner}
    {starts : Starts} {now : ℕ} {r : Uplink × List Grant}
    (h : u.open id reason owner starts now = .ok r) : Entries R D (book u) (book r.1) := by
  rw [Uplink.open] at h
  split_ifs at h
  exact openWith h

theorem openNearMiss {u : Uplink} {id : SubscriptionId} {owner : Owner} {captureEpoch : UInt64}
    {supportStart supportEnd now : ℕ} {r : Uplink × List Grant}
    (h : u.openNearMiss id owner captureEpoch supportStart supportEnd now = .ok r) :
    Entries R D (book u) (book r.1) := by
  rw [Uplink.openNearMiss] at h
  split_ifs at h
  split at h
  · cases h
  · exact openWith h

theorem acceptCandidate {u : Uplink} {id : SubscriptionId} {captureEpoch : UInt64}
    {supportStart now : ℕ} {r : Uplink × List Grant}
    (h : u.acceptCandidate id captureEpoch supportStart now = .ok r) :
    Entries R D (book u) (book r.1) := by
  rw [Uplink.acceptCandidate] at h
  split at h
  · cases h
  · split_ifs at h
    cases h
    exact activate u id _ _ _ _ _ now

theorem answerOpen {u : Uplink} {r : Except OpenError (Uplink × List Grant)}
    (h : ∀ r', r = .ok r' → Entries R D (book u) (book r'.1)) :
    Entries R D (book u) (book (u.answerOpen r).1) := by
  cases r with
  | ok r => exact h r rfl
  | error e => exact ReflTransGen.refl

theorem answerCommand {u : Uplink} {r : Except CommandError Uplink}
    (h : ∀ u', r = .ok u' → Entries R D (book u) (book u')) :
    Entries R D (book u) (book (u.answerCommand r).1) := by
  cases r with
  | ok u' => exact h u' rfl
  | error e => exact ReflTransGen.refl

end Entries

/-- The operations that send chunks to live subscriptions. -/
def Op.releases : Op → Bool
  | .streamEnded _ _ => true
  | .ingest _ _ => true
  | .deviceEnded _ _ => true
  | .poll _ => true
  | _ => false

/-- **Every operation but the drain is entries.** -/
theorem entries_apply {u : Uplink} (hu : u.Unmarked) {op : Op} (hdrain : op ≠ .drain)
    (hreuse : op.reuses u = false) (hR : op.releases = true → R) :
    Entries R (op.discards = true) (book u) (book (u.apply op).1) := by
  cases op with
  | streamOpened o => exact Entries.streamOpened hu o
  | streamEnded e now => exact Entries.streamEnded hu e now (hR rfl)
  | ingest packet now => exact Entries.ingest (hR rfl) u packet now
  | deviceEnded report now =>
      exact Entries.deviceEnded hu report now (hR rfl) (fun h => by simpa [Op.discards] using h)
        hreuse
  | mute =>
      exact Entries.discardAll (u := { u with muted := true })
        (Entries.same_of_unmarked hu rfl) rfl
  | unmute => exact ReflTransGen.refl
  | sessionLost => exact Entries.discardAll (Entries.same_of_unmarked hu rfl) rfl
  | acceptCandidate id captureEpoch supportStart now =>
      exact Entries.answerOpen fun r hr => Entries.acceptCandidate hr
  | «open» id reason owner streams now => exact Entries.answerOpen fun r hr => Entries.open hr
  | openButtonTurn id turn press now => exact Entries.answerOpen fun r hr => Entries.open hr
  | openReply id expectation cellsFrom now => exact Entries.answerOpen fun r hr => Entries.open hr
  | openDiagnostic id mode now => exact Entries.answerOpen fun r hr => Entries.open hr
  | openResponse id turn afeFrom micFrom now =>
      exact Entries.answerOpen fun r hr => Entries.open hr
  | openNearMiss id owner captureEpoch supportStart supportEnd now =>
      exact Entries.answerOpen fun r hr => Entries.openNearMiss hr
  | convertToTurn id turn now =>
      exact Entries.answerCommand fun u' hr => Entries.convertToTurn hr
  | close id reason now => exact Entries.answerCommand fun u' hr => Entries.close hu hr
  | commandRejected id generation code now =>
      exact Entries.commandRejected hu id generation code now
  | poll now => exact Entries.poll (hR rfl) u now
  | drain => exact absurd rfl hdrain
  | takeCommands => exact ReflTransGen.refl

/-! ### Marks -/

namespace Unmarked

/-- Entries that send no chunk to a live subscription mark none. -/
theorem of_entries {b b' : Book} (h : Entries False D b b')
    (hb : ∀ sub ∈ b.subs, sub.overflowed = false) : ∀ sub ∈ b'.subs, sub.overflowed = false := by
  induction h with
  | refl => exact hb
  | tail _ hentry ih =>
      cases hentry with
      | chunk pre post ch o hreleases hid hch hmark => exact hreleases.elim
      | note pre post o hid hmark =>
          rw [List.forall_mem_append, List.forall_mem_cons] at ih ⊢
          exact ⟨ih.1, hmark.trans ih.2.1, ih.2.2⟩
      | opened subs sub o hmark => exact List.forall_mem_append.mpr ⟨ih, by simpa using hmark⟩
      | finish pre post sub owed e o howed hid hcause =>
          rw [List.forall_mem_append, List.forall_mem_cons] at ih
          exact List.forall_mem_append.mpr ⟨ih.1, ih.2.2⟩
      | discardOf subs id o hdrops hclear => exact ih
      | discard subs o hdrops => exact ih

theorem subs_endSub (u : Uplink) (index : ℕ) (sub : Sub) (cause : EndCause) (leaves : Leaves)
    (now : ℕ) : (u.endSub index sub cause leaves now).subs = u.subs.eraseIdx index := by
  cases leaves <;> rfl

theorem subs_closeAt (u : Uplink) (index : ℕ) (sub : Sub) (reason : CloseReason)
    (cause : EndCause) (now : ℕ) :
    (u.closeAt index sub reason cause now).subs = u.subs.eraseIdx index := by
  simp only [Uplink.closeAt]
  split_ifs <;> rw [subs_endSub]

/-- One turn of the settling loop passes an unmarked subscription or removes the one it is at. -/
theorem settleAt_cases (u : Uplink) (index : ℕ) (sub : Sub) (now : ℕ) :
    u.settleAt index sub now = (u, true) ∧ sub.overflowed = false ∨
      (u.settleAt index sub now).2 = false ∧
        (u.settleAt index sub now).1.subs = u.subs.eraseIdx index := by
  rw [Uplink.settleAt]
  by_cases hover : sub.overflowed = true
  · rw [if_pos hover]
    exact Or.inr ⟨rfl, subs_closeAt u index sub _ _ now⟩
  rw [if_neg hover]
  rw [Bool.not_eq_true] at hover
  cases sub.phase with
  | draining report deadline =>
      dsimp only
      split_ifs
      · exact Or.inr ⟨rfl, subs_endSub u index sub _ _ now⟩
      · refine Or.inr ⟨rfl, ?_⟩
        rw [subs_endSub, List.eraseIdx_set_eq]
      · exact Or.inl ⟨rfl, hover⟩
  | active nextRenewal =>
      dsimp only
      split_ifs
      · exact Or.inr ⟨rfl, subs_closeAt u index sub _ _ now⟩
      · exact Or.inl ⟨rfl, hover⟩

/-- The settling loop leaves no marked subscription: those before `index` are unmarked, and the
fuel covers the rest. -/
theorem settleFrom (now fuel index : ℕ) (u : Uplink) (hfuel : u.subs.length ≤ index + fuel)
    (hbefore : ∀ i < index, ∀ sub, u.subs[i]? = some sub → sub.overflowed = false) :
    (settleFrom now fuel index u).Unmarked := by
  induction fuel generalizing index u with
  | zero =>
      rw [Uplink.settleFrom]
      intro sub hsub
      obtain ⟨i, hi⟩ := List.mem_iff_getElem?.mp hsub
      have hlength := (List.getElem?_eq_some_iff.mp hi).1
      exact hbefore i (by omega) sub hi
  | succ fuel ih =>
      rw [Uplink.settleFrom]
      split
      · rename_i hnone
        intro sub hsub
        obtain ⟨i, hi⟩ := List.mem_iff_getElem?.mp hsub
        have hlength := (List.getElem?_eq_some_iff.mp hi).1
        exact hbefore i (lt_of_lt_of_le hlength (List.getElem?_eq_none_iff.mp hnone)) sub hi
      · rename_i sub hsub
        rcases settleAt_cases u index sub now with ⟨hpass, hmark⟩ | ⟨hremoved, hsubs⟩
        · rw [hpass]
          refine ih (index + 1) u (by omega) fun i hi sub' hsub' => ?_
          rcases Nat.lt_succ_iff_lt_or_eq.mp hi with hlt | rfl
          · exact hbefore i hlt sub' hsub'
          · rw [hsub] at hsub'
            cases hsub'
            exact hmark
        · dsimp only
          rw [hremoved]
          refine ih index _ ?_ fun i hi sub' hsub' => ?_
          · have hlength := (List.getElem?_eq_some_iff.mp hsub).1
            rw [hsubs, List.length_eraseIdx_of_lt hlength]
            omega
          · rw [hsubs, List.getElem?_eraseIdx_of_lt hi] at hsub'
            exact hbefore i hi sub' hsub'

theorem settleSubs (u : Uplink) (now : ℕ) : (u.settleSubs now).Unmarked :=
  settleFrom now u.subs.length 0 u (by omega) fun _ hi => absurd hi (Nat.not_lt_zero _)

theorem deviceEnded {u : Uplink} (hu : u.Unmarked) (report : UplinkEnded) (now : ℕ) :
    (u.deviceEnded report now).Unmarked := by
  simp only [Uplink.deviceEnded]
  split_ifs
  · exact hu
  split
  · exact hu
  · have herase : ∀ index sub, sub ∈ u.subs.eraseIdx index → sub.overflowed = false :=
      fun index sub hsub => hu sub (List.eraseIdx_subset hsub)
    split_ifs
    · cases report.reason with
      | mute => exact herase _
      | epoch => exact herase _
      | session => exact herase _
      | closed => exact settleSubs _ now
      | ttl => exact settleSubs _ now
      | overrun => exact settleSubs _ now
    · exact hu

theorem streamEnded {u : Uplink} (hu : u.Unmarked) (e : StreamEnd) (now : ℕ) :
    (u.streamEnded e now).Unmarked := by
  simp only [Uplink.streamEnded]
  split_ifs
  · exact of_entries (Entries.endAll (D := False) (Entries.same_of_unmarked hu rfl)) hu
  · exact hu
  · split
    · exact hu
    · exact settleSubs _ now
  · split
    · exact hu
    · exact settleSubs _ now

/-- **No subscription stays marked between operations.** -/
theorem apply {u : Uplink} (hu : u.Unmarked) (op : Op) : (u.apply op).1.Unmarked := by
  by_cases hreleases : op.releases = true
  · cases op with
    | streamEnded e now => exact streamEnded hu e now
    | ingest packet now =>
        rcases u.ingest_cases packet now with heq | ⟨stream, held, -, -, -, heq⟩
        · rw [show (u.apply (.ingest packet now)).1 = u from heq]
          exact hu
        · rw [show (u.apply (.ingest packet now)).1 = _ from heq]
          exact settleSubs _ now
    | deviceEnded report now => exact deviceEnded hu report now
    | poll now => exact settleSubs _ now
    | _ => exact absurd hreleases Bool.false_ne_true
  · by_cases hdrain : op = .drain
    · rw [hdrain]
      exact hu
    · have hreuse : op.reuses u = false := by
        cases op <;> first | rfl | exact absurd rfl hreleases
      exact of_entries (entries_apply hu hdrain hreuse fun h => hreleases h) hu

theorem run {u : Uplink} (hu : u.Unmarked) (ops : List Op) : (u.run ops).1.Unmarked := by
  induction ops generalizing u with
  | nil => exact hu
  | cons op ops ih => exact ih (hu.apply op)

end Unmarked

/-! ### Runs -/

/-- What a subscription has waiting, as the uplink reports it. -/
def backlog (u : Uplink) (id : SubscriptionId) : Option Backlog := u.outbox.backlog id

/-- The accounts match what waits, and a drain hands all of it over without an underflow. -/
structure Accounted (u : Uplink) : Prop where
  backlog : ∀ id, (u.backlog id).getD ⟨0, 0⟩ = queued u.outbox.queue id
  checked : u.outbox.drainChecked = some u.outbox.drain
  drained : (u.apply .drain).2.deliveries = u.outbox.queue ∧
    (u.apply .drain).1.outbox.queue = []
  settled : ∀ sub ∈ u.subs, sub.overflowed = false

/-- What an operation does with what waits: it stays in front in the order it was pushed, all of
it unless the operation discards, and subscriptions are marked by what is queued for them. -/
structure Posts (u : Uplink) (op : Op) : Prop where
  ordered : op.discards = false →
    u.outbox.queue <+: (u.apply op).2.deliveries ++ (u.apply op).1.outbox.queue
  kept : ∃ kept new,
    (u.apply op).2.deliveries ++ (u.apply op).1.outbox.queue = kept ++ new ∧
      kept.Sublist u.outbox.queue ∧
      kept.filter Delivery.isEnded = u.outbox.queue.filter Delivery.isEnded
  postings : op ≠ .drain → Postings u.config.maxBacklogBytes u.config.maxBacklogDeliveries
    (op.discards = true) (desk u) (desk (u.apply op).1)

/-- No subscription is marked, and the outbox keeps its accounts under the session's bounds. -/
structure Kept (u : Uplink) : Prop where
  unmarked : u.Unmarked
  outbox : u.outbox.Keeps u.config.maxBacklogBytes u.config.maxBacklogDeliveries

theorem config_apply (u : Uplink) (op : Op) : (u.apply op).1.config = u.config := by
  by_cases hmute : op = .mute
  · rw [hmute]
    exact (SameTerms.discardAll { u with muted := true } .muted).config
  by_cases hunmute : op = .unmute
  · rw [hunmute]
    rfl
  exact (sameTerms_apply u op hmute hunmute).config

/-- Only a drain hands deliveries over. -/
theorem deliveries_apply (u : Uplink) {op : Op} (hdrain : op ≠ .drain) :
    (u.apply op).2.deliveries = [] := by
  have hopen : ∀ r : Except OpenError (Uplink × List Grant),
      (u.answerOpen r).2.deliveries = [] := by
    intro r
    cases r <;> rfl
  have hcommand : ∀ r : Except CommandError Uplink, (u.answerCommand r).2.deliveries = [] := by
    intro r
    cases r <;> rfl
  cases op with
  | drain => exact absurd rfl hdrain
  | convertToTurn | close => exact hcommand _
  | acceptCandidate | «open» | openButtonTurn | openReply | openDiagnostic | openResponse
  | openNearMiss => exact hopen _
  | _ => rfl

namespace Kept

theorem new (config : UplinkConfig) (terms : SessionTerms) (muted : Bool) :
    (Uplink.new config terms muted).Kept :=
  ⟨fun _ h => (List.not_mem_nil h).elim, fun _ => rfl, rfl, rfl⟩

variable {u : Uplink}

theorem accounted (h : u.Kept) : u.Accounted where
  backlog := h.outbox.booked
  checked := h.outbox.booked.drainChecked
  drained := ⟨rfl, u.outbox.queue_drain⟩
  settled := h.unmarked

theorem apply (h : u.Kept) {op : Op} (hreuse : op.reuses u = false) : (u.apply op).1.Kept := by
  refine ⟨h.unmarked.apply op, ?_⟩
  rw [config_apply]
  by_cases hdrain : op = .drain
  · rw [hdrain]
    exact h.outbox.drain
  · exact ((entries_apply (R := True) h.unmarked hdrain hreuse fun _ => trivial).postings
      h.outbox).1

theorem posts (h : u.Kept) {op : Op} (hreuse : op.reuses u = false) : u.Posts op := by
  by_cases hdrain : op = .drain
  · subst hdrain
    have hall : (u.apply .drain).2.deliveries ++ (u.apply .drain).1.outbox.queue =
        u.outbox.queue := by
      rw [h.accounted.drained.1, h.accounted.drained.2, List.append_nil]
    refine ⟨fun _ => ?_, ⟨u.outbox.queue, [], ?_, List.Sublist.refl _, rfl⟩, fun hne =>
      absurd rfl hne⟩
    · rw [hall]
    · rw [hall, List.append_nil]
  · have hpostings := ((entries_apply (R := True) h.unmarked hdrain hreuse
      fun _ => trivial).postings h.outbox).2
    refine ⟨fun hdiscards => ?_, ?_, fun _ => hpostings⟩
    · rw [deliveries_apply u hdrain]
      exact hpostings.queue_prefix (by rw [hdiscards]; exact Bool.false_ne_true)
    · rw [deliveries_apply u hdrain]
      exact hpostings.kept

/-- A run none of whose reports of a mute finds an end notice of its ID waiting. -/
theorem run (h : u.Kept) (ops : List Op)
    (hreuse : ∀ past op rest, ops = past ++ op :: rest → op.reuses (u.run past).1 = false) :
    ∀ past later, ops = past ++ later → (u.run past).1.Kept := by
  induction ops generalizing u with
  | nil =>
      intro past later heq
      rw [(List.append_eq_nil_iff.mp heq.symm).1]
      exact h
  | cons op ops ih =>
      intro past later heq
      cases past with
      | nil => exact h
      | cons first past =>
          rw [List.cons_append, List.cons.injEq] at heq
          obtain ⟨rfl, heq⟩ := heq
          refine ih (h.apply (hreuse [] op ops rfl)) (fun past' op' rest' heq' => ?_) past later heq
          exact hreuse (op :: past') op' rest' (congrArg (op :: ·) heq')

end Kept

/-- **A report of a mute that finds an end notice of its ID waiting loses count of it**: the
account says one delivery, and two wait. -/
theorem not_accounted_of_reuses {u : Uplink} {op : Op} (h : op.reuses u = true) :
    ¬ (u.apply op).1.Accounted := by
  intro haccounted
  cases op with
  | deviceEnded report now =>
      simp only [Op.reuses, Bool.and_eq_true, decide_eq_true_eq, List.any_eq_true] at h
      obtain ⟨⟨hreason, hreported⟩, e, hqueued, hended, htext⟩ := h
      obtain ⟨sub, hsub⟩ := Option.isSome_iff_exists.mp hreported
      rw [reported] at hsub
      split_ifs at hsub with hzombie
      rw [Option.filter_eq_some_iff] at hsub
      obtain ⟨hfind, hactive⟩ := hsub
      have hid : sub.id.text = report.subscriptionId := by simpa using List.find?_some hfind
      rw [List.find?_eq_getElem?_findIdx] at hfind
      have hbook : (u.apply (.deviceEnded report now)).1.outbox =
          ((u.outbox.discardChunksOf sub.id).push
            (.ended (Entries.notice sub (.device report)))).1 := by
        simp only [apply, deviceEnded, if_neg hzombie, hfind, hactive, not_true, if_false, hreason]
        rfl
      have hcount := congrArg Backlog.deliveries (haccounted.backlog sub.id)
      rw [backlog, hbook, Outbox.queue_push] at hcount
      -- the account was reset, and the notice that waited was kept
      have hone : ((((u.outbox.discardChunksOf sub.id).push
          (.ended (Entries.notice sub (.device report)))).1.backlog sub.id).getD ⟨0, 0⟩).deliveries
            = 1 := by
        rw [show sub.id = (Delivery.ended (Entries.notice sub (.device report))).subscription
          from rfl, Outbox.backlog_push_self]
        cases haccount : u.outbox.accounts sub.id <;>
          simp [Outbox.discardChunksOf, Outbox.backlog, Outbox.setAccount, haccount,
            Delivery.subscription, Entries.notice]
      have hsame : e.subscription = sub.id := by
        rw [← hid] at htext
        exact congrArg SubscriptionId.mk htext
      have hmem : e ∈ (u.outbox.discardChunksOf sub.id).queue :=
        List.mem_filter.mpr ⟨hqueued, by simp [hended]⟩
      have htwo : 1 ≤ (queued (u.outbox.discardChunksOf sub.id).queue sub.id).deliveries :=
        List.one_le_countP_iff.mpr ⟨e, hmem, by simpa using hsame⟩
      have hlast : (Delivery.ended (Entries.notice sub (.device report))).subscription = sub.id :=
        rfl
      rw [hone, queued_concat_self hlast] at hcount
      dsimp only at hcount
      omega
  | _ => exact absurd h Bool.false_ne_true

theorem run_concat (u : Uplink) (past : List Op) (op : Op) :
    (u.run (past ++ [op])).1 = ((u.run past).1.apply op).1 := by
  induction past generalizing u with
  | nil => rfl
  | cons first past ih => exact ih (u.apply first).1

/-- **The accounts of a run match the queue exactly when no report of a mute finds an end notice
of its ID waiting**, and then deliveries come out in the order they were pushed and a
subscription is marked exactly when what is queued for it passes the bounds. -/
theorem accounting_iff (config : UplinkConfig) (terms : SessionTerms) (muted : Bool)
    (ops : List Op) :
    (∀ past later, ops = past ++ later →
      ((new config terms muted).run past).1.Accounted ∧
        ∀ op rest, later = op :: rest → ((new config terms muted).run past).1.Posts op) ↔
      ∀ past op rest, ops = past ++ op :: rest →
        op.reuses ((new config terms muted).run past).1 = false := by
  constructor
  · intro h past op rest heq
    by_contra hreuse
    rw [Bool.not_eq_false] at hreuse
    have hafter := (h (past ++ [op]) rest (by rw [heq, List.append_assoc]; rfl)).1
    rw [run_concat] at hafter
    exact not_accounted_of_reuses hreuse hafter
  · intro h past later heq
    have hkept := (Kept.new config terms muted).run ops h past later heq
    refine ⟨hkept.accounted, fun op rest hlater => hkept.posts (h past op rest ?_)⟩
    rw [heq, hlater]

/-- A candidate's ID used again while its first subscription's end notice waits, and then a
mute of the device. -/
def usedAgain : List Op :=
  [.streamOpened ⟨.mic, 1, by decide⟩, .acceptCandidate ⟨"c"⟩ 1 16000 0,
   .deviceEnded ⟨"c", .epoch, fun _ => none, fun _ => none⟩ 0, .acceptCandidate ⟨"c"⟩ 1 16000 0,
   .deviceEnded ⟨"c", .mute, fun _ => none, fun _ => none⟩ 0]

/-- The uplink reports one delivery waiting, and two are queued. -/
theorem usedAgain_miscounted :
    ((new UplinkConfig.default ⟨false, false⟩ false).run usedAgain).1.backlog ⟨"c"⟩ =
        some ⟨1, 0⟩ ∧
      queued ((new UplinkConfig.default ⟨false, false⟩ false).run usedAgain).1.outbox.queue
        ⟨"c"⟩ = ⟨2, 0⟩ := by
  decide +kernel

end EchoMuse.Uplink
