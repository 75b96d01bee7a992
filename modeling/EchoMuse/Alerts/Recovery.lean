import EchoMuse.Alerts.Store
import Mathlib.Data.Countable.Basic
import Mathlib.Logic.Equiv.List
import Mathlib.Tactic.DeriveCountable

/-!
# Recovery of the Alert Store

A session of the store: it is opened on whatever a disk holds, transactions are committed, every
call can fail or crash, and in the end the machine comes up again with one of the contents a crash
can leave. What is recovered is the state behind the commits that returned, with or without one
more whose commit never returned or could not be rolled back.

This holds as long as every commit finds the journal at least as long as the store remembers it. A
compaction that fails behind its truncation leaves an empty journal and the old length: the next
record lands behind a hole of zeros, where the replay does not look for it.

## Main results

* `compact_leaves`, `commit_leaves`: what each call leaves on the disk, however it ends;
* `Session.Inv.run`: the invariant of a session;
* `store_recovers`: what an opening recovers after any session.
-/

namespace EchoMuse.Alerts

open EchoMuse.Faults EchoMuse.Journal

/-! ### Sessions -/

/-- The transactions applied one after the other. -/
def State.applyAll (s : State) (ts : List Txn) : State := ts.foldl State.apply s

/-- An open store in its directory, with the commits so far. -/
structure Session where
  store : Store
  files : Files
  /-- The transactions whose commit returned without an error, in order. -/
  done : List Txn := []
  /-- The transaction whose commit never returned, or failed and could not be rolled back. -/
  doubt : Option Txn := none
  crashed : Bool := false

section

variable (c : DiskCodec)

/-- One commit. A rolled back one leaves no entry. -/
def Session.commit (s : Session) (call : Txn × CommitOutcomes) : Session :=
  if s.crashed then s
  else
    match Alerts.commit c call.1 call.2 s.store s.files with
    | (store, files, .ok) =>
      { s with store := store, files := files, done := s.done ++ [call.1] }
    | (store, files, .error) =>
      { s with
        store := store
        files := files
        doubt := if store.broken && !s.store.broken then some call.1 else s.doubt }
    | (store, files, .crashed) =>
      { s with store := store, files := files, doubt := some call.1, crashed := true }

/-- The commits of a session. -/
def Session.run (s : Session) (calls : List (Txn × CommitOutcomes)) : Session :=
  calls.foldl (Session.commit c) s

/-- The journal is at least as long as the store remembers it, or the commit does not write. -/
def Session.Reaches (s : Session) (t : Txn) : Prop :=
  s.crashed = true ∨ t.empty = true ∨ s.store.logSize ≤ s.files.log.now.length

/-- Every commit of a session finds the journal as long as the store remembers it. -/
def Session.Unshortened (s : Session) (calls : List (Txn × CommitOutcomes)) : Prop :=
  ∀ before call after, calls = before ++ call :: after → (s.run c before).Reaches call.1

/-- A state that the commits of a session explain: those that returned, in order, with or without
the one in doubt. -/
def Session.Explains (base : State) (s : Session) (st : State) : Prop :=
  st = base.applyAll s.done ∨ ∃ t, s.doubt = some t ∧ st = base.applyAll (s.done ++ [t])

/-! ### What a disk holds -/

/-- Every snapshot a crash can leave, and the records behind it, add up to `a`. -/
structure Journaled (a : Applied) (payloads : List Bytes) (rs : List (ℕ × Txn))
    (snapshot : Volatile (Option Bytes)) : Prop where
  holds : List.Forall₂ (Journal.Holds maxRecordBytes c.decode) payloads rs
  replays : ∀ snap ∈ snapshot.survivors, ∃ b, loadSnapshot c snap = (b, false) ∧
    rs.foldlM replayTxn b = some a

/-- The disk holds `a`, and the journal is on it. -/
def Clean (a : Applied) (fs : Files) : Prop :=
  ∃ payloads rs, Journaled c a payloads rs fs.snapshot ∧ fs.log = ⟨journal payloads, []⟩

/-- An opening recovers `a`. -/
def Opens (a : Applied) (d : Disk) : Prop :=
  ∃ b payloads rs rest, loadSnapshot c d.snapshot = (b, false) ∧
    List.Forall₂ (Journal.Holds maxRecordBytes c.decode) payloads rs ∧ rs.foldlM replayTxn b = some a ∧
    Torn maxRecordBytes c.decode rest ∧ d.log = journal payloads ++ rest

/-- Whatever a crash leaves, an opening recovers one of `allowed`. -/
def Safe (allowed : Applied → Prop) (fs : Files) : Prop :=
  ∀ snap ∈ fs.snapshot.survivors, ∀ log ∈ fs.log.survivors, ∃ a, allowed a ∧ Opens c a ⟨snap, log⟩

end

variable {c : DiskCodec} {a : Applied} {t : Txn} {fs : Files} {payload : Bytes}
  {payloads : List Bytes} {rs : List (ℕ × Txn)}

theorem maxRecordBytes_lt : maxRecordBytes < 2 ^ 32 := by decide

theorem Safe.mono {p q : Applied → Prop} (h : Safe c p fs) (himp : ∀ a, p a → q a) :
    Safe c q fs := by
  intro snap hsnap log hlog
  obtain ⟨a, ha, hopens⟩ := h snap hsnap log hlog
  exact ⟨a, himp a ha, hopens⟩

/-- The state on a disk is keyed. -/
theorem Journaled.keyed {snapshot : Volatile (Option Bytes)}
    (h : Journaled c a payloads rs snapshot) : a.1.Keyed := by
  obtain ⟨b, hload, hreplay⟩ := h.replays _ snapshot.now_mem_survivors
  have hb := keyed_loadSnapshot c snapshot.now
  rw [hload] at hb
  exact (replays_covered hreplay).2.2 hb

theorem Clean.keyed (h : Clean c a fs) : a.1.Keyed := by
  obtain ⟨payloads, rs, hj, -⟩ := h
  exact hj.keyed

/-- A journal with nothing but whole records. -/
theorem Clean.safe (h : Clean c a fs) : Safe c (· = a) fs := by
  obtain ⟨payloads, rs, hj, hlog⟩ := h
  intro snap hsnap log hmem
  obtain ⟨b, hload, hreplay⟩ := hj.replays snap hsnap
  rw [hlog] at hmem
  obtain rfl : log = journal payloads := List.mem_singleton.mp hmem
  exact ⟨a, rfl, b, payloads, rs, [], hload, hj.holds, hreplay, .inl rfl,
    (List.append_nil _).symm⟩

/-! ### A record in flight -/

/-- A prefix of the next record may be behind the journal: an opening finds the state without it,
or with it. -/
theorem Journaled.safe_writing (h : Journaled c a payloads rs fs.snapshot)
    (hp : Journal.Holds maxRecordBytes c.decode payload (a.2 + 1, t))
    (hlog : ∀ log ∈ fs.log.survivors, ∃ k, log = journal payloads ++ (frame payload).take k) :
    Safe c (fun b => b = a ∨ b = (a.1.apply t, a.2 + 1)) fs := by
  intro snap hsnap log hmem
  obtain ⟨b, hload, hreplay⟩ := h.replays snap hsnap
  obtain ⟨k, rfl⟩ := hlog log hmem
  by_cases hk : k < (frame payload).length
  · exact ⟨a, .inl rfl, b, payloads, rs, _, hload, h.holds, hreplay,
      .inr ⟨payload, _, k, hp, hk, rfl⟩, rfl⟩
  · refine ⟨_, .inr rfl, b, payloads ++ [payload], rs ++ [(a.2 + 1, t)], [], hload,
      List.rel_append h.holds (.cons hp .nil), replays_concat hreplay t, .inl rfl, ?_⟩
    rw [List.take_of_length_le (not_lt.mp hk), journal_concat, List.append_nil]

/-- One more record. -/
theorem Journaled.concat {snapshot : Volatile (Option Bytes)}
    (h : Journaled c a payloads rs snapshot)
    (hp : Journal.Holds maxRecordBytes c.decode payload (a.2 + 1, t)) :
    Journaled c (a.1.apply t, a.2 + 1) (payloads ++ [payload]) (rs ++ [(a.2 + 1, t)]) snapshot := by
  refine ⟨List.rel_append h.holds (.cons hp .nil), fun snap hsnap => ?_⟩
  obtain ⟨b, hload, hreplay⟩ := h.replays snap hsnap
  exact ⟨b, hload, replays_concat hreplay t⟩

/-- Writing at the end of a file appends. -/
theorem splice_end (content b : Bytes) : Files.splice content content.length b = content ++ b := by
  unfold Files.splice
  by_cases hb : b = []
  · rw [if_pos hb, hb, List.append_nil]
  · rw [if_neg hb, List.take_length, Nat.sub_self, List.replicate_zero, List.append_nil,
      List.drop_eq_nil_of_le (Nat.le_add_right _ _), List.append_nil]

/-- Cutting a file where its journal ends. -/
theorem now_truncateLog {b rest : Bytes} (h : fs.log.now = b ++ rest) :
    (fs.truncateLog b.length).log.now = b := by
  change fs.log.now.take b.length ++ List.replicate (b.length - fs.log.now.length) 0 = b
  have hlen : b.length - fs.log.now.length = 0 := by
    rw [h, List.length_append]
    omega
  rw [hlen, h, List.take_left, List.replicate_zero, List.append_nil]

theorem now_truncateLog_zero (fs : Files) : (fs.truncateLog 0).log.now = [] :=
  now_truncateLog (b := []) rfl

/-! ### Compaction -/

/-- What a successful compaction leaves, whatever the disk held. -/
def Compacted (c : DiskCodec) (a : Applied) (fs : Files) : Prop :=
  fs.snapshot = ⟨some (c.encodeDoc (snapshotDoc a)), []⟩ ∧ fs.log = ⟨[], []⟩

theorem Compacted.clean (h : Compacted c a fs) (hkeyed : a.1.Keyed) : Clean c a fs := by
  refine ⟨[], [], ⟨.nil, fun snap hsnap => ?_⟩, h.2⟩
  rw [h.1] at hsnap
  obtain rfl : snap = some (c.encodeDoc (snapshotDoc a)) := List.mem_singleton.mp hsnap
  exact ⟨a, loadSnapshot_encodeDoc c hkeyed, rfl⟩

/-- A compaction that starts where `I` holds: `mid` holds wherever it can end. -/
theorem compact_leaves_of {mid I : Files → Prop} (hstart : I fs) (hmid : ∀ fs, I fs → mid fs)
    (htemp : ∀ fs n, I fs → I (fs.writeTemp (c.encodeDoc (snapshotDoc a)) n))
    (hrename : ∀ fs, I fs → fs.temp = some (c.encodeDoc (snapshotDoc a)) → I fs.rename)
    (hsyncDir : ∀ fs, I fs → I fs.syncDir)
    (htruncate : ∀ fs, I fs → fs.snapshot = ⟨some (c.encodeDoc (snapshotDoc a)), []⟩ →
      mid (fs.truncateLog 0))
    (hdone : ∀ fs, Compacted c a fs → mid fs) (o : CompactOutcomes) :
    Leaves mid (Compacted c a) (compact c a o fs) := by
  set doc := c.encodeDoc (snapshotDoc a) with hdoc
  have h₁ : Leaves mid (fun fs => I fs ∧ fs.temp = some doc) (writeFileSync doc o.temp fs) := by
    refine Leaves.call (fun n => hmid _ (htemp fs n hstart)) ⟨htemp fs _ hstart, ?_⟩ o.temp
    change some (doc.take doc.length) = some doc
    rw [List.take_length]
  refine h₁.andThen fun fs₁ ⟨hI₁, htemp₁⟩ => ?_
  have h₂ : Leaves mid (fun fs => I fs ∧ fs.snapshot.now = some doc)
      (callAtomic Files.rename o.rename fs₁) :=
    Leaves.callAtomic (hmid _ hI₁) (hmid _ (hrename fs₁ hI₁ htemp₁))
      ⟨hrename fs₁ hI₁ htemp₁, htemp₁⟩ o.rename
  refine h₂.andThen fun fs₂ ⟨hI₂, hnow₂⟩ => ?_
  have h₃ : Leaves mid (fun fs => I fs ∧ fs.snapshot = ⟨some doc, []⟩)
      (callAtomic Files.syncDir o.syncDir fs₂) := by
    refine Leaves.callAtomic (hmid _ hI₂) (hmid _ (hsyncDir fs₂ hI₂)) ⟨hsyncDir fs₂ hI₂, ?_⟩ _
    change Volatile.mk fs₂.snapshot.now [] = _
    rw [hnow₂]
  refine h₃.andThen fun fs₃ ⟨hI₃, hsnap₃⟩ => ?_
  have h₄ : Leaves mid (fun fs => mid fs ∧ fs.snapshot = ⟨some doc, []⟩ ∧ fs.log.now = [])
      (callAtomic (Files.truncateLog 0) o.truncate fs₃) := by
    have hcut := htruncate fs₃ hI₃ hsnap₃
    refine Leaves.callAtomic (hmid _ hI₃) hcut ⟨hcut, hsnap₃, ?_⟩ _
    exact now_truncateLog_zero _
  refine h₄.andThen fun fs₄ ⟨hmid₄, hsnap₄, hlog₄⟩ => ?_
  have hcompacted : Compacted c a fs₄.syncLog := by
    refine ⟨hsnap₄, ?_⟩
    change Volatile.mk fs₄.log.now [] = _
    rw [hlog₄]
  exact Leaves.callAtomic hmid₄ (hdone _ hcompacted) hcompacted o.sync

/-- The snapshot of a state on the disk can be renamed over the one it was read from. -/
theorem Clean.rename (h : Clean c a fs)
    (htemp : fs.temp = some (c.encodeDoc (snapshotDoc a))) : Clean c a fs.rename := by
  have hkeyed := h.keyed
  obtain ⟨payloads, rs, hj, hlog⟩ := h
  refine ⟨payloads, rs, ⟨hj.holds, fun snap hsnap => ?_⟩, hlog⟩
  rcases Volatile.mem_survivors_set.mp hsnap with rfl | hold
  · obtain ⟨b, -, hreplay⟩ := hj.replays _ fs.snapshot.now_mem_survivors
    rw [htemp]
    exact ⟨a, loadSnapshot_encodeDoc c hkeyed, replays_again hreplay⟩
  · exact hj.replays snap hold

theorem Clean.syncDir (h : Clean c a fs) : Clean c a fs.syncDir := by
  obtain ⟨payloads, rs, hj, hlog⟩ := h
  refine ⟨payloads, rs, ⟨hj.holds, fun snap hsnap => ?_⟩, hlog⟩
  rw [Volatile.mem_survivors_sync.mp hsnap]
  exact hj.replays _ fs.snapshot.now_mem_survivors

/-- Dropping a journal that the snapshot covers loses nothing. -/
theorem Clean.truncate (h : Clean c a fs)
    (hsnap : fs.snapshot = ⟨some (c.encodeDoc (snapshotDoc a)), []⟩) :
    Safe c (· = a) (fs.truncateLog 0) := by
  have hkeyed := h.keyed
  intro snap hmem log hlog
  rcases Volatile.mem_survivors_set.mp hlog with rfl | hold
  · have hdoc : snap = some (c.encodeDoc (snapshotDoc a)) := by
      change snap ∈ fs.snapshot.survivors at hmem
      rw [hsnap] at hmem
      exact List.mem_singleton.mp hmem
    refine ⟨a, rfl, a, [], [], [], ?_, .nil, rfl, .inl rfl, ?_⟩
    · rw [hdoc]
      exact loadSnapshot_encodeDoc c hkeyed
    · exact now_truncateLog_zero _
  · exact h.safe snap hmem log hold

/-- However a compaction ends, the disk still holds the state: with the journal as it was, or with
an empty one. -/
theorem compact_leaves (h : Clean c a fs) (o : CompactOutcomes) :
    Leaves (fun fs' => (Clean c a fs' ∧ fs'.log.now = fs.log.now) ∨
      (Safe c (· = a) fs' ∧ fs'.log.now = [])) (Compacted c a) (compact c a o fs) := by
  refine compact_leaves_of (I := fun fs' => Clean c a fs' ∧ fs'.log.now = fs.log.now) ⟨h, rfl⟩
    (fun fs' hI => .inl hI) (fun fs' n hI => hI) (fun fs' hI htemp => ⟨hI.1.rename htemp, hI.2⟩)
    (fun fs' hI => ⟨hI.1.syncDir, hI.2⟩) (fun fs' hI hsnap => .inr ⟨hI.1.truncate hsnap, ?_⟩)
    (fun fs' hdone => .inr ⟨(hdone.clean h.keyed).safe, ?_⟩) o
  · exact now_truncateLog_zero _
  · rw [hdone.2]

/-! ### A commit -/

/-- An open store in good order: the disk holds its state. Its journal ends where the store
remembers, unless a compaction has emptied it without the store taking note. -/
def Live (c : DiskCodec) (s : Store) (fs : Files) : Prop :=
  s.broken = false ∧ ((Clean c (s.st, s.txn) fs ∧ s.logSize = fs.log.now.length) ∨
    (Safe c (· = (s.st, s.txn)) fs ∧ fs.log.now.length < s.logSize))

/-- What an opening can find while `t` is committed to `s`. -/
def Pending (t : Txn) (s : Store) (a : Applied) : Prop :=
  a = (s.st, s.txn) ∨ a = (s.st.apply t, s.txn + 1)

/-- What a commit of `t` to `s` leaves, however it ends. -/
def AfterCommit (c : DiskCodec) (t : Txn) (s : Store) : Store × Files × Ending → Prop
  | (s', fs', .ok) => s'.st = s.st.apply t ∧ Live c s' fs'
  | (s', fs', .error) =>
    (s' = s ∧ Live c s fs') ∨ (s'.broken = true ∧ Safe c (Pending t s) fs')
  | (_, fs', .crashed) => Safe c (Pending t s) fs'

theorem Live.safe {s : Store} (h : Live c s fs) : Safe c (· = (s.st, s.txn)) fs := by
  rcases h.2 with ⟨hclean, -⟩ | ⟨hsafe, -⟩
  · exact hclean.safe
  · exact hsafe

/-- What follows a durable record. -/
theorem maybeCompact_leaves {s s' : Store} (o : CommitOutcomes) (hst : s'.st = s.st.apply t)
    (htxn : s'.txn = s.txn + 1) (hbroken : s'.broken = false) (hpos : 0 < s'.logSize)
    (hclean : Clean c (s'.st, s'.txn) fs) (hsize : s'.logSize = fs.log.now.length) :
    AfterCommit c t s (maybeCompact c t o s' fs) := by
  unfold maybeCompact
  by_cases hcompact : (t.reset || compactAt ≤ s'.logSize) = true
  swap
  · rw [if_neg hcompact]
    exact ⟨hst, hbroken, .inl ⟨hclean, hsize⟩⟩
  rw [if_pos hcompact]
  have hleaves := compact_leaves hclean o.compact
  generalize compact c (s'.st, s'.txn) o.compact fs = r at hleaves
  obtain ⟨fs', ending⟩ := r
  cases ending with
  | ok =>
      have hdone : Compacted c (s'.st, s'.txn) fs' := hleaves.1 rfl
      refine ⟨hst, hbroken, .inl ⟨hdone.clean hclean.keyed, ?_⟩⟩
      rw [hdone.2]
      rfl
  | error =>
      refine ⟨hst, hbroken, ?_⟩
      rcases hleaves.2 nofun with ⟨hclean', hnow⟩ | ⟨hsafe, hnow⟩
      · exact .inl ⟨hclean', by rw [hsize, ← hnow]⟩
      · refine .inr ⟨hsafe, ?_⟩
        rw [hnow]
        exact hpos
  | crashed =>
      have hsafe : Safe c (· = (s'.st, s'.txn)) fs' := by
        rcases hleaves.2 nofun with ⟨hclean', -⟩ | ⟨hsafe, -⟩
        · exact hclean'.safe
        · exact hsafe
      refine hsafe.mono fun b hb => .inr ?_
      rw [hb, hst, htxn]

/-- While a record is written behind a journal: what is there of it is a prefix. -/
structure Writing (payloads : List Bytes) (payload : Bytes) (fs fs' : Files) : Prop where
  snapshot : fs'.snapshot = fs.snapshot
  log : ∀ log ∈ fs'.log.survivors, ∃ k, log = journal payloads ++ (frame payload).take k

/-- Part of the record, or all of it, is written. -/
theorem Writing.write (hlog : fs.log = ⟨journal payloads, []⟩) (n : ℕ) :
    Writing payloads payload fs (fs.writeLog fs.log.now.length (frame payload) n) := by
  refine ⟨rfl, fun log hmem => ?_⟩
  rcases Volatile.mem_survivors_pass.mp hmem with rfl | hstep | hold
  · refine ⟨n, ?_⟩
    rw [splice_end, hlog]
  · obtain ⟨k, -, rfl⟩ := List.mem_map.mp hstep
    refine ⟨k, ?_⟩
    rw [splice_end, hlog]
  · rw [hlog] at hold
    obtain rfl : log = journal payloads := List.mem_singleton.mp hold
    exact ⟨0, (List.append_nil _).symm⟩

theorem Writing.sync {fs' : Files} (h : Writing payloads payload fs fs') :
    Writing payloads payload fs fs'.syncLog := by
  refine ⟨h.snapshot, fun log hmem => ?_⟩
  rw [Volatile.mem_survivors_sync.mp hmem]
  exact h.log _ fs'.log.now_mem_survivors

/-- The record is cut off again. -/
theorem Writing.now_truncate {fs' : Files} (h : Writing payloads payload fs fs') :
    (fs'.truncateLog (journal payloads).length).log.now = journal payloads := by
  obtain ⟨k, hk⟩ := h.log _ fs'.log.now_mem_survivors
  exact now_truncateLog hk

theorem Writing.truncate {fs' : Files} (h : Writing payloads payload fs fs') :
    Writing payloads payload fs (fs'.truncateLog (journal payloads).length) := by
  refine ⟨h.snapshot, fun log hmem => ?_⟩
  rcases Volatile.mem_survivors_set.mp hmem with rfl | hold
  · exact ⟨0, h.now_truncate.trans (List.append_nil _).symm⟩
  · exact h.log log hold

/-- While a record is written, an opening finds the state with it or without it. -/
theorem Writing.safe {s : Store} {fs' : Files} (h : Writing payloads payload fs fs')
    (hj : Journaled c (s.st, s.txn) payloads rs fs.snapshot)
    (hp : Journal.Holds maxRecordBytes c.decode payload (s.txn + 1, t)) : Safe c (Pending t s) fs' := by
  rw [← h.snapshot] at hj
  exact hj.safe_writing hp h.log

/-- A rollback removes the record, or breaks the store. -/
theorem rollback_leaves {s : Store} {fs' : Files} (o : CommitOutcomes)
    (hbroken : s.broken = false) (hj : Journaled c (s.st, s.txn) payloads rs fs.snapshot)
    (hp : Journal.Holds maxRecordBytes c.decode payload (s.txn + 1, t))
    (hsize : s.logSize = (journal payloads).length) (h : Writing payloads payload fs fs') :
    AfterCommit c t s (rollback o s fs') := by
  have hleaves : Leaves (Writing payloads payload fs)
      (fun fs'' => fs''.snapshot = fs.snapshot ∧ fs''.log = ⟨journal payloads, []⟩)
      (andThen (callAtomic (Files.truncateLog s.logSize) o.rollbackTruncate fs')
        (callAtomic Files.syncLog o.rollbackSync)) := by
    rw [hsize]
    have h₁ : Leaves (Writing payloads payload fs)
        (fun fs'' => Writing payloads payload fs fs'' ∧ fs''.log.now = journal payloads)
        (callAtomic (Files.truncateLog (journal payloads).length) o.rollbackTruncate fs') :=
      Leaves.callAtomic h h.truncate ⟨h.truncate, h.now_truncate⟩ _
    refine h₁.andThen fun fs₁ ⟨hw, hnow⟩ => ?_
    refine Leaves.callAtomic hw hw.sync ⟨hw.snapshot, ?_⟩ o.rollbackSync
    change Volatile.mk fs₁.log.now [] = _
    rw [hnow]
  unfold rollback
  generalize andThen (callAtomic (Files.truncateLog s.logSize) o.rollbackTruncate fs')
    (callAtomic Files.syncLog o.rollbackSync) = r at hleaves
  obtain ⟨fs'', ending⟩ := r
  cases ending with
  | ok =>
      obtain ⟨hsnap, hlog⟩ := hleaves.1 rfl
      dsimp only at hsnap hlog
      refine .inl ⟨rfl, hbroken, .inl ⟨⟨payloads, rs, by rwa [hsnap], hlog⟩, ?_⟩⟩
      rw [hsize, hlog]
  | error => exact .inr ⟨rfl, (hleaves.2 nofun).safe hj hp⟩
  | crashed => exact (hleaves.2 nofun).safe hj hp

/-- A commit that finds the journal as long as the store remembers it. -/
theorem commit_leaves {s : Store} (ht : t.empty = false) (hbroken : s.broken = false)
    (hclean : Clean c (s.st, s.txn) fs) (hsize : s.logSize = fs.log.now.length)
    (o : CommitOutcomes) : AfterCommit c t s (commit c t o s fs) := by
  unfold commit
  rw [ht, hbroken, if_neg Bool.false_ne_true, if_neg Bool.false_ne_true]
  dsimp only
  by_cases hlarge : maxRecordBytes < (c.encode (s.txn + 1) t).length
  · rw [if_pos hlarge]
    exact .inl ⟨rfl, hbroken, .inl ⟨hclean, hsize⟩⟩
  rw [if_neg hlarge]
  obtain ⟨payloads, rs, hj, hlog⟩ := hclean
  set payload := c.encode (s.txn + 1) t with hpayload
  have hp : Journal.Holds maxRecordBytes c.decode payload (s.txn + 1, t) :=
    ⟨c.encode_ne_nil _ _, not_lt.mp hlarge, c.decode_encode _ _⟩
  have hjournal : s.logSize = (journal payloads).length := by rw [hsize, hlog]
  have hleaves : Leaves (Writing payloads payload fs)
      (fun fs' => fs'.snapshot = fs.snapshot ∧ fs'.log = ⟨journal (payloads ++ [payload]), []⟩)
      (andThen (call (Files.writeLog s.logSize (frame payload) (frame payload).length)
        (Files.writeLog s.logSize (frame payload)) o.write fs)
        (callAtomic Files.syncLog o.sync)) := by
    rw [hsize]
    have h₁ : Leaves (Writing payloads payload fs)
        (fun fs' => Writing payloads payload fs fs' ∧
          fs'.log.now = journal (payloads ++ [payload]))
        (call (Files.writeLog fs.log.now.length (frame payload) (frame payload).length)
          (Files.writeLog fs.log.now.length (frame payload)) o.write fs) := by
      refine Leaves.call (fun n => Writing.write hlog n) ⟨Writing.write hlog _, ?_⟩ o.write
      change Files.splice fs.log.now fs.log.now.length
        ((frame payload).take (frame payload).length) = _
      rw [splice_end, List.take_length, hlog, journal_concat]
    refine h₁.andThen fun fs₁ ⟨hw, hnow⟩ => ?_
    refine Leaves.callAtomic hw hw.sync ⟨hw.snapshot, ?_⟩ o.sync
    change Volatile.mk fs₁.log.now [] = _
    rw [hnow]
  generalize andThen (call (Files.writeLog s.logSize (frame payload) (frame payload).length)
    (Files.writeLog s.logSize (frame payload)) o.write fs) (callAtomic Files.syncLog o.sync) = r
    at hleaves
  obtain ⟨fs', ending⟩ := r
  cases ending with
  | ok =>
      obtain ⟨hsnap, hlog'⟩ := hleaves.1 rfl
      dsimp only at hsnap hlog'
      have hlen : s.logSize + (frame payload).length = fs'.log.now.length := by
        rw [hlog', journal_concat, hjournal, List.length_append]
      have hpos := length_frame payload
      have hclean : Clean c (s.st.apply t, s.txn + 1) fs' := by
        refine ⟨payloads ++ [payload], rs ++ [(s.txn + 1, t)], ?_, hlog'⟩
        rw [hsnap]
        exact hj.concat hp
      refine maybeCompact_leaves o rfl rfl rfl ?_ hclean hlen
      change 0 < s.logSize + (frame payload).length
      rw [hpos]
      exact Nat.lt_of_lt_of_le (Nat.succ_pos 3) (Nat.le_add_left _ _)
  | error => exact rollback_leaves o hbroken hj hp hjournal (hleaves.2 nofun)
  | crashed => exact (hleaves.2 nofun).safe hj hp

/-! ### Opening -/

/-- An opening recovers what the disk holds, and succeeds where no call fails. -/
theorem openStore_opens {d : Disk} (h : Opens c a d) :
    (∃ s fs, openStore c {} d = (some s, fs)) ∧
      ∀ o s fs, openStore c o d = (some s, fs) → s.st = a.1 := by
  obtain ⟨b, payloads, rs, rest, hload, hholds, hreplay, htorn, hlog⟩ := h
  have hjournal : replayJournal c b d.log = (a, (journal payloads).length, false) := by
    rw [hlog]
    exact replay_journal maxRecordBytes_lt hholds hreplay htorn
  have hopen := fun o => openStore_of_clean hload hjournal o
  refine ⟨?_, fun o s fs hs => ?_⟩
  · rw [hopen]
    by_cases hlen : (journal payloads).length ≠ d.log.length
    · rw [if_pos hlen]
      exact ⟨_, _, rfl⟩
    · rw [if_neg hlen]
      exact ⟨_, _, rfl⟩
  · rw [hopen] at hs
    by_cases hlen : (journal payloads).length ≠ d.log.length
    · rw [if_pos hlen] at hs
      generalize andThen (callAtomic (Files.truncateLog (journal payloads).length) o.truncate
        d.files) (callAtomic Files.syncLog o.sync) = r at hs
      obtain ⟨fs', ending⟩ := r
      cases ending with
      | ok =>
          cases hs
          rfl
      | error => cases hs
      | crashed => cases hs
    · rw [if_neg hlen] at hs
      cases hs
      rfl

/-- A store is in good order after its opening, whatever the disk held. -/
theorem openStore_live {o : OpenOutcomes} {d : Disk} {s : Store}
    (h : openStore c o d = (some s, fs)) : Live c s fs := by
  unfold openStore at h
  have hkeyed := keyed_loadSnapshot c d.snapshot
  generalize hload : loadSnapshot c d.snapshot = loaded at h hkeyed
  obtain ⟨b, snapErr⟩ := loaded
  dsimp only at h hkeyed
  generalize hjournal : replayJournal c b d.log = replayed at h
  obtain ⟨a, validEnd, bad⟩ := replayed
  dsimp only at h
  obtain ⟨payloads, rs, rest, hrest, hend, hholds, hreplay⟩ := replayFrom_sound hjournal
  rw [Nat.zero_add] at hend
  by_cases hclean : (!snapErr && !bad) = true
  · rw [if_pos hclean] at h
    obtain ⟨rfl, rfl⟩ : snapErr = false ∧ bad = false := by simpa using hclean
    have hj : Journaled c a payloads rs d.files.snapshot := by
      refine ⟨hholds, fun snap hsnap => ?_⟩
      obtain rfl : snap = d.snapshot := List.mem_singleton.mp hsnap
      exact ⟨b, hload, hreplay⟩
    by_cases hlen : validEnd ≠ d.log.length
    · rw [if_pos hlen, hend] at h
      have hleaves : Leaves (fun _ => True)
          (fun fs => fs.snapshot = d.files.snapshot ∧ fs.log = ⟨journal payloads, []⟩)
          (andThen (callAtomic (Files.truncateLog (journal payloads).length) o.truncate d.files)
            (callAtomic Files.syncLog o.sync)) := by
        have h₁ : Leaves (fun _ => True)
            (fun fs => fs.snapshot = d.files.snapshot ∧ fs.log.now = journal payloads)
            (callAtomic (Files.truncateLog (journal payloads).length) o.truncate d.files) :=
          Leaves.callAtomic trivial trivial ⟨rfl, now_truncateLog hrest⟩ _
        refine h₁.andThen fun fs₁ ⟨hsnap, hnow⟩ => ?_
        refine Leaves.callAtomic trivial trivial ⟨hsnap, ?_⟩ o.sync
        change Volatile.mk fs₁.log.now [] = _
        rw [hnow]
      generalize andThen (callAtomic (Files.truncateLog (journal payloads).length) o.truncate
        d.files) (callAtomic Files.syncLog o.sync) = r at h hleaves
      obtain ⟨fs', ending⟩ := r
      cases ending with
      | ok =>
          cases h
          obtain ⟨hsnap, hlog⟩ := hleaves.1 rfl
          dsimp only at hsnap hlog
          refine ⟨rfl, .inl ⟨⟨payloads, rs, by rwa [hsnap], hlog⟩, ?_⟩⟩
          rw [hlog]
      | error => cases h
      | crashed => cases h
    · rw [if_neg hlen] at h
      cases h
      have hnil : rest = [] := by
        have hsum := congrArg List.length hrest
        rw [List.length_append] at hsum
        exact List.length_eq_zero_iff.mp (by omega)
      rw [hnil, List.append_nil] at hrest
      refine ⟨rfl, .inl ⟨⟨payloads, rs, hj, ?_⟩, not_not.mp hlen⟩⟩
      exact congrArg (fun b => Volatile.mk b []) hrest
  · rw [if_neg hclean] at h
    set a' : Applied := ({ a.1 with corrupt := true }, a.2) with ha'
    have hkeyed' : a'.1.Keyed := by
      have hk := (replays_covered hreplay).2.2 hkeyed
      exact ⟨hk.occ, hk.ops, hk.children, hk.armed, hk.rings⟩
    have hleaves (aside r : Files × Ending) (hr : andThen aside (compact c a' o.compact) = r) :
        Leaves (fun _ => True) (Compacted c a') r := by
      have haside : Leaves (fun _ => True) (fun _ => True) aside :=
        ⟨fun _ => trivial, fun _ => trivial⟩
      rw [← hr]
      exact haside.andThen fun fs' _ => compact_leaves_of (I := fun _ => True) trivial
        (fun _ _ => trivial) (fun _ _ _ => trivial) (fun _ _ _ => trivial) (fun _ _ => trivial)
        (fun _ _ _ => trivial) (fun _ _ => trivial) o.compact
    generalize hr : andThen _ (compact c a' o.compact) = r at h
    have hdone := hleaves _ r hr
    obtain ⟨fs', ending⟩ := r
    cases ending with
    | ok =>
        cases h
        have hcompacted : Compacted c a' fs := hdone.1 rfl
        refine ⟨rfl, .inl ⟨hcompacted.clean hkeyed', ?_⟩⟩
        rw [hcompacted.2]
        rfl
    | error => cases h
    | crashed => cases h

/-! ### Sessions of a store -/

/-- A transaction that is not journaled changes nothing. -/
theorem State.apply_of_empty {s : State} (h : t.empty = true) : s.apply t = s := by
  obtain ⟨reset, delivery, delOcc, putOcc, delOps, putOps, delChildren, putChildren, delArmed,
    putArmed, delRings, putRings, clock⟩ := t
  unfold Txn.empty at h
  simp only [Bool.and_eq_true, Bool.not_eq_true', Option.isNone_iff_eq_none, beq_iff_eq,
    Nat.add_eq_zero_iff, List.length_eq_zero_iff] at h
  obtain ⟨⟨⟨rfl, rfl⟩, rfl⟩, ⟨⟨⟨⟨⟨⟨⟨⟨rfl, rfl⟩, rfl⟩, rfl⟩, rfl⟩, rfl⟩, rfl⟩, rfl⟩, rfl⟩, rfl⟩ := h
  rfl

theorem State.applyAll_concat (s : State) (ts : List Txn) (t : Txn) :
    s.applyAll (ts ++ [t]) = (s.applyAll ts).apply t := List.foldl_append

/-- No transaction sets the corrupt mark. -/
theorem State.corrupt_of_applyAll {ts : List Txn} {s : State}
    (h : (s.applyAll ts).corrupt = true) : s.corrupt = true := by
  induction ts generalizing s with
  | nil => exact h
  | cons t ts ih =>
      have ht : (s.apply t).corrupt = true := ih h
      change (if t.reset = true then false else s.corrupt) = true at ht
      by_cases hreset : t.reset = true
      · rw [if_pos hreset] at ht
        cases ht
      · rwa [if_neg hreset] at ht

namespace Session

/-- A store that was just opened. -/
def opened (s : Store) (fs : Files) : Session where
  store := s
  files := fs

/-- The invariant of a session: a store in good order holds the commits that returned, and any
other has stopped with a disk from which the commits are recovered. -/
def Inv (c : DiskCodec) (base : State) (s : Session) : Prop :=
  ((s.crashed = true ∨ s.store.broken = true) ∧ Safe c (fun a => s.Explains base a.1) s.files) ∨
    (s.crashed = false ∧ s.store.st = base.applyAll s.done ∧ Live c s.store s.files)

variable {base : State} {s : Session}

/-- Whatever a crash leaves of a session explains it. -/
theorem Inv.safe (h : Inv c base s) : Safe c (fun a => s.Explains base a.1) s.files := by
  rcases h with ⟨-, hsafe⟩ | ⟨-, hst, hlive⟩
  · exact hsafe
  · refine hlive.safe.mono fun a ha => .inl ?_
    rw [ha, hst]

theorem Inv.opened {o : OpenOutcomes} {d : Disk} {store : Store}
    (h : openStore c o d = (some store, fs)) : Inv c store.st (opened store fs) :=
  .inr ⟨rfl, rfl, openStore_live h⟩

/-- One commit keeps the invariant. -/
theorem Inv.commit (h : Inv c base s) (call : Txn × CommitOutcomes) (hreach : s.Reaches call.1) :
    Inv c base (s.commit c call) := by
  obtain ⟨t, o⟩ := call
  unfold Session.commit
  by_cases hcrashed : s.crashed = true
  · rw [if_pos hcrashed]
    exact h
  rw [if_neg hcrashed]
  dsimp only at hreach ⊢
  by_cases ht : t.empty = true
  · -- Nothing is written, and the transaction changes nothing.
    have hcommit : Alerts.commit c t o s.store s.files = (s.store, s.files, .ok) := if_pos ht
    rw [hcommit]
    rcases h with ⟨hstop, hsafe⟩ | ⟨hrun, hst, hlive⟩
    · refine .inl ⟨hstop, hsafe.mono fun a ha => ?_⟩
      rcases ha with ha | ⟨t', hdoubt, ha⟩
      · refine .inl ?_
        change a.1 = base.applyAll (s.done ++ [t])
        rw [ha, State.applyAll_concat, State.apply_of_empty ht]
      · refine .inr ⟨t', hdoubt, ?_⟩
        change a.1 = base.applyAll (s.done ++ [t] ++ [t'])
        rw [ha, State.applyAll_concat, State.applyAll_concat, State.applyAll_concat,
          State.apply_of_empty ht]
    · refine .inr ⟨hrun, ?_, hlive⟩
      change s.store.st = base.applyAll (s.done ++ [t])
      rw [hst, State.applyAll_concat, State.apply_of_empty ht]
  rw [Bool.not_eq_true] at ht
  rcases h with ⟨hstop, hsafe⟩ | ⟨hrun, hst, hlive⟩
  · -- A broken store refuses the commit.
    have hbroken := hstop.resolve_left hcrashed
    have hcommit : Alerts.commit c t o s.store s.files = (s.store, s.files, .error) := by
      unfold Alerts.commit
      rw [ht, hbroken, if_neg Bool.false_ne_true, if_pos rfl]
    rw [hcommit]
    dsimp only
    rw [hbroken]
    exact .inl ⟨.inr hbroken, hsafe⟩
  · have hsize : s.store.logSize ≤ s.files.log.now.length := by
      rcases hreach with hc | he | hsize
      · exact absurd hc hcrashed
      · rw [ht] at he
        cases he
      · exact hsize
    have hclean : Clean c (s.store.st, s.store.txn) s.files ∧
        s.store.logSize = s.files.log.now.length := by
      rcases hlive.2 with hclean | ⟨-, hlt⟩
      · exact hclean
      · exact absurd hlt (not_lt.mpr hsize)
    have hafter := commit_leaves ht hlive.1 hclean.1 hclean.2 o
    generalize Alerts.commit c t o s.store s.files = r at hafter
    obtain ⟨store, files, ending⟩ := r
    have hpending (doubt : Option Txn) (crashed : Bool) (hdoubt : doubt = some t)
        (hsafe : Safe c (Pending t s.store) files) : Safe c
          (fun a => ({ s with
            store := store, files := files, doubt := doubt, crashed := crashed } :
              Session).Explains base a.1) files := by
      refine hsafe.mono fun a ha => ?_
      rcases ha with rfl | rfl
      · exact .inl hst
      · refine .inr ⟨t, hdoubt, ?_⟩
        change s.store.st.apply t = base.applyAll (s.done ++ [t])
        rw [State.applyAll_concat, hst]
    cases ending with
    | ok =>
        obtain ⟨hst', hlive'⟩ := hafter
        refine .inr ⟨hrun, ?_, hlive'⟩
        change store.st = base.applyAll (s.done ++ [t])
        rw [hst', State.applyAll_concat, hst]
    | error =>
        rcases hafter with ⟨rfl, hlive'⟩ | ⟨hbroken, hsafe⟩
        · exact .inr ⟨hrun, hst, hlive'⟩
        · refine .inl ⟨.inr hbroken, hpending _ s.crashed ?_ hsafe⟩
          rw [hbroken, hlive.1]
          rfl
    | crashed => exact .inl ⟨.inl rfl, hpending _ true rfl hafter⟩

/-- A session keeps the invariant. -/
theorem Inv.run {calls : List (Txn × CommitOutcomes)} (h : Inv c base s)
    (hcalls : s.Unshortened c calls) : Inv c base (s.run c calls) := by
  induction calls generalizing s with
  | nil => exact h
  | cons call calls ih =>
      refine ih (h.commit call (hcalls [] call calls rfl)) fun before call' after heq => ?_
      exact hcalls (call :: before) call' after (congrArg (call :: ·) heq)

end Session

/-- A store is opened on whatever a disk holds, and transactions are committed, any call failing
or crashing with or without its effect, each commit finding the journal at least as long as the
store remembers it. Whatever a crash at any point leaves, the store opens again unless a call of
the opening fails, with the state behind the commits that returned, in order and each once, with or
without the one in doubt; and it is marked corrupt only if it was before. -/
theorem store_recovers {c : DiskCodec} {o₀ : OpenOutcomes} {disk : Disk} {store : Store}
    {files : Files} (hopen : openStore c o₀ disk = (some store, files))
    (calls : List (Txn × CommitOutcomes))
    (hcalls : (Session.opened store files).Unshortened c calls) (snap : Option Bytes)
    (hsnap : snap ∈ ((Session.opened store files).run c calls).files.snapshot.survivors)
    (log : Bytes) (hlog : log ∈ ((Session.opened store files).run c calls).files.log.survivors) :
    (∃ s fs, openStore c {} ⟨snap, log⟩ = (some s, fs)) ∧
      ∀ o s fs, openStore c o ⟨snap, log⟩ = (some s, fs) →
        ((Session.opened store files).run c calls).Explains store.st s.st ∧
          (s.st.corrupt = true → store.st.corrupt = true) := by
  have hinv := (Session.Inv.opened hopen).run hcalls
  obtain ⟨a, hexplains, hopens⟩ := hinv.safe snap hsnap log hlog
  obtain ⟨hsome, hst⟩ := openStore_opens hopens
  refine ⟨hsome, fun o s fs hs => ?_⟩
  rw [hst o s fs hs]
  refine ⟨hexplains, fun hcorrupt => ?_⟩
  rcases hexplains with heq | ⟨t, -, heq⟩
  · rw [heq] at hcorrupt
    exact State.corrupt_of_applyAll hcorrupt
  · rw [heq] at hcorrupt
    exact State.corrupt_of_applyAll hcorrupt

/-! ### A journal with a hole -/

section

instance countable_char : Countable Char :=
  Function.Injective.countable (f := Char.toNat) fun _ _ h => Char.toNat_inj.mp h

instance countable_uint8 : Countable UInt8 :=
  Function.Injective.countable (f := UInt8.toNat) fun _ _ h => UInt8.toNat_inj.mp h

instance countable_vector {n : ℕ} : Countable (Vector UInt8 n) :=
  Function.Injective.countable (f := Vector.toList) fun _ _ h => Vector.toList_inj.mp h

instance countable_bitVec {n : ℕ} : Countable (BitVec n) :=
  Function.Injective.countable (f := BitVec.toNat) fun _ _ h => BitVec.eq_of_toNat_eq h

instance : Countable Sha256 :=
  Function.Injective.countable (f := Sha256.hex) fun a b h => by
    cases a
    cases b
    cases h
    rfl

instance : Countable AlertVolume :=
  Function.Injective.countable (f := AlertVolume.gain) fun a b h => by
    cases a
    cases b
    cases h
    rfl

deriving instance Countable for OccurrenceKind, AlertSound

deriving instance Countable for Occurrence

deriving instance Countable for Action, ExpireReason, Source, ResultState

deriving instance Countable for OpResult, ChildRef

deriving instance Countable for
  LocalOp, LocalChild, ArmedRecord, RingRecord, ClockAnchor, DeliveryPos

instance : Countable Txn :=
  Function.Injective.countable (f := fun t : Txn => (t.reset, t.delivery, t.delOcc, t.putOcc,
    t.delOps, t.putOps, t.delChildren, t.putChildren, t.delArmed, t.putArmed, t.delRings,
    t.putRings, t.clock)) fun a b h => by
    cases a
    cases b
    cases h
    rfl

instance : Countable DiskSnapshot :=
  Function.Injective.countable (f := fun d : DiskSnapshot => (d.version, d.through, d.epoch,
    d.acked, d.opSeq, d.corrupt, d.occurrences, d.operations, d.children, d.armed, d.rings,
    d.clock)) fun a b h => by
    cases a
    cases b
    cases h
    rfl

/-- The JSON of some values, each an object; any other value gets a text of its own. -/
structure Dictionary (α : Type) where
  entries : List (α × Bytes)
  distinct : (entries.map Prod.snd).Nodup
  objects : ∀ e ∈ entries, e.2.head? = some 123

namespace Dictionary

variable {α : Type} [DecidableEq α] [Countable α] (D : Dictionary α)

/-- A text for any value. -/
noncomputable def spare (x : α) : Bytes :=
  List.replicate ((exists_injective_nat α).choose x + 1) 0

omit [DecidableEq α] in
theorem spare_injective : Function.Injective (spare (α := α)) := by
  intro x y h
  have hlen := congrArg List.length h
  rw [spare, spare, List.length_replicate, List.length_replicate] at hlen
  exact (exists_injective_nat α).choose_spec (Nat.succ.inj hlen)

noncomputable def encode (x : α) : Bytes :=
  match D.entries.find? (·.1 = x) with
  | some e => e.2
  | none => spare x

noncomputable def decode (b : Bytes) : Option α :=
  match D.entries.find? (·.2 = b) with
  | some e => some e.1
  | none => Function.partialInv spare b

theorem encode_ne_nil (x : α) : D.encode x ≠ [] := by
  unfold encode
  cases h : D.entries.find? (·.1 = x) with
  | some e =>
      intro hnil
      have hhead := D.objects e (List.mem_of_find?_eq_some h)
      rw [show e.2 = [] from hnil] at hhead
      cases hhead
  | none => exact List.cons_ne_nil _ _

theorem decode_encode (x : α) : D.decode (D.encode x) = some x := by
  unfold encode
  cases h : D.entries.find? (·.1 = x) with
  | some e =>
      have hmem := List.mem_of_find?_eq_some h
      have hx : e.1 = x := by simpa using List.find?_some h
      dsimp only
      unfold decode
      cases h' : D.entries.find? (·.2 = e.2) with
      | some e' =>
          have heq : e'.2 = e.2 := by simpa using List.find?_some h'
          obtain rfl : e' = e :=
            List.inj_on_of_nodup_map D.distinct (List.mem_of_find?_eq_some h') hmem heq
          exact congrArg some hx
      | none => exact absurd (decide_eq_true rfl) (List.find?_eq_none.mp h' e hmem)
  | none =>
      dsimp only
      unfold decode
      cases h' : D.entries.find? (·.2 = spare x) with
      | some e =>
          have hhead := D.objects e (List.mem_of_find?_eq_some h')
          have heq : e.2 = spare x := by simpa using List.find?_some h'
          rw [heq] at hhead
          cases hhead
      | none => exact Function.partialInv_left spare_injective x

end Dictionary

end

/-- ASCII text as bytes. -/
def asciiBytes (s : String) : Bytes := s.toList.map fun c => UInt8.ofNat c.toNat

/-- A snapshot of no occurrences is installed. -/
def installTxn : Txn := { reset := true, delivery := some ⟨['e'], 0⟩ }

/-- The clock is synced. -/
def clockTxn : Txn := { clock := some ⟨['b'], 5⟩ }

def sampleRecords : Dictionary (ℕ × Txn) where
  entries := [
    ((1, installTxn), asciiBytes
      "\x7b\"txn\":1,\"reset\":true,\"delivery\":\x7b\"epoch\":\"e\",\"acked\":0\x7d\x7d"),
    ((2, clockTxn), asciiBytes
      "\x7b\"txn\":2,\"clock\":\x7b\"boot_id\":\"b\",\"offset_ms\":\"5\"\x7d\x7d")]
  distinct := by decide +kernel
  objects := by decide +kernel

def sampleDocs : Dictionary DiskSnapshot where
  entries := [
    (snapshotDoc (({} : State).apply installTxn, 1), asciiBytes
      ("\x7b\"version\":1,\"through\":1,\"delivery_epoch\":\"e\",\"acked_sequence\":0," ++
      "\"op_seq\":0,\"corrupt\":false,\"occurrences\":[],\"operations\":[],\"children\":[]," ++
      "\"armed\":[],\"rings\":[],\"clock\":null\x7d"))]
  distinct := by decide +kernel
  objects := by decide +kernel

noncomputable def sampleCodec : DiskCodec where
  encode n t := sampleRecords.encode (n, t)
  decode := sampleRecords.decode
  encodeDoc := sampleDocs.encode
  decodeDoc := sampleDocs.decode
  encode_ne_nil n t := sampleRecords.encode_ne_nil (n, t)
  decode_encode n t := sampleRecords.decode_encode (n, t)
  decodeDoc_encodeDoc := sampleDocs.decode_encode

/-- A store on an empty disk. -/
def newStore : Store := ⟨0, {}, 0, false⟩

/-- The install compacts the store, and the last sync of its compaction fails. The clock is
committed behind it. -/
noncomputable def holeSession : Session :=
  (Session.opened newStore (Disk.files ⟨none, []⟩)).run sampleCodec
    [(installTxn, { compact := { sync := .failed false } }), (clockTxn, {})]

/-- Both commits returned, and no call failed but one sync. The record of the second lies behind a
hole, so the next opening takes the journal for damaged: it loses the clock and marks the store. -/
theorem hole_loses_commit :
    openStore sampleCodec {} ⟨none, []⟩ = (some newStore, Disk.files ⟨none, []⟩) ∧
      holeSession.done = [installTxn, clockTxn] ∧ holeSession.doubt = none ∧
      holeSession.crashed = false ∧ newStore.st.corrupt = false ∧
      ∃ snap ∈ holeSession.files.snapshot.survivors, ∃ log ∈ holeSession.files.log.survivors,
        ∃ s fs, openStore sampleCodec {} ⟨snap, log⟩ = (some s, fs) ∧ s.st.corrupt = true ∧
          ¬ holeSession.Explains newStore.st s.st := by
  have hdone : holeSession.done = [installTxn, clockTxn] := by decide +kernel
  have hdoubt : holeSession.doubt = none := by decide +kernel
  have hopen : (openStore sampleCodec {} ⟨holeSession.files.snapshot.now,
      holeSession.files.log.now⟩).1.map (fun s => (s.st.corrupt, s.st.clock)) =
        some (true, none) := by decide +kernel
  rcases hfs : openStore sampleCodec {}
    ⟨holeSession.files.snapshot.now, holeSession.files.log.now⟩ with ⟨opened, fs⟩
  rw [hfs] at hopen
  obtain ⟨s, rfl, hst⟩ := Option.map_eq_some_iff.mp hopen
  obtain ⟨hcorrupt, hclock⟩ := Prod.mk.inj hst
  refine ⟨rfl, hdone, hdoubt, by decide +kernel, rfl, _, Volatile.now_mem_survivors _, _,
    Volatile.now_mem_survivors _, s, fs, hfs, hcorrupt, ?_⟩
  rintro (heq | ⟨t, ht, -⟩)
  · rw [heq, hdone] at hclock
    cases hclock
  · rw [hdoubt] at ht
    cases ht

/-- The same commits, the journal of the install not cut off, and the second record torn. -/
noncomputable def tornSession : Session :=
  (Session.opened newStore (Disk.files ⟨none, []⟩)).run sampleCodec
    [(installTxn, { compact := { truncate := .failed false } }), (clockTxn, { write := .crashed 5 })]

/-- The install is recovered, and the torn record is dropped. -/
theorem torn_recovers :
    (∃ s fs, openStore sampleCodec {}
      ⟨tornSession.files.snapshot.now, tornSession.files.log.now⟩ = (some s, fs)) ∧
      ∀ o s fs, openStore sampleCodec o
        ⟨tornSession.files.snapshot.now, tornSession.files.log.now⟩ = (some s, fs) →
          tornSession.Explains newStore.st s.st ∧
            (s.st.corrupt = true → newStore.st.corrupt = true) := by
  have hopen : openStore sampleCodec {} ⟨none, []⟩ = (some newStore, Disk.files ⟨none, []⟩) := rfl
  refine store_recovers hopen _ (fun before call after heq => ?_) _
    (Volatile.now_mem_survivors _) _ (Volatile.now_mem_survivors _)
  match before with
  | [] =>
      cases heq
      exact .inr (.inr (by decide +kernel))
  | [call₁] =>
      cases heq
      exact .inr (.inr (by decide +kernel))
  | call₁ :: call₂ :: before =>
      have hlen := congrArg List.length heq
      simp at hlen

end EchoMuse.Alerts
