import EchoMuse.Alerts.State
import EchoMuse.Faults
import EchoMuse.Journal

/-!
# The Device's Alert Store

The speaker keeps its alert state as an atomic snapshot and a journal of whole transactions behind
it. `commit` appends one record, syncs it and applies it; now and then `compact` writes the state
as the next snapshot and drops the journal it covers. `openStore` loads the snapshot and replays
the journal; it drops an incomplete record at the end, and puts a damaged store aside under the
corrupt mark.

Every call on the file system can fail or crash, with or without its effect, and a power loss can
take back whatever is not synced.

## Main results

* `DiskSnapshot.state_snapshotDoc`: a snapshot is the state it was written from;
* `replays_again`: a snapshot of the state behind a journal skips the whole journal.
-/

namespace EchoMuse.Alerts

open EchoMuse.Faults EchoMuse.Journal

abbrev Bytes := List UInt8

/-- The largest payload of a journal record. -/
def maxRecordBytes : ℕ := 8 * 2 ^ 20

/-- The journal size that triggers a compaction. -/
def compactAt : ℕ := 256 * 2 ^ 10

def snapshotVersion : ℕ := 1

/-! ### Documents -/

/-- `snapshot.json`: the state through journal transaction `through`. -/
structure DiskSnapshot where
  version : ℕ
  through : ℕ
  epoch : Option Text
  acked : ℕ
  opSeq : ℕ
  corrupt : Bool
  occurrences : List Occurrence
  operations : List LocalOp
  children : List LocalChild
  armed : List ArmedRecord
  rings : List RingRecord
  clock : Option ClockAnchor
deriving DecidableEq

/-- The JSON of journal records and snapshots. What was written reads back; a record's number is
part of it. -/
structure DiskCodec where
  encode : ℕ → Txn → Bytes
  decode : Bytes → Option (ℕ × Txn)
  encodeDoc : DiskSnapshot → Bytes
  decodeDoc : Bytes → Option DiskSnapshot
  encode_ne_nil : ∀ n t, encode n t ≠ []
  decode_encode : ∀ n t, decode (encode n t) = some (n, t)
  decodeDoc_encodeDoc : ∀ d, decodeDoc (encodeDoc d) = some d

/-- A state with the number of the last transaction in it. -/
abbrev Applied := State × ℕ

/-- The state as a snapshot. -/
def snapshotDoc (a : Applied) : DiskSnapshot where
  version := snapshotVersion
  through := a.2
  epoch := a.1.epoch
  acked := a.1.acked
  opSeq := a.1.opSeq
  corrupt := a.1.corrupt
  occurrences := Table.vals a.1.occ
  operations := a.1.opsInOrder
  children := Table.vals a.1.children
  armed := Table.vals a.1.armed
  rings := Table.vals a.1.rings
  clock := a.1.clock

/-- The state a snapshot holds. -/
def DiskSnapshot.state (d : DiskSnapshot) : State where
  epoch := d.epoch
  acked := d.acked
  occ := Table.putAll (·.occurrenceId) ∅ d.occurrences
  ops := Table.putAll (·.opId) ∅ d.operations
  opSeq := d.opSeq
  children := Table.putAll (·.occurrence.occurrenceId) ∅ d.children
  armed := Table.putAll (·.occurrenceId) ∅ d.armed
  rings := Table.putAll (·.occurrenceId) ∅ d.rings
  clock := d.clock
  corrupt := d.corrupt

section

variable (c : DiskCodec)

/-- What the snapshot file holds, and whether it exists but is unusable. -/
def loadSnapshot : Option Bytes → Applied × Bool
  | none => (({}, 0), false)
  | some b =>
    match c.decodeDoc b with
    | none => (({}, 0), true)
    | some d => if d.version ≠ snapshotVersion then (({}, 0), true) else ((d.state, d.through), false)

/-- One journal record: a covered one is skipped, the next one applied, and any other is bad. -/
def replayTxn (a : Applied) (r : ℕ × Txn) : Option Applied :=
  if a.2 < r.1 then if r.1 ≠ a.2 + 1 then none else some (a.1.apply r.2, r.1) else some a

/-- Applies the complete records of a journal: the state, the end of the last good record, and
whether a bad record precedes the tail. -/
def replayJournal (a : Applied) (data : Bytes) : Applied × ℕ × Bool :=
  replay maxRecordBytes c.decode replayTxn a data

/-! ### The file system -/

/-- The store's directory. -/
structure Files where
  snapshot : Volatile (Option Bytes)
  /-- `snapshot.json.tmp`. -/
  temp : Option Bytes
  log : Volatile Bytes

namespace Files

/-- `b` at offset `off`; bytes the file does not reach are zero. -/
def splice (content : Bytes) (off : ℕ) (b : Bytes) : Bytes :=
  if b = [] then content
  else content.take off ++ List.replicate (off - content.length) 0 ++ b ++
    content.drop (off + b.length)

/-- `WriteAt` got as far as the first `n` bytes of `b`. -/
def writeLog (off : ℕ) (b : Bytes) (n : ℕ) (fs : Files) : Files :=
  { fs with
    log := fs.log.pass ((List.range n).map fun k => splice fs.log.now off (b.take k))
      (splice fs.log.now off (b.take n)) }

/-- `Truncate`, which also extends a file that is shorter. -/
def truncateLog (size : ℕ) (fs : Files) : Files :=
  { fs with
    log := fs.log.set
      (fs.log.now.take size ++ List.replicate (size - fs.log.now.length) 0) }

def syncLog (fs : Files) : Files := { fs with log := fs.log.sync }

/-- The temporary file holds the first `n` bytes of `b`. -/
def writeTemp (b : Bytes) (n : ℕ) (fs : Files) : Files := { fs with temp := some (b.take n) }

/-- The temporary file becomes the snapshot. -/
def rename (fs : Files) : Files := { fs with snapshot := fs.snapshot.set fs.temp, temp := none }

def syncDir (fs : Files) : Files := { fs with snapshot := fs.snapshot.sync }

end Files

/-! ### Compaction -/

/-- How the calls of a compaction end. -/
structure CompactOutcomes where
  temp : Outcome ℕ := .done
  rename : Outcome Bool := .done
  syncDir : Outcome Bool := .done
  truncate : Outcome Bool := .done
  sync : Outcome Bool := .done

/-- `writeFileSync` of the temporary file. -/
def writeFileSync (b : Bytes) (o : Outcome ℕ) (fs : Files) : Files × Ending :=
  call (Files.writeTemp b b.length) (Files.writeTemp b) o fs

/-- Writes the state to a temporary file, renames it over the snapshot, syncs the directory, then
drops the covered journal. -/
def compact (a : Applied) (o : CompactOutcomes) (fs : Files) : Files × Ending :=
  andThen (writeFileSync (c.encodeDoc (snapshotDoc a)) o.temp fs) fun fs =>
  andThen (callAtomic Files.rename o.rename fs) fun fs =>
  andThen (callAtomic Files.syncDir o.syncDir fs) fun fs =>
  andThen (callAtomic (Files.truncateLog 0) o.truncate fs) fun fs =>
  callAtomic Files.syncLog o.sync fs

/-! ### The store -/

/-- The open store. -/
structure Store where
  logSize : ℕ
  st : State
  /-- The last applied transaction. -/
  txn : ℕ
  /-- A failed write could not be rolled back; commits are refused. -/
  broken : Bool := false

/-- How the calls of a commit end. -/
structure CommitOutcomes where
  write : Outcome ℕ := .done
  sync : Outcome Bool := .done
  rollbackTruncate : Outcome Bool := .done
  rollbackSync : Outcome Bool := .done
  compact : CompactOutcomes := {}

/-- Removes a partially written record, so later records never follow garbage. The commit it is
part of returns its error. -/
def rollback (o : CommitOutcomes) (s : Store) (fs : Files) : Store × Files × Ending :=
  match andThen (callAtomic (Files.truncateLog s.logSize) o.rollbackTruncate fs)
      (callAtomic Files.syncLog o.rollbackSync) with
  | (fs, .ok) => (s, fs, .error)
  | (fs, .error) => ({ s with broken := true }, fs, .error)
  | (fs, .crashed) => (s, fs, .crashed)

/-- What follows a durable record: a compaction, whose failure the commit ignores. -/
def maybeCompact (t : Txn) (o : CommitOutcomes) (s : Store) (fs : Files) :
    Store × Files × Ending :=
  if t.reset || compactAt ≤ s.logSize then
    match compact c (s.st, s.txn) o.compact fs with
    | (fs, .ok) => ({ s with logSize := 0 }, fs, .ok)
    | (fs, .error) => (s, fs, .ok)
    | (fs, .crashed) => (s, fs, .crashed)
  else (s, fs, .ok)

/-- Makes `t` durable as one journal record and then applies it. -/
def commit (t : Txn) (o : CommitOutcomes) (s : Store) (fs : Files) : Store × Files × Ending :=
  if t.empty then (s, fs, .ok)
  else if s.broken then (s, fs, .error)
  else
    let payload := c.encode (s.txn + 1) t
    if maxRecordBytes < payload.length then (s, fs, .error)
    else
      let record := frame payload
      match andThen (call (Files.writeLog s.logSize record record.length)
          (Files.writeLog s.logSize record) o.write fs) (callAtomic Files.syncLog o.sync) with
      | (fs, .ok) =>
        maybeCompact c t o { s with
          logSize := s.logSize + record.length, st := s.st.apply t, txn := s.txn + 1 } fs
      | (fs, .error) => rollback o s fs
      | (fs, .crashed) => (s, fs, .crashed)

/-! ### Opening -/

/-- How the calls of an opening end. -/
structure OpenOutcomes where
  truncate : Outcome Bool := .done
  sync : Outcome Bool := .done
  snapshotAside : Outcome ℕ := .done
  journalAside : Outcome ℕ := .done
  compact : CompactOutcomes := {}

/-- What a crash left on the disk. -/
structure Disk where
  snapshot : Option Bytes
  log : Bytes

/-- A directory as it is after a restart, its leftover temporary file removed. -/
def Disk.files (d : Disk) : Files := ⟨⟨d.snapshot, []⟩, none, ⟨d.log, []⟩⟩

/-- Loads the snapshot and replays the journal. An incomplete record at the end is cut off; a
damaged store is copied aside and what was recovered is persisted under the corrupt mark. There is
no store where a call fails. -/
def openStore (o : OpenOutcomes) (d : Disk) : Option Store × Files :=
  let (loaded, snapErr) := loadSnapshot c d.snapshot
  let (a, validEnd, journalCorrupt) := replayJournal c loaded d.log
  let fs := d.files
  if !snapErr && !journalCorrupt then
    if validEnd ≠ d.log.length then
      match andThen (callAtomic (Files.truncateLog validEnd) o.truncate fs)
          (callAtomic Files.syncLog o.sync) with
      | (fs, .ok) => (some ⟨validEnd, a.1, a.2, false⟩, fs)
      | (fs, _) => (none, fs)
    else (some ⟨validEnd, a.1, a.2, false⟩, fs)
  else
    let a := ({ a.1 with corrupt := true }, a.2)
    let aside := andThen (if snapErr then call id (fun _ => id) o.snapshotAside fs else (fs, .ok))
      fun fs => if journalCorrupt then call id (fun _ => id) o.journalAside fs else (fs, .ok)
    match andThen aside (compact c a o.compact) with
    | (fs, .ok) => (some ⟨0, a.1, a.2, false⟩, fs)
    | (fs, _) => (none, fs)

/-- An opening that finds nothing corrupt only cuts the journal where its records end. -/
theorem openStore_of_clean {c : DiskCodec} {d : Disk} {b a : Applied} {validEnd : ℕ}
    (hload : loadSnapshot c d.snapshot = (b, false))
    (hjournal : replayJournal c b d.log = (a, validEnd, false)) (o : OpenOutcomes) :
    openStore c o d =
      if validEnd ≠ d.log.length then
        match andThen (callAtomic (Files.truncateLog validEnd) o.truncate d.files)
            (callAtomic Files.syncLog o.sync) with
        | (fs, .ok) => (some ⟨validEnd, a.1, a.2, false⟩, fs)
        | (fs, _) => (none, fs)
      else (some ⟨validEnd, a.1, a.2, false⟩, d.files) := by
  unfold openStore
  rw [hload]
  dsimp only
  rw [hjournal]
  rfl

end

/-! ### Snapshots -/

/-- A snapshot is the state it was written from. -/
theorem DiskSnapshot.state_snapshotDoc {a : Applied} (h : a.1.Keyed) :
    (snapshotDoc a).state = a.1 := by
  have hops : Table.putAll (·.opId) ∅ a.1.opsInOrder = a.1.ops :=
    Table.putAll_vals h.ops (List.perm_insertionSort _ _)
  have hocc : Table.putAll (·.occurrenceId) ∅ (Table.vals a.1.occ) = a.1.occ :=
    Table.putAll_vals h.occ (List.Perm.refl _)
  have hchildren : Table.putAll (·.occurrence.occurrenceId) ∅ (Table.vals a.1.children) =
      a.1.children := Table.putAll_vals h.children (List.Perm.refl _)
  have harmed : Table.putAll (·.occurrenceId) ∅ (Table.vals a.1.armed) = a.1.armed :=
    Table.putAll_vals h.armed (List.Perm.refl _)
  have hrings : Table.putAll (·.occurrenceId) ∅ (Table.vals a.1.rings) = a.1.rings :=
    Table.putAll_vals h.rings (List.Perm.refl _)
  unfold DiskSnapshot.state snapshotDoc
  dsimp only
  rw [hops, hocc, hchildren, harmed, hrings]

/-- The state a snapshot holds is keyed. -/
theorem DiskSnapshot.keyed_state (d : DiskSnapshot) : d.state.Keyed where
  occ := (Table.Keyed.empty _).putAll _
  ops := (Table.Keyed.empty _).putAll _
  children := (Table.Keyed.empty _).putAll _
  armed := (Table.Keyed.empty _).putAll _
  rings := (Table.Keyed.empty _).putAll _

theorem State.Keyed.init : ({} : State).Keyed :=
  ⟨Table.Keyed.empty _, Table.Keyed.empty _, Table.Keyed.empty _, Table.Keyed.empty _,
    Table.Keyed.empty _⟩

/-- A written snapshot loads. -/
theorem loadSnapshot_encodeDoc (c : DiskCodec) {a : Applied} (h : a.1.Keyed) :
    loadSnapshot c (some (c.encodeDoc (snapshotDoc a))) = (a, false) := by
  unfold loadSnapshot
  dsimp only
  rw [c.decodeDoc_encodeDoc]
  dsimp only
  rw [if_neg (fun hne => hne rfl), DiskSnapshot.state_snapshotDoc h]
  rfl

/-- Whatever the snapshot file holds, what is loaded is keyed. -/
theorem keyed_loadSnapshot (c : DiskCodec) (snap : Option Bytes) :
    (loadSnapshot c snap).1.1.Keyed := by
  cases snap with
  | none => exact State.Keyed.init
  | some b =>
      unfold loadSnapshot
      dsimp only
      cases c.decodeDoc b with
      | none => exact State.Keyed.init
      | some d =>
          dsimp only
          by_cases hv : d.version ≠ snapshotVersion
          · rw [if_pos hv]
            exact State.Keyed.init
          · rw [if_neg hv]
            exact d.keyed_state

/-! ### Records -/

/-- One record keeps the state keyed and its number growing; it is covered afterwards. -/
theorem replayTxn_cases {a b : Applied} {r : ℕ × Txn} (h : replayTxn a r = some b) :
    (r.1 ≤ a.2 ∧ b = a) ∨ (r.1 = a.2 + 1 ∧ b = (a.1.apply r.2, a.2 + 1)) := by
  unfold replayTxn at h
  by_cases hlt : a.2 < r.1
  · rw [if_pos hlt] at h
    by_cases hne : r.1 ≠ a.2 + 1
    · rw [if_pos hne] at h
      cases h
    · rw [if_neg hne] at h
      rw [not_not.mp hne] at h
      cases h
      exact .inr ⟨not_not.mp hne, rfl⟩
  · rw [if_neg hlt] at h
    cases h
    exact .inl ⟨not_lt.mp hlt, rfl⟩

/-- The next record is applied. -/
theorem replayTxn_next (a : Applied) (t : Txn) :
    replayTxn a (a.2 + 1, t) = some (a.1.apply t, a.2 + 1) := by
  unfold replayTxn
  rw [if_pos (Nat.lt_succ_self _), if_neg (fun hne => hne rfl)]

/-- A covered record is skipped. -/
theorem replayTxn_covered {a : Applied} {r : ℕ × Txn} (h : r.1 ≤ a.2) :
    replayTxn a r = some a := by
  unfold replayTxn
  rw [if_neg (not_lt.mpr h)]

/-- The records behind a state are covered by it, and the state stays keyed. -/
theorem replays_covered {rs : List (ℕ × Txn)} {a b : Applied}
    (h : rs.foldlM replayTxn a = some b) :
    a.2 ≤ b.2 ∧ (∀ r ∈ rs, r.1 ≤ b.2) ∧ (a.1.Keyed → b.1.Keyed) := by
  induction rs generalizing a with
  | nil =>
      cases h
      exact ⟨le_refl _, nofun, id⟩
  | cons r rs ih =>
      rw [List.foldlM_cons] at h
      obtain ⟨a₁, h₁, hrest⟩ := Option.bind_eq_some_iff.mp h
      obtain ⟨hle, hall, hkeyed⟩ := ih hrest
      rcases replayTxn_cases h₁ with ⟨hr, rfl⟩ | ⟨hr, rfl⟩
      · refine ⟨hle, fun r' hr' => ?_, hkeyed⟩
        rcases List.mem_cons.mp hr' with rfl | hmem
        · exact hr.trans hle
        · exact hall r' hmem
      · refine ⟨(Nat.le_succ _).trans hle, fun r' hr' => ?_, fun hk => hkeyed (hk.apply _)⟩
        rcases List.mem_cons.mp hr' with rfl | hmem
        · exact hr.le.trans hle
        · exact hall r' hmem

/-- A state skips the records it covers. -/
theorem replays_skip {rs : List (ℕ × Txn)} {a : Applied} (h : ∀ r ∈ rs, r.1 ≤ a.2) :
    rs.foldlM replayTxn a = some a := by
  induction rs with
  | nil => rfl
  | cons r rs ih =>
      rw [List.foldlM_cons, replayTxn_covered (h r List.mem_cons_self)]
      exact ih fun r' hr' => h r' (List.mem_cons_of_mem _ hr')

/-- A snapshot of the state behind a journal skips the whole journal. -/
theorem replays_again {rs : List (ℕ × Txn)} {a b : Applied} (h : rs.foldlM replayTxn a = some b) :
    rs.foldlM replayTxn b = some b :=
  replays_skip (replays_covered h).2.1

/-- One more record behind a journal. -/
theorem replays_concat {rs : List (ℕ × Txn)} {a b : Applied} (h : rs.foldlM replayTxn a = some b)
    (t : Txn) : (rs ++ [(b.2 + 1, t)]).foldlM replayTxn a = some (b.1.apply t, b.2 + 1) := by
  rw [List.foldlM_append, h, Option.bind_eq_bind, Option.bind_some, List.foldlM_cons,
    replayTxn_next]
  rfl

end EchoMuse.Alerts
