import Mathlib.Algebra.Order.Ring.Int
import Mathlib.Order.Defs.LinearOrder
import Mathlib.Data.List.Perm.Basic

/-!
# The Speaker Focus

The device's speaker focus (`internal/focus/focus.go`): dialog leases, the provisional ducks of
wake candidates, and whether the active alert occurrence is in the foreground. Every operation
reads the clock, lets what has expired go, changes the state, applies the deadlines, derives the
policy, and runs the callbacks it has queued.

Times are in nanoseconds, and a time that is not set is `none`. The leases and ducks are the
entries of maps, whose iteration order is the caller's to choose. Duck depths are the values of a
linear order.
-/

namespace EchoMuse.Focus

/-! ### Constants -/

/-- A second. -/
def second : ℕ := 1000000000

/-- Dialog and candidate lease TTL. -/
def defaultTTL : ℕ := 3 * second

/-- How long dialog output delays a newly due alert. -/
def alertYield : ℕ := 2 * second

/-- The background budget of each occurrence. -/
def alertBackgroundCap : ℕ := 15 * second

def provisionalWindow : ℕ := 5 * second

def provisionalPerWindow : ℕ := 2

def ttlOr (ttl : ℤ) : ℕ := if ttl ≤ 0 then defaultTTL else ttl.toNat

/-! ### State -/

/-- A class of `focus.acquire`. -/
inductive Kind
  | dialogInput
  | dialogOutput
  | other (name : String)
deriving DecidableEq

/-- Why an operation is refused. -/
inductive FocusError
  | kind
  | stale
  | unknown
deriving DecidableEq

/-- A live dialog focus lease. -/
structure Lease where
  id : String
  owner : String
  generation : ℕ
  kind : Kind
  expires : ℕ
deriving DecidableEq

/-- How the mixer ramps to a policy. -/
inductive Ramp
  | normal
  | physicalStop
deriving DecidableEq

variable (D : Type*)

/-- A lease as the manager holds it. It is `converted` if it is an accepted candidate's
provisional duck, held until the turn's own lease supersedes it. -/
structure Held extends Lease where
  duckDB : D
  converted : Bool
deriving DecidableEq

/-- A provisional duck. -/
structure Provisional where
  id : String
  duckDB : D
  expires : ℕ
deriving DecidableEq

structure Policy where
  contentDuckDB : D
  dialogDuckDB : D
  pauseContent : Bool
  ramp : Ramp
deriving DecidableEq

/-- The current focus decision. -/
structure Output where
  mix : Policy D
  alertBackground : Bool
deriving DecidableEq

/-- A callback to run. -/
inductive Act
  | apply (out : Output D)
  | cancelPlayback (id : String) (generation : ℕ) (ramp : Ramp)
  | leaseExpired (lease : Lease)
  | alertPreempted (id : String)
deriving DecidableEq

/-- The manager. An empty `alertID` means that no occurrence is active. -/
structure Manager where
  duckDB : D
  leases : List (Held D)
  prov : List (Provisional D)
  duckTimes : List (Option ℕ)
  alertID : String
  alertBG : Bool
  bgSince : ℕ
  budget : ℕ
  budgetSpent : Bool
  yieldAt : Option ℕ
  yielded : Bool
  dialogID : String
  dialogOwner : String
  dialogGen : ℕ
  dialogPlaying : Bool
  ramp : Ramp
  out : Output D
  pending : List (Act D)

variable {D}

namespace Manager

/-- A manager with the configured duck depth. -/
def new [Zero D] (duckDB : D) : Manager D where
  duckDB
  leases := []
  prov := []
  duckTimes := List.replicate provisionalPerWindow none
  alertID := ""
  alertBG := false
  bgSince := 0
  budget := 0
  budgetSpent := false
  yieldAt := none
  yielded := false
  dialogID := ""
  dialogOwner := ""
  dialogGen := 0
  dialogPlaying := false
  ramp := .normal
  out := ⟨⟨0, 0, false, .normal⟩, false⟩
  pending := []

/-- Queues a callback. -/
def queue (m : Manager D) (act : Act D) : Manager D := { m with pending := m.pending ++ [act] }

def resetAlert (m : Manager D) : Manager D :=
  { m with
    alertID := "", alertBG := false, budget := 0, budgetSpent := false
    yieldAt := none, yielded := false }

/-- Cancels the current dialog output with the fade. -/
def cancelDialog (m : Manager D) : Manager D :=
  if m.dialogPlaying then
    { m with dialogPlaying := false }.queue (.cancelPlayback m.dialogID m.dialogGen .normal)
  else m

def ownerLive (m : Manager D) (owner : String) : Bool := m.leases.any (·.owner = owner)

/-- Lets a lease go if it has expired. -/
def expireLease (now : ℕ) (m : Manager D) (l : Held D) : Manager D :=
  if now < l.expires then m
  else
    let m := { m with leases := m.leases.filter (·.id ≠ l.id) }.queue (.leaseExpired l.toLease)
    if m.dialogPlaying ∧ m.dialogOwner = l.owner ∧ m.dialogGen ≤ l.generation ∧
        ¬ m.ownerLive l.owner then
      m.cancelDialog
    else m

/-- Lets go what has expired; `visit` is the order in which the leases are iterated. -/
def expire (visit : List (Held D) → List (Held D)) (now : ℕ) (m : Manager D) : Manager D :=
  let m := (visit m.leases).foldl (expireLease now) m
  { m with prov := m.prov.filter (now < ·.expires) }

/-- Dialog output yields to an alert that has waited long enough. -/
def yieldDue (now : ℕ) (m : Manager D) : Manager D :=
  if m.yieldAt.any (· ≤ now) then { m with yieldAt := none, yielded := true }.cancelDialog else m

/-- An occurrence whose background budget has run out takes the foreground. -/
def budgetDue (now : ℕ) (m : Manager D) : Manager D :=
  if m.alertBG ∧ ¬ m.budgetSpent ∧ alertBackgroundCap ≤ m.budget + (now - m.bgSince) then
    { m with budgetSpent := true }.cancelDialog.queue (.alertPreempted m.alertID)
  else m

/-- Applies the deadlines of the active occurrence. -/
def deadlines (now : ℕ) (m : Manager D) : Manager D := (m.yieldDue now).budgetDue now

/-- Whether a lease or a duck takes the input. -/
def hasInput (m : Manager D) : Bool :=
  m.leases.any (·.kind = .dialogInput) || !m.prov.isEmpty

/-- Whether output plays, or a lease expects it. -/
def hasOutput (m : Manager D) : Bool :=
  m.dialogPlaying || m.leases.any (·.kind = .dialogOutput)

/-- Whether the active occurrence is in the background. -/
def background (m : Manager D) : Bool :=
  m.alertID ≠ "" && !m.budgetSpent &&
    (m.yieldAt.isSome || m.hasInput || (m.hasOutput && !m.yielded))

section

variable [LinearOrder D] [Zero D]

/-- The deepest duck of the leases and provisional ducks. -/
def contentDuck (m : Manager D) : D :=
  (m.prov.map (·.duckDB)).foldl min ((m.leases.map (·.duckDB)).foldl min 0)

/-- The deepest duck of the provisional ducks, accepted ones included. -/
def dialogDuck (m : Manager D) : D :=
  (m.prov.map (·.duckDB)).foldl min
    (((m.leases.filter (·.converted)).map (·.duckDB)).foldl min 0)

/-- Derives the policy from the surviving leases and the alert state. -/
def recompute (now : ℕ) (m : Manager D) : Manager D :=
  let bg := m.background
  let m :=
    if bg ≠ m.alertBG then
      { m with
        bgSince := if bg then now else m.bgSince
        budget := if bg then m.budget else m.budget + (now - m.bgSince)
        alertBG := bg }
    else m
  let mix : Policy D := ⟨m.contentDuck, m.dialogDuck, m.alertID ≠ "", .normal⟩
  let ramp := m.ramp
  let m := { m with ramp := .normal }
  if (⟨mix, bg⟩ : Output D) = ⟨{ m.out.mix with ramp := .normal }, m.out.alertBackground⟩ then m
  else
    { m with out := ⟨{ mix with ramp }, bg⟩ }.queue (.apply ⟨{ mix with ramp }, bg⟩)

end

/-- The times at which there is work to do. -/
def dueTimes (m : Manager D) : List ℕ :=
  m.leases.map (·.expires) ++ m.prov.map (·.expires) ++ m.yieldAt.toList ++
    if m.alertBG && !m.budgetSpent then [m.bgSince + (alertBackgroundCap - m.budget)] else []

/-- The earliest time at which there is work to do. -/
def nextDeadline (m : Manager D) : Option ℕ := m.dueTimes.min?

/-! ### Operations -/

/-- What an operation returns. -/
inductive Outcome
  | done
  | refused (e : FocusError)
  | ducked (applied : Bool)
deriving DecidableEq

/-- Whether `focus.acquire` or `focus.renew` brings an old generation of a lease. -/
def stale (m : Manager D) (id : String) (generation : ℕ) : Bool :=
  m.leases.any fun l => l.id = id ∧ generation < l.generation

/-- Puts a lease under its id. -/
def put (m : Manager D) (l : Held D) : Manager D :=
  { m with leases := l :: m.leases.filter (·.id ≠ l.id) }

/-- Creates or refreshes a dialog lease. -/
def acquire (m : Manager D) (now : ℕ) (id owner : String) (generation : ℕ) (kind : Kind)
    (ttl : ℤ) : Manager D × Outcome :=
  if m.stale id generation then (m, .refused .stale)
  else
    let m := { m with leases := m.leases.filter fun l => ¬ (l.converted ∧ l.owner = owner) }
    let m := if kind = .dialogInput then { m with yielded := false }.cancelDialog else m
    (m.put { id, owner, generation, kind, expires := now + ttlOr ttl, duckDB := m.duckDB,
             converted := false }, .done)

/-- Extends a lease; its generation may only grow. -/
def renew (m : Manager D) (now : ℕ) (id : String) (generation : ℕ) (ttl : ℤ) :
    Manager D × Outcome :=
  if m.leases.all (·.id ≠ id) then (m, .refused .unknown)
  else if m.stale id generation then (m, .refused .stale)
  else
    let extend (l : Held D) : Held D :=
      if l.id = id then { l with generation, expires := now + ttlOr ttl } else l
    ({ m with leases := m.leases.map extend }, .done)

/-- Ends a lease; an unknown one has ended. -/
def release (m : Manager D) (id : String) (generation : ℕ) : Manager D × Outcome :=
  if m.stale id generation then (m, .refused .stale)
  else ({ m with leases := m.leases.filter (·.id ≠ id) }, .done)

/-- Ends every lease and provisional duck. -/
def endSession (m : Manager D) : Manager D := { m with leases := [], prov := [] }.cancelDialog

/-- The ducks applied less than a window ago. -/
def recent (m : Manager D) (now : ℕ) : ℕ :=
  m.duckTimes.countP fun t => t.any fun t => now - t < provisionalWindow

/-- Whether a time is before another; one that is not set is before every other. -/
def before : Option ℕ → Option ℕ → Bool
  | none, some _ => true
  | some a, some b => a < b
  | _, none => false

/-- The index of the first earliest time. -/
def oldest (times : List (Option ℕ)) : ℕ :=
  (List.range times.length).foldl
    (fun i j => if before (times.getD j none) (times.getD i none) then j else i) 0

/-- Whether opening the candidate applies a new duck. -/
def ducks (m : Manager D) (now : ℕ) (candidateID : String) (producingSound : Bool) : Bool :=
  producingSound && m.prov.all (·.id ≠ candidateID) && m.recent now < provisionalPerWindow

/-- Applies the provisional duck of a wake candidate: only while the device produces sound, once
per candidate, and only so many per window. -/
def candidateOpen (m : Manager D) (now : ℕ) (candidateID : String) (producingSound : Bool)
    (ttl : ℤ) : Manager D × Outcome :=
  if producingSound = false then (m, .ducked false)
  else if m.prov.any (·.id = candidateID) then (m, .ducked true)
  else if provisionalPerWindow ≤ m.recent now then (m, .ducked false)
  else
    ({ m with
        duckTimes := m.duckTimes.set (oldest m.duckTimes) (some now)
        prov := { id := candidateID, duckDB := m.duckDB, expires := now + ttlOr ttl } :: m.prov
        yielded := false }, .ducked true)

/-- Extends a provisional duck with its candidate's lease. -/
def candidateRenew (m : Manager D) (now : ℕ) (candidateID : String) (ttl : ℤ) : Manager D :=
  let extend (p : Provisional D) : Provisional D :=
    if p.id = candidateID then { p with expires := now + ttlOr ttl } else p
  { m with prov := m.prov.map extend }

def candidateRelease (m : Manager D) (candidateID : String) : Manager D :=
  { m with prov := m.prov.filter (·.id ≠ candidateID) }

/-- Converts the provisional duck into the turn's input focus. -/
def candidateAccept (m : Manager D) (now : ℕ) (candidateID owner : String) (generation : ℕ) :
    Manager D :=
  match m.prov.find? (·.id = candidateID) with
  | none => m
  | some p =>
      let m := { m with prov := m.prov.filter (·.id ≠ candidateID) }.cancelDialog
      if m.leases.any fun l => l.owner = owner ∧ ¬ l.converted then m
      else
        m.put { id := candidateID, owner, generation, kind := .dialogInput,
                expires := now + defaultTTL, duckDB := p.duckDB, converted := true }

/-- Records the current dialog output; one that starts under a foreground alert is preempted at
once. -/
def dialogOutputStarted (m : Manager D) (playbackID owner : String) (generation : ℕ) :
    Manager D :=
  if m.alertID ≠ "" ∧ ¬ m.alertBG then m.queue (.cancelPlayback playbackID generation .normal)
  else
    { m with
      dialogID := playbackID, dialogOwner := owner, dialogGen := generation
      dialogPlaying := true }

/-- Whether a dialog output is the one that plays. -/
def isDialog (m : Manager D) (playbackID : String) (generation : ℕ) : Bool :=
  m.dialogPlaying && m.dialogID = playbackID && m.dialogGen = generation

def dialogOutputFinished (m : Manager D) (playbackID : String) (generation : ℕ) : Manager D :=
  if m.isDialog playbackID generation then
    let m := { m with dialogPlaying := false }
    if m.yieldAt.isSome then { m with yieldAt := none, yielded := true } else m
  else m

/-- The occurrence at the head of the alert queue; one that becomes due during dialog output
waits at most the yield. -/
def alertActive (m : Manager D) (now : ℕ) (occurrenceID : String) : Manager D :=
  if occurrenceID = m.alertID then m
  else
    let m := { m.resetAlert with alertID := occurrenceID }
    if m.dialogPlaying then { m with yieldAt := some (now + alertYield) } else m

/-- A completed burst resets the background budget. -/
def alertBurstCompleted (m : Manager D) (now : ℕ) (occurrenceID : String) : Manager D :=
  if occurrenceID ≠ m.alertID then m
  else { m with budget := 0, budgetSpent := false, bgSince := now }

/-- The occurrence stopped ringing. -/
def alertEnded (m : Manager D) (occurrenceID : String) (physical : Bool) : Manager D :=
  if occurrenceID ≠ m.alertID then m
  else
    let m := m.resetAlert
    if physical then { m with ramp := .physicalStop } else m

end Manager

/-- The operations. -/
inductive Op
  | acquire (id owner : String) (generation : ℕ) (kind : Kind) (ttl : ℤ)
  | renew (id : String) (generation : ℕ) (ttl : ℤ)
  | release (id : String) (generation : ℕ)
  | endSession
  | candidateOpen (candidateID : String) (producingSound : Bool) (ttl : ℤ)
  | candidateRenew (candidateID : String) (ttl : ℤ)
  | candidateRelease (candidateID : String)
  | candidateAccept (candidateID owner : String) (generation : ℕ)
  | dialogOutputStarted (playbackID owner : String) (generation : ℕ)
  | dialogOutputFinished (playbackID : String) (generation : ℕ)
  | alertActive (occurrenceID : String)
  | alertBurstCompleted (occurrenceID : String)
  | alertEnded (occurrenceID : String) (physical : Bool)
  | tick
deriving DecidableEq

/-- `focus.acquire` of a class that is none is refused before the clock is read. -/
def Op.valid : Op → Bool
  | .acquire _ _ _ (.other _) _ => false
  | _ => true

namespace Manager

/-- What an operation does between the expiries and the deadlines. -/
def change (m : Manager D) (now : ℕ) : Op → Manager D × Outcome
  | .acquire id owner generation kind ttl => m.acquire now id owner generation kind ttl
  | .renew id generation ttl => m.renew now id generation ttl
  | .release id generation => m.release id generation
  | .endSession => (m.endSession, .done)
  | .candidateOpen id producingSound ttl => m.candidateOpen now id producingSound ttl
  | .candidateRenew id ttl => (m.candidateRenew now id ttl, .done)
  | .candidateRelease id => (m.candidateRelease id, .done)
  | .candidateAccept id owner generation => (m.candidateAccept now id owner generation, .done)
  | .dialogOutputStarted id owner generation => (m.dialogOutputStarted id owner generation, .done)
  | .dialogOutputFinished id generation => (m.dialogOutputFinished id generation, .done)
  | .alertActive id => (m.alertActive now id, .done)
  | .alertBurstCompleted id => (m.alertBurstCompleted now id, .done)
  | .alertEnded id physical => (m.alertEnded id physical, .done)
  | .tick => (m, .done)

end Manager

/-- A call of an operation: the clock it reads, and the order in which it iterates the leases. -/
structure Call (D : Type*) where
  now : ℕ
  visit : List (Held D) → List (Held D)
  visit_perm : ∀ leases, (visit leases).Perm leases
  op : Op

namespace Manager

variable [LinearOrder D] [Zero D]

/-- A call: the manager behind it, the callbacks it runs, and what it returns. -/
def step (m : Manager D) (c : Call D) : Manager D × List (Act D) × Outcome :=
  if c.op.valid then
    let changed := (m.expire c.visit c.now).change c.now c.op
    let m := (changed.1.deadlines c.now).recompute c.now
    ({ m with pending := [] }, m.pending, changed.2)
  else (m, [], .refused .kind)

/-- The manager after a run of calls. -/
def after (duckDB : D) (calls : List (Call D)) : Manager D :=
  calls.foldl (fun m c => (m.step c).1) (new duckDB)

end Manager

end EchoMuse.Focus
