import EchoMuse.Uplink.Session

/-!
# Runs of a Session

The operations of an `Uplink` as data, with what each answers, and runs of them in any order.
-/

namespace EchoMuse.Uplink

open EchoMuse.Ema EchoMuse.Streams EchoMuse.Intervals EchoMuse.Traverse

/-- One operation with its arguments. -/
inductive Op
  | streamOpened (o : StreamOpen)
  | streamEnded (e : StreamEnd) (now : ℕ)
  | ingest (packet : Packet) (now : ℕ)
  | deviceEnded (report : UplinkEnded) (now : ℕ)
  | mute
  | unmute
  | sessionLost
  | acceptCandidate (id : SubscriptionId) (captureEpoch : UInt64) (supportStart now : ℕ)
  | open (id : SubscriptionId) (reason : OpenReason) (owner : Owner) (streams : Starts)
      (now : ℕ)
  | openButtonTurn (id : SubscriptionId) (turn : Owner) (press now : ℕ)
  | openReply (id : SubscriptionId) (expectation : Owner) (cellsFrom now : ℕ)
  | openDiagnostic (id : SubscriptionId) (mode : Owner) (now : ℕ)
  | openResponse (id : SubscriptionId) (turn : Owner) (afeFrom : ℕ) (micFrom : Option ℕ)
      (now : ℕ)
  | openNearMiss (id : SubscriptionId) (owner : Owner) (captureEpoch : UInt64)
      (supportStart supportEnd now : ℕ)
  | convertToTurn (id : SubscriptionId) (turn : Owner) (now : ℕ)
  | close (id : SubscriptionId) (reason : CloseReason) (now : ℕ)
  | commandRejected (id : SubscriptionId) (generation : Generation) (code : Option String)
      (now : ℕ)
  | poll (now : ℕ)
  | drain
  | takeCommands

/-- What an operation answers. -/
inductive Answer
  | done
  | ingested (what : Ingested)
  | opened (result : Except OpenError (List Grant))
  | commanded (result : Except CommandError Unit)
  | drained (deliveries : List Delivery)
  | commands (outgoing : List Outgoing)

/-- The deliveries an answer hands to the consumers. -/
def Answer.deliveries : Answer → List Delivery
  | .drained deliveries => deliveries
  | _ => []

/-- The uplink and answer of an open attempt: a refused one changes nothing. -/
def answerOpen (u : Uplink) (r : Except OpenError (Uplink × List Grant)) : Uplink × Answer :=
  match r with
  | .ok (u', grants) => (u', .opened (.ok grants))
  | .error e => (u, .opened (.error e))

/-- The uplink and answer of a command: a refused one changes nothing. -/
def answerCommand (u : Uplink) (r : Except CommandError Uplink) : Uplink × Answer :=
  match r with
  | .ok u' => (u', .commanded (.ok ()))
  | .error e => (u, .commanded (.error e))

/-- One operation. -/
def apply (u : Uplink) : Op → Uplink × Answer
  | .streamOpened o => (u.streamOpened o, .done)
  | .streamEnded e now => (u.streamEnded e now, .done)
  | .ingest packet now => ((u.ingest packet now).1, .ingested (u.ingest packet now).2)
  | .deviceEnded report now => (u.deviceEnded report now, .done)
  | .mute => (u.mute, .done)
  | .unmute => (u.unmute, .done)
  | .sessionLost => (u.sessionLost, .done)
  | .acceptCandidate id captureEpoch supportStart now =>
    u.answerOpen (u.acceptCandidate id captureEpoch supportStart now)
  | .open id reason owner streams now => u.answerOpen (u.open id reason owner streams now)
  | .openButtonTurn id turn press now => u.answerOpen (u.openButtonTurn id turn press now)
  | .openReply id expectation cellsFrom now =>
    u.answerOpen (u.openReply id expectation cellsFrom now)
  | .openDiagnostic id mode now => u.answerOpen (u.openDiagnostic id mode now)
  | .openResponse id turn afeFrom micFrom now =>
    u.answerOpen (u.openResponse id turn afeFrom micFrom now)
  | .openNearMiss id owner captureEpoch supportStart supportEnd now =>
    u.answerOpen (u.openNearMiss id owner captureEpoch supportStart supportEnd now)
  | .convertToTurn id turn now => u.answerCommand (u.convertToTurn id turn now)
  | .close id reason now => u.answerCommand (u.close id reason now)
  | .commandRejected id generation code now => (u.commandRejected id generation code now, .done)
  | .poll now => (u.poll now, .done)
  | .drain => (u.drain.1, .drained u.drain.2)
  | .takeCommands => (u.takeCommands.1, .commands u.takeCommands.2)

/-- A sequence of operations, and what each of them answered. -/
def run (u : Uplink) : List Op → Uplink × List Answer
  | [] => (u, [])
  | op :: ops => ((run (u.apply op).1 ops).1, (u.apply op).2 :: (run (u.apply op).1 ops).2)

/-- Everything a run handed to the consumers, in order. -/
def delivered (answers : List Answer) : List Delivery :=
  answers.flatMap Answer.deliveries

/-- What an open attempt asks for: the ID, and the start of each stream. -/
def Op.opening (terms : SessionTerms) : Op → Option (SubscriptionId × Starts)
  | .acceptCandidate id _ supportStart _ =>
    some (id, (CandidateStarts.new supportStart terms.afeMetadata).streams)
  | .open id _ _ streams _ => some (id, streams)
  | .openButtonTurn id _ press _ =>
    some (id, (CandidateStarts.new press terms.afeMetadata).streams)
  | .openReply id _ cellsFrom _ => some (id, replyStreams terms cellsFrom)
  | .openDiagnostic id _ _ => some (id, diagnosticStreams terms)
  | .openResponse id _ afeFrom micFrom _ => some (id, responseStreams afeFrom micFrom)
  | .openNearMiss id _ _ supportStart _ _ => some (id, nearMissStreams terms supportStart)
  | _ => none

/-- The ID an open attempt draws for its subscription; a candidate brings its own. -/
def Op.generated (terms : SessionTerms) (op : Op) : Option SubscriptionId :=
  match op with
  | .acceptCandidate _ _ _ _ => none
  | op => (op.opening terms).map Prod.fst

/-- The reference epoch an operation ends. -/
def Op.over : Op → Option UInt64
  | .streamEnded e _ => if e.streamId = .reference then some e.epoch else none
  | _ => none

/-- The operations that discard queued chunks: the mute, the end of the session, and a device
report of a mute. -/
def Op.discards : Op → Bool
  | .mute => true
  | .sessionLost => true
  | .deviceEnded report _ => report.reason = .mute
  | _ => false

end EchoMuse.Uplink
