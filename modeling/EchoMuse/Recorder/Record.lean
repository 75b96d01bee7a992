import EchoMuse.Ema.Frame

/-!
# The Recorded Vocabulary

What a session file holds, and what of it a grant's scope lets through. Values that the recorder
keeps as it gets them (candidates, policies, configurations, spans, labels and identities) have the
type `π`, the bodies that Home Assistant is sent and answers the type `J`.
-/

namespace EchoMuse.Recorder

/-- An instant of the controller's monotonic clock, in nanoseconds. -/
abbrev MonoInstant := ℕ

/-- Nanoseconds since the recording started. -/
abbrev RelTime := UInt64

/-- An instant relative to the recording's start; one before it is zero. -/
def RelTime.between (origin now : MonoInstant) : RelTime := .ofNat (now - origin)

abbrev IngressOrdinal := UInt64

/-! ### Scope -/

/-- What a grant allows the recorder to keep. -/
structure StreamScope where
  mic : Bool
  reference : Bool
  cells : Bool
  afe : Bool
  transcripts : Bool
deriving DecidableEq, Repr

/-- An uplink stream. -/
inductive StreamName
  | mic | reference | cells | afe
deriving DecidableEq, Repr

namespace StreamScope

/-- Whether frames of a kind may be kept. -/
def allows (scope : StreamScope) : Ema.Kind → Bool
  | .mic => scope.mic
  | .reference => scope.reference
  | .cells => scope.cells
  | .afe => scope.afe
  | .render => false

/-- The uplink streams the scope leaves out. -/
def withheldStreams (scope : StreamScope) : List StreamName :=
  [(.mic, scope.mic), (.reference, scope.reference), (.cells, scope.cells), (.afe, scope.afe)].filterMap
    fun s : StreamName × Bool => if s.2 then none else some s.1

end StreamScope

/-- Text that the grant allowed to be kept, or withheld. -/
inductive Transcript
  | kept (text : String)
  | withheld
deriving DecidableEq, Repr

def Transcript.gate (text : String) (scope : StreamScope) : Transcript :=
  if scope.transcripts then .kept text else .withheld

/-- The device's privacy state as the runtime holds it. -/
structure PrivacyState where
  muted : Bool
  capturePermitted : Bool
deriving DecidableEq, Repr

/-- Whether audio may be kept. -/
def PrivacyState.audioAllowed (p : PrivacyState) : Bool := !p.muted && p.capturePermitted

/-! ### Header, tally and end -/

/-- The grant as the recording states it. -/
structure GrantRecord where
  id : String
  administrator : String
  streams : StreamScope
  elapsedAtStartMs : ℕ
  remainingAtStartMs : ℕ
deriving DecidableEq

/-- The first record of every file. -/
structure Header (π : Type) where
  recording : String
  session : π
  grant : GrantRecord
  anchor : ℕ
  retentionMs : ℕ
  revisions : π
  privacy : PrivacyState
deriving DecidableEq

/-- Why a recording ended. -/
inductive EndReason
  | finished | disconnected | expired | withdrawn | abandoned
deriving DecidableEq, Repr

/-- Counts of what the file does not hold that it otherwise would. -/
structure Tally where
  lostEntries : ℕ := 0
  discardedFrames : ℕ := 0
  discardedEvents : ℕ := 0
  withheldFrames : ℕ := 0
  credentialRedactions : ℕ := 0
deriving DecidableEq, Repr

def Tally.add (t other : Tally) : Tally where
  lostEntries := t.lostEntries + other.lostEntries
  discardedFrames := t.discardedFrames + other.discardedFrames
  discardedEvents := t.discardedEvents + other.discardedEvents
  withheldFrames := t.withheldFrames + other.withheldFrames
  credentialRedactions := t.credentialRedactions + other.credentialRedactions

/-- The last record of a file that ended in order. -/
structure End where
  t : RelTime
  reason : EndReason
  tally : Tally
  lastSeq : Option ℕ
deriving DecidableEq

/-- A note the writer adds where entries are missing. -/
inductive Marker
  | lost (entries : ℕ)
  | discarded (frames events : ℕ)
deriving DecidableEq, Repr

/-! ### Turns -/

/-- How complete a text looks. -/
inductive TextClass
  | complete | extendable | needsMore | unknown
deriving DecidableEq, Repr

/-- The grammar's answer about one text. -/
structure GrammarAnswer where
  text : String
  class_ : TextClass
deriving DecidableEq

/-- What opened a turn. -/
inductive TurnCause
  | wake (candidateId : String)
  | button
  | reply (reopenedFrom : Option ℕ)
deriving DecidableEq

/-- A reply window. -/
structure ReplySpec (π : Type) where
  origin : π
  guardUntil : Option ℕ
  noInputAt : ℕ
  wallDeadline : MonoInstant
deriving DecidableEq

/-- What opens a turn, as the policy takes it. -/
inductive TurnKind (π : Type)
  | wake (supportStart candidateOpen : ℕ) (phrase : String)
  | button
  | reply (r : ReplySpec π)
deriving DecidableEq

structure TurnSpec (π : Type) where
  epoch : ℕ
  start : ℕ
  trigger : ℕ
  cellsFrom : ℕ
  vadFrom : ℕ
  kind : TurnKind π
deriving DecidableEq

/-- A reply window, as recorded. -/
structure ReplyRecord (π : Type) where
  origin : π
  guardUntil : Option ℕ
  noInputAt : ℕ
  wallDeadline : RelTime
deriving DecidableEq

/-- What opened a turn, as recorded. -/
inductive TurnKindRecord (π : Type)
  | wake (supportStart candidateOpen : ℕ) (phrase : String)
  | button
  | reply (r : ReplyRecord π)
deriving DecidableEq

structure TurnSpecRecord (π : Type) where
  epoch : ℕ
  start : ℕ
  trigger : ℕ
  cellsFrom : ℕ
  vadFrom : ℕ
  kind : TurnKindRecord π
deriving DecidableEq

def TurnSpecRecord.of {π : Type} (spec : TurnSpec π) (origin : MonoInstant) : TurnSpecRecord π where
  epoch := spec.epoch
  start := spec.start
  trigger := spec.trigger
  cellsFrom := spec.cellsFrom
  vadFrom := spec.vadFrom
  kind :=
    match spec.kind with
    | .wake supportStart candidateOpen phrase => .wake supportStart candidateOpen phrase
    | .button => .button
    | .reply r => .reply ⟨r.origin, r.guardUntil, r.noInputAt, .between origin r.wallDeadline⟩

/-- One recognizer token: its spelling, and when it was emitted. -/
structure Token where
  text : String
  emitted : ℕ
deriving DecidableEq

/-- One streaming ASR result. -/
structure AsrObservation (π : Type) where
  through : ℕ
  tokens : List Token
  trailingBlanks : ℕ
  kind : π
deriving DecidableEq

/-- One streaming ASR result, as recorded. -/
structure AsrRecord (π : Type) where
  through : ℕ
  tokens : Option (List Token)
  trailingBlanks : ℕ
  kind : π
deriving DecidableEq

def AsrRecord.of {π : Type} (obs : AsrObservation π) (scope : StreamScope) : AsrRecord π where
  through := obs.through
  tokens := if scope.transcripts then some obs.tokens else none
  trailingBlanks := obs.trailingBlanks
  kind := obs.kind

/-- The sentence matcher's answer; its outcome is a class or an error. -/
structure RecognizerAnswer (π : Type) where
  text : String
  outcome : π
deriving DecidableEq

/-- The pause server's answer: its words, or why there are none. -/
structure PauseServerAnswer (π : Type) where
  pause : ℕ
  outcome : π ⊕ String
deriving DecidableEq

/-- The pause server's answer, as recorded. -/
inductive PauseServerOutcome (π : Type)
  | words (text : Transcript)
  | failed (failure : π)
deriving DecidableEq

def PauseServerOutcome.of {π : Type} (answer : PauseServerAnswer π) (scope : StreamScope) :
    PauseServerOutcome π :=
  match answer.outcome with
  | .inr said => .words (.gate said scope)
  | .inl failure => .failed failure

/-- A control event routed to a turn. -/
inductive TurnControl
  | mute | sessionLost | audioOverrun | workerError | discontinuity
deriving DecidableEq, Repr

/-- A recognizer answer the policy applied. -/
structure AppliedAnswer where
  text : Transcript
  at_ : ℕ
deriving DecidableEq

/-- What a turn's policy decides. -/
inductive Decision (π : Type)
  | commandStarted (at_ : ℕ)
  | askRecognizer (text : String)
  | endPending (route : π) (boundary since : ℕ)
  | endRevoked (boundary at_ : ℕ)
  | commit (route : π) (boundary : ℕ) (span endBound : π) (lastWord : Option ℕ) (at_ : ℕ)
      (text : String) (class_ : Option TextClass) (recheck : Bool) (source : π)
  | close (reason : π) (at_ : Option ℕ)
  | reopenReply (start trigger noInputAt : ℕ)
deriving DecidableEq

/-- One decision, as recorded. -/
inductive DecisionRecord (π : Type)
  | commandStarted (at_ : ℕ)
  | askRecognizer (text : Transcript)
  | endPending (route : π) (boundary since : ℕ)
  | endRevoked (boundary at_ : ℕ)
  | commit (route : π) (boundary : ℕ) (span endBound : π) (lastWord : Option ℕ) (at_ : ℕ)
      (text : Transcript) (class_ : Option TextClass) (recheck : Bool) (source : Option π)
  | close (reason : π) (at_ : Option ℕ)
  | reopenReply (start trigger noInputAt : ℕ)
deriving DecidableEq

/-- The record of a decision; its text is kept only under the scope. -/
def DecisionRecord.of {π : Type} (d : Decision π) (scope : StreamScope) : DecisionRecord π :=
  match d with
  | .commandStarted at_ => .commandStarted at_
  | .askRecognizer text => .askRecognizer (.gate text scope)
  | .endPending route boundary since => .endPending route boundary since
  | .endRevoked boundary at_ => .endRevoked boundary at_
  | .commit route boundary span endBound lastWord at_ text class_ recheck source =>
    .commit route boundary span endBound lastWord at_ (.gate text scope) class_ recheck (some source)
  | .close reason at_ => .close reason at_
  | .reopenReply start trigger noInputAt => .reopenReply start trigger noInputAt

/-- One step of one turn. -/
inductive TurnStep (π : Type)
  | opened (cause : TurnCause) (config : π) (spec : TurnSpecRecord π)
  | deviceCells (epoch first : ℕ) (cells : List π)
  | deviceCellsWithheld (epoch first count : ℕ)
  | vad (epoch first : ℕ) (vad : List π)
  | echo (epoch first : ℕ) (cells : List π)
  | gap (epoch : ℕ) (span : π)
  | asr (epoch : ℕ) (observation : AsrRecord π)
  | recognizerAnswer (text : Transcript) (outcome : π)
  | pauseServerAsked (pause : ℕ)
  | pauseServerAnswer (pause : ℕ) (outcome : PauseServerOutcome π)
  | advanced (grammar : List GrammarAnswer) (applied : List AppliedAnswer)
      (decisions : List (DecisionRecord π))
  | timer (decisions : List (DecisionRecord π))
  | control (control : TurnControl) (decisions : List (DecisionRecord π))
deriving DecidableEq

/-! ### Wake candidates, echo and Home Assistant -/

/-- The verifier's result. -/
inductive VerifierResult
  | text (text : String)
  | error
deriving DecidableEq

/-- The verifier's result, as recorded. -/
inductive VerifierRecord
  | text (text : Transcript)
  | error
deriving DecidableEq

def VerifierRecord.of (result : VerifierResult) (scope : StreamScope) : VerifierRecord :=
  match result with
  | .text heard => .text (.gate heard scope)
  | .error => .error

/-- One step of one wake candidate, with the decision made at it. -/
inductive WakeEntry (π : Type)
  | arrived (candidate conditions policy : π) (decision : Option π)
  | reference (candidateId : String) (score : π) (decision : Option π)
  | echo (candidateId : String) (echo : π) (decision : Option π)
  | verified (candidateId : String) (result : VerifierRecord) (decision : Option π)
  | timer (candidateId : String) (decision : Option π)
deriving DecidableEq

/-- One echo analyzer input or output; the inputs other than loudness cells are kept as they are. -/
inductive EchoStep (π : Type)
  | input (step : π)
  | deviceCells (epoch first : ℕ) (cells : List π)
  | deviceCellsWithheld (epoch first count : ℕ)
  | polled (labels : List π)
  | compared (support : π) (candidateId : Option String) (echo : Option π)
deriving DecidableEq

/-- A Home Assistant body, after credential redaction. -/
inductive HaBody (J : Type)
  | kept (json : J) (redactions : ℕ)
  | withheld
deriving DecidableEq

/-- Home Assistant's failure, as recorded. -/
inductive HaFailure
  | notDispatched | connectionLost
  | rejected (code : String)
  | timeout | badResponse
deriving DecidableEq

/-- One step of one Home Assistant exchange. -/
inductive HaEntry (π J : Type)
  | request (exchange : ℕ) (turn : Option ℕ) (operation : π) (body : HaBody J)
  | reply (exchange : ℕ) (outcome : HaFailure ⊕ HaBody J)
deriving DecidableEq

/-- How many credential values were replaced in the step's body. -/
def HaEntry.redactions {π J : Type} : HaEntry π J → ℕ
  | .request _ _ _ (.kept _ n) => n
  | .reply _ (.inr (.kept _ n)) => n
  | _ => 0

/-! ### Events -/

/-- What the runtime cancelled. -/
inductive CancelTarget
  | turn (turn : ℕ)
  | candidate (candidateId : String)
  | exchange (exchange : ℕ)
  | playback (generation : ℕ)
deriving DecidableEq

/-- Why the session ended. -/
inductive DisconnectReason
  | deviceClosed | replaced | linkLost | controllerClosed
deriving DecidableEq, Repr

/-- Why audio was not taken. -/
inductive WithheldReason
  | muted | captureNotPermitted | mutedFrame
deriving DecidableEq, Repr

/-- Every event kind. -/
inductive Event (π J : Type)
  | revisions (revisions : π)
  | streamOpened (ingress : IngressOrdinal) (stream : StreamName) (epoch : ℕ)
  | streamEnded (ingress : IngressOrdinal) (stream : StreamName) (epoch : ℕ)
  | privacy (ingress : Option IngressOrdinal) (state : PrivacyState)
  | audioWithheld (reason : WithheldReason) (frames : ℕ)
  | cancelled (target : CancelTarget)
  | disconnected (reason : DisconnectReason)
  | wake (entry : WakeEntry π)
  | turn (turn : ℕ) (step : TurnStep π)
  | echo (analyzer : ℕ) (step : EchoStep π)
  | ha (entry : HaEntry π J)
deriving DecidableEq

/-- The rough size an event takes in the write queue. -/
def Event.QUEUE_COST : ℕ := 1024

/-- One observed event. -/
structure Entry (π J : Type) where
  seq : ℕ
  t : RelTime
  event : Event π J
deriving DecidableEq

/-- One recorded frame. -/
structure FrameEntry where
  seq : ℕ
  t : RelTime
  ingress : IngressOrdinal
  frame : List UInt8
deriving DecidableEq

end EchoMuse.Recorder
