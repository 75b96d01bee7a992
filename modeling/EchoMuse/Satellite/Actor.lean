import EchoMuse.Monitors
import Mathlib.Data.Int.Notation
import Mathlib.Logic.Function.Basic
import Mathlib.Algebra.Ring.Nat

/-!
# The Voice Satellite

The actor of the voice satellite with its connections to Home Assistant. The runtime starts and
aborts runs and feeds them audio; Home Assistant answers starts and reports pipeline events over
the connection subscribed to the voice assistant. Neither answers nor events name the run.

Home Assistant handles the frames of a connection in order. A start abandons the pipeline before it
and is answered once; a stop abandons the current pipeline; an abandoned pipeline sends nothing
more. What it has sent arrives in order and arbitrarily late.

Starts, answers and events carry the run they belong to here, which the frames do not and the actor
never reads. The texts of events, the media player, the announcements and the entities' states are
left out; the other frames a connection is sent are all one.
-/

namespace EchoMuse.Satellite

abbrev ConnId := ℕ

abbrev RunId := ℕ

/-! ### Events and frames -/

/-- How a controller-started run ended. -/
inductive RunClosed
  | finished | refused | lost | audioBacklog
deriving DecidableEq, Repr

/-- A pipeline event of Home Assistant. -/
inductive VoiceAssistantEvent
  | error | runStart | runEnd | sttStart | sttEnd | intentStart | intentProgress | intentEnd
  | ttsStart | ttsEnd | wakeWordStart | wakeWordEnd | sttVadStart | sttVadEnd | ttsStreamStart
  | ttsStreamEnd
  /-- A type the schema does not name. -/
  | unknown (type : ℤ)
deriving DecidableEq

/-- An event of a controller-started run. -/
inductive RunEvent
  | accepted | started | wakeWordStarted | wakeWordEnded | sttStarted | vadStarted | vadEnded
  | sttEnded | intentStarted | intentProgress | intentEnded | ttsStarted | ttsEnded
  | ttsStreamStarted | ttsStreamEnded | error
  | unknown (type : ℤ)
  | closed (why : RunClosed)
deriving DecidableEq

/-- Maps one pipeline event to a run event. -/
def runEvent : VoiceAssistantEvent → RunEvent
  | .error => .error
  | .runStart => .started
  | .runEnd => .closed .finished
  | .sttStart => .sttStarted
  | .sttEnd => .sttEnded
  | .intentStart => .intentStarted
  | .intentProgress => .intentProgress
  | .intentEnd => .intentEnded
  | .ttsStart => .ttsStarted
  | .ttsEnd => .ttsEnded
  | .wakeWordStart => .wakeWordStarted
  | .wakeWordEnd => .wakeWordEnded
  | .sttVadStart => .vadStarted
  | .sttVadEnd => .vadEnded
  | .ttsStreamStart => .ttsStreamStarted
  | .ttsStreamEnd => .ttsStreamEnded
  | .unknown type => .unknown type

/-- A frame for Home Assistant. -/
inductive Frame
  | start (run : RunId)
  | stop
  | audio (bytes : ℕ) (end_ : Bool)
  | finished (success : Bool)
  | other
deriving DecidableEq

/-- A message from Home Assistant. -/
inductive Message
  /-- The answer to a run's start. -/
  | answer (run : RunId) (error : Bool)
  /-- An event of a run's pipeline. -/
  | event (run : RunId) (e : VoiceAssistantEvent)
deriving DecidableEq

/-- What the runtime gets of a run; `origin` is the run whose pipeline it came from, none when the
actor made it. -/
structure Request where
  run : RunId
  event : RunEvent
  origin : Option RunId
deriving DecidableEq

/-! ### Audio frames -/

/-- The size of a run's audio chunks. -/
def runAudioChunkBytes : ℕ := 640

/-- 15 s of audio waiting for the run to be accepted. -/
def maxPendingRunAudio : ℕ := 15 * 16000 * 2

/-- The bytes of a varint. -/
def varintLen (n : ℕ) : ℕ := if n < 128 then 1 else if n < 16384 then 2 else 3

/-- The length of an audio frame: indicator, length, type and payload. -/
def audioFrameLen (bytes : ℕ) (end_ : Bool) : ℕ :=
  let payload := (if bytes = 0 then 0 else 1 + varintLen bytes + bytes) + if end_ then 2 else 0
  1 + varintLen payload + 1 + payload

def Frame.len : Frame → ℕ
  | .audio bytes end_ => audioFrameLen bytes end_
  | _ => 0

/-! ### Connections -/

/-- The frames queued for one connection's task. -/
def outboundCapacity : ℕ := 512

/-- Home Assistant's pipeline on a connection. -/
structure Pipeline where
  run : RunId
  answered : Bool
deriving DecidableEq

/-- A connection with both of its ends. -/
structure Conn where
  /-- The node has the connection. -/
  known : Bool := false
  /-- The node is closing it. -/
  closing : Bool := false
  /-- Frames queued for its task. -/
  out : List Frame := []
  /-- Frames on the way to Home Assistant. -/
  inbox : List Frame := []
  pipeline : Option Pipeline := none
  /-- Messages on the way to the actor. -/
  outbox : List Message := []
deriving DecidableEq

/-- What Home Assistant does on a connection. -/
inductive HomeStep
  | take
  | answer (error : Bool)
  | event (e : VoiceAssistantEvent)

namespace Conn

def isOpen (k : Conn) : Bool := k.known && !k.closing

/-- The connection is asked to close. -/
def close (k : Conn) : Conn := if k.known then { k with closing := true } else k

/-- Queues a frame; a connection whose queue is full is closed. -/
def send (k : Conn) (f : Frame) : Conn × Bool :=
  if k.isOpen then
    if k.out.length < outboundCapacity then ({ k with out := k.out ++ [f] }, true)
    else (k.close, false)
  else (k, false)

/-- The connection's task writes a frame. -/
def write (k : Conn) : Conn :=
  match k.out with
  | [] => k
  | f :: rest => { k with out := rest, inbox := k.inbox ++ [f] }

/-- Home Assistant waits to answer the last start. -/
def answering (k : Conn) : Bool := k.pipeline.any fun p => !p.answered

/-- Home Assistant handles the next frame, once the last start is answered. -/
def take (k : Conn) : Conn :=
  if k.answering then k
  else
    match k.inbox with
    | [] => k
    | .start run :: rest => { k with inbox := rest, pipeline := some ⟨run, false⟩ }
    | .stop :: rest => { k with inbox := rest, pipeline := none }
    | _ :: rest => { k with inbox := rest }

/-- Home Assistant answers the last start. -/
def answer (k : Conn) (error : Bool) : Conn :=
  match k.pipeline with
  | some ⟨run, false⟩ =>
    { k with pipeline := some ⟨run, true⟩, outbox := k.outbox ++ [.answer run error] }
  | _ => k

/-- The pipeline sends an event. -/
def event (k : Conn) (e : VoiceAssistantEvent) : Conn :=
  match k.pipeline with
  | some p => { k with outbox := k.outbox ++ [.event p.run e] }
  | none => k

/-- One step of Home Assistant. -/
def home (k : Conn) : HomeStep → Conn
  | .take => k.take
  | .answer error => k.answer error
  | .event e => k.event e

end Conn

/-! ### The actor -/

/-- The controller-started run in progress. -/
structure ActiveRun where
  id : RunId
  conn : ConnId
  /-- Home Assistant answered the start without error. -/
  accepted : Bool := false
  /-- The end-of-audio chunk has been produced. -/
  audioEnded : Bool := false
  /-- Frames waiting for Home Assistant to accept the run. -/
  pending : List Frame := []
  pendingBytes : ℕ := 0
  /-- The bytes short of a whole chunk. -/
  remainder : ℕ := 0
deriving DecidableEq

/-- What the runtime's request queue says to one more request. -/
inductive Room
  | free | full | gone
deriving DecidableEq, Repr

/-- The actor and its connections. -/
structure Actor where
  subscriber : Option ConnId := none
  run : Option ActiveRun := none
  /-- The run whose spoken reply Home Assistant may still be waiting on, and its connection. -/
  responseOwner : Option (RunId × ConnId) := none
  nextRun : RunId := 0
  /-- Closures the request queue had no room for. -/
  undelivered : List Request := []
  runtimeGone : Bool := false
  conns : ConnId → Conn := fun _ => {}
  nextConn : ConnId := 0
  /-- What the runtime got, in order. -/
  requests : List Request := []
  /-- The runs that became accepted, each with the run whose start was answered. -/
  accepts : List (RunId × RunId) := []
  /-- The runs the runtime ended itself, by aborting them or starting another. -/
  ended : List RunId := []

namespace Actor

def isOpen (s : Actor) (c : ConnId) : Bool := (s.conns c).isOpen

def close (s : Actor) (c : ConnId) : Actor :=
  { s with conns := Function.update s.conns c (s.conns c).close }

/-- Queues a frame for a connection; says whether it was queued. -/
def send (s : Actor) (c : ConnId) (f : Frame) : Actor × Bool :=
  ({ s with conns := Function.update s.conns c ((s.conns c).send f).1 }, ((s.conns c).send f).2)

/-- Queues frames until one does not fit. -/
def sendAll (s : Actor) (c : ConnId) : List Frame → Actor
  | [] => s
  | f :: rest =>
    let r := s.send c f
    if r.2 then r.1.sendAll c rest else r.1

/-- Hands a request to the runtime. A full queue closes the connection it came from. -/
def deliver (s : Actor) (room : Room) (q : Request) (source : Option ConnId) : Actor :=
  match room with
  | .free => { s with requests := s.requests ++ [q] }
  | .full =>
    match source with
    | some c => s.close c
    | none => s
  | .gone => { s with runtimeGone := true }

/-- Hands a closure to the runtime. It waits for room, behind the closures that wait already. -/
def deliverClosure (s : Actor) (room : Room) (q : Request) : Actor :=
  if s.undelivered ≠ [] then { s with undelivered := s.undelivered ++ [q] }
  else
    match room with
    | .free => { s with requests := s.requests ++ [q] }
    | .full => { s with undelivered := s.undelivered ++ [q] }
    | .gone => { s with runtimeGone := true }

def deliverRun (s : Actor) (room : Room) (q : Request) (source : Option ConnId) : Actor :=
  match q.event with
  | .closed _ => s.deliverClosure room q
  | _ => s.deliver room q source

/-- Ends the run on a connection, if any, as lost. -/
def loseRunOn (s : Actor) (room : Room) (c : ConnId) : Actor :=
  match s.run with
  | some r =>
    if r.conn = c then
      { s with run := none }.deliverRun room ⟨r.id, .closed .lost, none⟩ none
    else s
  | none => s

/-- Home Assistant will not wait on the run's spoken reply. -/
def forgetResponse (s : Actor) (run : RunId) : Actor :=
  if s.responseOwner.any (·.1 = run) then { s with responseOwner := none } else s

def forgetConnection (s : Actor) (room : Room) (c : ConnId) : Actor :=
  let s := if s.subscriber = some c then { s with subscriber := none } else s
  let s := s.loseRunOn room c
  if s.responseOwner.any (·.2 = c) then { s with responseOwner := none } else s

/-- The newest subscriber wins; the run of the one before is lost. -/
def onVoiceSubscription (s : Actor) (room : Room) (c : ConnId) (subscribe : Bool) : Actor :=
  if subscribe then
    let s := match s.subscriber with
      | some previous => if previous ≠ c then s.loseRunOn room previous else s
      | none => s
    { s with subscriber := some c }
  else if s.subscriber = some c then { s with subscriber := none }.loseRunOn room c
  else s

/-- Home Assistant answered a start: the one of the run that waits for an answer, if any. -/
def onRunResponse (s : Actor) (room : Room) (c : ConnId) (origin : RunId) (error : Bool) :
    Actor :=
  match s.run with
  | some r =>
    if r.conn = c ∧ r.accepted = false then
      if error then
        ({ s with run := none }.forgetResponse r.id).deliverRun room
          ⟨r.id, .closed .refused, some origin⟩ (some c)
      else
        let s := { s with
          run := some { r with accepted := true, pending := [], pendingBytes := 0 }
          accepts := s.accepts ++ [(r.id, origin)] }
        (s.deliverRun room ⟨r.id, .accepted, some origin⟩ (some c)).sendAll c r.pending
    else s
  | none => s

/-- A pipeline event arrived: one of the run that was accepted, if any. -/
def onRunEvent (s : Actor) (room : Room) (c : ConnId) (origin : RunId)
    (e : VoiceAssistantEvent) : Actor :=
  match s.run with
  | some r =>
    if r.conn = c ∧ r.accepted = true then
      let s := if runEvent e = .closed .finished then { s with run := none } else s
      s.deliverRun room ⟨r.id, runEvent e, some origin⟩ (some c)
    else s
  | none => s

/-- The actor handles the next message of a connection; one it is closing is not heard. -/
def onMessage (s : Actor) (room : Room) (c : ConnId) : Actor :=
  match (s.conns c).outbox with
  | [] => s
  | m :: rest =>
    let s := { s with conns := Function.update s.conns c { s.conns c with outbox := rest } }
    if s.isOpen c then
      match m with
      | .answer run error => s.onRunResponse room c run error
      | .event run e => s.onRunEvent room c run e
    else s

/-- Aborts the run. -/
def abortRun (s : Actor) (run : RunId) : Actor :=
  let s := match s.run with
    | some r =>
      if r.id = run then ({ s with run := none, ended := s.ended ++ [r.id] }.send r.conn .stop).1
      else s
    | none => s
  s.forgetResponse run

/-- The run's spoken reply has finished playing. -/
def finishRunResponse (s : Actor) (run : RunId) (success : Bool) : Actor :=
  match s.responseOwner with
  | some (owner, c) =>
    if owner = run then ({ s with responseOwner := none }.send c (.finished success)).1 else s
  | none => s

/-- Stops the run in progress, if any. -/
def stopped (s : Actor) : Actor :=
  match s.run with
  | some previous =>
    let s := { s with run := none, ended := s.ended ++ [previous.id] }
    if s.isOpen previous.conn then (s.send previous.conn .stop).1 else s
  | none => s

/-- Sends the next run's start. -/
def started (s : Actor) (c : ConnId) : Actor :=
  let r := s.send c (.start s.nextRun)
  if r.2 then
    { r.1 with
      nextRun := s.nextRun + 1
      run := some { id := s.nextRun, conn := c }
      responseOwner := some (s.nextRun, c) }
  else r.1

/-- Stops the run before and starts one on the subscriber. A conversation ID that does not fit a
frame changes nothing. -/
def startRun (s : Actor) (fits : Bool) : Actor :=
  match s.subscriber with
  | none => s
  | some c => if s.isOpen c = false ∨ fits = false then s else s.stopped.started c

/-- Sends audio frames of the run, or holds them until Home Assistant accepts it. -/
def emitRunAudio (s : Actor) (room : Room) (r : ActiveRun) (frames : List Frame) : Actor :=
  if r.accepted then { s with run := some r }.sendAll r.conn frames
  else
    let r := { r with
      pending := r.pending ++ frames
      pendingBytes := r.pendingBytes + (frames.map Frame.len).sum }
    if maxPendingRunAudio < r.pendingBytes then
      (({ s with run := none }.send r.conn .stop).1.forgetResponse r.id).deliverRun room
        ⟨r.id, .closed .audioBacklog, none⟩ none
    else { s with run := some r }

/-- Audio of a run, in whole chunks. -/
def runAudio (s : Actor) (room : Room) (run : RunId) (bytes : ℕ) : Actor :=
  match s.run with
  | some r =>
    if r.id = run ∧ r.audioEnded = false then
      let total := r.remainder + bytes
      s.emitRunAudio room { r with remainder := total % runAudioChunkBytes }
        (List.replicate (total / runAudioChunkBytes) (.audio runAudioChunkBytes false))
    else s
  | none => s

/-- The last partial chunk of a run, and the empty one that ends its audio. -/
def endRunAudio (s : Actor) (room : Room) (run : RunId) : Actor :=
  match s.run with
  | some r =>
    if r.id = run ∧ r.audioEnded = false then
      s.emitRunAudio room { r with audioEnded := true, remainder := 0 }
        ((if r.remainder = 0 then [] else [.audio r.remainder false]) ++ [.audio 0 true])
    else s
  | none => s

/-- The request queue has room for a closure that waits. -/
def flush (s : Actor) (room : Room) : Actor :=
  match s.undelivered with
  | [] => s
  | q :: rest =>
    match room with
    | .free => { s with undelivered := rest, requests := s.requests ++ [q] }
    | .full => s
    | .gone => { s with runtimeGone := true }

/-- One step of the actor, of a connection or of Home Assistant. -/
inductive Step
  | startRun (fits : Bool)
  | runAudio (run : RunId) (bytes : ℕ)
  | endRunAudio (run : RunId)
  | abortRun (run : RunId)
  | finishRunResponse (run : RunId) (success : Bool)
  /-- The actor sends some other frame. -/
  | other (c : ConnId)
  | flush
  /-- The actor handles the next message of a connection. -/
  | message (c : ConnId)
  /-- A connection subscribes to the voice assistant, or cancels its subscription. -/
  | subscription (c : ConnId) (subscribe : Bool)
  /-- The actor closes a connection, over a malformed frame for instance. -/
  | close (c : ConnId)
  /-- A connection has ended. -/
  | closed (c : ConnId)
  | connected
  | write (c : ConnId)
  | home (c : ConnId) (h : HomeStep)

/-- The actor's part of a step. -/
def act (s : Actor) (room : Room) : Step → Actor
  | .startRun fits => s.startRun fits
  | .runAudio run bytes => s.runAudio room run bytes
  | .endRunAudio run => s.endRunAudio room run
  | .abortRun run => s.abortRun run
  | .finishRunResponse run success => s.finishRunResponse run success
  | .other c => (s.send c .other).1
  | .flush => s.flush room
  | .message c => s.onMessage room c
  | .subscription c subscribe => if s.isOpen c then s.onVoiceSubscription room c subscribe else s
  | .close c => s.close c
  | .closed c =>
    if (s.conns c).known then
      { s with conns := Function.update s.conns c { s.conns c with known := false } }.forgetConnection
        room c
    else s
  | .connected =>
    { s with
      conns := Function.update s.conns s.nextConn { s.conns s.nextConn with known := true }
      nextConn := s.nextConn + 1 }
  | .write _ | .home _ _ => s

/-- One step, with what the request queue says meanwhile. The actor stops when the runtime is
gone. -/
def step (s : Actor) (i : Room × Step) : Actor :=
  match i.2 with
  | .write c => { s with conns := Function.update s.conns c (s.conns c).write }
  | .home c h => { s with conns := Function.update s.conns c ((s.conns c).home h) }
  | a => if s.runtimeGone then s else s.act i.1 a

end Actor

end EchoMuse.Satellite
