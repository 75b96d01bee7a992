import EchoMuse.Ema.Codec
import Mathlib.Logic.Function.Basic

/-!
# The Render Client

The controller's side of a device's playbacks (`playback/src/render.rs`), over the narrow view of
the link it needs (`link.rs`) and the bodies it exchanges (`wire.rs`). A playback is started,
acknowledged, fed with packets inside a window past the device's progress, ended or cancelled,
and reported finished.

The link is any machine that answers a request with a message id or not at all, and a frame with
accepted, full or closed. Every operation takes the client and the link together with the log of
what the client did: the events it queued, the requests it made, the frames it offered and the
tokens it cancelled. An instant is a number of nanoseconds. A random playback id or epoch is an
input of the start that draws it, and a playback's cancellation token is named after its id.
-/

namespace EchoMuse.Render

/-! ### What goes over the wire -/

/-- Frames per render packet, the most kind 3 allows. -/
def PACKET_FRAMES : ℕ := 3840

/-- The most frames sent past the device's reported progress. -/
def MAX_FRAMES_AHEAD : UInt64 := 258304

/-- How long to wait before offering a frame again after the link's queue was full. -/
def FRAME_RETRY : ℕ := 20000000

/-- The longest a started answer may go without playback progress. -/
def STALL_LIMIT : ℕ := 2000000000

/-- The longest one spoken answer may play. -/
def ANSWER_LENGTH_LIMIT : ℕ := 120000000000

/-- A `render.start` source class. -/
inductive SourceClass
  | content
  | dialogOutput
  | earcon
  | alertPreview
deriving DecidableEq, Repr

/-- The classes the controller streams audio for. -/
inductive NetworkClass
  | content
  | dialogOutput
deriving DecidableEq, Repr

/-- `SourceClass::from` of a network class. -/
def NetworkClass.toSource : NetworkClass → SourceClass
  | .content => .content
  | .dialogOutput => .dialogOutput

/-- A device's vocabulary value: known, or kept as sent. -/
inductive Reported (α : Type)
  | known (value : α)
  | unrecognized (text : String)
deriving DecidableEq

/-- `reported` of a text. -/
def reported {α : Type} (text : String) (parse : String → Option α) : Reported α :=
  match parse text with
  | some value => .known value
  | none => .unrecognized text

/-- `render.finished.reason`. -/
inductive FinishReason
  | drained
  | cancelled
  | failed
  | underrun
deriving DecidableEq, Repr

/-- `render.progress.event`. -/
inductive ProgressEvent
  | progress
  | start
  | flush
  | seek
  | pause
  | resume
  | underrun
  | gain
deriving DecidableEq, Repr

/-- A `command.ack` rejection code the firmware sends for `render.*`. -/
inductive RenderRejection
  | invalid
  | invalidClass
  | unknownAsset
  | staleGeneration
  | unknownPlayback
deriving DecidableEq, Repr

/-- `RenderRejection::from_wire`. -/
def RenderRejection.fromWire : String → Option RenderRejection
  | "invalid" => some .invalid
  | "invalid_class" => some .invalidClass
  | "unknown_asset" => some .unknownAsset
  | "stale_generation" => some .staleGeneration
  | "unknown_playback" => some .unknownPlayback
  | _ => none

/-- Why the controller cancels a playback. -/
inductive CancelReason
  | stopped
  | superseded
  | interrupted
  | responseTimeout
  | sourceFailed
  | unconfirmed
deriving DecidableEq, Repr

/-- A playback's `playback_id`. -/
structure PlaybackId where
  text : String
deriving DecidableEq, Repr

/-- The id of a command. -/
structure MessageId where
  text : String
deriving DecidableEq, Repr

/-- A kind-3 render epoch, never zero. -/
structure RenderEpoch where
  value : UInt64
  ne_zero : value ≠ 0
deriving DecidableEq

/-- A built-in earcon the device holds. -/
inductive Earcon
  | wakeChime
  | noInputChime
  | announcementChime
deriving DecidableEq, Repr

/-- The `local_asset` name of an earcon. -/
def Earcon.asset : Earcon → String
  | .wakeChime => "builtin:wake_chime"
  | .noInputChime => "builtin:no_input_chime"
  | .announcementChime => "builtin:announcement_chime"

/-- An alert's sound: the fallback tone or a sound asset by hash. -/
inductive AlertSound
  | fallback
  | asset (hash : String)
deriving DecidableEq, Repr

/-- What a local playback plays. -/
inductive LocalSource
  | earcon (earcon : Earcon)
  | alertPreview (sound : AlertSound)
deriving DecidableEq, Repr

/-- `LocalSource::class`. -/
def LocalSource.class : LocalSource → SourceClass
  | .earcon .. => .earcon
  | .alertPreview .. => .alertPreview

/-- `LocalSource::asset`. -/
def LocalSource.asset : LocalSource → String
  | .earcon e => e.asset
  | .alertPreview .fallback => "builtin:fallback"
  | .alertPreview (.asset hash) => hash

/-- The PCM16 `format` code. -/
def FORMAT_PCM16 : UInt8 := 1

/-- `render.start`; the gain is the bits of a 64-bit float. -/
structure RenderStart where
  playbackId : PlaybackId
  sourceClass : SourceClass
  epoch : Option RenderEpoch
  gainDb : UInt64
  format : UInt8
  localAsset : Option String
  announcement : Bool
deriving DecidableEq

/-- `render.end`: no audio follows `endFrame`. -/
structure RenderEnd where
  playbackId : PlaybackId
  endFrame : ℕ
deriving DecidableEq

/-- `render.cancel`. -/
structure RenderCancel where
  playbackId : PlaybackId
  reason : CancelReason
deriving DecidableEq

/-- A command the render client sends. -/
inductive Command
  | renderStart (body : RenderStart)
  | renderEnd (body : RenderEnd)
  | renderCancel (body : RenderCancel)
deriving DecidableEq

/-- Why a command's acknowledgement will never arrive. -/
inductive AckFailure
  | timedOut
  | sessionEnded
deriving DecidableEq, Repr

/-- How the device answered a command, or why no answer came. -/
inductive AckOutcome
  | accepted
  | rejected (code : Option String)
  | failed (failure : AckFailure)
deriving DecidableEq

/-- `render.progress`; the texts of its two vocabularies are kept as sent. -/
structure RenderProgress where
  playbackId : PlaybackId
  event : Reported ProgressEvent
  submittedFrames : UInt64
  completedFrames : UInt64
  monoNs : Int64
  uncertaintyUs : UInt32
  timingQuality : String
  referenceCoverage : String
  seekFrame : Option UInt64
  missingFrom : Option UInt64
  missingTo : Option UInt64
  gainDb : Option UInt64
deriving DecidableEq

/-- `render.finished`. -/
structure RenderFinished where
  playbackId : PlaybackId
  lastCompletedFrame : UInt64
  reason : Reported FinishReason
  timingQuality : String
deriving DecidableEq

/-- A device report about a playback. -/
inductive RenderReport
  | progress (progress : RenderProgress)
  | finished (finished : RenderFinished)
deriving DecidableEq

/-- `RenderReport::playback_id`. -/
def RenderReport.playbackId : RenderReport → PlaybackId
  | .progress p => p.playbackId
  | .finished f => f.playbackId

/-! ### The link -/

/-- The token of a playback, named after it. A frame whose token is cancelled is not written. -/
structure CancellationToken where
  playback : PlaybackId
deriving DecidableEq

/-- One kind-3 render frame for the audio socket. -/
structure RenderFrame where
  bytes : List UInt8
  playback : CancellationToken
  sequence : ℕ
  firstFrame : ℕ
  frames : ℕ
deriving DecidableEq

/-- The samples a frame carries, as the device reads them. -/
def RenderFrame.pcm (f : RenderFrame) : List Int16 :=
  match Ema.Packet.parse f.bytes with
  | .ok packet =>
      match packet.content with
      | .pcm samples => samples
      | _ => []
  | .error _ => []

/-- How the link takes a frame; a frame that finds the queue full is handed back. -/
inductive FrameAnswer
  | accepted
  | full
  | closed
deriving DecidableEq, Repr

/-- A link: what it answers to a request at a generation, and to a frame. -/
structure RenderLink (L : Type*) where
  request : L → Command → UInt32 → L × Option MessageId
  queueFrame : L → RenderFrame → L × FrameAnswer

/-! ### The client's state -/

/-- A playback the client started. -/
structure PlaybackRef where
  id : PlaybackId
  «class» : SourceClass
  generation : UInt32
deriving DecidableEq

/-- The response limits of one spoken answer. -/
structure ResponseLimits where
  startDeadline : ℕ
deriving DecidableEq, Repr

/-- Which response limit was exceeded. -/
inductive ResponseLimit
  | start
  | stall
  | length
deriving DecidableEq, Repr

/-- A network playback to start. -/
structure NetworkStart where
  «class» : NetworkClass
  gainDb : UInt64
  announcement : Bool
  limits : Option ResponseLimits

/-- How a playback ended. -/
inductive PlaybackEnd
  | finished (reason : Reported FinishReason) (lastCompletedFrame : UInt64)
  | rejected (code : Option (Reported RenderRejection))
  | unconfirmed
  | linkClosed
deriving DecidableEq

/-- Something that happened to a playback. -/
inductive RenderEvent
  | accepted (playback : PlaybackRef)
  | started (playback : PlaybackRef)
  | progress (playback : PlaybackRef) (progress : RenderProgress)
  | cancelled (playback : PlaybackRef) (reason : CancelReason)
  | limitExceeded (playback : PlaybackRef) (limit : ResponseLimit)
  | ended (playback : PlaybackRef) (how : PlaybackEnd)
deriving DecidableEq

/-- The playback an event is about. -/
def RenderEvent.playback : RenderEvent → PlaybackRef
  | .accepted p | .started p | .progress p _ | .cancelled p _ | .limitExceeded p _ | .ended p _ => p

inductive Phase
  | awaitingAck
  | running
  | cancelling
deriving DecidableEq, Repr

inductive CommandKind
  | start
  | «end»
  | cancel
deriving DecidableEq, Repr

/-- The audio of a network playback on its way to the link. -/
structure Network where
  epoch : RenderEpoch
  token : CancellationToken
  pending : List Int16
  /-- A packet the link's queue had no room for. -/
  blocked : Option RenderFrame
  retryAt : Option ℕ
  /-- One past the last frame packetized. -/
  nextFrame : ℕ
  nextSequence : ℕ
  /-- The device's latest `completed_frames`. -/
  completed : UInt64
  sourceDone : Bool
  endSent : Bool

structure LimitClock where
  startDeadline : ℕ
  startedAt : Option ℕ
  lastAdvance : Option ℕ

/-- `LimitClock::deadline`. -/
def LimitClock.deadline (c : LimitClock) : ℕ × ResponseLimit :=
  match c.startedAt, c.lastAdvance with
  | some started, some advanced =>
      let stall := advanced + STALL_LIMIT
      let length := started + ANSWER_LENGTH_LIMIT
      if stall ≤ length then (stall, .stall) else (length, .length)
  | _, _ => (c.startDeadline, .start)

structure Entry where
  playback : PlaybackRef
  phase : Phase
  network : Option Network
  limits : Option LimitClock

/-- The device's playbacks as the controller drives them. -/
structure RenderClient where
  noInputChime : Bool
  announcementChime : Bool
  generations : SourceClass → UInt32
  entries : List Entry
  commands : MessageId → Option (PlaybackId × CommandKind)
  events : List RenderEvent

/-- `RenderClient::new` for a device that announced these two capabilities or not. -/
def RenderClient.new (noInputChime announcementChime : Bool) : RenderClient where
  noInputChime := noInputChime
  announcementChime := announcementChime
  generations := fun _ => 0
  entries := []
  commands := fun _ => none
  events := []

/-- What a device announces. -/
inductive Capability
  | noInputChime
  | announcementChime
deriving DecidableEq, Repr

/-- `RenderClient::supports`: whether the device can play a source, or the capability it lacks. -/
def RenderClient.supports (c : RenderClient) : LocalSource → Except Capability Unit
  | .earcon .noInputChime => if c.noInputChime then .ok () else .error .noInputChime
  | .earcon .announcementChime => if c.announcementChime then .ok () else .error .announcementChime
  | _ => .ok ()

/-! ### The log -/

/-- What the client did. -/
inductive Effect
  /-- A start was sent and its playback is live. -/
  | opened (playback : PlaybackRef)
  /-- `push_audio` took samples. -/
  | buffered (playback : PlaybackRef) (pcm : List Int16)
  /-- `finish_audio` marked the source complete. -/
  | sourceDone (playback : PlaybackRef)
  | event (event : RenderEvent)
  /-- A request, and whether the link took it. -/
  | request (command : Command) (generation : UInt32) (sent : Bool)
  | offered (frame : RenderFrame) (answer : FrameAnswer)
  | tokenCancelled (token : CancellationToken)
deriving DecidableEq

/-- The playback a command names. -/
def Command.playbackId : Command → PlaybackId
  | .renderStart body => body.playbackId
  | .renderEnd body => body.playbackId
  | .renderCancel body => body.playbackId

/-- The playback an effect is about. -/
def Effect.playbackId : Effect → PlaybackId
  | .opened p | .buffered p _ | .sourceDone p => p.id
  | .event e => e.playback.id
  | .request command _ _ => command.playbackId
  | .offered frame _ => frame.playback.playback
  | .tokenCancelled token => token.playback

/-- The client, its link, and the log of what the client did. -/
structure World (L : Type*) where
  client : RenderClient
  link : L
  log : List Effect

section

variable {L : Type*}

/-- `w` with one more entry in its log. -/
def World.note (w : World L) (e : Effect) : World L := { w with log := w.log ++ [e] }

/-- Queues an event. -/
def World.emit (w : World L) (e : RenderEvent) : World L :=
  ({ w with client := { w.client with events := w.client.events ++ [e] } } : World L).note (.event e)

/-- Replaces the entry at `index`. -/
def World.setEntry (w : World L) (index : ℕ) (entry : Entry) : World L :=
  { w with client := { w.client with entries := w.client.entries.set index entry } }

/-- Remembers the command a message id stands for. -/
def World.insertCommand (w : World L) (id : MessageId) (playback : PlaybackId)
    (kind : CommandKind) : World L :=
  { w with client :=
      { w.client with commands := Function.update w.client.commands id (some (playback, kind)) } }

/-- Cancels a network playback's token; a local one has none. -/
def World.cancelToken (w : World L) (network : Option Network) : World L :=
  match network with
  | some net => w.note (.tokenCancelled net.token)
  | none => w

variable (lk : RenderLink L)

/-- Sends a command; the answer is its message id, or none when the link is closed. -/
def World.request (w : World L) (command : Command) (generation : UInt32) :
    World L × Option MessageId :=
  match lk.request w.link command generation with
  | (link, id) => (({ w with link := link } : World L).note (.request command generation id.isSome), id)

/-- Offers a frame to the link. -/
def World.queueFrame (w : World L) (frame : RenderFrame) : World L × FrameAnswer :=
  match lk.queueFrame w.link frame with
  | (link, answer) => (({ w with link := link } : World L).note (.offered frame answer), answer)

/-! ### Ending and cancelling -/

/-- `RenderClient::end_at`. -/
def endAt (w : World L) (index : ℕ) (how : PlaybackEnd) : World L :=
  match w.client.entries[index]? with
  | none => w
  | some entry =>
      let w : World L :=
        { w with client := { w.client with entries := w.client.entries.eraseIdx index } }
      (w.cancelToken entry.network).emit (.ended entry.playback how)

/-- A network playback whose queued audio is dropped. -/
def Network.purge (net : Network) : Network :=
  { net with pending := [], blocked := none, retryAt := none }

/-- An entry that is being cancelled. -/
def Entry.cancel (e : Entry) : Entry :=
  { e with phase := .cancelling, limits := none, network := e.network.map Network.purge }

/-- `RenderClient::cancel_at`. -/
def cancelAt (w : World L) (index : ℕ) (reason : CancelReason) : World L :=
  match w.client.entries[index]? with
  | none => w
  | some entry =>
      let w := ((w.setEntry index entry.cancel).cancelToken entry.network).emit
        (.cancelled entry.playback reason)
      match w.request lk (.renderCancel ⟨entry.playback.id, reason⟩) entry.playback.generation with
      | (w, some id) => w.insertCommand id entry.playback.id .cancel
      | (w, none) => endAt w index .linkClosed

/-! ### Sending audio -/

/-- How many pending frames the next packet carries: a full packet, or all once the source is
done; none when there are too few. -/
def Network.ready (net : Network) : ℕ :=
  if PACKET_FRAMES ≤ net.pending.length then PACKET_FRAMES
  else if net.sourceDone then net.pending.length
  else 0

/-- The next packet: the blocked one, or one cut from the front of the pending audio when there
is enough of it and the window has room. -/
def Network.take (net : Network) (generation : UInt32) : Option (RenderFrame × Network) :=
  match net.blocked with
  | some frame => some (frame, { net with blocked := none })
  | none =>
      let frames := net.ready
      if frames = 0 then none
      else if (net.completed + MAX_FRAMES_AHEAD).toNat < net.nextFrame + frames then none
      else
        let pcm := net.pending.take frames
        -- the source expects this never to fail: see `encodeRender_window`
        let bytes := (Ema.encodeRender net.epoch.value (UInt64.ofNat net.nextSequence)
          (UInt64.ofNat net.nextFrame) generation Ema.Flags.NONE pcm).toOption.getD []
        some
          ({ bytes := bytes
             playback := net.token
             sequence := net.nextSequence
             firstFrame := net.nextFrame
             frames := frames },
           { net with
             pending := net.pending.drop frames
             nextFrame := net.nextFrame + frames
             nextSequence := net.nextSequence + 1 })

/-- Audio that is not handed over yet: what a packet takes it from. -/
def Network.rest (net : Network) : ℕ := net.pending.length + if net.blocked.isSome then 1 else 0

theorem Network.ready_le (net : Network) : net.ready ≤ net.pending.length := by
  rw [ready]
  split_ifs <;> omega

theorem Network.rest_take {net net' : Network} {generation : UInt32} {frame : RenderFrame}
    (h : net.take generation = some (frame, net')) : net'.rest < net.rest := by
  have hready := net.ready_le
  rcases hb : net.blocked with _ | blocked
  · simp only [Network.take, hb] at h
    split_ifs at h with hnone hwindow
    simp only [Option.some.injEq, Prod.mk.injEq] at h
    obtain ⟨-, rfl⟩ := h
    simp only [Network.rest, hb, List.length_drop]
    omega
  · simp only [Network.take, hb, Option.some.injEq, Prod.mk.injEq] at h
    obtain ⟨-, rfl⟩ := h
    simp [Network.rest, hb]

/-- The loop of `RenderClient::pump`: sends packets until none is ready, the link's queue is full
or the session has ended, which the flag says. -/
def pumpFrames (now : ℕ) (generation : UInt32) (w : World L) (net : Network) :
    World L × Network × Bool :=
  match _ : net.take generation with
  | none => (w, net, false)
  | some (frame, rest) =>
      match w.queueFrame lk frame with
      | (w, .accepted) => pumpFrames now generation w { rest with retryAt := none }
      | (w, .full) => (w, { rest with blocked := some frame, retryAt := some (now + FRAME_RETRY) }, false)
      | (w, .closed) => (w, rest, true)
  termination_by net.rest
  decreasing_by
    have hrest := Network.rest_take ‹net.take generation = some (frame, rest)›
    exact hrest

/-- Sends `render.end` once everything is handed over; the flag says whether the session has
ended. -/
def pumpEnd (w : World L) (index : ℕ) (entry : Entry) (net : Network) : World L × Bool :=
  if net.sourceDone && !net.endSent && net.pending.isEmpty && net.blocked.isNone then
    match w.request lk (.renderEnd ⟨entry.playback.id, net.nextFrame⟩) entry.playback.generation with
    | (w, some id) =>
        ((w.setEntry index { entry with network := some { net with endSent := true } }).insertCommand
          id entry.playback.id .end, false)
    | (w, none) => (w, true)
  else (w, false)

/-- `RenderClient::pump`. -/
def pump (w : World L) (now : ℕ) (index : ℕ) : World L :=
  match w.client.entries[index]? with
  | none => w
  | some entry =>
      if entry.phase ≠ .running then w
      else
        match entry.network with
        | none => w
        | some net =>
            let (w, net, closed) := pumpFrames lk now entry.playback.generation w net
            let w := w.setEntry index { entry with network := some net }
            let (w, closed) := if closed then (w, true) else pumpEnd lk w index entry net
            if closed then endAt w index .linkClosed else w

/-! ### Starting -/

/-- `RenderClient::supersede`: cancels the class's live playbacks, as often as there may be one. -/
def supersedeLoop (sourceClass : SourceClass) : ℕ → World L → World L
  | 0, w => w
  | fuel + 1, w =>
      match w.client.entries.findIdx? fun e =>
        e.playback.class = sourceClass && e.phase ≠ .cancelling with
      | some index => supersedeLoop sourceClass fuel (cancelAt lk w index .superseded)
      | none => w

def supersede (w : World L) (sourceClass : SourceClass) : World L :=
  supersedeLoop lk sourceClass w.client.entries.length w

/-- `RenderClient::next_playback` with the id it generates. -/
def nextPlayback (w : World L) (sourceClass : SourceClass) (id : PlaybackId) :
    World L × PlaybackRef :=
  let generation := w.client.generations sourceClass + 1
  ({ w with client :=
      { w.client with generations := Function.update w.client.generations sourceClass generation } },
    ⟨id, sourceClass, generation⟩)

/-- Sends a start and makes its playback live; none when the link is closed. -/
def launch (w : World L) (playback : PlaybackRef) (body : RenderStart) (network : Option Network)
    (limits : Option LimitClock) : World L × Option PlaybackRef :=
  match w.request lk (.renderStart body) playback.generation with
  | (w, none) => (w, none)
  | (w, some id) =>
      let w := w.insertCommand id playback.id .start
      let entry : Entry :=
        { playback := playback, phase := .awaitingAck, network := network, limits := limits }
      let w : World L :=
        { w with client := { w.client with entries := w.client.entries ++ [entry] } }
      (w.note (.opened playback), some playback)

/-- `RenderClient::start_network`. -/
def startNetwork (w : World L) (start : NetworkStart) (id : PlaybackId) (epoch : RenderEpoch) :
    World L × Option PlaybackRef :=
  let sourceClass := start.class.toSource
  let (w, playback) := nextPlayback (supersede lk w sourceClass) sourceClass id
  launch lk w playback
    { playbackId := id
      sourceClass := sourceClass
      epoch := some epoch
      gainDb := start.gainDb
      format := FORMAT_PCM16
      localAsset := none
      announcement := start.announcement }
    (some
      { epoch := epoch
        token := ⟨id⟩
        pending := []
        blocked := none
        retryAt := none
        nextFrame := 0
        nextSequence := 0
        completed := 0
        sourceDone := false
        endSent := false })
    (start.limits.map fun limits =>
      { startDeadline := limits.startDeadline, startedAt := none, lastAdvance := none })

/-- Why a local playback was not started. -/
inductive LocalStartError
  | unsupported (capability : Capability)
  | linkClosed
deriving DecidableEq, Repr

/-- `RenderClient::start_local`. -/
def startLocal (w : World L) (source : LocalSource) (gainDb : UInt64) (announcement : Bool)
    (id : PlaybackId) : World L × Except LocalStartError PlaybackRef :=
  match w.client.supports source with
  | .error capability => (w, .error (.unsupported capability))
  | .ok () =>
      let (w, playback) := nextPlayback (supersede lk w source.class) source.class id
      let body : RenderStart :=
        { playbackId := id
          sourceClass := source.class
          epoch := none
          gainDb := gainDb
          format := FORMAT_PCM16
          localAsset := some source.asset
          announcement := announcement }
      match launch lk w playback body none none with
      | (w, some playback) => (w, .ok playback)
      | (w, none) => (w, .error .linkClosed)

/-! ### The source -/

/-- Why audio was not accepted. -/
inductive AudioRefused
  | notAccepting
  | sourceEnded
deriving DecidableEq, Repr

/-- `RenderClient::index`. -/
def RenderClient.index (c : RenderClient) (playback : PlaybackRef) : Option ℕ :=
  c.entries.findIdx? fun e => e.playback = playback

/-- Position of the entry with this `playback_id`. -/
def RenderClient.position (c : RenderClient) (id : PlaybackId) : Option ℕ :=
  c.entries.findIdx? fun e => e.playback.id = id

/-- What `push_audio` and `finish_audio` share: the checks, a change of the network playback, its
mark in the log, and the pump. -/
def feed (w : World L) (now : ℕ) (playback : PlaybackRef) (mark : Effect)
    (change : Network → Network) : World L × Except AudioRefused Unit :=
  match w.client.index playback with
  | none => (w, .error .notAccepting)
  | some index =>
      match w.client.entries[index]? with
      | none => (w, .error .notAccepting)
      | some entry =>
          if entry.phase = .cancelling then (w, .error .notAccepting)
          else
            match entry.network with
            | none => (w, .error .notAccepting)
            | some net =>
                if net.sourceDone then (w, .error .sourceEnded)
                else
                  let w := (w.setEntry index { entry with network := some (change net) }).note mark
                  (pump lk w now index, .ok ())

/-- `RenderClient::push_audio`. -/
def pushAudio (w : World L) (now : ℕ) (playback : PlaybackRef) (pcm : List Int16) :
    World L × Except AudioRefused Unit :=
  feed lk w now playback (.buffered playback pcm) fun net => { net with pending := net.pending ++ pcm }

/-- `RenderClient::finish_audio`. -/
def finishAudio (w : World L) (now : ℕ) (playback : PlaybackRef) :
    World L × Except AudioRefused Unit :=
  feed lk w now playback (.sourceDone playback) fun net => { net with sourceDone := true }

/-- `RenderClient::cancel`; whether the playback is live. -/
def cancel (w : World L) (playback : PlaybackRef) (reason : CancelReason) : World L × Bool :=
  match w.client.index playback with
  | none => (w, false)
  | some index =>
      match w.client.entries[index]? with
      | none => (w, false)
      | some entry =>
          if entry.phase = .cancelling then (w, true) else (cancelAt lk w index reason, true)

/-! ### What the device answers -/

/-- `RenderClient::on_ack`; whether the command was the client's. -/
def onAck (w : World L) (now : ℕ) (messageId : MessageId) (outcome : AckOutcome) :
    World L × Bool :=
  match w.client.commands messageId with
  | none => (w, false)
  | some (id, kind) =>
      let w : World L :=
        { w with client :=
            { w.client with commands := Function.update w.client.commands messageId none } }
      match w.client.position id with
      | none => (w, true)
      | some index =>
          match w.client.entries[index]? with
          | none => (w, true)
          | some entry =>
              match kind, outcome with
              | .start, .accepted =>
                  if entry.phase = .awaitingAck then
                    let w := (w.setEntry index { entry with phase := .running }).emit
                      (.accepted entry.playback)
                    (pump lk w now index, true)
                  else (w, true)
              | .start, .rejected code =>
                  (endAt w index (.rejected (code.map fun c => reported c RenderRejection.fromWire)),
                    true)
              | .start, .failed .timedOut =>
                  let w := if entry.phase ≠ .cancelling then cancelAt lk w index .unconfirmed else w
                  match w.client.position id with
                  | some index => (endAt w index .unconfirmed, true)
                  | none => (w, true)
              | _, .failed .sessionEnded => (endAt w index .linkClosed, true)
              | .end, _ | .cancel, _ => (w, true)

/-- The response clock after a progress report. -/
def LimitClock.report (c : LimitClock) (now : ℕ) (start advanced : Bool) : LimitClock :=
  let c := if (start || advanced) && c.startedAt.isNone then
      { c with startedAt := some now, lastAdvance := some now }
    else c
  if advanced then { c with lastAdvance := some now } else c

/-- An entry after a progress report: the frames completed and the response clock move on. -/
def Entry.report (e : Entry) (now : ℕ) (progress : RenderProgress) : Entry :=
  let advanced := match e.network with
    | some net => decide (net.completed < progress.completedFrames)
    | none => false
  let start := progress.event = .known .start
  { e with
    network := e.network.map fun net =>
      if net.completed < progress.completedFrames then
        { net with completed := progress.completedFrames }
      else net
    limits := e.limits.map fun c => c.report now start advanced }

/-- `RenderClient::on_report`; whether it was about a live playback. -/
def onReport (w : World L) (now : ℕ) (generation : UInt32) (report : RenderReport) :
    World L × Bool :=
  match w.client.entries.findIdx? fun e =>
    e.playback.id = report.playbackId && e.playback.generation = generation with
  | none => (w, false)
  | some index =>
      match w.client.entries[index]? with
      | none => (w, false)
      | some entry =>
          match report with
          | .progress progress =>
              let w := w.setEntry index (entry.report now progress)
              let w := if progress.event = .known .start then w.emit (.started entry.playback) else w
              (pump lk (w.emit (.progress entry.playback progress)) now index, true)
          | .finished finished =>
              (endAt w index (.finished finished.reason finished.lastCompletedFrame), true)

/-! ### Time and the end of the session -/

/-- Enforces a playback's response limit. -/
def pollLimit (w : World L) (now : ℕ) (index : ℕ) : World L :=
  match w.client.entries[index]? with
  | none => w
  | some entry =>
      if entry.phase = .cancelling then w
      else
        match entry.limits with
        | none => w
        | some limits =>
            if limits.deadline.1 ≤ now then
              cancelAt lk (w.emit (.limitExceeded entry.playback limits.deadline.2)) index
                .responseTimeout
            else w

/-- Whether an entry's blocked frame is due to be offered again. -/
def Entry.retryDue (e : Entry) (now : ℕ) : Bool :=
  match e.network.bind Network.retryAt with
  | some at' => decide (at' ≤ now)
  | none => false

/-- Offers a blocked frame again once it is due. -/
def pollRetry (w : World L) (now : ℕ) (index : ℕ) : World L :=
  match w.client.entries[index]? with
  | none => w
  | some entry => if entry.retryDue now then pump lk w now index else w

/-- `RenderClient::poll` for one playback. -/
def pollOne (now : ℕ) (w : World L) (id : PlaybackId) : World L :=
  match w.client.position id with
  | none => w
  | some index =>
      let w := pollRetry lk w now index
      match w.client.position id with
      | none => w
      | some index => pollLimit lk w now index

/-- `RenderClient::poll`. -/
def poll (w : World L) (now : ℕ) : World L :=
  (w.client.entries.map fun e => e.playback.id).foldl (pollOne lk now) w

/-- The instants at which an entry has work. -/
def Entry.deadlines (e : Entry) : List ℕ :=
  (e.network.bind Network.retryAt).toList ++
    if e.phase ≠ .cancelling then (e.limits.map fun c => c.deadline.1).toList else []

/-- `RenderClient::next_deadline`. -/
def RenderClient.nextDeadline (c : RenderClient) : Option ℕ :=
  (c.entries.flatMap Entry.deadlines).min?

/-- `RenderClient::session_ended`. -/
def sessionEnded (w : World L) : World L :=
  let w' : World L :=
    { w with client := { w.client with entries := [], commands := fun _ => none } }
  w.client.entries.foldl
    (fun w entry => (w.cancelToken entry.network).emit (.ended entry.playback .linkClosed)) w'

/-- `RenderClient::next_event`. -/
def nextEvent (w : World L) : World L × Option RenderEvent :=
  match w.client.events with
  | [] => (w, none)
  | e :: events => ({ w with client := { w.client with events := events } }, some e)

/-! ### Runs -/

/-- An operation of the client, with the id and the epoch a start draws. -/
inductive Op
  | startNetwork (start : NetworkStart) (id : PlaybackId) (epoch : RenderEpoch)
  | startLocal (source : LocalSource) (gainDb : UInt64) (announcement : Bool) (id : PlaybackId)
  | pushAudio (now : ℕ) (playback : PlaybackRef) (pcm : List Int16)
  | finishAudio (now : ℕ) (playback : PlaybackRef)
  | cancel (playback : PlaybackRef) (reason : CancelReason)
  | onAck (now : ℕ) (messageId : MessageId) (outcome : AckOutcome)
  | onReport (now : ℕ) (generation : UInt32) (report : RenderReport)
  | poll (now : ℕ)
  | sessionEnded
  | nextEvent

/-- The client and its link after an operation. -/
def step (w : World L) : Op → World L
  | .startNetwork start id epoch => (startNetwork lk w start id epoch).1
  | .startLocal source gainDb announcement id => (startLocal lk w source gainDb announcement id).1
  | .pushAudio now playback pcm => (pushAudio lk w now playback pcm).1
  | .finishAudio now playback => (finishAudio lk w now playback).1
  | .cancel playback reason => (cancel lk w playback reason).1
  | .onAck now messageId outcome => (onAck lk w now messageId outcome).1
  | .onReport now generation report => (onReport lk w now generation report).1
  | .poll now => poll lk w now
  | .sessionEnded => sessionEnded w
  | .nextEvent => (nextEvent w).1

/-- The playback ids a run of operations draws. -/
def drawn (ops : List Op) : List PlaybackId :=
  ops.filterMap fun
    | .startNetwork _ id _ => some id
    | .startLocal _ _ _ id => some id
    | _ => none

/-- A session: a client for a device with these capabilities, and every operation of a run. -/
def run (noInputChime announcementChime : Bool) (link : L) (ops : List Op) : World L :=
  ops.foldl (step lk) ⟨RenderClient.new noInputChime announcementChime, link, []⟩

end

end EchoMuse.Render
