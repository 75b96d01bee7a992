import EchoMuse.Monitors
import Mathlib.Logic.Function.Iterate
import Mathlib.Algebra.Ring.Nat

/-!
# The Media Player

The device's media player and its announcement queue (`playback/src/media.rs`). Its inputs are
Home Assistant's media commands and announcements, the start and end of dialogs, and what
happened to the content playback it asked for; its outputs are effects for the runtime.

Pausing cancels the content playback and keeps a bookmark, the frames the device reported
played. While a dialog or an announcement runs, commands change only the intent; the playback
follows when it ends. Announcements queue behind dialogs and behind each other.
-/

namespace EchoMuse.Media

open Monitors

/-! ### Identifiers and requests -/

/-- One URL from one play request. -/
structure StreamId where
  number : ℕ
deriving DecidableEq, Repr

/-- One queued announcement. -/
structure AnnouncementKey where
  number : ℕ
deriving DecidableEq, Repr

/-- Whether a later decode can resume the resource from a bookmark. -/
inductive Seekability
  | seekable
  | live
deriving DecidableEq, Repr

/-- A device volume step, 0 to 127. -/
structure DeviceVolume where
  step : ℕ
  le_max : step ≤ 127
deriving DecidableEq, Repr

/-- The silent step, which mutes. -/
def DeviceVolume.silent : DeviceVolume := ⟨0, by omega⟩

/-- What opens an announcement: the device's chime, Home Assistant's sound, or nothing. -/
inductive Opener
  | chime
  | sound (url : String)
  | none
deriving DecidableEq, Repr

/-- Home Assistant's media player requests. -/
inductive MediaRequest
  | playUrl (url : String) (announcement : Bool)
  | play
  | pause
  | stop
  | mute
  | unmute
  | setVolume (volume : DeviceVolume)
deriving DecidableEq

/-- A satellite announcement Home Assistant asked for; `Id` names it in the reply. -/
structure SatelliteAnnouncement (Id : Type*) where
  id : Id
  mediaUrl : String
  text : Option String
  preannounceUrl : Option String
  startConversation : Bool
deriving DecidableEq

/-- An announcement to play as dialog output. -/
structure AnnouncementPlan (Id : Type*) where
  key : AnnouncementKey
  mediaUrl : String
  opener : Opener
  text : Option String
  startConversation : Bool
  satellite : Option Id
deriving DecidableEq

/-- What the media player is doing, for Home Assistant. -/
inductive Playback
  | idle
  | playing
  | paused
  | announcing
deriving DecidableEq, Repr

/-- The state Home Assistant sees. -/
structure PlayerState where
  playback : Playback
  volume : Option DeviceVolume
  muted : Bool
deriving DecidableEq

/-- Something for the runtime to do. -/
inductive MediaEffect (Id : Type*)
  | startContent (stream : StreamId) (url : String) (skipFrames : ℕ)
  | stopContent (stream : StreamId)
  | setDeviceVolume (volume : DeviceVolume)
  | startAnnouncement (plan : AnnouncementPlan Id)
  | finishAnnouncement (id : Id) (success : Bool)
  | reportState (state : PlayerState)
deriving DecidableEq

/-- Why a command cannot be carried out. -/
inductive Unavailable
  | nothingPlaying
  | nothingToResume
  | noVolumeControl
deriving DecidableEq

/-- How a command was taken. -/
inductive CommandOutcome
  | applied
  | deferred
  | unavailable (why : Unavailable)
deriving DecidableEq

/-- How a content playback ended. -/
inductive ContentEndReason
  | drained
  | stopped
  | failed
  | interrupted
deriving DecidableEq

/-- A content playback's end, with the frames the device reported played if they are known. -/
structure ContentEnd where
  reason : ContentEndReason
  completedFrames : Option ℕ
deriving DecidableEq

/-! ### The player -/

inductive Intent
  | idle
  | playing
  | paused
deriving DecidableEq

/-- The content playback. It is `pausing` from the stop until the end that carries the
bookmark. -/
inductive Actual
  | idle
  | playing (id : StreamId)
  | pausing (id : StreamId)
  | paused (id : StreamId)
deriving DecidableEq

/-- The current stream: `startFrame` is where its current or last playback started, and
`completed` the frames that playback reported played. -/
structure Stream where
  id : StreamId
  url : String
  seekable : Option Seekability
  startFrame : ℕ
  completed : Option ℕ
deriving DecidableEq

/-- The stream whose playback the player waits for the end of. -/
def Actual.awaited : Actual → Option StreamId
  | .playing id | .pausing id => some id
  | .idle | .paused _ => none

/-- The bookmark a stopped playback leaves. -/
def Stream.bookmark (s : Stream) (completedFrames : Option ℕ) : Stream :=
  { s with
    startFrame :=
      match s.seekable with
      | some .seekable => s.startFrame + (completedFrames <|> s.completed).getD 0
      | some .live => 0
      | none => s.startFrame
    completed := none }

/-- What opens an announcement Home Assistant's media player plays. -/
def mediaOpener (announcementChime : Bool) : Opener := if announcementChime then .chime else .none

/-- What opens a satellite announcement: the chime takes the place of Home Assistant's sound. -/
def satelliteOpener (announcementChime : Bool) : Option String → Opener
  | some url => if announcementChime then .chime else .sound url
  | none => .none

/-- The effect that tells Home Assistant a satellite announcement ended. -/
def AnnouncementPlan.finish {Id : Type*} (plan : AnnouncementPlan Id) (success : Bool) :
    List (MediaEffect Id) :=
  (plan.satellite.map fun id => .finishAnnouncement id success).toList

/-- The media player; its effects are those not taken out yet. -/
structure MediaPlayer (Id : Type*) where
  announcementChime : Bool
  nextStream : ℕ
  nextAnnouncement : ℕ
  stream : Option Stream
  intent : Intent
  actual : Actual
  dialog : Bool
  announcing : Option (AnnouncementPlan Id)
  queue : List (AnnouncementPlan Id)
  volume : Option DeviceVolume
  muted : Bool
  reported : Option PlayerState
  effects : List (MediaEffect Id)

namespace MediaPlayer

variable {Id : Type*}

/-- A player for a device that has the chime or not, with the volume its hello reported. -/
def new (announcementChime : Bool) (volume : Option DeviceVolume) : MediaPlayer Id where
  announcementChime
  nextStream := 0
  nextAnnouncement := 0
  stream := none
  intent := .idle
  actual := .idle
  dialog := false
  announcing := none
  queue := []
  volume
  muted := false
  reported := none
  effects := []

/-- The state Home Assistant should see. -/
def state (p : MediaPlayer Id) : PlayerState where
  playback :=
    if p.announcing.isSome then .announcing
    else
      match p.intent with
      | .idle => .idle
      | .playing => .playing
      | .paused => .paused
  volume := p.volume
  muted := p.muted

/-- Queues an effect. -/
def push (p : MediaPlayer Id) (effect : MediaEffect Id) : MediaPlayer Id :=
  { p with effects := p.effects ++ [effect] }

/-- The next effect to carry out. -/
def nextEffect (p : MediaPlayer Id) : MediaPlayer Id × Option (MediaEffect Id) :=
  ({ p with effects := p.effects.tail }, p.effects.head?)

def report (p : MediaPlayer Id) : MediaPlayer Id :=
  if p.reported = some p.state then p
  else { p with reported := some p.state }.push (.reportState p.state)

def deferring (p : MediaPlayer Id) : Bool := p.dialog || p.announcing.isSome

/-- Changes the current stream if it is the stream `id`. -/
def withStream (p : MediaPlayer Id) (id : StreamId) (f : Stream → Stream) : MediaPlayer Id :=
  { p with stream := p.stream.map fun s => if s.id = id then f s else s }

/-- Starts a playback of the current stream, if it is the stream `id`, at its bookmark. -/
def start (p : MediaPlayer Id) (id : StreamId) : MediaPlayer Id :=
  match p.stream.filter (·.id = id) with
  | none => p
  | some stream =>
      { p with stream := some { stream with completed := none }, actual := .playing id }.push
        (.startContent id stream.url stream.startFrame)

/-- Brings the content playback to the intended state. -/
def reconcile (p : MediaPlayer Id) : MediaPlayer Id :=
  match p.intent, p.stream.map (·.id) with
  | .idle, _ | _, none =>
      match p.actual with
      | .playing id => { p with actual := .idle }.push (.stopContent id)
      | _ => { p with actual := .idle }
  | .paused, some current =>
      match p.actual with
      | .playing id =>
          { p with actual := if id = current then .pausing id else .idle }.push (.stopContent id)
      | .pausing id | .paused id => if id ≠ current then { p with actual := .idle } else p
      | .idle => p
  | .playing, some current =>
      match p.actual with
      | .playing id =>
          if id = current then p else (p.push (.stopContent id)).start current
      | .pausing id =>
          -- the bookmark of the current stream is still on its way
          if id = current then p else p.start current
      | .paused _ | .idle => p.start current

/-- Starts the next announcement when nothing holds it back, then, with no dialog and no
announcement, brings the content playback to the intended state. -/
def advance (p : MediaPlayer Id) : MediaPlayer Id :=
  let p :=
    if p.deferring then p
    else
      match p.queue with
      | [] => p
      | plan :: queue => { p with announcing := some plan, queue }.push (.startAnnouncement plan)
  if p.deferring then p else p.reconcile

def setIntent (p : MediaPlayer Id) (intent : Intent) : MediaPlayer Id × CommandOutcome :=
  if p.deferring then ({ p with intent }, .deferred)
  else ({ p with intent }.reconcile, .applied)

def setVolume (p : MediaPlayer Id) (volume : DeviceVolume) : MediaPlayer Id × CommandOutcome :=
  if p.volume = none then (p, .unavailable .noVolumeControl)
  else
    ({ p with volume := some volume, muted := false }.push (.setDeviceVolume volume), .applied)

/-- The level stays remembered for the unmute. -/
def mute (p : MediaPlayer Id) : MediaPlayer Id × CommandOutcome :=
  if p.volume = none then (p, .unavailable .noVolumeControl)
  else if p.muted then (p, .applied)
  else ({ p with muted := true }.push (.setDeviceVolume .silent), .applied)

def unmute (p : MediaPlayer Id) : MediaPlayer Id × CommandOutcome :=
  match p.volume with
  | none => (p, .unavailable .noVolumeControl)
  | some volume =>
      if p.muted then ({ p with muted := false }.push (.setDeviceVolume volume), .applied)
      else (p, .applied)

def enqueue (p : MediaPlayer Id) (mediaUrl : String) (opener : Opener) (text : Option String)
    (startConversation : Bool) (satellite : Option Id) : MediaPlayer Id × CommandOutcome :=
  let plan : AnnouncementPlan Id :=
    { key := ⟨p.nextAnnouncement + 1⟩, mediaUrl, opener, text, startConversation, satellite }
  let q := { p with nextAnnouncement := p.nextAnnouncement + 1, queue := p.queue ++ [plan] }
  (q.advance, if q.deferring then .deferred else .applied)

/-- Carries out a media player command. -/
def carryOut (p : MediaPlayer Id) : MediaRequest → MediaPlayer Id × CommandOutcome
  | .playUrl url true => p.enqueue url (mediaOpener p.announcementChime) none false none
  | .playUrl url false =>
      { p with
        nextStream := p.nextStream + 1
        stream := some { id := ⟨p.nextStream + 1⟩, url, seekable := none, startFrame := 0,
                         completed := none } }.setIntent .playing
  | .play =>
      match p.stream with
      | none => (p, .unavailable .nothingToResume)
      | some _ => p.setIntent .playing
  | .pause =>
      match p.stream with
      | none => (p, .unavailable .nothingPlaying)
      | some _ => p.setIntent .paused
  | .stop => { p with stream := none }.setIntent .idle
  | .setVolume volume => p.setVolume volume
  | .mute => p.mute
  | .unmute => p.unmute

/-- Takes a Home Assistant media player command. -/
def command (p : MediaPlayer Id) (request : MediaRequest) : MediaPlayer Id × CommandOutcome :=
  ((p.carryOut request).1.report, (p.carryOut request).2)

/-- Queues a satellite announcement. -/
def announce (p : MediaPlayer Id) (announcement : SatelliteAnnouncement Id) :
    MediaPlayer Id × AnnouncementKey :=
  let q := (p.enqueue announcement.mediaUrl
    (satelliteOpener p.announcementChime announcement.preannounceUrl) announcement.text
    announcement.startConversation (some announcement.id)).1
  (q.report, ⟨q.nextAnnouncement⟩)

/-- A turn is listening or answering. -/
def dialogStarted (p : MediaPlayer Id) : MediaPlayer Id := { p with dialog := true }

def dialogEnded (p : MediaPlayer Id) : MediaPlayer Id :=
  { p with dialog := false }.advance.report

/-- The announcement ended; `success` when it played to its end. -/
def announcementEnded (p : MediaPlayer Id) (key : AnnouncementKey) (success : Bool) :
    MediaPlayer Id :=
  match p.announcing with
  | none => p
  | some plan =>
      if plan.key = key then
        { p with announcing := none, effects := p.effects ++ plan.finish success }.advance.report
      else p

/-- The stream's decode opened and said whether it can be resumed. -/
def contentOpened (p : MediaPlayer Id) (stream : StreamId) (seekability : Seekability) :
    MediaPlayer Id :=
  p.withStream stream fun s => { s with seekable := some seekability }

/-- The device reported the stream's playback progress. -/
def contentProgress (p : MediaPlayer Id) (stream : StreamId) (completedFrames : ℕ) :
    MediaPlayer Id :=
  p.withStream stream fun s =>
    { s with completed := some (max (s.completed.getD 0) completedFrames) }

/-- What the end of the awaited playback of `stream` leaves. -/
def contentOver (p : MediaPlayer Id) (stream : StreamId) (ended : ContentEnd) : MediaPlayer Id :=
  let current := p.stream.any (·.id = stream)
  match ended.reason with
  | .drained | .failed =>
      if current then { p with actual := .idle, stream := none, intent := .idle }
      else { p with actual := .idle }
  | .stopped | .interrupted =>
      { p.withStream stream fun s => Stream.bookmark s ended.completedFrames with
        actual := .paused stream
        -- losing the device pauses rather than replaying later
        intent :=
          if ended.reason = ContentEndReason.interrupted ∧ current ∧ p.intent = Intent.playing then
            .paused
          else p.intent }

/-- The stream's content playback ended; late ends of replaced or stopped streams are ignored. -/
def contentEnded (p : MediaPlayer Id) (stream : StreamId) (ended : ContentEnd) : MediaPlayer Id :=
  if Actual.awaited p.actual ≠ some stream then p
  else (p.contentOver stream ended).advance.report

/-- The device reported its volume. While muted, a level of 0 is the mute itself. -/
def deviceVolume (p : MediaPlayer Id) (volume : Option DeviceVolume) : MediaPlayer Id :=
  (if volume.any (·.step = 0) ∧ p.muted then p else { p with volume, muted := false }).report

/-- The device session ended: queued and playing announcements end unsuccessfully, and no dialog
is running. -/
def sessionLost (p : MediaPlayer Id) : MediaPlayer Id :=
  { p with
    dialog := false
    announcing := none
    queue := []
    effects := p.effects ++ (p.announcing.toList ++ p.queue).flatMap (AnnouncementPlan.finish · false) }.report

end MediaPlayer

/-! ### Runs -/

/-- The operations of the player. -/
inductive MediaOp (Id : Type*)
  | command (request : MediaRequest)
  | announce (announcement : SatelliteAnnouncement Id)
  | dialogStarted
  | dialogEnded
  | announcementEnded (key : AnnouncementKey) (success : Bool)
  | contentOpened (stream : StreamId) (seekability : Seekability)
  | contentProgress (stream : StreamId) (completedFrames : ℕ)
  | contentEnded (stream : StreamId) (ended : ContentEnd)
  | deviceVolume (volume : Option DeviceVolume)
  | sessionLost
deriving DecidableEq

namespace MediaPlayer

variable {Id : Type*}

/-- Carries out an operation. -/
def apply (p : MediaPlayer Id) : MediaOp Id → MediaPlayer Id
  | .command request => (p.command request).1
  | .announce announcement => (p.announce announcement).1
  | .dialogStarted => p.dialogStarted
  | .dialogEnded => p.dialogEnded
  | .announcementEnded key success => p.announcementEnded key success
  | .contentOpened stream seekability => p.contentOpened stream seekability
  | .contentProgress stream completedFrames => p.contentProgress stream completedFrames
  | .contentEnded stream ended => p.contentEnded stream ended
  | .deviceVolume volume => p.deviceVolume volume
  | .sessionLost => p.sessionLost

/-- An operation, and the effects the runtime takes out behind it. -/
def step (p : MediaPlayer Id) (op : MediaOp Id) : MediaPlayer Id × List (MediaEffect Id) :=
  ({ p.apply op with effects := [] }, (p.apply op).effects)

/-- Taking effects until there are no more takes all of them, in order. -/
theorem nextEffect_iterate (p : MediaPlayer Id) (n : ℕ) :
    (fun q : MediaPlayer Id => q.nextEffect.1)^[n] p = { p with effects := p.effects.drop n } := by
  induction n with
  | zero => rfl
  | succ n ih => rw [Function.iterate_succ_apply', ih, nextEffect, List.tail_drop]

end MediaPlayer

end EchoMuse.Media
