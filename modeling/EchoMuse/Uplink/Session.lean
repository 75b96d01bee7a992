import EchoMuse.Uplink.Delivery
import EchoMuse.Uplink.Timeline

/-!
# One Session's Audio Subscriptions

The controller's `uplink/src/uplink.rs`: an `Uplink` owns the timeline and the subscriptions
of one device session. Every operation of the source is one definition under its name. Time
is passed in; the ID of a subscription the controller opens, which the source draws at
random, is an argument.
-/

namespace EchoMuse.Uplink

open EchoMuse.Ema EchoMuse.Streams EchoMuse.Intervals EchoMuse.Traverse

/-! ### Cursors -/

inductive StartSpec
  /-- A capture stream from this sample, on the device's grid. -/
  | «at» (sample : ℕ)
  /-- From the live position. -/
  | live
  /-- The reference from a capture sample the device maps itself. -/
  | mapped
  deriving DecidableEq, Repr

inductive Mode
  /-- Waiting for the backfill run the device owes it. -/
  | awaitClaim
  /-- Waiting for the first live packet to know where it starts. -/
  | awaitLive
  /-- Its own packets now arrive in device order. -/
  | ordered
  deriving DecidableEq, Repr

structure Cursor where
  epoch : UInt64
  start : StartSpec
  mode : Mode
  /-- The next position owed; `none` until known. -/
  pos : Option ℕ
  /-- Everything below this that is not held will never arrive. -/
  settledTo : ℕ
  settleCause : MissingCause
  /-- When later audio started waiting behind a hole at `pos`. -/
  stalledSince : Option ℕ
  /-- After `uplink.ended`: one past the last position the device sent. -/
  target : Option ℕ
  deriving DecidableEq, Repr

/-- The next multiple of `grid` from `n` on, as a 64-bit number. -/
def nextMultipleOf (n grid : ℕ) : ℕ := (n + grid - 1) / grid * grid % 2 ^ 64

namespace Cursor

def new (epoch : UInt64) (start : StartSpec) : Cursor where
  epoch := epoch
  start := start
  mode := if start = .live then .awaitLive else .awaitClaim
  pos :=
    match start with
    | .at sample => some sample
    | _ => none
  settledTo := 0
  settleCause := .notSent
  stalledSince := none
  target := none

def settle (c : Cursor) (below : ℕ) (cause : MissingCause) : Cursor :=
  if c.settledTo < below then { c with settledTo := below, settleCause := cause } else c

def «attribute» (c : Cursor) (attribution : Attribution) (stream : StreamId) : Cursor :=
  if c.mode ≠ .awaitClaim then c
  else match attribution, c.start with
    | .run start, .at requested =>
      { (if requested < start then c.settle start .clipped else c) with mode := .ordered }
    | .run start, _ =>
      { c with pos := some (nextMultipleOf start (deviceGrid stream)), mode := .ordered }
    | .noRun, .at _ => { c with mode := .ordered }
    | .noRun, _ => { c with mode := .awaitLive }

def onPacket (c : Cursor) (path : Path) (first : ℕ) (own : SubKey) (stream : StreamId) :
    Cursor :=
  match c.mode with
  | .awaitLive =>
    if path = .advance then
      { c with pos := some (nextMultipleOf first (deviceGrid stream)), mode := .ordered }
    else c
  | .ordered =>
    if path = .advance ∨ path = .run (some own) then
      match c.pos with
      | some pos => if max pos c.settledTo < first then c.settle first .notSent else c
      | none => c
    else c
  | .awaitClaim => c

def done (c : Cursor) : Bool :=
  match c.target with
  | none => true
  | some target => c.pos.any (target ≤ ·)

end Cursor

/-! ### Subscriptions -/

structure Want where
  stream : StreamId
  /-- One per epoch: a capture stream has one; the reference gains one with every new
  reference epoch while the subscription lives. -/
  cursors : List Cursor
  deriving DecidableEq, Repr

inductive Phase
  | active (nextRenewal : ℕ)
  | draining (report : UplinkEnded) (deadline : ℕ)

def Phase.isActive : Phase → Bool
  | .active _ => true
  | .draining _ _ => false

structure NearMissPlan where
  /-- One past the last mic sample it must hold. -/
  micThrough : ℕ
  afe : Bool
  deriving DecidableEq, Repr

structure Sub where
  key : SubKey
  id : SubscriptionId
  owner : Owner
  reason : SubscriptionReason
  generation : Generation
  captureEpoch : UInt64
  wants : List Want
  phase : Phase
  nearMiss : Option NearMissPlan
  overflowed : Bool

namespace Sub

def wantsOn (s : Sub) (stream : StreamId) (epoch : UInt64) : Bool :=
  s.wants.any fun w => w.stream = stream && w.cursors.any (·.epoch = epoch)

def position (s : Sub) (stream : StreamId) : Option ℕ :=
  ((s.wants.find? (·.stream = stream)).bind (·.cursors.getLast?)).bind Cursor.pos

def nearMissDone (s : Sub) : Bool :=
  match s.nearMiss, s.position .mic with
  | some plan, some mic =>
    plan.micThrough ≤ mic &&
      (!plan.afe || (s.position .afe).any (plan.micThrough ≤ ·) ||
        plan.micThrough + NEAR_MISS_GRACE ≤ mic)
  | _, _ => false

end Sub

/-- A subscription the controller ended while the device may still be sending it. -/
structure Zombie where
  key : SubKey
  id : SubscriptionId
  streams : List (StreamId × UInt64)
  expires : ℕ
  deriving DecidableEq, Repr

/-! ### Releasing -/

/-- What a release reads from. -/
structure Source where
  buffer : EpochBuffer
  liveEnd : Option ℕ
  packet : Option Packet
  stream : StreamId
  epoch : UInt64

/-- Below this the device's ring can no longer hold anything. -/
def Source.overwrittenBelow (s : Source) : Option ℕ :=
  match s.liveEnd with
  | some live =>
    if deviceHistory s.stream ≤ live then
      some (roundDown (live - deviceHistory s.stream) s.stream.kind.samplesPerFrame)
    else none
  | none => none

/-- What a cursor does at its position: wait, or release a piece to `stop`. -/
inductive Pace
  | wait (stalledSince : Option ℕ)
  | release (stop : ℕ) (body : ChunkBody)

/-- One turn of the release loop, at `pos`. -/
def Source.pace (s : Source) (c : Cursor) (pos holeWait now : ℕ) : Pace :=
  match s.buffer.lookup pos with
  | .data stop info discontinuity =>
    .release stop (.data info discontinuity (s.buffer.chunkData ⟨pos, stop⟩ info s.packet))
  | .missing stop => .release stop (.missing .device)
  | .evicted u => .release u (.missing .evicted)
  | .unknown next =>
    -- up to the next known position, or without a limit when nothing more is known
    let known := fun stop => next.elim stop (min stop)
    if pos < c.settledTo then .release (known c.settledTo) (.missing c.settleCause)
    else match s.overwrittenBelow.filter (pos < ·) with
      | some gone => .release (known gone) (.missing .overwritten)
      | none =>
        match next.or (c.target.filter (pos < ·)), c.stalledSince with
        | none, _ => .wait none
        | some _, none => .wait (some now)
        | some limit, some since =>
          if after since holeWait ≤ now then .release limit (.missing .timedOut)
          else .wait (some since)

/-- The release loop: at most `fuel` pieces. False when the subscription went over its
delivery bounds. -/
def Source.releaseFrom (s : Source) (id : SubscriptionId) (generation : Generation)
    (holeWait now : ℕ) : ℕ → Cursor → Outbox → Cursor × Outbox × Bool
  | 0, c, o => (c, o, true)
  | fuel + 1, c, o =>
    match c.pos with
    | none => (c, o, true)
    | some pos =>
      match s.pace c pos holeWait now with
      | .wait stalled => ({ c with stalledSince := stalled }, o, true)
      | .release stop body =>
        let pushed := o.push (.chunk ⟨id, generation, s.stream, s.epoch, ⟨pos, stop⟩, body⟩)
        let c := { c with pos := some stop, stalledSince := none }
        if pushed.2 then s.releaseFrom id generation holeWait now fuel c pushed.1
        else (c, pushed.1, false)

/-- No position past this is released: the furthest that is held or known, or settled,
overwritten or owed. -/
def Source.bound (s : Source) (c : Cursor) : ℕ :=
  let x := s.buffer.index
  let known := x.blocks.foldr (fun b m => max (max b.first b.stop) m) (max x.end x.floor)
  max (max (known * x.unit) c.settledTo) (max (s.overwrittenBelow.getD 0) (c.target.getD 0))

/-- Releases what a cursor can deliver now. Every piece moves the position on, to at most the
bound. -/
def release (s : Source) (id : SubscriptionId) (generation : Generation) (holeWait now : ℕ)
    (c : Cursor) (o : Outbox) : Cursor × Outbox × Bool :=
  s.releaseFrom id generation holeWait now (s.bound c + 1) c o

/-! ### The uplink -/

/-- What the session allows. -/
structure SessionTerms where
  afeMetadata : Bool
  nearMiss : Bool
  deriving DecidableEq, Repr

end EchoMuse.Uplink

namespace EchoMuse

open Uplink in
/-- One device session's audio timeline and subscriptions. -/
structure Uplink where
  config : UplinkConfig
  terms : SessionTerms
  timeline : Timeline
  muted : Bool
  subs : List Sub
  zombies : List Zombie
  nextKey : ℕ
  commands : List Outgoing
  outbox : Outbox

end EchoMuse

namespace EchoMuse.Uplink

open EchoMuse.Ema EchoMuse.Streams EchoMuse.Intervals EchoMuse.Traverse

/-- A backfill grant to apply to the stream registry before sending anything else. -/
structure Grant where
  stream : StreamId
  grant : BackfillGrant
  deriving DecidableEq, Repr

/-- What became of one packet. -/
inductive Ingested
  | stored (newSamples : ℕ)
  | unwanted
  | erasedEpoch
  | unknownEpoch
  | notUplink
  deriving DecidableEq, Repr

/-- Why a subscription could not open. -/
inductive OpenError
  | muted
  | noCaptureEpoch
  | staleEpoch (current : Option UInt64) (requested : UInt64)
  | duplicateId
  | noStreams
  | afeUnavailable
  | nearMissUnsupported
  deriving DecidableEq, Repr

/-- Why a command about a subscription could not be issued. -/
inductive CommandError
  | unknownSubscription
  | notACandidate
  | ending
  deriving DecidableEq, Repr

/-- What an ended subscription leaves behind on the device side. -/
inductive Leaves
  /-- The device may still be sending it until its `uplink.ended`. -/
  | zombie
  /-- The device has ended it too, or never had it. -/
  | gone
  deriving DecidableEq, Repr

/-- `f` on the cursor of `stream` and `epoch`, if there is one. -/
def findCursor {σ : Type} (stream : StreamId) (epoch : UInt64) (f : Cursor → σ → Cursor × σ)
    (wants : List Want) (s : σ) : List Want × σ :=
  updateFirst (·.stream = stream)
    (fun w s =>
      let r := updateFirst (·.epoch = epoch) f w.cursors s
      ({ w with cursors := r.1 }, r.2))
    wants s

/-- A release for one subscription: the outbox, and whether the subscription has gone over
its bounds, are passed through. -/
def Sub.release (sub : Sub) (source : Source) (holeWait now : ℕ) (c : Cursor)
    (s : Outbox × Bool) : Cursor × (Outbox × Bool) :=
  let r := EchoMuse.Uplink.release source sub.id sub.generation holeWait now c s.1
  (r.1, (r.2.1, s.2 || !r.2.2))

def new (config : UplinkConfig) (terms : SessionTerms) (muted : Bool) : Uplink where
  config := config
  terms := terms
  timeline := .new config
  muted := muted
  subs := []
  zombies := []
  nextKey := 0
  commands := []
  outbox :=
    { queue := []
      accounts := fun _ => none
      maxBytes := config.maxBacklogBytes
      maxDeliveries := config.maxBacklogDeliveries }

/-- Takes the commands to send, in order. -/
def takeCommands (u : Uplink) : Uplink × List Outgoing :=
  ({ u with commands := [] }, u.commands)

/-- Takes every queued delivery, in the order released. -/
def drain (u : Uplink) : Uplink × List Delivery :=
  let drained := u.outbox.drain
  ({ u with outbox := drained.1 }, drained.2)

/-! ### Ending subscriptions -/

def pushEnded (u : Uplink) (sub : Sub) (cause : EndCause) : Uplink :=
  { u with
    outbox := (u.outbox.push (.ended ⟨sub.id, sub.owner, sub.reason, sub.generation, cause⟩)).1 }

/-- Ends every subscription: their claims and commands are dropped. -/
def endAll (u : Uplink) (cause : EndCause) : Uplink :=
  let ended := u.subs.foldl (fun u sub =>
      { u with
        timeline := u.timeline.dropClaims sub.key
        commands := u.commands.filter (·.command.subscriptionId ≠ sub.id) }.pushEnded sub cause)
    { u with subs := [] }
  { ended with
    zombies := []
    timeline := u.zombies.foldl (fun t z => t.dropClaims z.key) ended.timeline }

/-- Every (stream, epoch) a subscription has a cursor on. -/
def cursorStreams (sub : Sub) : List (StreamId × UInt64) :=
  sub.wants.flatMap fun w => w.cursors.map fun c => (w.stream, c.epoch)

/-- Ends subscription `sub`, the one at index `at`. -/
def endSub (u : Uplink) (index : ℕ) (sub : Sub) (cause : EndCause) (leaves : Leaves)
    (now : ℕ) : Uplink :=
  let u : Uplink := { u with subs := u.subs.eraseIdx index }
  let u : Uplink := match leaves with
    | .zombie =>
      { u with
        zombies := u.zombies ++ [⟨sub.key, sub.id, cursorStreams sub,
          after now (SUBSCRIPTION_TTL + u.config.holeWait)⟩] }
    | .gone =>
      { u with
        timeline := u.timeline.dropClaims sub.key
        commands := u.commands.filter (·.command.subscriptionId ≠ sub.id) }
  u.pushEnded sub cause

/-- Closes the subscription at `index` on the device too, unless it is already ending there. -/
def closeAt (u : Uplink) (index : ℕ) (sub : Sub) (reason : CloseReason) (cause : EndCause)
    (now : ℕ) : Uplink :=
  if sub.phase.isActive then
    let u : Uplink := { u with commands := u.commands ++ [⟨sub.generation, .close sub.id reason⟩] }
    u.endSub index sub cause .zombie now
  else u.endSub index sub cause .gone now

/-- What a drain that ran out still owes on a cursor is declared missing. -/
def giveUpCursor (sub : Sub) (stream : StreamId) (c : Cursor) (o : Outbox) : Cursor × Outbox :=
  match c.pos, c.target with
  | some pos, some target =>
    if target ≤ pos then (c, o)
    else
      ({ c with pos := some target },
        (o.push (.chunk ⟨sub.id, sub.generation, stream, c.epoch, ⟨pos, target⟩,
          .missing .timedOut⟩)).1)
  | _, _ => (c, o)

/-- The subscription after its drain ran out, and the outbox then. -/
def giveUpDrain (sub : Sub) (o : Outbox) : Sub × Outbox :=
  let r := mapState (fun w o =>
      let r := mapState (giveUpCursor sub w.stream) w.cursors o
      ({ w with cursors := r.1 }, r.2)) sub.wants o
  ({ sub with wants := r.1 }, r.2)

/-- Whether a draining subscription has delivered everything it was sent. -/
def drained (sub : Sub) : Bool :=
  sub.wants.all fun w => w.cursors.all Cursor.done

/-- One turn of the settling loop: the uplink then, and whether it goes on to the next
subscription or the one at `index` was removed. -/
def settleAt (u : Uplink) (index : ℕ) (sub : Sub) (now : ℕ) : Uplink × Bool :=
  if sub.overflowed then (u.closeAt index sub .closed .overflow now, false)
  else match sub.phase with
    | .draining report deadline =>
      if drained sub then (u.endSub index sub (.device report) .gone now, false)
      else if deadline ≤ now then
        let given := giveUpDrain sub u.outbox
        ({ u with subs := u.subs.set index given.1, outbox := given.2 }.endSub index given.1
          (.device report) .gone now, false)
      else (u, true)
    | .active _ =>
      if sub.nearMissDone then
        (u.closeAt index sub .closed (.closed .closed) now, false)
      else (u, true)

/-- The settling loop from `index` on; each turn passes or removes one of `fuel`
subscriptions. -/
def settleFrom (now : ℕ) : ℕ → ℕ → Uplink → Uplink
  | 0, _, u => u
  | fuel + 1, index, u =>
    match u.subs[index]? with
    | none => u
    | some sub =>
      let turn := u.settleAt index sub now
      settleFrom now fuel (if turn.2 then index + 1 else index) turn.1

/-- Ends what is finished: overflowed consumers, completed near misses and drains that
delivered everything or ran out. -/
def settleSubs (u : Uplink) (now : ℕ) : Uplink :=
  settleFrom now u.subs.length 0 u

/-- Releases every cursor of a subscription with nothing new arriving. -/
def releaseSub (timeline : Timeline) (holeWait now : ℕ) (sub : Sub) (o : Outbox) :
    Sub × Outbox :=
  let r := mapState (fun w s =>
      let r := mapState (fun c s =>
          match timeline.get w.stream c.epoch with
          | none => (c, s)
          | some held =>
            sub.release ⟨held.buffer, held.track.liveEnd, none, w.stream, held.epoch⟩ holeWait
              now c s) w.cursors s
      ({ w with cursors := r.1 }, r.2)) sub.wants (o, sub.overflowed)
  ({ sub with wants := r.1, overflowed := r.2.2 }, r.2.1)

/-- The round of `releaseSub` for one cursor. -/
def releaseCursor (timeline : Timeline) (holeWait now : ℕ) (sub : Sub) (stream : StreamId)
    (c : Cursor) (s : Outbox × Bool) : Cursor × Outbox × Bool :=
  match timeline.get stream c.epoch with
  | none => (c, s)
  | some held =>
    sub.release ⟨held.buffer, held.track.liveEnd, none, stream, held.epoch⟩ holeWait now c s

/-- Releases every cursor with nothing new arriving: for holes whose wait ran out and
drains. -/
def releaseAll (u : Uplink) (now : ℕ) : Uplink :=
  let r := mapState (releaseSub u.timeline u.config.holeWait now) u.subs u.outbox
  { u with subs := r.1, outbox := r.2 }

/-! ### Device reports -/

/-- A new reference epoch for one subscription: a live one that wants the reference gets a
cursor at its live position, unless it has one. -/
def openReference (epoch : UInt64) (sub : Sub) : Sub :=
  if sub.phase.isActive then
    { sub with
      wants := (updateFirst (·.stream = .reference) (fun w s =>
          (if w.cursors.any (·.epoch = epoch) then w
            else { w with cursors := w.cursors ++ [.new epoch .live] }, s)) sub.wants ()).1 }
  else sub

/-- A `stream.open` the registry accepted. A new capture epoch ends every subscription; a new
reference epoch restarts the reference of every live subscription at its live position. -/
def streamOpened (u : Uplink) (o : StreamOpen) : Uplink :=
  if u.timeline.isErased o.streamId o.epoch then u
  else if o.streamId = .reference then
    { u with
      timeline := { u.timeline with reference := some o.epoch }.ensure .reference o.epoch
      subs := u.subs.map (openReference o.epoch) }
  else
    let u :=
      if u.timeline.capture = some o.epoch then u
      else
        let u := u.endAll .captureEpoch
        { u with timeline := { u.timeline with capture := some o.epoch } }
    { u with timeline := u.timeline.ensure o.streamId o.epoch }

/-- The end of a reference epoch for one subscription: its cursor is closed, and what never
came is declared missing. -/
def endReference (source : Source) (finalSample holeWait now : ℕ) (sub : Sub) (o : Outbox) :
    Sub × Outbox :=
  let r := updateFirst (·.stream = source.stream) (fun w (s : Outbox × Bool) =>
      match w.cursors.find? (·.epoch = source.epoch) with
      | none => (w, s)
      | some c =>
        let c := { c with target := none }
        let c := if c.pos.isSome then c.settle finalSample .notSent else c
        ({ w with cursors := w.cursors.eraseP (·.epoch = source.epoch) },
          (sub.release source holeWait now c s).2)) sub.wants (o, sub.overflowed)
  ({ sub with wants := r.1, overflowed := r.2.2 }, r.2.1)

/-- A `stream.end` the registry accepted. The end of the capture epoch ends every
subscription; the end of a reference epoch closes each subscription's reference on it. -/
def streamEnded (u : Uplink) (e : StreamEnd) (now : ℕ) : Uplink :=
  if e.streamId ≠ .reference then
    if u.timeline.capture = some e.epoch then
      let u := u.endAll .captureEpoch
      { u with timeline := { u.timeline with capture := none } }
    else u
  else
    let u :=
      if u.timeline.reference = some e.epoch then
        { u with timeline := { u.timeline with reference := none } }
      else u
    match u.timeline.get e.streamId e.epoch with
    | none => u
    | some held =>
      let r := mapState (endReference
          ⟨held.buffer, held.track.liveEnd, none, e.streamId, held.epoch⟩
          e.finalSample.toNat u.config.holeWait now) u.subs u.outbox
      { u with subs := r.1, outbox := r.2 }.settleSubs now

/-- What a packet's run start tells one subscription. -/
def attributeTo (stream : StreamId) (epoch : UInt64) (subs : List Sub)
    (a : SubKey × Attribution) : List Sub :=
  (updateFirst (·.key = a.1) (fun sub s =>
      ({ sub with
          wants := (findCursor stream epoch (fun c s => (c.«attribute» a.2 stream, s))
            sub.wants ()).1 }, s)) subs ()).1

/-- A packet for one subscription: its cursor moves on, and releases what it can. -/
def packetTo (source : Source) (path : Path) (first holeWait now : ℕ) (sub : Sub) (o : Outbox) :
    Sub × Outbox :=
  let r := findCursor source.stream source.epoch (fun c s =>
      sub.release source holeWait now (c.onPacket path first sub.key source.stream) s)
    sub.wants (o, sub.overflowed)
  ({ sub with wants := r.1, overflowed := r.2.2 }, r.2.1)

/-- The epoch a packet belongs to, with the packet placed in its track and, when wanted,
stored; also returns its place and how many samples were new. -/
def place (held : EpochStream) (packet : Packet) (wanted : Bool) :
    EpochStream × Classified × ℕ :=
  let header := packet.header
  let placed := held.track.classify header.firstSample.toNat packet.endSample.toNat
    (header.flags.contains Flags.DISCONTINUITY)
  let buffer := match placed.2.missing with
    | some missing => held.buffer.markMissing missing
    | none => held.buffer
  let stored := if wanted then buffer.store packet else (buffer, 0)
  (⟨held.epoch, stored.1, placed.1⟩, placed.2, stored.2)

/-- One uplink packet the registry accepted. -/
def ingest (u : Uplink) (packet : Packet) (now : ℕ) : Uplink × Ingested :=
  let header := packet.header
  match StreamId.ofKind header.kind with
  | none => (u, .notUplink)
  | some stream =>
    if u.timeline.isErased stream header.epoch then (u, .erasedEpoch)
    else match u.timeline.get stream header.epoch with
      | none => (u, .unknownEpoch)
      | some held =>
        let wanted := u.subs.any (·.wantsOn stream header.epoch)
        let placed := place held packet wanted
        let subs := placed.2.1.attributed.foldl (attributeTo stream header.epoch) u.subs
        let source : Source :=
          ⟨placed.1.buffer, placed.1.track.liveEnd, some packet, stream, placed.1.epoch⟩
        let r := mapState (packetTo source placed.2.1.path header.firstSample.toNat
          u.config.holeWait now) subs u.outbox
        ({ u with timeline := u.timeline.set stream placed.1, subs := r.1, outbox := r.2
            }.settleSubs now,
          if wanted then .stored placed.2.2 else .unwanted)

/-- What an `uplink.ended` says of the newest epoch's cursor of a stream. -/
def reportCursor (report : UplinkEnded) (stream : StreamId) (c : Cursor) : Cursor :=
  let c := { c with target := (report.lastSample stream).map (saturatingAdd · 1) }
  match report.clippedStart stream with
  | some clipped =>
    { (match c.pos with
        | some _ => c.settle clipped .clipped
        | none => { c with pos := some clipped }) with mode := .ordered }
  | none => c

/-- A want whose newest cursor was reported on. -/
def reportWant (report : UplinkEnded) (w : Want) : Want :=
  { w with cursors := w.cursors.modify (w.cursors.length - 1) (reportCursor report w.stream) }

/-- An `uplink.ended`. A subscription ended for `closed`, `ttl` or `overrun` first delivers
what the report says was sent; `mute`, `epoch` and `session` end it at once. -/
def deviceEnded (u : Uplink) (report : UplinkEnded) (now : ℕ) : Uplink :=
  if u.zombies.any (·.id.text = report.subscriptionId) then
    { u with
      zombies := (updateFirst (·.id.text = report.subscriptionId) (fun z s =>
        ({ z with expires := min z.expires (after now u.config.holeWait) }, s)) u.zombies ()).1 }
  else
    let index := u.subs.findIdx (·.id.text = report.subscriptionId)
    match u.subs[index]? with
    | none => u
    | some sub =>
      if ¬ sub.phase.isActive then u
      else match report.reason with
        | .mute =>
          { u with outbox := u.outbox.discardChunksOf sub.id }.endSub index sub (.device report)
            .gone now
        | .epoch | .session => u.endSub index sub (.device report) .gone now
        | .closed | .ttl | .overrun =>
          let sub :=
            { sub with
              wants := sub.wants.map (reportWant report)
              phase := .draining report (after now u.config.holeWait) }
          ({ u with subs := u.subs.set index sub }.releaseAll now).settleSubs now

/-- Ends every subscription for `cause` and discards what is queued. -/
def discardAll (u : Uplink) (cause : EndCause) : Uplink :=
  u.subs.foldl (fun u sub => u.pushEnded sub cause)
    { u with outbox := u.outbox.discardChunks, commands := [], zombies := [], subs := [] }

/-- The privacy mute went on: every subscription ends now, queued deliveries and buffers are
discarded, and the muted capture epochs' packets are refused from now on. -/
def mute (u : Uplink) : Uplink :=
  let u := { u with muted := true }.discardAll .muted
  { u with timeline := u.timeline.erase }

/-- The privacy mute went off. -/
def unmute (u : Uplink) : Uplink :=
  { u with muted := false }

/-- The session ended: every subscription ends, and nothing queued or buffered survives. -/
def sessionLost (u : Uplink) : Uplink :=
  let u := u.discardAll .sessionLost
  { u with timeline := u.timeline.clear }

/-! ### Controller decisions -/

def checkOpen (u : Uplink) (requested : Option UInt64) : Except OpenError UInt64 :=
  if u.muted then .error .muted
  else match u.timeline.capture, requested with
    | none, none => .error .noCaptureEpoch
    | some current, none => .ok current
    | current, some requested =>
      if current = some requested then .ok requested
      else .error (.staleEpoch current requested)

def othersWant (u : Uplink) (stream : StreamId) (epoch : UInt64) : Bool :=
  u.subs.any (·.wantsOn stream epoch) || u.zombies.any (·.streams.contains (stream, epoch))

/-- The start of a stream as the device will take it. -/
def startSpec (stream : StreamId) : StreamStart → StartSpec
  | .live => .live
  | .at sample =>
    match deviceGridStart stream sample with
    | some sample => .at sample
    | none => .mapped

/-- One wanted stream of a new subscription: its claim, its cursor and its grant. -/
def activateStream (u : Uplink) (key : SubKey) (capture : UInt64) (stream : StreamId)
    (start : StreamStart) (timeline : Timeline) : Timeline × Want × List Grant :=
  let spec := startSpec stream start
  let epoch := if stream = .reference then timeline.reference else some capture
  let grants : List Grant :=
    if spec = .live then []
    else [⟨stream, if stream = .reference then .everyOpenEpoch else .epoch capture⟩]
  match epoch with
  | none => (timeline, ⟨stream, []⟩, grants)
  | some epoch =>
    if spec = .live then (timeline, ⟨stream, [.new epoch spec]⟩, grants)
    else
      let claim : Claim :=
        { key := key
          fresh := !u.othersWant stream epoch
          floor :=
            match spec with
            | .at sample => some sample
            | _ => none }
      let timeline := timeline.ensure stream epoch
      let timeline := match timeline.get stream epoch with
        | some held => timeline.set stream { held with track := held.track.claim claim }
        | none => timeline
      (timeline, ⟨stream, [.new epoch spec]⟩, grants)

/-- The wanted streams of a new subscription, in the order of the streams. -/
def activateStreams (u : Uplink) (key : SubKey) (capture : UInt64) (streams : Starts) :
    List StreamId → Timeline → Timeline × List Want × List Grant
  | [], timeline => (timeline, [], [])
  | stream :: rest, timeline =>
    match streams stream with
    | none => activateStreams u key capture streams rest timeline
    | some start =>
      let r := u.activateStream key capture stream start timeline
      let more := activateStreams u key capture streams rest r.1
      (more.1, r.2.1 :: more.2.1, r.2.2 ++ more.2.2)

def activate (u : Uplink) (id : SubscriptionId) (owner : Owner) (reason : SubscriptionReason)
    (capture : UInt64) (streams : Starts) (nearMiss : Option NearMissPlan) (now : ℕ) :
    Uplink × List Grant :=
  let key : SubKey := ⟨u.nextKey⟩
  let r := u.activateStreams key capture streams streamIds u.timeline
  let sub : Sub :=
    { key := key
      id := id
      owner := owner
      reason := reason
      generation := .FIRST
      captureEpoch := capture
      wants := r.2.1
      phase := .active (after now RENEW_INTERVAL)
      nearMiss := nearMiss
      overflowed := false }
  ({ u with timeline := r.1, subs := u.subs ++ [sub], nextKey := u.nextKey + 1 }, r.2.2)

/-- Accepts a `wake.candidate`: its subscription wants mic, cells, reference and (in a session
with AFE metadata) AFE records from the candidate starts. -/
def acceptCandidate (u : Uplink) (id : SubscriptionId) (captureEpoch : UInt64)
    (supportStart now : ℕ) : Except OpenError (Uplink × List Grant) :=
  match u.checkOpen (some captureEpoch) with
  | .error e => .error e
  | .ok capture =>
    if u.subs.any (·.id = id) then .error .duplicateId
    else
      .ok (u.activate id (.ofSubscription id) .candidate capture
        (CandidateStarts.new supportStart u.terms.afeMetadata).streams none now)

/-- Converts an accepted candidate into the turn's subscription. -/
def convertToTurn (u : Uplink) (id : SubscriptionId) (turn : Owner) (now : ℕ) :
    Except CommandError Uplink :=
  match u.subs.find? (·.id = id) with
  | none => .error .unknownSubscription
  | some sub =>
    if ¬ sub.phase.isActive then .error .ending
    else if sub.reason ≠ .candidate then .error .notACandidate
    else
      let converted :=
        { sub with
          generation := sub.generation.next
          reason := .turn
          owner := turn
          phase := .active (after now RENEW_INTERVAL) }
      .ok { u with
        subs := (updateFirst (·.id = id) (fun _ s => (converted, s)) u.subs ()).1
        commands := u.commands ++ [⟨converted.generation, .renew sub.id (some turn)⟩] }

/-- Opens a subscription under the fresh ID `id`; also returns the grants. -/
def openWith (u : Uplink) (id : SubscriptionId) (reason : OpenReason) (owner : Owner)
    (streams : Starts) (nearMiss : Option NearMissPlan) (now : ℕ) :
    Except OpenError (Uplink × List Grant) :=
  match u.checkOpen none with
  | .error e => .error e
  | .ok capture =>
    if streamIds.all fun s => (streams s).isNone then .error .noStreams
    else if (streams .afe).isSome ∧ ¬ u.terms.afeMetadata then .error .afeUnavailable
    else
      let r := u.activate id owner (.of reason) capture streams nearMiss now
      .ok ({ r.1 with
        commands := r.1.commands ++ [⟨.FIRST, .open id owner reason streams⟩] }, r.2)

/-- Opens a subscription with `uplink.open` at generation 1. -/
def «open» (u : Uplink) (id : SubscriptionId) (reason : OpenReason) (owner : Owner)
    (streams : Starts) (now : ℕ) : Except OpenError (Uplink × List Grant) :=
  if reason = .nearMiss ∧ ¬ u.terms.nearMiss then .error .nearMissUnsupported
  else u.openWith id reason owner streams none now

/-- Opens a button turn's subscription: the candidate formulas with the press sample in place
of the support start. -/
def openButtonTurn (u : Uplink) (id : SubscriptionId) (turn : Owner) (press now : ℕ) :
    Except OpenError (Uplink × List Grant) :=
  u.open id .turn turn (CandidateStarts.new press u.terms.afeMetadata).streams now

/-- Mic, reference and AFE records live, cells from `cellsFrom`. -/
def replyStreams (terms : SessionTerms) (cellsFrom : ℕ) : Starts
  | .mic => some .live
  | .reference => some .live
  | .cells => some (.at cellsFrom)
  | .afe => if terms.afeMetadata then some .live else none

/-- Opens a reply window's subscription. -/
def openReply (u : Uplink) (id : SubscriptionId) (expectation : Owner) (cellsFrom now : ℕ) :
    Except OpenError (Uplink × List Grant) :=
  u.open id .reply expectation (replyStreams u.terms cellsFrom) now

/-- Mic and AFE records live. -/
def diagnosticStreams (terms : SessionTerms) : Starts
  | .mic => some .live
  | .afe => if terms.afeMetadata then some .live else none
  | _ => none

/-- Opens a dashboard recording mode's subscription. -/
def openDiagnostic (u : Uplink) (id : SubscriptionId) (mode : Owner) (now : ℕ) :
    Except OpenError (Uplink × List Grant) :=
  u.open id .diagnostic mode (diagnosticStreams u.terms) now

/-- AFE records from `afeFrom` and, when the speaker saves utterances, mic from `micFrom`. -/
def responseStreams (afeFrom : ℕ) (micFrom : Option ℕ) : Starts
  | .afe => some (.at afeFrom)
  | .mic => micFrom.map .at
  | _ => none

/-- Opens the response recording when a turn commits. -/
def openResponse (u : Uplink) (id : SubscriptionId) (turn : Owner) (afeFrom : ℕ)
    (micFrom : Option ℕ) (now : ℕ) : Except OpenError (Uplink × List Grant) :=
  u.open id .turn turn (responseStreams afeFrom micFrom) now

/-- Mic from the candidate's mic start and AFE records from a second before the support. -/
def nearMissStreams (terms : SessionTerms) (supportStart : ℕ) : Starts
  | .mic => some (.at (CandidateStarts.new supportStart false).mic)
  | .afe => if terms.afeMetadata then some (.at (supportStart - NEAR_MISS_AFE_LEAD)) else none
  | _ => none

/-- Opens a near miss's recording. -/
def openNearMiss (u : Uplink) (id : SubscriptionId) (owner : Owner) (captureEpoch : UInt64)
    (supportStart supportEnd now : ℕ) : Except OpenError (Uplink × List Grant) :=
  if ¬ u.terms.nearMiss then .error .nearMissUnsupported
  else match u.checkOpen (some captureEpoch) with
    | .error e => .error e
    | .ok _ =>
      u.openWith id .nearMiss owner (nearMissStreams u.terms supportStart)
        (some ⟨saturatingAdd supportEnd NEAR_MISS_TAIL + 1, u.terms.afeMetadata⟩) now

/-- Closes a subscription with `uplink.close`. -/
def close (u : Uplink) (id : SubscriptionId) (reason : CloseReason) (now : ℕ) :
    Except CommandError Uplink :=
  let index := u.subs.findIdx (·.id = id)
  match u.subs[index]? with
  | none => .error .unknownSubscription
  | some sub => .ok (u.closeAt index sub reason (.closed reason) now)

/-- The device rejected a command about `id` sent at `generation`. -/
def commandRejected (u : Uplink) (id : SubscriptionId) (generation : Generation)
    (code : Option String) (now : ℕ) : Uplink :=
  let index := u.subs.findIdx (·.id = id)
  match u.subs[index]? with
  | none => u
  | some sub =>
    if generation.value < sub.generation.value ∨ ¬ sub.phase.isActive then u
    else u.endSub index sub (.rejected code) .gone now

/-! ### Time -/

/-- A subscription's renewal, if it is due: the subscription then, and the command. -/
def renew (now : ℕ) (sub : Sub) (commands : List Outgoing) : Sub × List Outgoing :=
  match sub.phase with
  | .active nextRenewal =>
    if nextRenewal ≤ now then
      ({ sub with phase := .active (after now RENEW_INTERVAL) },
        commands ++ [⟨sub.generation, .renew sub.id none⟩])
    else (sub, commands)
  | .draining _ _ => (sub, commands)

/-- Runs what is due at `now`: renewals, holes that waited too long, drains that ran out, and
forgotten closed subscriptions. -/
def poll (u : Uplink) (now : ℕ) : Uplink :=
  let renewed := mapState (renew now) u.subs u.commands
  let renewing : Uplink := { u with subs := renewed.1, commands := renewed.2 }
  let u := renewing.releaseAll now
  let lapsed := u.zombies.filter (·.expires ≤ now)
  let u : Uplink :=
    { u with
      zombies := u.zombies.filter (now < ·.expires)
      timeline := lapsed.foldl (fun t z => t.dropClaims z.key) u.timeline }
  u.settleSubs now

end EchoMuse.Uplink
