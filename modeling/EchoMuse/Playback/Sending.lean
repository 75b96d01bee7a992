import EchoMuse.Monitors
import EchoMuse.Playback.Render
import Mathlib.Data.List.Induction

/-!
# Sending a Playback's Audio

What the log of one playback says, the law each of its entries obeys, and how the audio between
`push_audio` and the link relates to it.

## Main results

* `encodeRender_window`: a packet the window admits always encodes;
* `Sending.take`: cutting a packet moves audio from the pending queue into the packet;
* `Sending.loop`: the send loop keeps the law and the relation.
-/

namespace EchoMuse.Render

open Monitors

/-! ### What a log says -/

def Effect.isOpened : Effect → Bool
  | .opened _ => true
  | _ => false

def Effect.isSourceDone : Effect → Bool
  | .sourceDone _ => true
  | _ => false

def Effect.isAccepted : Effect → Bool
  | .event (.accepted _) => true
  | _ => false

def Effect.isCancelled : Effect → Bool
  | .event (.cancelled ..) => true
  | _ => false

def Effect.isEnded : Effect → Bool
  | .event (.ended ..) => true
  | _ => false

/-- A `render.end` the link took. -/
def Effect.isRenderEnd : Effect → Bool
  | .request (.renderEnd _) _ true => true
  | _ => false

/-- The entries of a log about one playback. -/
def about (id : PlaybackId) (log : List Effect) : List Effect :=
  log.filter fun e => e.playbackId = id

/-- The samples `push_audio` took. -/
def buffered (es : List Effect) : List Int16 :=
  es.flatMap fun
    | .buffered _ pcm => pcm
    | _ => []

/-- The frames the link took. -/
def queued (es : List Effect) : List RenderFrame :=
  es.filterMap fun
    | .offered f .accepted => some f
    | _ => none

/-- The samples in the frames the link took. -/
def played (es : List Effect) : List Int16 := (queued es).flatMap RenderFrame.pcm

/-- The `completed_frames` of a progress report. -/
def Effect.completed : Effect → ℕ
  | .event (.progress _ progress) => progress.completedFrames.toNat
  | _ => 0

/-- The greatest `completed_frames` reported. -/
def reportedFrames (es : List Effect) : ℕ := es.foldl (fun n e => max n e.completed) 0

section

variable (es more : List Effect)

@[simp] theorem buffered_append : buffered (es ++ more) = buffered es ++ buffered more :=
  List.flatMap_append

@[simp] theorem queued_append : queued (es ++ more) = queued es ++ queued more :=
  List.filterMap_append

@[simp] theorem played_append : played (es ++ more) = played es ++ played more := by
  simp [played]

theorem reportedFrames_concat (e : Effect) :
    reportedFrames (es ++ [e]) = max (reportedFrames es) e.completed := by
  simp [reportedFrames, List.foldl_append]

@[simp] theorem about_append (id : PlaybackId) (log log' : List Effect) :
    about id (log ++ log') = about id log ++ about id log' :=
  List.filter_append ..

end

/-- Entries about one playback are all there is about it. -/
theorem about_eq_self {id : PlaybackId} {es : List Effect} (h : ∀ e ∈ es, e.playbackId = id) :
    about id es = es :=
  List.filter_eq_self.mpr fun e he => by simpa using h e he

/-- Entries about one playback say nothing about another. -/
theorem about_eq_nil {id id' : PlaybackId} (hne : id ≠ id') {es : List Effect}
    (h : ∀ e ∈ es, e.playbackId = id') : about id es = [] :=
  List.filter_eq_nil_iff.mpr fun e he => by simpa [h e he] using hne.symm

/-! ### The law of a playback's log -/

/-- A frame continues the frames the link took before it. -/
structure FrameFits (before : List Effect) (f : RenderFrame) : Prop where
  sequence : f.sequence = (queued before).length
  firstFrame : f.firstFrame = (played before).length
  frames : f.frames = f.pcm.length
  full_before : ∀ g ∈ queued before, g.frames = PACKET_FRAMES
  full : f.frames = PACKET_FRAMES ∨
    before.any Effect.isSourceDone = true ∧ played before ++ f.pcm = buffered before
  content : played before ++ f.pcm <+: buffered before
  window : f.firstFrame + f.frames ≤ reportedFrames before + MAX_FRAMES_AHEAD.toNat

/-- What may follow in the log of one playback. -/
def Follows (before : List Effect) : Effect → Prop
  | .opened _ | .tokenCancelled _ => True
  | .buffered .. | .sourceDone _ => before.any Effect.isSourceDone = false
  | .event (.accepted _) => before.any Effect.isAccepted = false
  | .event (.cancelled ..) => before.any Effect.isCancelled = false
  | .event _ => True
  | .offered f _ => before.any Effect.isAccepted = true ∧
      before.any Effect.isCancelled = false ∧ FrameFits before f
  | .request (.renderEnd body) _ _ => before.any Effect.isAccepted = true ∧
      before.any Effect.isCancelled = false ∧ before.any Effect.isRenderEnd = false ∧
      before.any Effect.isSourceDone = true ∧
      played before = buffered before ∧ body.endFrame = (buffered before).length
  | .request .. => True

/-- What may follow in the log of one playback: nothing after its end. -/
def May (before : List Effect) (e : Effect) : Prop :=
  before.any Effect.isEnded = false ∧ Follows before e

/-! ### The window -/

theorem toNat_add_le (a b : UInt64) : (a + b).toNat ≤ a.toNat + b.toNat := by
  rw [UInt64.toNat_add]
  exact Nat.mod_le _ _

/-- A packet that the window admits always encodes, and reads back as its samples. -/
theorem encodeRender_window (epoch : RenderEpoch) (sequence firstFrame : ℕ) (generation : UInt32)
    (limit : UInt64) {pcm : List Int16} (hne : pcm ≠ []) (hlen : pcm.length ≤ PACKET_FRAMES)
    (hwindow : firstFrame + pcm.length ≤ limit.toNat) :
    ∃ b p, Ema.encodeRender epoch.value (UInt64.ofNat sequence) (UInt64.ofNat firstFrame)
        generation Ema.Flags.NONE pcm = .ok b ∧ Ema.Packet.parse b = .ok p ∧
      p.content = .pcm pcm := by
  have hlimit := limit.toNat_lt
  have hpos : 0 < pcm.length := List.length_pos_iff.mpr hne
  have hmax : PACKET_FRAMES = 3840 := rfl
  set h := Ema.renderHeader epoch.value (UInt64.ofNat sequence) (UInt64.ofNat firstFrame)
    generation Ema.Flags.NONE pcm with hh
  have hcount : h.frameCount = UInt32.ofNat pcm.length := by
    rw [hh, Ema.renderHeader]
    exact if_pos (by omega)
  have hcountNat : h.frameCount.toNat = pcm.length := by
    rw [hcount, UInt32.toNat_ofNat_of_lt' (by rw [UInt32.size]; omega)]
  have hbytes : h.payloadBytes = pcm.length * 2 := by
    have hkind : h.kind = .render := rfl
    have hflags : h.flags = Ema.Flags.NONE := rfl
    rw [Ema.Header.payloadBytes, hkind, hflags, hcountNat.symm]
    rfl
  have hend : ∃ e, h.endSample = some e := by
    refine ⟨_, if_pos ?_⟩
    have hfirst : h.firstSample.toNat = firstFrame :=
      UInt64.toNat_ofNat_of_lt' (by rw [UInt64.size]; omega)
    have hper : h.kind.samplesPerFrame = 1 := rfl
    rw [hfirst, hcountNat, hper]
    omega
  have hpayload : (UInt32.ofNat h.payloadBytes).toNat = pcm.length * 2 := by
    rw [hbytes, UInt32.toNat_ofNat_of_lt' (by rw [UInt32.size]; omega)]
  have hvalid : (h.raw (UInt32.ofNat h.payloadBytes)).Valid :=
    { flags_known := by
        have hflags : (h.raw (UInt32.ofNat h.payloadBytes)).flags = 0 := rfl
        rw [hflags]
        decide
      silence := by
        intro hs
        have hnone : Ema.Flags.mk (h.raw (UInt32.ofNat h.payloadBytes)).flags = Ema.Flags.NONE := rfl
        rw [hnone] at hs
        exact absurd hs (by decide)
      channels := rfl
      format := rfl
      epoch := epoch.ne_zero
      sampleRate := rfl
      frameCount := by
        constructor
        · intro hzero
          have hzero' : h.frameCount.toNat = 0 := congrArg UInt32.toNat hzero
          omega
        · have hle : h.frameCount.toNat ≤ (3840 : UInt32).toNat := by
            rw [hcountNat, show (3840 : UInt32).toNat = 3840 from rfl]
            omega
          exact UInt32.le_iff_toNat_le.mpr hle
      generation := by intro hk; exact absurd rfl hk
      sourceMask := fun _ => rfl
      mask_known := by
        have hmask : (h.raw (UInt32.ofNat h.payloadBytes)).sourceMask = 0 := rfl
        rw [hmask]
        decide
      cellAlignment := fun h => by cases h
      afeAlignment := fun h => by cases h
      payloadBytes := by
        have hkind : (h.raw (UInt32.ofNat h.payloadBytes)).payloadBytes.toNat =
            pcm.length * 2 := hpayload
        rw [hkind, ← hbytes]
        rfl }
  have hcheck : h.check (UInt32.ofNat h.payloadBytes) = .ok () := by
    rw [Ema.Header.check, if_neg (fun h => by cases h)]
    exact Ema.RawHeader.check_eq_ok_iff.mpr hvalid
  have hok : ∃ b, Ema.encodeRender epoch.value (UInt64.ofNat sequence) (UInt64.ofNat firstFrame)
      generation Ema.Flags.NONE pcm = .ok b := by
    obtain ⟨e, he⟩ := hend
    rw [Ema.encodeRender, ← hh]
    simp only [if_pos (show h.payloadBytes < 2 ^ 32 by rw [hbytes]; omega), hcheck, he]
    exact ⟨_, rfl⟩
  obtain ⟨b, hb⟩ := hok
  obtain ⟨p, hp, hcontent, -⟩ := Ema.parse_encodeRender hb
  exact ⟨b, p, hb, hp, hcontent⟩

/-! ### Audio on its way to the link -/

/-- The samples of a frame in hand. -/
def handPcm (hand : Option RenderFrame) : List Int16 :=
  match hand with
  | some f => f.pcm
  | none => []

/-- What `net`, with the packet `hand` cut but not yet taken by the link, has to do with the log
of its playback: what was pushed is what the link took, then the packet, then what is pending. -/
structure Sending (net : Network) (hand : Option RenderFrame) (es : List Effect) : Prop where
  done : net.sourceDone = es.any Effect.isSourceDone
  completed : net.completed.toNat = reportedFrames es
  audio : buffered es = played es ++ (handPcm hand ++ net.pending)
  nextFrame : net.nextFrame = (played es).length + (handPcm hand).length
  nextSequence : net.nextSequence = (queued es).length + (if hand.isSome then 1 else 0)
  /-- A short packet is the source's last. -/
  full : ∀ g ∈ queued es, g.frames = PACKET_FRAMES ∨
    net.sourceDone = true ∧ hand = none ∧ net.pending = []
  hand_fits : ∀ f, hand = some f → f.playback = net.token ∧ f.sequence = (queued es).length ∧
    f.firstFrame = (played es).length ∧ f.frames = f.pcm.length ∧
    (f.frames = PACKET_FRAMES ∨ net.sourceDone = true ∧ net.pending = []) ∧
    f.firstFrame + f.frames ≤ reportedFrames es + MAX_FRAMES_AHEAD.toNat
  endSent : es.any Effect.isRenderEnd = net.endSent
  /-- Nothing is left once `render.end` is sent. -/
  ended : net.endSent = true → net.sourceDone = true ∧ hand = none ∧ net.pending = []

/-- A packet in hand fits. -/
theorem Sending.fits {net : Network} {f : RenderFrame} {es : List Effect}
    (h : Sending net (some f) es) : FrameFits es f := by
  obtain ⟨-, hsequence, hfirst, hframes, hfull, hwindow⟩ := h.hand_fits f rfl
  have hbuffered : buffered es = played es ++ (f.pcm ++ net.pending) := h.audio
  refine ⟨hsequence, hfirst, hframes, ?_, ?_, ?_, hwindow⟩
  · intro g hg
    rcases h.full g hg with hg | ⟨-, hnone, -⟩
    · exact hg
    · cases hnone
  · rcases hfull with hfull | ⟨hdone, hpending⟩
    · exact .inl hfull
    · refine .inr ⟨h.done ▸ hdone, ?_⟩
      rw [hbuffered, hpending, List.append_nil]
  · rw [hbuffered, ← List.append_assoc]
    exact List.prefix_append _ _

/-- An entry that changes none of what the relation speaks about keeps it. -/
theorem Sending.concat {net : Network} {hand : Option RenderFrame} {es : List Effect}
    (h : Sending net hand es) {e : Effect} (hdone : e.isSourceDone = false)
    (hcompleted : e.completed = 0) (hbuffered : buffered [e] = []) (hqueued : queued [e] = [])
    (hend : e.isRenderEnd = false) : Sending net hand (es ++ [e]) := by
  have hplayed : played [e] = [] := by simp [played, hqueued]
  refine
    { done := ?_, completed := ?_, audio := ?_, nextFrame := ?_, nextSequence := ?_, full := ?_
      hand_fits := ?_, endSent := ?_, ended := h.ended }
  · simpa [hdone] using h.done
  · simpa [reportedFrames_concat, hcompleted] using h.completed
  · simpa [hbuffered, hplayed] using h.audio
  · simpa [hplayed] using h.nextFrame
  · simpa [hqueued] using h.nextSequence
  · simpa [hqueued] using h.full
  · simpa [hqueued, hplayed, reportedFrames_concat, hcompleted] using h.hand_fits
  · simpa [hend] using h.endSent

/-- Cutting a packet moves audio from the pending queue into the packet. -/
theorem Sending.take {net net' : Network} {generation : UInt32} {f : RenderFrame}
    {es : List Effect} (h : Sending net net.blocked es)
    (htake : net.take generation = some (f, net')) : Sending net' (some f) es ∧
      net'.blocked = none ∧ net'.token = net.token ∧ net'.epoch = net.epoch := by
  rcases hb : net.blocked with _ | blocked
  · -- a packet cut from the pending audio
    rw [hb] at h
    have hready := net.ready_le
    simp only [Network.take, hb] at htake
    split_ifs at htake with hnone hwindow
    simp only [Option.some.injEq, Prod.mk.injEq] at htake
    obtain ⟨rfl, rfl⟩ := htake
    have hlen : (net.pending.take net.ready).length = net.ready := by
      rw [List.length_take, Nat.min_eq_left hready]
    have hmax : net.ready ≤ PACKET_FRAMES := by
      rw [Network.ready]
      split_ifs <;> omega
    have hsome : net.pending.take net.ready ≠ [] := by
      intro hnil
      rw [hnil, List.length_nil] at hlen
      exact hnone hlen.symm
    obtain ⟨b, p, hencode, hp, hcontent⟩ := encodeRender_window net.epoch net.nextSequence
      net.nextFrame generation (net.completed + MAX_FRAMES_AHEAD) hsome (hlen.symm ▸ hmax)
      (by omega)
    set f : RenderFrame :=
      { bytes := (Ema.encodeRender net.epoch.value (UInt64.ofNat net.nextSequence)
          (UInt64.ofNat net.nextFrame) generation Ema.Flags.NONE
          (net.pending.take net.ready)).toOption.getD []
        playback := net.token
        sequence := net.nextSequence
        firstFrame := net.nextFrame
        frames := net.ready } with hf
    have hpcm : f.pcm = net.pending.take net.ready := by
      have hbytes : f.bytes = b := by rw [hf, hencode]; rfl
      rw [RenderFrame.pcm, hbytes, hp]
      simp only [hcontent]
    have hsequence : net.nextSequence = (queued es).length := by simpa using h.nextSequence
    have hfirst : net.nextFrame = (played es).length := by simpa [handPcm] using h.nextFrame
    have hlimit := toNat_add_le net.completed MAX_FRAMES_AHEAD
    refine ⟨⟨h.done, h.completed, ?_, ?_, ?_, ?_, ?_, h.endSent, ?_⟩, rfl, rfl, rfl⟩
    · rw [h.audio, handPcm, handPcm, hpcm, List.nil_append, List.take_append_drop]
    · rw [handPcm, hpcm, hlen, hfirst]
    · rw [hsequence]
      rfl
    · intro g hg
      rcases h.full g hg with hg | ⟨-, -, hpending⟩
      · exact .inl hg
      · rw [hpending, List.take_nil] at hsome
        exact absurd rfl hsome
    · intro f' hf'
      obtain rfl : f = f' := Option.some.inj hf'
      refine ⟨rfl, hsequence, hfirst, by rw [hpcm, hlen], ?_, ?_⟩
      · by_cases hfull : PACKET_FRAMES ≤ net.pending.length
        · exact .inl (by rw [hf, Network.ready, if_pos hfull])
        · by_cases hdone : net.sourceDone = true
          · exact .inr ⟨hdone, by simp [Network.ready, hfull, hdone]⟩
          · exact absurd (by simp [Network.ready, hfull, hdone]) hnone
      · have hcompleted := h.completed
        simp only [hf]
        omega
    · intro hended
      obtain ⟨-, -, hpending⟩ := h.ended hended
      rw [hpending, List.take_nil] at hsome
      exact absurd rfl hsome
  · -- the packet the link had no room for
    simp only [Network.take, hb, Option.some.injEq, Prod.mk.injEq] at htake
    obtain ⟨rfl, rfl⟩ := htake
    rw [hb] at h
    exact ⟨⟨h.done, h.completed, h.audio, h.nextFrame, h.nextSequence, h.full, h.hand_fits,
      h.endSent, h.ended⟩, rfl, rfl, rfl⟩

/-- The link takes the packet in hand. -/
theorem Sending.accept {net : Network} {f : RenderFrame} {es : List Effect}
    (h : Sending net (some f) es) : Sending net none (es ++ [.offered f .accepted]) := by
  obtain ⟨-, hsequence, hfirst, hframes, hfull, hwindow⟩ := h.hand_fits f rfl
  have hqueued : queued [.offered f .accepted] = [f] := rfl
  have hplayed : played [.offered f .accepted] = f.pcm := by simp [played, hqueued]
  have hbuffered : buffered [.offered f .accepted] = [] := rfl
  have hnotEnded : net.endSent = false := by
    by_contra hended
    obtain ⟨-, hnone, -⟩ := h.ended (by simpa using hended)
    cases hnone
  refine
    { done := ?_, completed := ?_, audio := ?_, nextFrame := ?_, nextSequence := ?_, full := ?_
      hand_fits := nofun, endSent := ?_, ended := ?_ }
  · simpa [Effect.isSourceDone] using h.done
  · simpa [reportedFrames_concat, Effect.completed] using h.completed
  · simpa [hbuffered, hplayed, handPcm] using h.audio
  · simpa [hplayed, handPcm] using h.nextFrame
  · simpa [hqueued] using h.nextSequence
  · intro g hg
    rw [queued_append, hqueued, List.mem_append, List.mem_singleton] at hg
    rcases hg with hg | rfl
    · rcases h.full g hg with hg | ⟨-, hnone, -⟩
      · exact .inl hg
      · cases hnone
    · exact hfull.imp_right fun ⟨hdone, hpending⟩ => ⟨hdone, rfl, hpending⟩
  · simpa [Effect.isRenderEnd] using h.endSent
  · intro hended
    rw [hnotEnded] at hended
    cases hended

/-! ### The send loop -/

/-- The log of a playback that is accepted and neither cancelled nor over. -/
structure Running (es : List Effect) : Prop where
  accepted : es.any Effect.isAccepted = true
  notCancelled : es.any Effect.isCancelled = false
  notEnded : es.any Effect.isEnded = false

theorem Running.offered {es : List Effect} (h : Running es) (f : RenderFrame) (a : FrameAnswer) :
    Running (es ++ [.offered f a]) := by
  constructor
  · simp [h.accepted]
  · simp [h.notCancelled, Effect.isCancelled]
  · simp [h.notEnded, Effect.isEnded]

/-- A packet in hand may be offered. -/
theorem Sending.may_offer {net : Network} {f : RenderFrame} {es : List Effect}
    (h : Sending net (some f) es) (hrunning : Running es) (a : FrameAnswer) :
    May es (.offered f a) :=
  ⟨hrunning.notEnded, hrunning.accepted, hrunning.notCancelled, h.fits⟩

/-- A packet the link did not take stays in hand. -/
theorem Sending.refuse {net : Network} {hand : Option RenderFrame} {es : List Effect}
    (h : Sending net hand es) (f : RenderFrame) {a : FrameAnswer} (ha : a ≠ .accepted) :
    Sending net hand (es ++ [.offered f a]) := by
  refine h.concat rfl rfl rfl ?_ rfl
  cases a with
  | accepted => exact absurd rfl ha
  | full => rfl
  | closed => rfl

/-- When a blocked packet is to be offered again. -/
def Network.Retries (net : Network) (now : ℕ) : Prop :=
  ∀ t, net.retryAt = some t → net.blocked.isSome = true ∧ now < t

variable {L : Type*} (lk : RenderLink L)

/-- What the send loop does to a playback whose log is `es`. -/
structure Pumped (w w' : World L) (es : List Effect) (net net' : Network) (closed : Bool)
    (now : ℕ) (new : List Effect) : Prop where
  client : w'.client = w.client
  log : w'.log = w.log ++ new
  about : ∀ e ∈ new, e.playbackId = net.token.playback
  lawful : Obeys May es → Obeys May (es ++ new)
  running : Running (es ++ new)
  sending : closed = false → Sending net' net'.blocked (es ++ new)
  token : net'.token = net.token
  retries : closed = false → net'.Retries now

/-- Offering a frame is one entry of the log. -/
theorem World.queueFrame_eq {w w' : World L} {f : RenderFrame} {a : FrameAnswer}
    (h : w.queueFrame lk f = (w', a)) :
    w'.client = w.client ∧ w'.log = w.log ++ [.offered f a] := by
  rw [World.queueFrame] at h
  split at h
  simp only [Prod.mk.injEq] at h
  obtain ⟨rfl, rfl⟩ := h
  exact ⟨rfl, rfl⟩

/-- A packet that was just cut and offered. -/
theorem Sending.offered {net : Network} {f : RenderFrame} {es : List Effect}
    (h : Sending net (some f) es) (hrunning : Running es) {w w' : World L} {a : FrameAnswer}
    (hqueue : w.queueFrame lk f = (w', a)) :
    w'.client = w.client ∧ w'.log = w.log ++ [.offered f a] ∧
      (∀ e ∈ [Effect.offered f a], e.playbackId = net.token.playback) ∧
      (Obeys May es → Obeys May (es ++ [.offered f a])) := by
  obtain ⟨hclient, hlog⟩ := World.queueFrame_eq lk hqueue
  refine ⟨hclient, hlog, ?_, fun hlaw => obeys_concat.mpr ⟨hlaw, h.may_offer hrunning a⟩⟩
  intro e he
  rw [List.mem_singleton] at he
  rw [he, Effect.playbackId, (h.hand_fits f rfl).1]

theorem Network.blocked_of_take_none {net : Network} {generation : UInt32}
    (h : net.take generation = none) : net.blocked = none := by
  rcases hb : net.blocked with _ | f
  · rfl
  · simp [Network.take, hb] at h

/-- The send loop keeps the law, and what it leaves is on its way. -/
theorem Sending.loop (now : ℕ) (generation : UInt32) (w : World L) (net : Network)
    {es : List Effect} (h : Sending net net.blocked es) (hrunning : Running es)
    (hretry : net.retryAt.isSome = true → net.blocked.isSome = true) :
    ∃ new, Pumped w (pumpFrames lk now generation w net).1 es net
      (pumpFrames lk now generation w net).2.1 (pumpFrames lk now generation w net).2.2 now new := by
  fun_induction pumpFrames lk now generation w net generalizing es with
  | case1 w net htake =>
      refine ⟨[], rfl, by simp, by simp, by simp, by simpa using hrunning, ?_, rfl, ?_⟩
      · intro _
        simpa using h
      · intro _ t ht
        have hblocked := hretry (by rw [ht]; rfl)
        rw [Network.blocked_of_take_none htake] at hblocked
        cases hblocked
  | case2 w net f rest htake w' hqueue ih =>
      -- the link took the packet: the loop goes on
      obtain ⟨htaken, hblocked, htoken, -⟩ := h.take htake
      obtain ⟨hclient, hlog, habout, hlaw⟩ := htaken.offered lk hrunning hqueue
      have hnext : Sending { rest with retryAt := none } ({ rest with retryAt := none } : Network).blocked
          (es ++ [.offered f .accepted]) := by
        rw [show ({ rest with retryAt := none } : Network).blocked = none from hblocked]
        obtain ⟨h₁, h₂, h₃, h₄, h₅, h₆, h₇, h₈, h₉⟩ := htaken.accept
        exact ⟨h₁, h₂, h₃, h₄, h₅, h₆, h₇, h₈, h₉⟩
      obtain ⟨new, hp⟩ := ih hnext (hrunning.offered f .accepted) nofun
      have hassoc : es ++ .offered f .accepted :: new = es ++ [.offered f .accepted] ++ new := by
        simp
      refine ⟨.offered f .accepted :: new, hp.client.trans hclient, ?_, ?_, ?_, ?_, ?_,
        hp.token.trans htoken, hp.retries⟩
      · rw [hp.log, hlog, List.append_assoc, List.singleton_append]
      · intro e he
        rcases List.mem_cons.mp he with rfl | he
        · rw [habout _ (List.mem_singleton_self _), htoken]
        · rw [hp.about e he, htoken]
      · intro hobeys
        rw [hassoc]
        exact hp.lawful (hlaw hobeys)
      · rw [hassoc]
        exact hp.running
      · rw [hassoc]
        exact hp.sending
  | case3 w net f rest htake w' hqueue =>
      -- the link's queue is full: the packet waits to be offered again
      obtain ⟨htaken, -, htoken, -⟩ := h.take htake
      obtain ⟨hclient, hlog, habout, hlaw⟩ := htaken.offered lk hrunning hqueue
      refine ⟨_, hclient, hlog, fun e he => (habout e he).trans (by rw [htoken]), hlaw,
        hrunning.offered f .full, ?_, htoken, ?_⟩
      · intro _
        obtain ⟨h₁, h₂, h₃, h₄, h₅, h₆, h₇, h₈, h₉⟩ := htaken.refuse f (a := .full) nofun
        exact ⟨h₁, h₂, h₃, h₄, h₅, h₆, h₇, h₈, h₉⟩
      · intro _ t ht
        obtain rfl : now + FRAME_RETRY = t := Option.some.inj ht
        refine ⟨rfl, ?_⟩
        rw [FRAME_RETRY]
        omega
  | case4 w net f rest htake w' hqueue =>
      -- the session has ended
      obtain ⟨htaken, -, htoken, -⟩ := h.take htake
      obtain ⟨hclient, hlog, habout, hlaw⟩ := htaken.offered lk hrunning hqueue
      exact ⟨_, hclient, hlog, fun e he => (habout e he).trans (by rw [htoken]), hlaw,
        hrunning.offered f .closed, nofun, htoken, nofun⟩

end EchoMuse.Render
