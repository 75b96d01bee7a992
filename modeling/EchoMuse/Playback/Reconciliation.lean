import EchoMuse.Playback.Intents
import Mathlib.Algebra.BigOperators.Group.List.Basic

/-!
# What the Media Player Does

The media player as an observer of its operations and effects sees it: which content playback is
outstanding, which announcement plays, and what the device reported played of each stream.

## Main results

* `Tracks.apply`: content playbacks come one at a time, announcements in turn;
* `Marks.apply`: a playback starts behind the frames its stream's earlier playbacks reported;
* `media_player_reconciles`: the laws of every run of the player.
-/

namespace EchoMuse.Media

open Monitors

variable {Id : Type*}

/-! ### What an observer sees -/

abbrev MediaEvent (Id : Type*) := Event (MediaOp Id) (MediaEffect Id)

/-- The announcement an operation asks for. -/
def announcementOf (announcementChime : Bool) (key : AnnouncementKey) :
    MediaOp Id → Option (AnnouncementPlan Id)
  | .command (.playUrl url true) =>
      some { key, mediaUrl := url, opener := mediaOpener announcementChime, text := none,
             startConversation := false, satellite := none }
  | .announce a =>
      some { key, mediaUrl := a.mediaUrl,
             opener := satelliteOpener announcementChime a.preannounceUrl, text := a.text,
             startConversation := a.startConversation, satellite := some a.id }
  | _ => none

/-- What the events show: the content playback that has been started and has neither been
stopped nor ended, whether a dialog runs, the announcement that plays, and the announcements
asked for, started and finished. -/
structure Seen (Id : Type*) where
  outstanding : Option StreamId := none
  dialog : Bool := false
  announcing : Option AnnouncementKey := none
  asked : List (AnnouncementPlan Id) := []
  started : List (AnnouncementPlan Id) := []
  finished : List Id := []

/-- The announcement an operation asks for has the next number. -/
def Seen.ask (announcementChime : Bool) (w : Seen Id) (op : MediaOp Id) : Seen Id :=
  { w with
    asked := w.asked ++ (announcementOf announcementChime ⟨w.asked.length + 1⟩ op).toList }

def Seen.see (announcementChime : Bool) (w : Seen Id) : MediaEvent Id → Seen Id
  | .took .dialogStarted => { w with dialog := true }
  | .took .dialogEnded => { w with dialog := false }
  | .took (.announcementEnded key _) =>
      if w.announcing = some key then { w with announcing := none } else w
  | .took (.contentEnded stream _) =>
      if w.outstanding = some stream then { w with outstanding := none } else w
  | .took .sessionLost => { w with dialog := false, announcing := none }
  | .took op => w.ask announcementChime op
  | .did (.startContent stream _ _) => { w with outstanding := some stream }
  | .did (.stopContent _) => { w with outstanding := none }
  | .did (.startAnnouncement plan) =>
      { w with announcing := some plan.key, started := w.started ++ [plan] }
  | .did (.finishAnnouncement id _) => { w with finished := w.finished ++ [id] }
  | .did (.setDeviceVolume _) | .did (.reportState _) => w

def seen (announcementChime : Bool) (tr : List (MediaEvent Id)) : Seen Id :=
  tr.foldl (Seen.see announcementChime) {}

theorem seen_concat (announcementChime : Bool) (tr : List (MediaEvent Id)) (e : MediaEvent Id) :
    seen announcementChime (tr ++ [e]) = (seen announcementChime tr).see announcementChime e := by
  rw [seen, List.foldl_append]
  rfl

/-- Content playbacks come one at a time, a stop names the one outstanding, and announcements
start outside dialogs and each other. -/
def Orderly (announcementChime : Bool) (before : List (MediaEvent Id)) : MediaEvent Id → Prop
  | .did (.startContent _ _ _) => (seen announcementChime before).outstanding = none
  | .did (.stopContent stream) => (seen announcementChime before).outstanding = some stream
  | .did (.startAnnouncement _) =>
      (seen announcementChime before).dialog = false ∧
        (seen announcementChime before).announcing = none
  | _ => True

/-- What the events show of one stream: the frames reported of the playback under way, what its
decode said, and the frames each ended playback reported played. It is `steady` if every playback
ended after the stream had opened as one that can be resumed. -/
structure Tally where
  running : Option (Option ℕ) := none
  opened : Option Seekability := none
  counts : List ℕ := []
  steady : Bool := true

/-- The stream has been started. -/
def Tally.begun (t : Tally) : Bool := t.running.isSome || !t.counts.isEmpty

def Tally.see (stream : StreamId) (t : Tally) : MediaEvent Id → Tally
  | .did (.startContent s _ _) => if s = stream then { t with running := some none } else t
  | .took (.contentOpened s seekability) =>
      if s = stream ∧ t.begun then { t with opened := some seekability } else t
  | .took (.contentProgress s n) =>
      if s = stream then { t with running := t.running.map fun c => some (max (c.getD 0) n) }
      else t
  | .took (.contentEnded s ended) =>
      if s = stream then
        match t.running with
        | none => t
        | some c =>
            { t with
              running := none
              counts := t.counts ++ [(ended.completedFrames <|> c).getD 0]
              steady := t.steady && t.opened = some .seekable }
      else t
  | _ => t

def tally (stream : StreamId) (tr : List (MediaEvent Id)) : Tally :=
  tr.foldl (Tally.see stream) {}

theorem tally_concat (stream : StreamId) (tr : List (MediaEvent Id)) (e : MediaEvent Id) :
    tally stream (tr ++ [e]) = (tally stream tr).see stream e := by
  rw [tally, List.foldl_append]
  rfl

/-- A playback starts behind the frames the stream's earlier playbacks reported. -/
def Bookmarked (before : List (MediaEvent Id)) : MediaEvent Id → Prop
  | .did (.startContent stream _ skipFrames) =>
      (tally stream before).steady = true → skipFrames = (tally stream before).counts.sum
  | _ => True

namespace MediaPlayer

/-! ### The events of a run -/

/-- The events of a run whose last effects have not been taken out yet. -/
def log (p : MediaPlayer Id) (tr : List (MediaEvent Id)) : List (MediaEvent Id) :=
  tr ++ p.effects.map .did

theorem log_push (p : MediaPlayer Id) (tr : List (MediaEvent Id)) (effect : MediaEffect Id) :
    (p.push effect).log tr = p.log tr ++ [.did effect] := by
  simp [log, push]

theorem log_nil {p : MediaPlayer Id} (h : p.effects = []) (tr : List (MediaEvent Id)) :
    p.log tr = tr := by
  simp [log, h]

end MediaPlayer

/-- The stream whose playback sounds. -/
def Actual.sounding : Actual → Option StreamId
  | .playing id => some id
  | .idle | .pausing _ | .paused _ => none

namespace MediaPlayer

/-- The player's announcements and playback are those its events show. -/
structure Tracks (chime : Bool) (tr : List (MediaEvent Id)) (p : MediaPlayer Id) : Prop where
  obeys : Obeys (Orderly chime) (p.log tr)
  equipped : p.announcementChime = chime
  dialog : (seen chime (p.log tr)).dialog = p.dialog
  announcing : (seen chime (p.log tr)).announcing = p.announcing.map (·.key)
  outstanding : (seen chime (p.log tr)).outstanding = p.actual.sounding
  numbered : p.nextAnnouncement = (seen chime (p.log tr)).asked.length
  ordered : ∃ past, (seen chime (p.log tr)).asked = past ++ p.queue ∧
    (seen chime (p.log tr)).started.Sublist past
  finished : (seen chime (p.log tr)).asked.filterMap (·.satellite) =
    (seen chime (p.log tr)).finished ++
      (p.announcing.toList ++ p.queue).filterMap (·.satellite)

namespace Tracks

variable {chime : Bool} {tr : List (MediaEvent Id)} {p : MediaPlayer Id}

/-- One more event. -/
theorem next {q : MediaPlayer Id} {before : List (MediaEvent Id)} {e : MediaEvent Id}
    (hlog : q.log tr = before ++ [e]) (hobeys : Obeys (Orderly chime) before)
    (hmay : Orderly chime before e) (hequipped : q.announcementChime = chime)
    (hdialog : ((seen chime before).see chime e).dialog = q.dialog)
    (hannouncing : ((seen chime before).see chime e).announcing = q.announcing.map (·.key))
    (houtstanding : ((seen chime before).see chime e).outstanding = q.actual.sounding)
    (hnumbered : q.nextAnnouncement = ((seen chime before).see chime e).asked.length)
    (hordered : ∃ past, ((seen chime before).see chime e).asked = past ++ q.queue ∧
      ((seen chime before).see chime e).started.Sublist past)
    (hfinished : ((seen chime before).see chime e).asked.filterMap (·.satellite) =
      ((seen chime before).see chime e).finished ++
        (q.announcing.toList ++ q.queue).filterMap (·.satellite)) : Tracks chime tr q := by
  have hseen : seen chime (q.log tr) = (seen chime before).see chime e := by
    rw [hlog, seen_concat]
  refine ⟨?_, hequipped, ?_, ?_, ?_, ?_, ?_, ?_⟩
  · rw [hlog]
    exact obeys_concat.mpr ⟨hobeys, hmay⟩
  all_goals rwa [hseen]

theorem report (h : Tracks chime tr p) : Tracks chime tr p.report := by
  unfold MediaPlayer.report
  split_ifs
  · exact h
  · exact next (log_push _ _ _) h.obeys trivial h.equipped h.dialog h.announcing h.outstanding
      h.numbered h.ordered h.finished

/-- An effect on the device's volume. -/
theorem volume (h : Tracks chime tr p) (v : DeviceVolume) :
    Tracks chime tr (p.push (.setDeviceVolume v)) :=
  next (log_push _ _ _) h.obeys trivial h.equipped h.dialog h.announcing h.outstanding
    h.numbered h.ordered h.finished

/-- The outstanding playback is stopped. -/
theorem stop (h : Tracks chime tr p) {id : StreamId} (hplays : p.actual = .playing id)
    (actual : Actual) (hactual : actual.sounding = none) :
    Tracks chime tr ({ p with actual }.push (.stopContent id)) := by
  have hmay : Orderly chime (p.log tr) (.did (.stopContent id)) := by
    rw [Orderly, h.outstanding, hplays]
    rfl
  exact next (log_push _ _ _) h.obeys hmay h.equipped h.dialog h.announcing hactual.symm
    h.numbered h.ordered h.finished

/-- A playback starts while none is outstanding. -/
theorem start (h : Tracks chime tr p) (s : Stream) (hquiet : p.actual.sounding = none)
    (url : String) (skipFrames : ℕ) :
    Tracks chime tr ({ p with stream := some s, actual := .playing s.id }.push
      (.startContent s.id url skipFrames)) := by
  have hmay : Orderly chime (p.log tr) (.did (.startContent s.id url skipFrames)) := by
    rw [Orderly, h.outstanding, hquiet]
  exact next (log_push _ _ _) h.obeys hmay h.equipped h.dialog h.announcing rfl h.numbered
    h.ordered h.finished

/-- The first announcement of the queue starts. -/
theorem announce (h : Tracks chime tr p) (hfree : p.deferring = false)
    {plan : AnnouncementPlan Id} {queue : List (AnnouncementPlan Id)}
    (hqueue : p.queue = plan :: queue) :
    Tracks chime tr ({ p with announcing := some plan, queue }.push (.startAnnouncement plan)) := by
  have hnone : p.announcing = none := by
    rcases ha : p.announcing with _ | a
    · rfl
    · simp [deferring, ha] at hfree
  have hdialog : p.dialog = false := by simpa [deferring, hnone] using hfree
  have hmay : Orderly chime (p.log tr) (.did (.startAnnouncement plan)) :=
    ⟨h.dialog.trans hdialog, by rw [h.announcing, hnone]; rfl⟩
  obtain ⟨past, hpast, hstarted⟩ := h.ordered
  refine next (log_push _ _ _) h.obeys hmay h.equipped h.dialog rfl h.outstanding h.numbered
    ⟨past ++ [plan], ?_, hstarted.append (.refl _)⟩ ?_
  · rw [List.append_assoc, List.singleton_append]
    exact hpast.trans (congrArg (past ++ ·) hqueue)
  · have hfinished := h.finished
    rw [hnone, hqueue] at hfinished
    exact hfinished

/-- Changes the events do not show. -/
theorem unseen (h : Tracks chime tr p) (stream : Option Stream) (nextStream : ℕ) (intent : Intent)
    (volume : Option DeviceVolume) (muted : Bool) :
    Tracks chime tr { p with stream, nextStream, intent, volume, muted } :=
  ⟨h.obeys, h.equipped, h.dialog, h.announcing, h.outstanding, h.numbered, h.ordered, h.finished⟩

/-- A change of the playback that starts and stops nothing. -/
theorem quiet (h : Tracks chime tr p) {actual : Actual}
    (hactual : actual.sounding = p.actual.sounding) : Tracks chime tr { p with actual } :=
  ⟨h.obeys, h.equipped, h.dialog, h.announcing, h.outstanding.trans hactual.symm, h.numbered,
    h.ordered, h.finished⟩

theorem reconciles {q : MediaPlayer Id} (h : Tracks chime tr p) (hq : Reconciles p q) :
    Tracks chime tr q := by
  have hsounding (hquiet : ∀ id, p.actual ≠ .playing id) : p.actual.sounding = none := by
    rcases ha : p.actual with _ | id | id | id
    · rfl
    · exact absurd ha (hquiet id)
    · rfl
    · rfl
  rcases hq with _ | ⟨hquiet, -⟩ | ⟨hplays, -⟩ | hplays | ⟨hstream, hquiet, -⟩ |
    ⟨hstream, hplays, -⟩
  case stays => exact h
  case drops => exact h.quiet (hsounding hquiet).symm
  case stops => exact h.stop hplays _ rfl
  case pauses => exact h.stop hplays _ rfl
  case starts s =>
      rw [start_eq hstream]
      exact h.start { s with completed := none } (hsounding hquiet) _ _
  case replaces s id =>
      have hpush : (p.push (.stopContent id)).stream = some s := hstream
      rw [start_eq hpush]
      exact (h.stop hplays .idle rfl).start { s with completed := none } rfl _ _

theorem advance (h : Tracks chime tr p) (hp : p.Consistent) : Tracks chime tr p.advance := by
  have hadvances := advances p
  generalize p.advance = q at hadvances
  rcases hadvances with _ | ⟨hfree, hqueue⟩ | ⟨hfree, hqueue⟩
  · exact h
  · exact h.announce hfree hqueue
  · exact h.reconciles (MediaPlayer.reconciles hp)

theorem setIntent (h : Tracks chime tr p) {intent : Intent}
    (hp : ({ p with intent } : MediaPlayer Id).Consistent) :
    Tracks chime tr (p.setIntent intent).1 := by
  have h' : Tracks chime tr { p with intent } := h.unseen p.stream p.nextStream intent p.volume p.muted
  unfold MediaPlayer.setIntent
  split
  · exact h'
  · exact h'.reconciles (MediaPlayer.reconciles hp)

/-! ### The operations -/

theorem log_took {q : MediaPlayer Id} (he : p.effects = []) (hq : q.effects = [])
    (e : MediaEvent Id) : q.log (tr ++ [e]) = p.log tr ++ [e] := by
  rw [log_nil hq, log_nil he]

/-- An operation that changes nothing the events show. -/
theorem took (h : Tracks chime tr p) (he : p.effects = []) (op : MediaOp Id)
    (hop : (seen chime (p.log tr)).see chime (.took op) = seen chime (p.log tr)) :
    Tracks chime (tr ++ [.took op]) p := by
  refine next (log_took he he _) h.obeys trivial h.equipped ?_ ?_ ?_ ?_ ?_ ?_ <;> rw [hop]
  · exact h.dialog
  · exact h.announcing
  · exact h.outstanding
  · exact h.numbered
  · exact h.ordered
  · exact h.finished

/-- An operation that asks for an announcement puts it behind the others. -/
theorem took_ask (h : Tracks chime tr p) (he : p.effects = []) {op : MediaOp Id}
    {plan : AnnouncementPlan Id} (hop : ∀ w : Seen Id, w.see chime (.took op) = w.ask chime op)
    (hplan : announcementOf p.announcementChime ⟨p.nextAnnouncement + 1⟩ op = some plan) :
    Tracks chime (tr ++ [.took op])
      { p with nextAnnouncement := p.nextAnnouncement + 1, queue := p.queue ++ [plan] } := by
  have hask : (seen chime (p.log tr)).see chime (.took op) =
      { seen chime (p.log tr) with asked := (seen chime (p.log tr)).asked ++ [plan] } := by
    rw [hop, Seen.ask, ← h.numbered, ← h.equipped, hplan]
    rfl
  obtain ⟨past, hpast, hstarted⟩ := h.ordered
  refine next (log_took he he _) h.obeys trivial h.equipped ?_ ?_ ?_ ?_ ⟨past, ?_⟩ ?_ <;> rw [hask]
  · exact h.dialog
  · exact h.announcing
  · exact h.outstanding
  · simp [h.numbered]
  · exact ⟨by simp [hpast], hstarted⟩
  · simp [List.filterMap_append, h.finished]

/-- What the ends of announcements show. -/
theorem seen_finishes (chime : Bool) (before : List (MediaEvent Id)) (plans : List (AnnouncementPlan Id))
    (success : Bool) :
    seen chime (before ++ (plans.flatMap (AnnouncementPlan.finish · success)).map .did) =
      { seen chime before with
        finished := (seen chime before).finished ++ plans.filterMap (·.satellite) } := by
  induction plans generalizing before with
  | nil => simp
  | cons plan plans ih =>
      rcases hs : plan.satellite with _ | id
      · simpa [AnnouncementPlan.finish, hs] using ih before
      · have h := ih (before ++ [.did (.finishAnnouncement id success)])
        rw [seen_concat] at h
        simpa [AnnouncementPlan.finish, hs, Seen.see] using h

theorem obeys_finishes {before : List (MediaEvent Id)} (h : Obeys (Orderly chime) before)
    (plans : List (AnnouncementPlan Id)) (success : Bool) :
    Obeys (Orderly chime)
      (before ++ (plans.flatMap (AnnouncementPlan.finish · success)).map .did) := by
  refine h.append fun e he tr => ?_
  simp only [List.mem_map, List.mem_flatMap, AnnouncementPlan.finish, Option.mem_toList,
    Option.map_eq_some_iff] at he
  obtain ⟨effect, ⟨plan, -, id, -, rfl⟩, rfl⟩ := he
  trivial

/-- Announcements end: the one playing, and, with the session, those that wait. -/
theorem finishes (h : Tracks chime tr p) (he : p.effects = []) (op : MediaOp Id)
    (plans queue : List (AnnouncementPlan Id)) (success dialog : Bool)
    (hplans : p.announcing.toList ++ p.queue = plans ++ queue)
    (hordered : ∃ past, p.queue = past ++ queue)
    (hop : (seen chime (p.log tr)).see chime (.took op) =
      { seen chime (p.log tr) with dialog, announcing := none }) :
    Tracks chime (tr ++ [.took op])
      { p with
        dialog, announcing := none, queue
        effects := plans.flatMap (AnnouncementPlan.finish · success) } := by
  have hlog : ({ p with
      dialog, announcing := none, queue
      effects := plans.flatMap (AnnouncementPlan.finish · success) } : MediaPlayer Id).log
        (tr ++ [.took op]) =
      (p.log tr ++ [.took op]) ++ (plans.flatMap (AnnouncementPlan.finish · success)).map .did := by
    rw [log_nil he]
    rfl
  have hseen := seen_finishes chime (p.log tr ++ [.took op]) plans success
  rw [seen_concat, hop] at hseen
  obtain ⟨past, hpast, hstarted⟩ := h.ordered
  obtain ⟨skipped, hqueue⟩ := hordered
  refine ⟨?_, h.equipped, ?_, ?_, ?_, ?_, ⟨past ++ skipped, ?_⟩, ?_⟩ <;> rw [hlog]
  · have hmay : Orderly chime (p.log tr) (.took op) := trivial
    exact obeys_finishes (obeys_concat.mpr ⟨h.obeys, hmay⟩) plans success
  all_goals rw [hseen]
  · rfl
  · exact h.outstanding
  · exact h.numbered
  · refine ⟨?_, hstarted.trans (List.sublist_append_left _ _)⟩
    rw [List.append_assoc, ← hqueue]
    exact hpast
  · have hfinished := h.finished
    rw [hplans, List.filterMap_append, ← List.append_assoc] at hfinished
    exact hfinished

/-- The end of the awaited playback changes the stream, the intent and the playback. -/
theorem contentOver_eq (p : MediaPlayer Id) (stream : StreamId) (ended : ContentEnd) :
    ∃ stream' intent actual, actual.sounding = none ∧
      p.contentOver stream ended = { p with stream := stream', intent, actual } := by
  unfold MediaPlayer.contentOver
  rcases ended.reason with _ | _ | _ | _
  · by_cases h : p.stream.any (·.id = stream) = true
    · exact ⟨none, .idle, .idle, rfl, if_pos h⟩
    · exact ⟨p.stream, p.intent, .idle, rfl, if_neg h⟩
  · exact ⟨_, _, .paused stream, rfl, rfl⟩
  · by_cases h : p.stream.any (·.id = stream) = true
    · exact ⟨none, .idle, .idle, rfl, if_pos h⟩
    · exact ⟨p.stream, p.intent, .idle, rfl, if_neg h⟩
  · exact ⟨_, _, .paused stream, rfl, rfl⟩

theorem Seen.silent {w : Seen Id} (h : w.outstanding = none) : { w with outstanding := none } = w := by
  rcases w with ⟨outstanding, dialog, announcing, asked, started, finished⟩
  subst h
  rfl

theorem contentOver (h : Tracks chime tr p) (he : p.effects = []) {stream : StreamId}
    (hawaited : p.actual.awaited = some stream) (ended : ContentEnd) :
    Tracks chime (tr ++ [.took (.contentEnded stream ended)]) (p.contentOver stream ended) := by
  obtain ⟨stream', intent, actual, hactual, hover⟩ := contentOver_eq p stream ended
  have hsee : (seen chime (p.log tr)).see chime (.took (.contentEnded stream ended)) =
      { seen chime (p.log tr) with outstanding := none } := by
    have houtstanding := h.outstanding
    rcases ha : p.actual with _ | id | id | id <;> rw [ha] at hawaited houtstanding
    · simp [Actual.awaited] at hawaited
    · obtain rfl : id = stream := Option.some.inj hawaited
      exact if_pos houtstanding
    · rw [Seen.see, houtstanding]
      exact (if_neg (by simp [Actual.sounding])).trans (Seen.silent houtstanding).symm
    · simp [Actual.awaited] at hawaited
  rw [hover]
  refine next (log_took he he _) h.obeys trivial h.equipped ?_ ?_ ?_ ?_ ?_ ?_ <;> rw [hsee]
  · exact h.dialog
  · exact h.announcing
  · exact hactual.symm
  · exact h.numbered
  · exact h.ordered
  · exact h.finished

theorem carryOut (h : Tracks chime tr p) (hp : p.Sound) (he : p.effects = [])
    (request : MediaRequest) :
    Tracks chime (tr ++ [.took (.command request)]) (p.carryOut request).1 := by
  rcases request with ⟨url, _ | _⟩ | _ | _ | _ | _ | _ | volume
  case playUrl.false =>
      have h' := h.took he (.command (.playUrl url false))
        (by simp [Seen.see, Seen.ask, announcementOf])
      exact (h'.unseen (some { id := ⟨p.nextStream + 1⟩, url, seekable := none, startFrame := 0,
                               completed := none }) (p.nextStream + 1) p.intent p.volume
        p.muted).setIntent (by simp [Consistent])
  case playUrl.true =>
      exact (h.took_ask he (fun w => rfl) rfl).advance hp.consistent
  all_goals
    have h' := fun (op : MediaOp Id) hop => h.took he op hop
  case play =>
      have h' := h' (.command .play) (by simp [Seen.see, Seen.ask, announcementOf])
      rcases hs : p.stream with _ | s
      · simpa [MediaPlayer.carryOut, hs] using h'
      · simpa [MediaPlayer.carryOut, hs] using h'.setIntent (by simp [Consistent, hs])
  case pause =>
      have h' := h' (.command .pause) (by simp [Seen.see, Seen.ask, announcementOf])
      rcases hs : p.stream with _ | s
      · simpa [MediaPlayer.carryOut, hs] using h'
      · simpa [MediaPlayer.carryOut, hs] using h'.setIntent (by simp [Consistent, hs])
  case stop =>
      have h' := h' (.command .stop) (by simp [Seen.see, Seen.ask, announcementOf])
      exact (h'.unseen none p.nextStream p.intent p.volume p.muted).setIntent (by simp [Consistent])
  case mute =>
      have h' := h' (.command .mute) (by simp [Seen.see, Seen.ask, announcementOf])
      simp only [MediaPlayer.carryOut, MediaPlayer.mute]
      split_ifs
      · exact h'
      · exact h'
      · exact (h'.unseen p.stream p.nextStream p.intent p.volume true).volume _
  case unmute =>
      have h' := h' (.command .unmute) (by simp [Seen.see, Seen.ask, announcementOf])
      simp only [MediaPlayer.carryOut, MediaPlayer.unmute]
      rcases p.volume with _ | volume
      · exact h'
      · dsimp only
        split_ifs
        · exact (h'.unseen p.stream p.nextStream p.intent (some volume) false).volume _
        · exact h'
  case setVolume =>
      have h' := h' (.command (.setVolume volume)) (by
        simp [Seen.see, Seen.ask, announcementOf])
      simp only [MediaPlayer.carryOut, MediaPlayer.setVolume]
      split_ifs
      · exact h'
      · exact (h'.unseen p.stream p.nextStream p.intent (some volume) false).volume _

/-- **Operations keep to the laws.** -/
theorem apply (h : Tracks chime tr p) (hp : p.Sound) (he : p.effects = []) (op : MediaOp Id) :
    Tracks chime (tr ++ [.took op]) (p.apply op) := by
  rcases op with request | announcement | _ | _ | ⟨key, success⟩ | ⟨stream, seekability⟩ |
    ⟨stream, n⟩ | ⟨stream, ended⟩ | volume | _
  case command => exact (h.carryOut hp he request).report
  case announce =>
      exact ((h.took_ask he (fun w => rfl) rfl).advance hp.consistent).report
  case dialogStarted =>
      exact next (log_took he he _) h.obeys trivial h.equipped rfl h.announcing h.outstanding
        h.numbered h.ordered h.finished
  case dialogEnded =>
      have h' : Tracks chime (tr ++ [.took .dialogEnded]) { p with dialog := false } :=
        next (log_took he he _) h.obeys trivial h.equipped rfl h.announcing h.outstanding
          h.numbered h.ordered h.finished
      exact (h'.advance hp.consistent).report
  case announcementEnded =>
      have hannouncing := h.announcing
      have hquiet (hne : (seen chime (p.log tr)).announcing ≠ some key) :
          Tracks chime (tr ++ [.took (.announcementEnded key success)]) p :=
        h.took he _ (if_neg hne)
      simp only [MediaPlayer.apply, MediaPlayer.announcementEnded]
      rcases ha : p.announcing with _ | plan
      · exact hquiet (by simp [hannouncing, ha])
      · dsimp only
        split_ifs with hkey
        · have h' := h.finishes he (.announcementEnded key success) [plan] p.queue success
            p.dialog (by simp [ha]) ⟨[], rfl⟩
            (by simp [Seen.see, hannouncing, ha, hkey, h.dialog])
          simpa [he] using (h'.advance hp.consistent).report
        · exact hquiet (by simpa [hannouncing, ha] using hkey)
  case contentOpened =>
      exact (h.took he _ (by simp [Seen.see, Seen.ask, announcementOf])).unseen _ p.nextStream
        p.intent p.volume p.muted
  case contentProgress =>
      exact (h.took he _ (by simp [Seen.see, Seen.ask, announcementOf])).unseen _ p.nextStream
        p.intent p.volume p.muted
  case contentEnded =>
      simp only [MediaPlayer.apply, MediaPlayer.contentEnded]
      split_ifs with hawaited
      · refine h.took he _ (if_neg ?_)
        rw [h.outstanding]
        rcases ha : p.actual with _ | id | id | id <;> simp_all [Actual.awaited, Actual.sounding]
      · have h' := h.contentOver he (not_not.mp hawaited) ended
        exact (h'.advance (hp.consistent.contentOver stream ended)).report
  case deviceVolume =>
      have h' := h.took he (.deviceVolume volume) (by
        simp [Seen.see, Seen.ask, announcementOf])
      simp only [MediaPlayer.apply, MediaPlayer.deviceVolume]
      split
      · exact h'.report
      · exact (h'.unseen p.stream p.nextStream p.intent volume false).report
  case sessionLost =>
      have h' := h.finishes he .sessionLost (p.announcing.toList ++ p.queue) [] false false
        (by simp) ⟨p.queue, by simp⟩ rfl
      simpa [MediaPlayer.apply, MediaPlayer.sessionLost, he] using h'.report

end Tracks

/-! ### Bookmarks -/

/-- A stream whose decode has opened in the events has been started. -/
theorem opened_of_not_begun (stream : StreamId) (tr : List (MediaEvent Id)) :
    (tally stream tr).begun = false → (tally stream tr).opened = none := by
  induction tr using List.reverseRecOn with
  | nil => exact fun _ => rfl
  | append_singleton tr e ih =>
      rw [tally_concat]
      generalize tally stream tr = t at ih
      rcases e with op | effect
      · rcases op <;> try exact ih
        case contentOpened s k =>
            intro h
            simp only [Tally.see] at h ⊢
            split_ifs at h ⊢ with hs
            · simp [Tally.begun] at h hs
              simp [h] at hs
            · exact ih h
        case contentProgress s n =>
            intro h
            simp only [Tally.see] at h ⊢
            split_ifs at h ⊢
            · exact ih (by simpa [Tally.begun] using h)
            · exact ih h
        case contentEnded s ended =>
            intro h
            simp only [Tally.see] at h ⊢
            split_ifs at h ⊢
            · rcases hr : t.running with _ | c <;> simp only [hr] at h ⊢
              · exact ih h
              · simp [Tally.begun] at h
            · exact ih h
      · rcases effect <;> try exact ih
        case startContent s url skipFrames =>
            intro h
            simp only [Tally.see] at h ⊢
            split_ifs at h ⊢
            · simp [Tally.begun] at h
            · exact ih h

/-- An event that shows nothing of any stream's playback. -/
def Silent (e : MediaEvent Id) : Prop :=
  (∀ stream t, Tally.see stream t e = t) ∧ ∀ before, Bookmarked before e

theorem tally_append_silent {es : List (MediaEvent Id)} (hes : ∀ e ∈ es, Silent e)
    (stream : StreamId) (tr : List (MediaEvent Id)) : tally stream (tr ++ es) = tally stream tr := by
  induction es using List.reverseRecOn with
  | nil => rw [List.append_nil]
  | append_singleton es e ih =>
      have he := hes e (by simp)
      rw [← List.append_assoc, tally_concat, he.1, ih fun e' he' => hes e' (by simp [he'])]

/-- What the player remembers of its stream agrees with what the events show of it. -/
structure Remembers (t : Tally) (actual : Actual) (s : Stream) : Prop where
  running : t.running = if actual.awaited = some s.id then some s.completed else none
  opened : ∀ seekability, t.opened = some seekability → s.seekable = some seekability
  sums : t.steady = true → s.startFrame = t.counts.sum

/-- The player's stream and playback are known to the events. -/
structure Marks (tr : List (MediaEvent Id)) (p : MediaPlayer Id) : Prop where
  obeys : Obeys Bookmarked (p.log tr)
  fresh : ∀ stream : StreamId, p.nextStream < stream.number → tally stream (p.log tr) = {}
  awaited_le : ∀ id, p.actual.awaited = some id → id.number ≤ p.nextStream
  stream_le : ∀ s, p.stream = some s → s.id.number ≤ p.nextStream
  remembers : ∀ s, p.stream = some s → Remembers (tally s.id (p.log tr)) p.actual s

namespace Marks

variable {tr tr' : List (MediaEvent Id)} {p q : MediaPlayer Id}

/-- Silent events that leave the stream, or drop it. -/
theorem silent (h : Marks tr p) (es : List (MediaEvent Id)) (hlog : q.log tr' = p.log tr ++ es)
    (hes : ∀ e ∈ es, Silent e) (hnext : q.nextStream = p.nextStream)
    (hawaited : ∀ id, q.actual.awaited = some id → p.actual.awaited = some id)
    (hstream : ∀ s, q.stream = some s → p.stream = some s ∧
      (p.actual.awaited = some s.id → q.actual.awaited = some s.id)) : Marks tr' q := by
  have htally (stream : StreamId) : tally stream (q.log tr') = tally stream (p.log tr) := by
    rw [hlog, tally_append_silent hes]
  refine ⟨?_, fun stream hs => ?_, fun id hid => ?_, fun s hs => ?_, fun s hs => ?_⟩
  · rw [hlog]
    exact h.obeys.append fun e he => (hes e he).2
  · rw [htally]
    exact h.fresh stream (hnext ▸ hs)
  · rw [hnext]
    exact h.awaited_le id (hawaited id hid)
  · rw [hnext]
    exact h.stream_le s (hstream s hs).1
  · obtain ⟨hrunning, hopened, hsums⟩ := h.remembers s (hstream s hs).1
    have hiff : q.actual.awaited = some s.id ↔ p.actual.awaited = some s.id :=
      ⟨hawaited s.id, (hstream s hs).2⟩
    rw [htally]
    exact ⟨by simpa only [hiff] using hrunning, hopened, hsums⟩

/-- Silent events that leave the stream and the playback. -/
theorem still (h : Marks tr p) (es : List (MediaEvent Id)) (hlog : q.log tr' = p.log tr ++ es)
    (hes : ∀ e ∈ es, Silent e) (hnext : q.nextStream = p.nextStream)
    (hactual : q.actual = p.actual) (hstream : q.stream = p.stream) : Marks tr' q :=
  h.silent es hlog hes hnext (fun _ hid => hactual ▸ hid)
    fun _ hs => ⟨hstream ▸ hs, fun ha => hactual ▸ ha⟩

theorem pushed (h : Marks tr p) {effect : MediaEffect Id} (he : Silent (.did effect)) :
    Marks tr (p.push effect) :=
  h.still _ (log_push p tr effect) (by simpa using he) rfl rfl rfl

theorem report (h : Marks tr p) : Marks tr p.report := by
  unfold MediaPlayer.report
  split_ifs
  · exact h
  · exact h.still _ (log_push _ _ _) (by simp [Silent, Tally.see, Bookmarked]) rfl rfl rfl

/-- A playback of the current stream starts at its bookmark. -/
theorem start (h : Marks tr p) {s : Stream} (hstream : p.stream = some s) :
    Marks tr (p.start s.id) := by
  have hsee : tally s.id (p.log tr ++ [.did (.startContent s.id s.url s.startFrame)]) =
      { tally s.id (p.log tr) with running := some none } := by
    rw [tally_concat]
    exact if_pos rfl
  have hlog : (p.start s.id).log tr =
      p.log tr ++ [.did (.startContent s.id s.url s.startFrame)] := by
    rw [start_eq hstream, log_push]
    rfl
  obtain ⟨-, hopened, hsums⟩ := h.remembers s hstream
  rw [start_eq hstream] at hlog ⊢
  refine ⟨?_, fun stream hs => ?_, fun id hid => ?_, fun t ht => ?_, fun t ht => ?_⟩
  · rw [hlog]
    exact obeys_concat.mpr ⟨h.obeys, hsums⟩
  · have hne : s.id ≠ stream := by
      rintro rfl
      exact absurd (h.stream_le s hstream) (Nat.not_le.mpr hs)
    rw [hlog, tally_concat]
    exact (if_neg hne).trans (h.fresh stream hs)
  · obtain rfl : s.id = id := Option.some.inj hid
    exact h.stream_le s hstream
  · obtain rfl : { s with completed := none } = t := Option.some.inj ht
    exact h.stream_le s hstream
  · obtain rfl : { s with completed := none } = t := Option.some.inj ht
    rw [hlog, hsee]
    exact ⟨(if_pos rfl).symm, hopened, hsums⟩

theorem reconciles (h : Marks tr p) (hq : Reconciles p q) : Marks tr q := by
  rcases hq with _ | ⟨-, hother⟩ | ⟨hplays, hother⟩ | ⟨hplays⟩ | ⟨hstream, -, -⟩ | ⟨hstream, -, -⟩
  case stays => exact h
  case drops =>
      refine h.silent [] (List.append_nil _).symm (by simp) rfl (by simp [Actual.awaited])
        fun s hs => ⟨hs, fun ha => absurd ha (hother s hs)⟩
  case stops =>
      refine h.silent _ (log_push _ _ _) (by simp [Silent, Tally.see, Bookmarked]) rfl
        (by simp [push, Actual.awaited]) fun s hs => ⟨hs, fun ha => ?_⟩
      rw [hplays] at ha
      exact absurd (Option.some.inj ha).symm (hother s hs)
  case pauses =>
      refine h.silent _ (log_push _ _ _) (by simp [Silent, Tally.see, Bookmarked]) rfl
        (fun _ hid => ?_) fun s hs => ⟨hs, fun ha => ?_⟩
      · rw [hplays]
        exact hid
      · rw [hplays] at ha
        exact ha
  case starts => exact h.start hstream
  case replaces s id =>
      have hpush : Marks tr (p.push (.stopContent id)) :=
        h.pushed (by simp [Silent, Tally.see, Bookmarked])
      exact hpush.start hstream

theorem advance (h : Marks tr p) (hp : p.Consistent) : Marks tr p.advance := by
  have hadvances := advances p
  generalize p.advance = q at hadvances
  rcases hadvances with _ | ⟨hfree, hqueue⟩ | ⟨hfree, hqueue⟩
  · exact h
  · exact h.still _ (log_push _ _ _) (by simp [Silent, Tally.see, Bookmarked]) rfl rfl rfl
  · exact h.reconciles (MediaPlayer.reconciles hp)

theorem setIntent (h : Marks tr p) {intent : Intent}
    (hp : ({ p with intent } : MediaPlayer Id).Consistent) :
    Marks tr (p.setIntent intent).1 := by
  have h' : Marks tr { p with intent } :=
    h.still [] (List.append_nil _).symm (by simp) rfl rfl rfl
  unfold MediaPlayer.setIntent
  split
  · exact h'
  · exact h'.reconciles (MediaPlayer.reconciles hp)

/-- A silent operation. -/
theorem took (h : Marks tr p) (he : p.effects = []) {op : MediaOp Id}
    (hop : Silent (.took op : MediaEvent Id)) : Marks (tr ++ [.took op]) p :=
  h.still _ (Tracks.log_took he he _) (by simpa using hop) rfl rfl rfl

/-- A new stream has not been played. -/
theorem playUrl (h : Marks tr p) (url : String) :
    Marks tr { p with
      nextStream := p.nextStream + 1
      stream := some { id := ⟨p.nextStream + 1⟩, url, seekable := none, startFrame := 0,
                       completed := none } } := by
  have hnew : tally ⟨p.nextStream + 1⟩ (p.log tr) = {} := h.fresh _ (Nat.lt_succ_self _)
  have hawaited : p.actual.awaited ≠ some ⟨p.nextStream + 1⟩ := by
    intro ha
    exact absurd (h.awaited_le _ ha) (Nat.not_succ_le_self _)
  refine ⟨h.obeys, fun stream hs => h.fresh stream (Nat.lt_of_succ_lt hs),
    fun id hid => Nat.le_succ_of_le (h.awaited_le id hid), fun s hs => ?_, fun s hs => ?_⟩
  · obtain rfl := Option.some.inj hs
    exact Nat.le_refl _
  · obtain rfl := Option.some.inj hs
    change Remembers (tally ⟨p.nextStream + 1⟩ (p.log tr)) _ _
    rw [hnew]
    exact ⟨(if_neg hawaited).symm, nofun, fun _ => rfl⟩

/-- An event about one stream. -/
theorem heard (h : Marks tr p) (stream : StreamId) {f : Stream → Stream} {e : MediaEvent Id}
    (hlog : q.log tr' = p.log tr ++ [e]) (hmay : ∀ before, Bookmarked before e)
    (hother : ∀ s t, s ≠ stream → Tally.see s t e = t) (hempty : Tally.see stream {} e = {})
    (hnext : q.nextStream = p.nextStream)
    (hawaited : ∀ id, q.actual.awaited = some id → p.actual.awaited = some id)
    (hkeep : ∀ id, id ≠ stream → p.actual.awaited = some id → q.actual.awaited = some id)
    (hstream : ∀ s, q.stream = some s → (p.withStream stream f).stream = some s)
    (hf : ∀ s, (f s).id = s.id)
    (hmine : ∀ s, s.id = stream → Remembers (tally s.id (p.log tr)) p.actual s →
      Remembers ((tally s.id (p.log tr)).see s.id e) q.actual (f s)) : Marks tr' q := by
  have hcurrent {s' : Stream} (hs' : q.stream = some s') :
      ∃ s, p.stream = some s ∧ s' = (if s.id = stream then f s else s) ∧ s'.id = s.id := by
    obtain ⟨s, hs, rfl⟩ := Option.map_eq_some_iff.mp (hstream s' hs')
    refine ⟨s, hs, rfl, ?_⟩
    split_ifs <;> simp [hf]
  refine ⟨?_, fun s hs => ?_, fun id hid => ?_, fun s' hs' => ?_, fun s' hs' => ?_⟩
  · rw [hlog]
    exact obeys_concat.mpr ⟨h.obeys, hmay _⟩
  · rw [hlog, tally_concat, h.fresh s (hnext ▸ hs)]
    by_cases hs : s = stream
    · rw [hs, hempty]
    · rw [hother s {} hs]
  · rw [hnext]
    exact h.awaited_le id (hawaited id hid)
  · obtain ⟨s, hs, -, hid⟩ := hcurrent hs'
    rw [hid, hnext]
    exact h.stream_le s hs
  · obtain ⟨s, hs, rfl, hid⟩ := hcurrent hs'
    rw [hlog, tally_concat, hid]
    by_cases hmatch : s.id = stream
    · rw [if_pos hmatch]
      exact hmine s hmatch (h.remembers s hs)
    · obtain ⟨hrunning, hopened, hsums⟩ := h.remembers s hs
      have hiff : q.actual.awaited = some s.id ↔ p.actual.awaited = some s.id :=
        ⟨hawaited s.id, hkeep s.id hmatch⟩
      rw [if_neg hmatch, hother _ _ hmatch]
      exact ⟨by simpa only [hiff] using hrunning, hopened, hsums⟩

/-- The stream's decode opened. -/
theorem contentOpened (h : Marks tr p) (he : p.effects = []) (stream : StreamId)
    (seekability : Seekability) :
    Marks (tr ++ [.took (.contentOpened stream seekability)])
      (p.contentOpened stream seekability) := by
  have hbegun := opened_of_not_begun stream (p.log tr)
  refine h.heard stream (f := fun s => { s with seekable := some seekability })
    (Tracks.log_took he he _) (fun _ => trivial) (fun s t hs => ?_) ?_ rfl (fun _ => id)
    (fun _ _ => id) (fun _ => id) (fun _ => rfl) ?_
  · exact if_neg fun hs' => hs hs'.1.symm
  · exact if_neg (by simp [Tally.begun])
  · rintro s rfl ⟨hrunning, hopened, hsums⟩
    rw [Tally.see]
    split_ifs with hb
    · exact ⟨hrunning, fun k hk => hk, hsums⟩
    · refine ⟨hrunning, fun k hk => ?_, hsums⟩
      rw [hbegun (by simpa using hb)] at hk
      exact absurd hk (by simp)

/-- The device reported progress of the stream's playback. -/
theorem contentProgress (h : Marks tr p) (he : p.effects = []) (stream : StreamId) (n : ℕ) :
    Marks (tr ++ [.took (.contentProgress stream n)]) (p.contentProgress stream n) := by
  refine h.heard stream
    (f := fun s => { s with completed := some (max (s.completed.getD 0) n) })
    (Tracks.log_took he he _) (fun _ => trivial) (fun s t hs => if_neg (Ne.symm hs)) ?_ rfl
    (fun _ => id) (fun _ _ => id) (fun _ => id) (fun _ => rfl) ?_
  · exact if_pos rfl
  · rintro s rfl ⟨hrunning, hopened, hsums⟩
    rw [Tally.see, if_pos rfl]
    refine ⟨?_, hopened, hsums⟩
    change (tally s.id (p.log tr)).running.map _ = if p.actual.awaited = some s.id then _ else none
    rw [hrunning]
    split_ifs <;> rfl

/-- An end that leaves the stream, if it is still the current one, at its bookmark. -/
theorem ended (h : Marks tr p) (he : p.effects = []) {stream : StreamId} {ended : ContentEnd}
    (hq : q.effects = []) (hnext : q.nextStream = p.nextStream)
    (hawaited : p.actual.awaited = some stream) (hactual : q.actual.awaited = none)
    (hstream : ∀ s, q.stream = some s →
      (p.withStream stream (Stream.bookmark · ended.completedFrames)).stream = some s) :
    Marks (tr ++ [.took (.contentEnded stream ended)]) q := by
  refine h.heard stream (f := (Stream.bookmark · ended.completedFrames))
    (Tracks.log_took he hq _) (fun _ => trivial) (fun s t hs => if_neg (Ne.symm hs)) (if_pos rfl)
    hnext (fun id hid => ?_) (fun id hid ha => ?_) hstream (fun _ => rfl) ?_
  · rw [hactual] at hid
    exact absurd hid (by simp)
  · exact absurd (Option.some.inj (ha.symm.trans hawaited)) hid
  · rintro s rfl ⟨hrunning, hopened, hsums⟩
    rw [if_pos hawaited] at hrunning
    rw [Tally.see, if_pos rfl, hrunning]
    refine ⟨?_, hopened, fun hsteady => ?_⟩
    · exact (if_neg (by rw [hactual]; simp)).symm
    · obtain ⟨hsteady, hseek⟩ : (tally s.id (p.log tr)).steady = true ∧
          (tally s.id (p.log tr)).opened = some .seekable := by simpa using hsteady
      simp [Stream.bookmark, hopened _ hseek, hsums hsteady]

/-- The awaited playback ended. -/
theorem contentOver (h : Marks tr p) (he : p.effects = []) {stream : StreamId}
    (hawaited : p.actual.awaited = some stream) (ended : ContentEnd) :
    Marks (tr ++ [.took (.contentEnded stream ended)]) (p.contentOver stream ended) := by
  have hgone : Marks (tr ++ [.took (.contentEnded stream ended)])
      (if p.stream.any (·.id = stream) = true then
        { p with actual := .idle, stream := none, intent := .idle }
      else { p with actual := .idle }) := by
    split_ifs with hcurrent
    · exact h.ended he he rfl hawaited rfl nofun
    · refine h.ended he he rfl hawaited rfl fun s hs => ?_
      have hne : s.id ≠ stream := by
        rintro rfl
        exact hcurrent (by simp [show p.stream = some s from hs])
      simp [withStream, show p.stream = some s from hs, hne]
  unfold MediaPlayer.contentOver
  rcases ended.reason with _ | _ | _ | _
  · exact hgone
  · exact h.ended he he rfl hawaited rfl fun _ => id
  · exact hgone
  · exact h.ended he he rfl hawaited rfl fun _ => id

theorem carryOut (h : Marks tr p) (hp : p.Sound) (he : p.effects = []) (request : MediaRequest) :
    Marks (tr ++ [.took (.command request)]) (p.carryOut request).1 := by
  have h' : Marks (tr ++ [.took (.command request)]) p := h.took he ⟨fun _ _ => rfl, fun _ => trivial⟩
  have hvolume {volume : Option DeviceVolume} {muted : Bool} {v : DeviceVolume} :
      Marks (tr ++ [.took (.command request)])
        ({ p with volume, muted }.push (.setDeviceVolume v)) :=
    h'.still _ (log_push _ _ _) (by simp [Silent, Tally.see, Bookmarked]) rfl rfl rfl
  rcases request with ⟨url, _ | _⟩ | _ | _ | _ | _ | _ | volume
  · exact (h'.playUrl url).setIntent (by simp [Consistent])
  · have hqueued : Marks (tr ++ [.took (.command (.playUrl url true))])
        { p with
          nextAnnouncement := p.nextAnnouncement + 1
          queue := p.queue ++ [{ key := ⟨p.nextAnnouncement + 1⟩, mediaUrl := url,
                                 opener := mediaOpener p.announcementChime, text := none,
                                 startConversation := false, satellite := none }] } :=
      h'.still [] (List.append_nil _).symm (by simp) rfl rfl rfl
    exact hqueued.advance hp.consistent
  · rcases hs : p.stream with _ | s
    · simpa [MediaPlayer.carryOut, hs] using h'
    · simpa [MediaPlayer.carryOut, hs] using h'.setIntent (by simp [Consistent, hs])
  · rcases hs : p.stream with _ | s
    · simpa [MediaPlayer.carryOut, hs] using h'
    · simpa [MediaPlayer.carryOut, hs] using h'.setIntent (by simp [Consistent, hs])
  · have hstopped : Marks (tr ++ [.took (.command .stop)]) { p with stream := none } :=
      h'.silent [] (List.append_nil _).symm (by simp) rfl (fun _ => id) (by simp)
    exact hstopped.setIntent (by simp [Consistent])
  · simp only [MediaPlayer.carryOut, MediaPlayer.mute]
    split_ifs
    · exact h'
    · exact h'
    · exact hvolume
  · simp only [MediaPlayer.carryOut, MediaPlayer.unmute]
    rcases p.volume with _ | volume
    · exact h'
    · dsimp only
      split_ifs
      · exact hvolume
      · exact h'
  · simp only [MediaPlayer.carryOut, MediaPlayer.setVolume]
    split_ifs
    · exact h'
    · exact hvolume

/-- **Operations keep the bookmarks.** -/
theorem apply (h : Marks tr p) (hp : p.Sound) (he : p.effects = []) (op : MediaOp Id) :
    Marks (tr ++ [.took op]) (p.apply op) := by
  rcases op with request | announcement | _ | _ | ⟨key, success⟩ | ⟨stream, seekability⟩ |
    ⟨stream, n⟩ | ⟨stream, ended⟩ | volume | _
  case command => exact (h.carryOut hp he request).report
  case contentOpened => exact h.contentOpened he stream seekability
  case contentProgress => exact h.contentProgress he stream n
  case contentEnded =>
      simp only [MediaPlayer.apply, MediaPlayer.contentEnded]
      split_ifs with hawaited
      · refine h.heard stream (f := id) (Tracks.log_took he he _) (fun _ => trivial)
          (fun s t hs => if_neg (Ne.symm hs)) (if_pos rfl) rfl (fun _ => id) (fun _ _ => id)
          (fun s hs => by simpa [withStream] using hs) (fun _ => rfl) ?_
        rintro s rfl ⟨hrunning, hopened, hsums⟩
        have hidle := hrunning
        rw [if_neg hawaited] at hidle
        rw [Tally.see, if_pos rfl, hidle]
        exact ⟨hrunning, hopened, hsums⟩
      · exact ((h.contentOver he (not_not.mp hawaited) ended).advance
          (hp.consistent.contentOver stream ended)).report
  case announce =>
      refine Marks.report (Marks.advance (p := { p with
        nextAnnouncement := p.nextAnnouncement + 1
        queue := p.queue ++ [_] }) ?_ hp.consistent)
      exact h.still _ (Tracks.log_took he he _) (by simp [Silent, Tally.see, Bookmarked]) rfl rfl rfl
  case dialogStarted =>
      exact h.still _ (Tracks.log_took he he _) (by simp [Silent, Tally.see, Bookmarked]) rfl rfl rfl
  case dialogEnded =>
      refine Marks.report (Marks.advance (p := { p with dialog := false }) ?_ hp.consistent)
      exact h.still _ (Tracks.log_took he he _) (by simp [Silent, Tally.see, Bookmarked]) rfl rfl rfl
  case announcementEnded =>
      simp only [MediaPlayer.apply, MediaPlayer.announcementEnded]
      have h' : Marks (tr ++ [.took (.announcementEnded key success)]) p :=
        h.took he ⟨fun _ _ => rfl, fun _ => trivial⟩
      rcases p.announcing with _ | plan
      · exact h'
      · dsimp only
        split_ifs
        · refine Marks.report (Marks.advance (p := { p with
            announcing := none, effects := p.effects ++ plan.finish success }) ?_ hp.consistent)
          refine h'.still ((plan.finish success).map .did) ?_ ?_ rfl rfl rfl
          · simp [log]
          · simp [AnnouncementPlan.finish, Silent, Tally.see, Bookmarked]
        · exact h'
  case deviceVolume =>
      have h' : Marks (tr ++ [.took (.deviceVolume volume)]) p :=
        h.took he ⟨fun _ _ => rfl, fun _ => trivial⟩
      simp only [MediaPlayer.apply, MediaPlayer.deviceVolume]
      split
      · exact h'.report
      · exact Marks.report (h'.still [] (List.append_nil _).symm (by simp) rfl rfl rfl)
  case sessionLost =>
      have h' : Marks (tr ++ [.took .sessionLost]) p :=
        h.took he ⟨fun _ _ => rfl, fun _ => trivial⟩
      refine Marks.report (h'.still (((p.announcing.toList ++ p.queue).flatMap
        (AnnouncementPlan.finish · false)).map .did) ?_ ?_ rfl rfl rfl)
      · simp [log]
      · intro e he
        simp only [List.mem_map, List.mem_flatMap, AnnouncementPlan.finish, Option.mem_toList,
          Option.map_eq_some_iff] at he
        obtain ⟨effect, ⟨plan, -, id, -, rfl⟩, rfl⟩ := he
        exact ⟨fun _ _ => rfl, fun _ => trivial⟩

end Marks

/-! ### Runs -/

/-- The player after a run. -/
def after (announcementChime : Bool) (volume : Option DeviceVolume) (ops : List (MediaOp Id)) :
    MediaPlayer Id :=
  Monitors.state step (new announcementChime volume) ops

/-- The events of a run. -/
def events (announcementChime : Bool) (volume : Option DeviceVolume) (ops : List (MediaOp Id)) :
    List (MediaEvent Id) :=
  trace step (new announcementChime volume) ops

/-- What holds after every operation of a run. -/
structure Runs (chime : Bool) (p : MediaPlayer Id) (tr : List (MediaEvent Id)) : Prop where
  taken : p.effects = []
  sound : p.Sound
  tracks : Tracks chime tr p
  marks : Marks tr p

theorem runs (chime : Bool) (volume : Option DeviceVolume) (ops : List (MediaOp Id)) :
    Runs chime (after chime volume ops) (events chime volume ops) := by
  refine run_induction step ?_ (fun p tr op h => ?_) ops
  · refine ⟨rfl, ⟨by simp [Consistent, new], .inl rfl⟩, ?_, ?_⟩
    · exact ⟨obeys_nil _, rfl, rfl, rfl, rfl, rfl, ⟨[], rfl, .slnil⟩, rfl⟩
    · exact ⟨obeys_nil _, fun _ _ => rfl, (fun _ h => by cases h), (fun _ h => by cases h),
        (fun _ h => by cases h)⟩
  · have hlog : (step p op).1.log (tr ++ .took op :: (step p op).2.map .did) =
        (p.apply op).log (tr ++ [.took op]) := by
      simp [step, log]
    have htracks := h.tracks.apply h.sound h.taken op
    have hmarks := h.marks.apply h.sound h.taken op
    refine ⟨rfl, ?_, ?_, ?_⟩
    · obtain ⟨hconsistent, hwaits⟩ := (h.sound.apply op).1
      exact ⟨hconsistent, hwaits⟩
    · obtain ⟨hobeys, hequipped, hdialog, hannouncing, houtstanding, hnumbered, hordered,
        hfinished⟩ := htracks
      refine ⟨?_, hequipped, ?_, ?_, ?_, ?_, ?_, ?_⟩ <;> rwa [hlog]
    · exact hmarks.still [] (by rw [hlog, List.append_nil]) (by simp) rfl rfl rfl

/-- The announcements asked for are numbered from one. -/
theorem asked_numbers (chime : Bool) (tr : List (MediaEvent Id)) :
    (seen chime tr).asked.map (·.key.number) = List.range' 1 (seen chime tr).asked.length := by
  induction tr using List.reverseRecOn with
  | nil => rfl
  | append_singleton tr e ih =>
      rw [seen_concat]
      generalize seen chime tr = w at ih
      have hask (op : MediaOp Id) : (w.ask chime op).asked.map (·.key.number) =
          List.range' 1 (w.ask chime op).asked.length := by
        rcases ha : announcementOf chime ⟨w.asked.length + 1⟩ op with _ | plan
        · simpa [Seen.ask, ha] using ih
        · have hkey : plan.key = ⟨w.asked.length + 1⟩ := by
            rcases op with ⟨⟨url, _ | _⟩ | _ | _ | _ | _ | _ | v⟩ | a | _ | _ | ⟨k, b⟩ | ⟨s, k⟩ |
              ⟨s, n⟩ | ⟨s, e⟩ | v | _ <;> simp_all [announcementOf]
            all_goals subst ha; rfl
          simp [Seen.ask, ha, ih, hkey, List.range'_concat, Nat.add_comm 1]
      rcases e with op | effect
      · rcases op with r | a | _ | _ | ⟨k, b⟩ | ⟨s, k⟩ | ⟨s, n⟩ | ⟨s, e⟩ | v | _
        case announcementEnded => simp only [Seen.see]; split_ifs <;> exact ih
        case contentEnded => simp only [Seen.see]; split_ifs <;> exact ih
        case dialogStarted => exact ih
        case dialogEnded => exact ih
        case sessionLost => exact ih
        all_goals exact hask _
      · rcases effect <;> exact ih

/-- The announcements started come in the order of their numbers. -/
theorem Runs.started_pairwise {chime : Bool} {p : MediaPlayer Id} {tr : List (MediaEvent Id)}
    (h : Runs chime p tr) : (seen chime tr).started.Pairwise (·.key.number < ·.key.number) := by
  have hnumbers := asked_numbers chime tr
  have hasked : (seen chime tr).asked.Pairwise (·.key.number < ·.key.number) := by
    have hlt := List.pairwise_lt_range' (s := 1) (n := (seen chime tr).asked.length)
    rw [← hnumbers, List.pairwise_map] at hlt
    exact hlt
  obtain ⟨past, hpast, hstarted⟩ := h.tracks.ordered
  rw [log_nil h.taken] at hpast hstarted
  rw [hpast] at hasked
  exact hasked.sublist (hstarted.trans (List.sublist_append_left _ _))

/-- What is said of another stream changes nothing. -/
theorem withStream_other {p : MediaPlayer Id} {stream : StreamId}
    (h : ∀ s, p.stream = some s → s.id ≠ stream) (f : Stream → Stream) :
    p.withStream stream f = p := by
  have hmap : (p.stream.map fun s => if s.id = stream then f s else s) = p.stream := by
    rcases hs : p.stream with _ | s
    · rfl
    · simp [h s hs]
  rw [withStream, hmap]

/-- A start forgets what was reported of the stream before. -/
theorem start_contentProgress {p : MediaPlayer Id} {s : Stream} (hs : p.stream = some s)
    (stream : StreamId) (n : ℕ) : (p.contentProgress stream n).start s.id = p.start s.id := by
  by_cases hstream : s.id = stream
  · have hprogress : (p.contentProgress stream n).stream =
        some { s with completed := some (max (s.completed.getD 0) n) } := by
      simp [contentProgress, withStream, hs, hstream]
    have hstart := start_eq hprogress
    rw [start_eq hs]
    exact hstart
  · have hother : ∀ t, p.stream = some t → t.id ≠ stream := by simpa [hs] using hstream
    rw [contentProgress, withStream_other hother]

/-- Each loss of the session found the playback following the intent, or something realigned it
since. -/
def Restored (chime : Bool) (volume : Option DeviceVolume) (ops : List (MediaOp Id)) : Prop :=
  ∀ before rest, ops = before ++ .sessionLost :: rest →
    (after chime volume before).Settled ∨
      ∃ mid op more, rest = mid ++ op :: more ∧
        (after chime volume (before ++ .sessionLost :: mid)).Realigns op

theorem Restored.of_concat {chime : Bool} {volume : Option DeviceVolume} {ops : List (MediaOp Id)}
    {op : MediaOp Id} (h : Restored chime volume (ops ++ [op]))
    (hop : ¬ (after chime volume ops).Realigns op) : Restored chime volume ops := by
  rintro before rest rfl
  refine (h before (rest ++ [op]) (by simp)).imp_right ?_
  rintro ⟨mid, op', more, hmid, hrealigns⟩
  rcases List.eq_nil_or_concat more with rfl | ⟨more, last, rfl⟩
  · obtain ⟨rfl, hlast⟩ := List.append_inj' hmid rfl
    obtain rfl : op = op' := List.singleton_inj.mp hlast
    exact absurd hrealigns hop
  · rw [List.concat_eq_append, ← List.cons_append, ← List.append_assoc] at hmid
    exact ⟨mid, op', more, (List.append_inj' hmid rfl).1, hrealigns⟩

/-- The playback follows the intent unless a loss of the session came in between. -/
theorem Restored.aligned {chime : Bool} {volume : Option DeviceVolume} {ops : List (MediaOp Id)}
    (h : Restored chime volume ops) : (after chime volume ops).Aligned := by
  induction ops using List.reverseRecOn with
  | nil => exact .inr rfl
  | append_singleton ops op ih =>
      have hstep : after chime volume (ops ++ [op]) =
          { (after chime volume ops).apply op with effects := [] } := state_concat _ _ _ _
      have hsound := (runs chime volume ops).sound
      rw [hstep]
      by_cases hop : (after chime volume ops).Realigns op
      · exact (hsound.apply op).2 (.inr hop)
      · by_cases hlost : op = .sessionLost
        · subst hlost
          rcases h ops [] rfl with hsettled | ⟨mid, op, more, hmid, -⟩
          · exact .inr hsettled.sessionLost
          · simp at hmid
        · exact (hsound.apply op).2 (.inl ⟨hlost, ih (h.of_concat hop)⟩)

/-- **The media player.** In every run, content playbacks come one at a time and a stop names the
one outstanding; announcements start in the order they were asked for, outside dialogs and each
other, and each satellite announcement is finished once, in that order; a playback starts behind
the frames its stream's earlier playbacks reported. Whenever no dialog and no announcement runs,
no announcement waits, and the playback is what the intent asks for, unless a loss of the session
left a deferred command behind that nothing has brought about since. -/
theorem media_player_reconciles (chime : Bool) (volume : Option DeviceVolume)
    (ops : List (MediaOp Id)) :
    let p := after chime volume ops
    let w := seen chime (events chime volume ops)
    Obeys (Orderly chime) (events chime volume ops) ∧
      Obeys Bookmarked (events chime volume ops) ∧
      w.outstanding = p.actual.sounding ∧
      w.started.Sublist w.asked ∧ w.started.Pairwise (·.key.number < ·.key.number) ∧
      w.asked.filterMap (·.satellite) =
        w.finished ++ (p.announcing.toList ++ p.queue).filterMap (·.satellite) ∧
      (p.deferring = false → p.queue = []) ∧
      (Restored chime volume ops → p.deferring = false → p.Settled) ∧
      (∀ stream ended, p.actual.awaited ≠ some stream → p.contentEnded stream ended = p) ∧
      (∀ stream, (∀ s, p.stream = some s → s.id ≠ stream) →
        (∀ n, p.contentProgress stream n = p) ∧ ∀ k, p.contentOpened stream k = p) ∧
      ∀ s, p.stream = some s →
        ∀ stream n, (p.contentProgress stream n).start s.id = p.start s.id := by
  intro p w
  have h := runs chime volume ops
  have hlog : p.log (events chime volume ops) = events chime volume ops := log_nil h.taken _
  have htracks := h.tracks
  have hobeys := h.tracks.obeys
  have houtstanding := h.tracks.outstanding
  obtain ⟨past, hpast, hstarted⟩ := h.tracks.ordered
  have hfinished := h.tracks.finished
  have hmarks := h.marks.obeys
  rw [hlog] at hobeys houtstanding hpast hstarted hfinished hmarks
  refine ⟨hobeys, hmarks, houtstanding, ?_, h.started_pairwise, hfinished, ?_, ?_, ?_, ?_,
    fun _ => start_contentProgress⟩
  · exact hstarted.trans (hpast ▸ List.sublist_append_left _ _)
  · intro hfree
    exact h.sound.waits.resolve_right (by simp [p, hfree])
  · intro hrestored hfree
    exact hrestored.aligned.resolve_left (by simp [p, hfree])
  · intro stream ended hawaited
    exact if_pos hawaited
  · intro stream hother
    exact ⟨fun n => withStream_other hother _, fun k => withStream_other hother _⟩

/-- A pause deferred by a dialog is not carried out when the session is lost: the playback it
meant still counts as playing at the next operation. A late word of the decode of a paused stream
is remembered. -/
theorem deferred_pause_left :
    (¬ ∀ (ops : List (MediaOp ℕ)) (op : MediaOp ℕ), op ≠ .sessionLost →
      (after false none (ops ++ [op])).deferring = false →
        (after false none (ops ++ [op])).Settled) ∧
    ¬ ∀ (ops : List (MediaOp ℕ)) (stream : StreamId) (seekability : Seekability),
      (after false none ops).actual.awaited ≠ some stream →
        (after false none ops).contentOpened stream seekability = after false none ops := by
  constructor
  · intro h
    have hsettled := h [.command (.playUrl "song" false), .dialogStarted, .command .pause,
      .sessionLost] (.deviceVolume none) nofun rfl
    rcases hsettled with hsettled | hsettled | hsettled <;> exact absurd hsettled nofun
  · intro h
    have hopened := h [.command (.playUrl "song" false), .command .pause,
      .contentEnded ⟨1⟩ ⟨.stopped, some 480⟩] ⟨1⟩ .live nofun
    have hseekable : some Seekability.live = none :=
      congrArg (fun p : MediaPlayer ℕ => p.stream.bind Stream.seekable) hopened
    exact absurd hseekable nofun

end MediaPlayer

end EchoMuse.Media
