import EchoMuse.Playback.Media

/-!
# The Media Player Follows Its Intent

What the operations of the media player do to its stream, its intent and its playback. An
inversion lemma says what reconciling and advancing can do; from it follows that the playback is
what the intent asks for whenever no dialog and no announcement defers it, except behind a loss
of the session.

## Main results

* `settled_reconcile`: reconciling brings the playback to what the intent asks for;
* `Sound.apply`: every operation but the loss of the session leaves the playback following the
  intent if it found it so, and those that bring something about restore it.
-/

namespace EchoMuse.Media

variable {Id : Type*}

/-! ### Intents -/

namespace MediaPlayer

/-- There is a stream while something is to play or to resume. -/
def Consistent (p : MediaPlayer Id) : Prop := p.stream = none ↔ p.intent = .idle

/-- The playback is what the intent asks for: the current stream plays, or the bookmark of its
stop is on its way, or it does not play. -/
def Settled (p : MediaPlayer Id) : Prop :=
  match p.intent, p.stream with
  | .playing, some s => p.actual = .playing s.id ∨ p.actual = .pausing s.id
  | .paused, some s => p.actual = .pausing s.id ∨ p.actual = .paused s.id ∨ p.actual = .idle
  | _, _ => p.actual = .idle

/-- The playback follows the intent unless a dialog or an announcement defers it. -/
def Aligned (p : MediaPlayer Id) : Prop := p.deferring = true ∨ p.Settled

/-- Announcements wait only for a dialog or another announcement. -/
def Waits (p : MediaPlayer Id) : Prop := p.queue = [] ∨ p.deferring = true

/-- An operation that carries out a content command, asks for an announcement, or ends a dialog,
the announcement or the playback. -/
def Realigns (p : MediaPlayer Id) : MediaOp Id → Prop
  | .command (.playUrl _ _) | .command .stop | .announce _ | .dialogEnded => True
  | .command .play | .command .pause => p.stream ≠ none
  | .announcementEnded key _ => ∃ plan, p.announcing = some plan ∧ plan.key = key
  | .contentEnded stream _ => p.actual.awaited = some stream
  | _ => False

/-- What reconciling does. -/
inductive Reconciles (p : MediaPlayer Id) : MediaPlayer Id → Prop
  | stays : Reconciles p p
  | drops (hquiet : ∀ id, p.actual ≠ .playing id)
      (hother : ∀ s ∈ p.stream, p.actual.awaited ≠ some s.id) :
      Reconciles p { p with actual := .idle }
  | stops {id : StreamId} (hplays : p.actual = .playing id)
      (hother : ∀ s ∈ p.stream, s.id ≠ id) :
      Reconciles p ({ p with actual := .idle }.push (.stopContent id))
  | pauses {id : StreamId} (hplays : p.actual = .playing id) :
      Reconciles p ({ p with actual := .pausing id }.push (.stopContent id))
  | starts {s : Stream} (hstream : p.stream = some s) (hquiet : ∀ id, p.actual ≠ .playing id)
      (hother : p.actual.awaited ≠ some s.id) : Reconciles p (p.start s.id)
  | replaces {s : Stream} {id : StreamId} (hstream : p.stream = some s)
      (hplays : p.actual = .playing id) (hother : id ≠ s.id) :
      Reconciles p ((p.push (.stopContent id)).start s.id)

theorem start_eq {p : MediaPlayer Id} {s : Stream} (h : p.stream = some s) :
    p.start s.id =
      { p with stream := some { s with completed := none }, actual := .playing s.id }.push
        (.startContent s.id s.url s.startFrame) := by
  simp [start, h, Option.filter]

theorem reconciles {p : MediaPlayer Id} (hp : p.Consistent) : Reconciles p p.reconcile := by
  rcases p with ⟨chime, nextStream, nextAnnouncement, stream, intent, actual, dialog, announcing,
    queue, volume, muted, reported, effects⟩
  rcases stream with _ | s
  · -- no stream: whatever plays is stopped
    obtain rfl : intent = .idle := hp.mp rfl
    rcases actual with _ | id | id | id
    · exact .drops (by simp) (by simp)
    · exact .stops rfl (by simp)
    · exact .drops (by simp) (by simp)
    · exact .drops (by simp) (by simp)
  · rcases intent with _ | _ | _
    · exact absurd (hp.mpr rfl) (by simp)
    · rcases actual with _ | id | id | id
      · exact .starts rfl (by simp) (by simp [Actual.awaited])
      · rcases eq_or_ne id s.id with h | h
        · simpa [reconcile, h] using Reconciles.stays
        · simpa [reconcile, h] using Reconciles.replaces rfl rfl h
      · rcases eq_or_ne id s.id with h | h
        · simpa [reconcile, h] using Reconciles.stays
        · simpa [reconcile, h] using
            Reconciles.starts (s := s) rfl (by simp) (by simp [Actual.awaited, h])
      · exact .starts rfl (by simp) (by simp [Actual.awaited])
    · rcases actual with _ | id | id | id
      · exact .stays
      · rcases eq_or_ne id s.id with h | h
        · simpa [reconcile, h] using Reconciles.pauses rfl
        · simpa [reconcile, h] using Reconciles.stops rfl (by simpa using h.symm)
      · rcases eq_or_ne id s.id with h | h
        · simpa [reconcile, h] using Reconciles.stays
        · simpa [reconcile, h] using Reconciles.drops (by simp) (by simpa [Actual.awaited] using h)
      · rcases eq_or_ne id s.id with h | h
        · simpa [reconcile, h] using Reconciles.stays
        · simpa [reconcile, h] using Reconciles.drops (by simp) (by simp [Actual.awaited])

/-- Reconciling brings the playback to what the intent asks for. -/
theorem settled_reconcile {p : MediaPlayer Id} (hp : p.Consistent) : p.reconcile.Settled := by
  rcases p with ⟨chime, nextStream, nextAnnouncement, stream, intent, actual, dialog, announcing,
    queue, volume, muted, reported, effects⟩
  rcases stream with _ | s
  · obtain rfl : intent = .idle := hp.mp rfl
    rcases actual with _ | id | id | id <;> rfl
  · rcases intent with _ | _ | _
    · exact absurd (hp.mpr rfl) (by simp)
    · rcases actual with _ | id | id | id
      · simp [reconcile, start, Option.filter, Settled, push]
      · rcases eq_or_ne id s.id with h | h <;> simp [reconcile, start, Option.filter, Settled, push, h]
      · rcases eq_or_ne id s.id with h | h <;> simp [reconcile, start, Option.filter, Settled, push, h]
      · simp [reconcile, start, Option.filter, Settled, push]
    · rcases actual with _ | id | id | id
      · simp [reconcile, Settled]
      all_goals
        rcases eq_or_ne id s.id with h | h <;> simp [reconcile, Settled, push, h]

/-- Reconciling starts and stops playbacks, and nothing else. -/
theorem Reconciles.frame {p q : MediaPlayer Id} (h : Reconciles p q) :
    q.intent = p.intent ∧ q.deferring = p.deferring ∧ q.queue = p.queue ∧
      (q.stream = none ↔ p.stream = none) := by
  rcases h with _ | _ | _ | _ | ⟨hs, _, _⟩ | ⟨hs, _, _⟩
  case starts => simp [start_eq hs, push, deferring, hs]
  case replaces s id _ _ =>
      have hpush : (p.push (.stopContent id)).stream = some s := hs
      rw [start_eq hpush]
      simp [push, deferring, hs]
  all_goals exact ⟨rfl, rfl, rfl, Iff.rfl⟩

/-- What advancing does. -/
inductive Advances (p : MediaPlayer Id) : MediaPlayer Id → Prop
  | defers (hdefers : p.deferring = true) : Advances p p
  | announces {plan : AnnouncementPlan Id} {queue : List (AnnouncementPlan Id)}
      (hfree : p.deferring = false) (hqueue : p.queue = plan :: queue) :
      Advances p ({ p with announcing := some plan, queue }.push (.startAnnouncement plan))
  | reconciles (hfree : p.deferring = false) (hqueue : p.queue = []) : Advances p p.reconcile

theorem advances (p : MediaPlayer Id) : Advances p p.advance := by
  unfold advance
  rcases hd : p.deferring with _ | _
  · rcases hq : p.queue with _ | ⟨plan, queue⟩
    · simpa [hd] using Advances.reconciles hd hq
    · simpa [hd, push, deferring] using Advances.announces hd hq
  · simpa [hd] using Advances.defers hd

/-! ### The intent is followed -/

/-- What every operation keeps, the loss of the session among them. -/
structure Sound (p : MediaPlayer Id) : Prop where
  consistent : p.Consistent
  waits : p.Waits

@[simp] theorem stream_report (p : MediaPlayer Id) : p.report.stream = p.stream := by
  unfold report; split <;> rfl

@[simp] theorem intent_report (p : MediaPlayer Id) : p.report.intent = p.intent := by
  unfold report; split <;> rfl

@[simp] theorem actual_report (p : MediaPlayer Id) : p.report.actual = p.actual := by
  unfold report; split <;> rfl

@[simp] theorem deferring_report (p : MediaPlayer Id) : p.report.deferring = p.deferring := by
  unfold report; split <;> rfl

@[simp] theorem queue_report (p : MediaPlayer Id) : p.report.queue = p.queue := by
  unfold report; split <;> rfl

theorem Sound.report {p : MediaPlayer Id} (h : p.Sound) : p.report.Sound :=
  ⟨by simpa [Consistent] using h.consistent, by simpa [Waits] using h.waits⟩

theorem Aligned.report {p : MediaPlayer Id} (h : p.Aligned) : p.report.Aligned := by
  simpa [Aligned, Settled] using h

theorem Consistent.reconcile {p : MediaPlayer Id} (h : p.Consistent) :
    p.reconcile.Consistent := by
  obtain ⟨hintent, -, -, hstream⟩ := (reconciles h).frame
  rw [Consistent, hstream, hintent]
  exact h

/-- Advancing leaves an announcement playing, or a playback that follows the intent. -/
theorem Consistent.advance {p : MediaPlayer Id} (h : p.Consistent) :
    p.advance.Sound ∧ p.advance.Aligned := by
  have hadvances := advances p
  generalize p.advance = q at hadvances
  rcases hadvances with hd | ⟨hfree, hqueue⟩ | ⟨hfree, hqueue⟩
  · exact ⟨⟨h, .inr hd⟩, .inl hd⟩
  · exact ⟨⟨h, .inr (by simp [deferring, push])⟩, .inl (by simp [deferring, push])⟩
  · obtain ⟨-, -, hq, -⟩ := (reconciles h).frame
    exact ⟨⟨h.reconcile, .inl (hq.trans hqueue)⟩, .inr (settled_reconcile h)⟩

/-- A new intent is recorded, or followed. -/
theorem Consistent.setIntent {p : MediaPlayer Id} (intent : Intent) (hwaits : p.Waits)
    (h : ({ p with intent } : MediaPlayer Id).Consistent) :
    (p.setIntent intent).1.Sound ∧ (p.setIntent intent).1.Aligned := by
  unfold MediaPlayer.setIntent
  split
  case isTrue hd => exact ⟨⟨h, .inr hd⟩, .inl hd⟩
  case isFalse hd =>
      obtain ⟨-, hdefer, hq, -⟩ := (reconciles h).frame
      refine ⟨⟨h.reconcile, hwaits.imp (hq.trans ·) fun hw => absurd hw hd⟩, ?_⟩
      exact .inr (settled_reconcile h)

/-- Volume and mute leave everything else. -/
theorem volume_frame {p q : MediaPlayer Id}
    (h : q.stream = p.stream ∧ q.intent = p.intent ∧ q.actual = p.actual ∧
      q.deferring = p.deferring ∧ q.queue = p.queue) (hp : p.Sound) :
    q.Sound ∧ (p.Aligned → q.Aligned) := by
  obtain ⟨hs, hi, ha, hd, hq⟩ := h
  refine ⟨⟨?_, ?_⟩, fun haligned => ?_⟩
  · rw [Consistent, hs, hi]
    exact hp.consistent
  · rw [Waits, hd, hq]
    exact hp.waits
  · rw [Aligned, Settled, hs, hi, ha, hd]
    exact haligned

theorem Sound.carryOut {p : MediaPlayer Id} (hp : p.Sound) (request : MediaRequest) :
    (p.carryOut request).1.Sound ∧
      (p.Aligned ∨ p.Realigns (.command request) → (p.carryOut request).1.Aligned) := by
  rcases request with ⟨url, _ | _⟩ | _ | _ | _ | _ | _ | volume
  · -- a new stream
    have h := Consistent.setIntent (p := { p with
      nextStream := p.nextStream + 1
      stream := some { id := ⟨p.nextStream + 1⟩, url, seekable := none, startFrame := 0,
                       completed := none } }) .playing hp.waits (by simp [Consistent])
    exact ⟨h.1, fun _ => h.2⟩
  · have h := Consistent.advance (p := { p with
      nextAnnouncement := p.nextAnnouncement + 1
      queue := p.queue ++ [{ key := ⟨p.nextAnnouncement + 1⟩, mediaUrl := url,
                             opener := mediaOpener p.announcementChime, text := none,
                             startConversation := false, satellite := none }] }) hp.consistent
    exact ⟨h.1, fun _ => h.2⟩
  · rcases hs : p.stream with _ | s
    · simpa [MediaPlayer.carryOut, Realigns, hs] using hp
    · have h := Consistent.setIntent .playing hp.waits (by simp [Consistent, hs])
      simpa [MediaPlayer.carryOut, hs] using ⟨h.1, fun _ => h.2⟩
  · rcases hs : p.stream with _ | s
    · simpa [MediaPlayer.carryOut, Realigns, hs] using hp
    · have h := Consistent.setIntent .paused hp.waits (by simp [Consistent, hs])
      simpa [MediaPlayer.carryOut, hs] using ⟨h.1, fun _ => h.2⟩
  · have h := Consistent.setIntent (p := { p with stream := none }) .idle hp.waits
      (by simp [Consistent])
    exact ⟨h.1, fun _ => h.2⟩
  all_goals
    refine (volume_frame ?_ hp).imp_right fun h ha => h (ha.resolve_right (by simp [Realigns]))
  · simp only [MediaPlayer.carryOut, mute]
    split_ifs <;> exact ⟨rfl, rfl, rfl, rfl, rfl⟩
  · simp only [MediaPlayer.carryOut, unmute]
    rcases p.volume with _ | volume
    · exact ⟨rfl, rfl, rfl, rfl, rfl⟩
    · dsimp only
      split_ifs <;> exact ⟨rfl, rfl, rfl, rfl, rfl⟩
  · simp only [MediaPlayer.carryOut, setVolume]
    split_ifs <;> exact ⟨rfl, rfl, rfl, rfl, rfl⟩

/-- A report about a stream's playback does not touch what is to play. -/
theorem Sound.withStream {p : MediaPlayer Id} (hp : p.Sound) (id : StreamId) {f : Stream → Stream}
    (hf : ∀ s, (f s).id = s.id) :
    (p.withStream id f).Sound ∧ (p.Aligned → (p.withStream id f).Aligned) := by
  have hid (s : Stream) : (if s.id = id then f s else s).id = s.id := by split_ifs <;> simp [hf]
  refine ⟨⟨?_, hp.waits⟩, Or.imp_right fun h => ?_⟩
  · simpa [MediaPlayer.withStream, Consistent] using hp.consistent
  · rcases hs : p.stream with _ | s
    · simpa [MediaPlayer.withStream, Settled, hs] using h
    · rcases hi : p.intent with _ | _ | _ <;>
        simpa [MediaPlayer.withStream, Settled, hs, hi, hid] using h

theorem Consistent.contentOver {p : MediaPlayer Id} (hp : p.Consistent) (stream : StreamId)
    (ended : ContentEnd) : (p.contentOver stream ended).Consistent := by
  have hgone : (if p.stream.any (·.id = stream) = true then
        { p with actual := .idle, stream := none, intent := .idle }
      else { p with actual := .idle } : MediaPlayer Id).Consistent := by
    split_ifs
    · simp [Consistent]
    · exact hp
  have hmarked (i : Intent) (hi : i = .idle ↔ p.intent = .idle) :
      ({ p.withStream stream fun s => Stream.bookmark s ended.completedFrames with
          actual := .paused stream, intent := i } : MediaPlayer Id).Consistent := by
    simpa [Consistent, MediaPlayer.withStream, hi] using hp
  unfold MediaPlayer.contentOver
  rcases ended.reason with _ | _ | _ | _
  · exact hgone
  · exact hmarked _ (by simp)
  · exact hgone
  · refine hmarked _ ?_
    split_ifs with h
    · simp [h.2.2]
    · rfl

/-- **Operations follow the intent.** Every operation keeps the player sound. One that realigns
leaves the playback following the intent, and so does every other but the loss of the session if
it found it so. -/
theorem Sound.apply {p : MediaPlayer Id} (hp : p.Sound) (op : MediaOp Id) :
    (p.apply op).Sound ∧
      (op ≠ .sessionLost ∧ p.Aligned ∨ p.Realigns op → (p.apply op).Aligned) := by
  have hadvance {q : MediaPlayer Id} (hq : q.Consistent) :
      q.advance.report.Sound ∧
        (op ≠ .sessionLost ∧ p.Aligned ∨ p.Realigns op → q.advance.report.Aligned) :=
    ⟨hq.advance.1.report, fun _ => hq.advance.2.report⟩
  rcases op with request | announcement | _ | _ | ⟨key, success⟩ | ⟨stream, seekability⟩ |
    ⟨stream, n⟩ | ⟨stream, ended⟩ | volume | _
  case command =>
      obtain ⟨h, ha⟩ := hp.carryOut request
      exact ⟨h.report, fun h => (ha (h.imp_left fun h => h.2)).report⟩
  case announce => exact hadvance hp.consistent
  case dialogStarted => exact ⟨⟨hp.consistent, .inr rfl⟩, fun _ => .inl rfl⟩
  case dialogEnded => exact hadvance hp.consistent
  case announcementEnded =>
      have hsame (hkey : ∀ plan, p.announcing = some plan → plan.key ≠ key) :
          p.Sound ∧ ((.announcementEnded key success : MediaOp Id) ≠ .sessionLost ∧ p.Aligned ∨
            p.Realigns (.announcementEnded key success) → p.Aligned) := by
        refine ⟨hp, ?_⟩
        rintro (⟨-, h⟩ | ⟨plan, ha, hk⟩)
        · exact h
        · exact absurd hk (hkey plan ha)
      simp only [MediaPlayer.apply, announcementEnded]
      rcases ha : p.announcing with _ | plan
      · exact hsame (by simp [ha])
      · dsimp only
        split_ifs with hkey
        · exact hadvance hp.consistent
        · exact hsame (by simpa [ha] using hkey)
  case contentOpened =>
      obtain ⟨h, ha⟩ := hp.withStream stream (f := fun s => { s with seekable := seekability })
        fun _ => rfl
      exact ⟨h, fun h => ha (h.elim (fun h => h.2) False.elim)⟩
  case contentProgress =>
      obtain ⟨h, ha⟩ := hp.withStream stream
        (f := fun s => { s with completed := some (max (s.completed.getD 0) n) }) fun _ => rfl
      exact ⟨h, fun h => ha (h.elim (fun h => h.2) False.elim)⟩
  case contentEnded =>
      simp only [MediaPlayer.apply, contentEnded]
      split_ifs with hawaited
      · exact ⟨hp, fun h => h.elim (fun h => h.2) fun h => absurd h hawaited⟩
      · exact hadvance (hp.consistent.contentOver stream ended)
  case deviceVolume =>
      simp only [MediaPlayer.apply, deviceVolume]
      split
      · exact ⟨hp.report, fun h => Aligned.report (h.elim (fun h => h.2) False.elim)⟩
      · obtain ⟨h, ha⟩ := volume_frame (p := p) (q := { p with volume, muted := false })
          ⟨rfl, rfl, rfl, rfl, rfl⟩ hp
        exact ⟨h.report, fun h => (ha (h.elim (fun h => h.2) False.elim)).report⟩
  case sessionLost =>
      exact ⟨Sound.report ⟨hp.consistent, .inl rfl⟩, fun h => h.elim (fun h => absurd rfl h.1)
        False.elim⟩

/-- The loss of the session leaves a playback that follows the intent. -/
theorem Settled.sessionLost {p : MediaPlayer Id} (h : p.Settled) : p.sessionLost.Settled := by
  have hreport {q : MediaPlayer Id} (hq : q.Settled) : q.report.Settled := by
    simpa [Settled] using hq
  exact hreport h

end MediaPlayer

end EchoMuse.Media
