import EchoMuse.Satellite.Actor

/-!
# Lanes to Home Assistant

What is in flight on the connection of a run. Either its start is answered, and only its own events
are still to come; or its start is the one start that is still to be answered, and only its own
events come behind the answer.

## Main results

* `Lane.Holds.send`, `Lane.Holds.home`: frames and Home Assistant keep a lane as it is;
* `Lane.holds_start`: a start on a connection that waits for no answer waits for its own;
* `Lane.Holds.event`, `Lane.Holds.answered`: what a lane says of the message that arrives.
-/

namespace EchoMuse.Satellite

def Frame.isStart : Frame → Bool
  | .start _ => true
  | _ => false

def Message.isAnswer : Message → Bool
  | .answer _ _ => true
  | .event _ _ => false

namespace Conn

/-- The frames Home Assistant has still to handle. -/
def frames (k : Conn) : List Frame := k.inbox ++ k.out

/-- A start on the connection is still to be answered, or its answer is still to be handled. -/
def unanswered (k : Conn) : Bool :=
  k.frames.any Frame.isStart || k.answering || k.outbox.any Message.isAnswer

end Conn

/-! ### States of a lane -/

/-- No start is on its way. -/
def NoStart (frames : List Frame) : Prop := ∀ f ∈ frames, f.isStart = false

/-- Only events are on their way. -/
def NoAnswer (messages : List Message) : Prop := ∀ m ∈ messages, m.isAnswer = false

/-- Only events of the run are on their way. -/
def EventsOf (run : RunId) (messages : List Message) : Prop :=
  ∀ m ∈ messages, ∃ e, m = .event run e

/-- The pipeline, if any, is the run's and has answered. -/
def AnsweredOf (run : RunId) (pipeline : Option Pipeline) : Prop :=
  ∀ p ∈ pipeline, p = ⟨run, true⟩

/-- What is in flight on a connection. -/
inductive Lane
  /-- The last start is this run's and is answered. -/
  | settled (run : RunId)
  /-- The last start is this run's and is still to be answered. -/
  | waiting (run : RunId)

/-- The connection is in the state. -/
def Lane.Holds (k : Conn) : Lane → Prop
  | .settled run => NoStart k.frames ∧ AnsweredOf run k.pipeline ∧ EventsOf run k.outbox
  | .waiting run =>
    -- The start is on its way to Home Assistant,
    (∃ pre post, k.frames = pre ++ .start run :: post ∧ NoStart pre ∧ NoStart post ∧
      k.answering = false ∧ NoAnswer k.outbox) ∨
    -- or Home Assistant is about to answer it,
    (NoStart k.frames ∧ k.pipeline = some ⟨run, false⟩ ∧ NoAnswer k.outbox) ∨
    -- or the answer is on its way back.
    (NoStart k.frames ∧ AnsweredOf run k.pipeline ∧
      ∃ pre error post, k.outbox = pre ++ .answer run error :: post ∧ NoAnswer pre ∧
        EventsOf run post)

section

variable {frames frames' : List Frame} {messages messages' : List Message} {run : RunId}

theorem NoStart.append (h : NoStart frames) (h' : NoStart frames') : NoStart (frames ++ frames') :=
  fun f hf => (List.mem_append.mp hf).elim (h f) (h' f)

theorem NoStart.left (h : NoStart (frames ++ frames')) : NoStart frames :=
  fun f hf => h f (List.mem_append_left _ hf)

theorem NoStart.right (h : NoStart (frames ++ frames')) : NoStart frames' :=
  fun f hf => h f (List.mem_append_right _ hf)

theorem NoAnswer.append (h : NoAnswer messages) (h' : NoAnswer messages') :
    NoAnswer (messages ++ messages') :=
  fun m hm => (List.mem_append.mp hm).elim (h m) (h' m)

theorem EventsOf.append (h : EventsOf run messages) (h' : EventsOf run messages') :
    EventsOf run (messages ++ messages') :=
  fun m hm => (List.mem_append.mp hm).elim (h m) (h' m)

theorem EventsOf.singleton (run : RunId) (e : VoiceAssistantEvent) :
    EventsOf run [.event run e] := fun _ hm => ⟨e, List.mem_singleton.mp hm⟩

theorem EventsOf.noAnswer (h : EventsOf run messages) : NoAnswer messages := by
  intro m hm
  obtain ⟨e, rfl⟩ := h m hm
  rfl

/-- A list with one start splits at it in one way. -/
theorem start_unique {pre post pre' post' : List Frame} {run run' : RunId} (hpre : NoStart pre)
    (hpost : NoStart post) (h : pre ++ .start run :: post = pre' ++ .start run' :: post') :
    pre' = pre ∧ run' = run ∧ post' = post := by
  rcases List.append_eq_append_iff.mp h with ⟨mid, rfl, hmid⟩ | ⟨mid, rfl, hmid⟩
  · cases mid with
    | nil =>
        cases hmid
        exact ⟨List.append_nil pre, rfl, rfl⟩
    | cons f mid =>
        obtain ⟨rfl, rfl⟩ := List.cons.inj hmid
        have := hpost (.start run') (List.mem_append_right _ List.mem_cons_self)
        cases this
  · cases mid with
    | nil =>
        cases hmid
        exact ⟨(List.append_nil _).symm, rfl, rfl⟩
    | cons f mid =>
        obtain ⟨rfl, rfl⟩ := List.cons.inj hmid
        have := hpre (.start run') (List.mem_append_right _ List.mem_cons_self)
        cases this

end

namespace Lane

variable {k k' : Conn} {l : Lane} {run : RunId}

/-! ### Frames -/

/-- The state is about what is in flight only. -/
theorem Holds.same (h : l.Holds k) (hframes : k'.frames = k.frames)
    (hpipeline : k'.pipeline = k.pipeline) (houtbox : k'.outbox = k.outbox) : l.Holds k' := by
  cases l with
  | settled run =>
      rw [Holds, hframes, hpipeline, houtbox]
      exact h
  | waiting run =>
      rw [Holds, hframes, hpipeline, houtbox, Conn.answering, hpipeline]
      exact h

theorem Holds.close (h : l.Holds k) : l.Holds k.close := by
  unfold Conn.close
  by_cases hknown : k.known = true
  · rw [if_pos hknown]
    exact h.same rfl rfl rfl
  · rw [if_neg hknown]
    exact h

theorem Holds.write (h : l.Holds k) : l.Holds k.write := by
  unfold Conn.write
  cases hout : k.out with
  | nil => exact h
  | cons f rest =>
      refine h.same ?_ rfl rfl
      unfold Conn.frames
      dsimp only
      rw [hout, List.append_assoc, List.singleton_append]

/-- A frame that starts nothing joins the end. -/
theorem Holds.push (h : l.Holds k) {f : Frame} (hf : f.isStart = false) :
    l.Holds { k with out := k.out ++ [f] } := by
  have hone : NoStart [f] := fun g hg => List.mem_singleton.mp hg ▸ hf
  have hframes : { k with out := k.out ++ [f] }.frames = k.frames ++ [f] :=
    (List.append_assoc _ _ _).symm
  cases l with
  | settled run =>
      obtain ⟨hstart, hrest⟩ := h
      exact ⟨hframes ▸ hstart.append hone, hrest⟩
  | waiting run =>
      rcases h with ⟨pre, post, heq, hpre, hpost, hrest⟩ | ⟨hstart, hrest⟩ | ⟨hstart, hrest⟩
      · refine .inl ⟨pre, post ++ [f], ?_, hpre, hpost.append hone, hrest⟩
        rw [hframes, heq, List.append_assoc, List.cons_append]
      · exact .inr (.inl ⟨hframes ▸ hstart.append hone, hrest⟩)
      · exact .inr (.inr ⟨hframes ▸ hstart.append hone, hrest⟩)

theorem Holds.send (h : l.Holds k) {f : Frame} (hf : f.isStart = false) :
    l.Holds (k.send f).1 := by
  unfold Conn.send
  by_cases hopen : k.isOpen = true
  · rw [if_pos hopen]
    by_cases hroom : k.out.length < outboundCapacity
    · rw [if_pos hroom]
      exact h.push hf
    · rw [if_neg hroom]
      exact h.close
  · rw [if_neg hopen]
    exact h

/-- A start on a connection that waits for no answer waits for its own. -/
theorem holds_start (hanswered : k.unanswered = false) (run : RunId) :
    (waiting run).Holds { k with out := k.out ++ [.start run] } := by
  have hframes : { k with out := k.out ++ [Frame.start run] }.frames = k.frames ++ [.start run] :=
    (List.append_assoc _ _ _).symm
  unfold Conn.unanswered at hanswered
  rw [Bool.or_eq_false_iff, Bool.or_eq_false_iff] at hanswered
  obtain ⟨⟨hstarts, hanswering⟩, hanswers⟩ := hanswered
  have hnone : NoStart k.frames := fun f hf =>
    (Bool.not_eq_true _).mp (List.any_eq_false.mp hstarts f hf)
  have hmessages : NoAnswer k.outbox := fun m hm =>
    (Bool.not_eq_true _).mp (List.any_eq_false.mp hanswers m hm)
  exact .inl ⟨k.frames, [], hframes, hnone, fun f hf => absurd hf List.not_mem_nil, hanswering,
    hmessages⟩

/-! ### Home Assistant -/

theorem not_answering {run : RunId} (h : AnsweredOf run k.pipeline) : k.answering = false := by
  unfold Conn.answering
  cases hp : k.pipeline with
  | none => rfl
  | some p =>
      rw [hp] at h
      rw [h p rfl]
      rfl

/-- What the next frame makes of a connection. -/
theorem take_cases (k : Conn) :
    k.take = k ∨ ∃ f rest, k.answering = false ∧ k.frames = f :: rest ∧ k.take.frames = rest ∧
      k.take.outbox = k.outbox ∧
      ((∃ run, f = .start run ∧ k.take.pipeline = some ⟨run, false⟩) ∨
        f.isStart = false ∧ (k.take.pipeline = none ∨ k.take.pipeline = k.pipeline)) := by
  unfold Conn.take
  by_cases hanswering : k.answering = true
  · rw [if_pos hanswering]
    exact .inl rfl
  · rw [if_neg hanswering]
    cases hin : k.inbox with
    | nil => exact .inl rfl
    | cons f rest =>
        have hframes : k.frames = f :: (rest ++ k.out) := by
          rw [Conn.frames, hin]
          rfl
        refine .inr ⟨f, rest ++ k.out, (Bool.not_eq_true _).mp hanswering, hframes, ?_⟩
        cases f with
        | start run => exact ⟨rfl, rfl, .inl ⟨run, rfl, rfl⟩⟩
        | stop => exact ⟨rfl, rfl, .inr ⟨rfl, .inl rfl⟩⟩
        | audio bytes end_ => exact ⟨rfl, rfl, .inr ⟨rfl, .inr rfl⟩⟩
        | finished success => exact ⟨rfl, rfl, .inr ⟨rfl, .inr rfl⟩⟩
        | other => exact ⟨rfl, rfl, .inr ⟨rfl, .inr rfl⟩⟩

/-- A pipeline that is gone or the same is answered as before. -/
theorem AnsweredOf.kept {pipeline pipeline' : Option Pipeline} (h : AnsweredOf run pipeline)
    (hp : pipeline' = none ∨ pipeline' = pipeline) : AnsweredOf run pipeline' := by
  rcases hp with rfl | rfl
  · exact fun p hp => by cases hp
  · exact h

/-- Home Assistant handles the next frame. -/
theorem Holds.take (h : l.Holds k) : l.Holds k.take := by
  rcases take_cases k with heq | ⟨f, rest, hanswering, hframes, hframes', houtbox, hf⟩
  · rw [heq]
    exact h
  · have hrest : NoStart k.frames → f.isStart = false ∧ NoStart k.take.frames := by
      intro hstart
      rw [hframes] at hstart
      exact ⟨hstart f List.mem_cons_self, hframes' ▸ fun g hg => hstart g (List.mem_cons_of_mem f hg)⟩
    have hkept : f.isStart = false → k.take.pipeline = none ∨ k.take.pipeline = k.pipeline := by
      intro hnot
      rcases hf with ⟨run, rfl, -⟩ | ⟨-, hp⟩
      · cases hnot
      · exact hp
    cases l with
    | settled run =>
        obtain ⟨hstart, hanswered, hevents⟩ := h
        obtain ⟨hnot, hstart'⟩ := hrest hstart
        exact ⟨hstart', AnsweredOf.kept hanswered (hkept hnot), houtbox ▸ hevents⟩
    | waiting run =>
        rcases h with ⟨pre, post, heq, hpre, hpost, hno, hmessages⟩ | ⟨hstart, hp, hmessages⟩ |
          ⟨hstart, hanswered, hmessages⟩
        · cases pre with
          | nil =>
              -- Home Assistant takes the start itself.
              rw [hframes] at heq
              obtain ⟨rfl, rfl⟩ := List.cons.inj heq
              rcases hf with ⟨run', hrun, hp⟩ | ⟨hnot, -⟩
              · cases hrun
                exact .inr (.inl ⟨hframes' ▸ hpost, hp, houtbox ▸ hmessages⟩)
              · cases hnot
          | cons g pre =>
              rw [hframes] at heq
              obtain ⟨rfl, rfl⟩ := List.cons.inj heq
              have hnot := hpre f List.mem_cons_self
              refine .inl ⟨pre, post, hframes', fun g hg => hpre g (List.mem_cons_of_mem f hg), hpost,
                ?_, houtbox ▸ hmessages⟩
              unfold Conn.answering
              rcases hkept hnot with hp | hp
              · rw [hp]
                rfl
              · rw [hp]
                exact hno
        · rw [Conn.answering, hp] at hanswering
          cases hanswering
        · obtain ⟨hnot, hstart'⟩ := hrest hstart
          exact .inr (.inr ⟨hstart', AnsweredOf.kept hanswered (hkept hnot), houtbox ▸ hmessages⟩)

/-- Home Assistant answers the last start. -/
theorem Holds.answer (h : l.Holds k) (error : Bool) : l.Holds (k.answer error) := by
  unfold Conn.answer
  cases hp : k.pipeline with
  | none => exact h
  | some p =>
      obtain ⟨run', answered⟩ := p
      cases answered with
      | true => exact h
      | false =>
          have hanswering : k.answering = true := by
            rw [Conn.answering, hp]
            rfl
          cases l with
          | settled run =>
              rw [not_answering h.2.1] at hanswering
              cases hanswering
          | waiting run =>
              rcases h with ⟨pre, post, -, -, -, hno, -⟩ | ⟨hstart, hrun, hmessages⟩ |
                ⟨-, hanswered, -⟩
              · rw [hno] at hanswering
                cases hanswering
              · rw [hp] at hrun
                cases hrun
                refine .inr (.inr ⟨hstart, fun p hp => (Option.some.inj hp).symm, k.outbox, error, [],
                  rfl, hmessages, fun m hm => absurd hm List.not_mem_nil⟩)
              · rw [not_answering hanswered] at hanswering
                cases hanswering

/-- The pipeline sends an event. -/
theorem Holds.sendEvent (h : l.Holds k) (e : VoiceAssistantEvent) : l.Holds (k.event e) := by
  unfold Conn.event
  cases hp : k.pipeline with
  | none => exact h
  | some p =>
      dsimp only
      rw [← hp]
      have hone : NoAnswer [.event p.run e] := (EventsOf.singleton p.run e).noAnswer
      cases l with
      | settled run =>
          obtain ⟨hstart, hanswered, hevents⟩ := h
          have hrun := hanswered p hp
          refine ⟨hstart, hanswered, hevents.append ?_⟩
          rw [hrun]
          exact .singleton run e
      | waiting run =>
          rcases h with ⟨pre, post, heq, hpre, hpost, hno, hmessages⟩ | ⟨hstart, hrun, hmessages⟩ |
            ⟨hstart, hanswered, pre, error, post, hout, hmessages, hevents⟩
          · exact .inl ⟨pre, post, heq, hpre, hpost, hno, hmessages.append hone⟩
          · exact .inr (.inl ⟨hstart, hrun, hmessages.append hone⟩)
          · refine .inr (.inr ⟨hstart, hanswered, pre, error, post ++ [.event p.run e], ?_,
              hmessages, hevents.append ?_⟩)
            · dsimp only
              rw [hout, List.append_assoc, List.cons_append]
            · rw [hanswered p hp]
              exact .singleton run e

theorem Holds.home (h : l.Holds k) (step : HomeStep) : l.Holds (k.home step) := by
  cases step with
  | take => exact h.take
  | answer error => exact h.answer error
  | event e => exact h.sendEvent e

/-! ### Messages -/

/-- An event that arrives on a settled lane is the run's; the lane stays settled. -/
theorem Holds.event {run run' : RunId} {e : VoiceAssistantEvent} {rest : List Message}
    (h : (settled run).Holds k) (hout : k.outbox = .event run' e :: rest) :
    run' = run ∧ (settled run).Holds { k with outbox := rest } := by
  obtain ⟨hstart, hanswered, hevents⟩ := h
  rw [hout] at hevents
  obtain ⟨e', heq⟩ := hevents _ List.mem_cons_self
  cases heq
  exact ⟨rfl, hstart, hanswered, fun m hm => hevents m (List.mem_cons_of_mem _ hm)⟩

/-- No answer arrives on a settled lane. -/
theorem Holds.no_answer {run run' : RunId} {error : Bool} {rest : List Message}
    (h : (settled run).Holds k) (hout : k.outbox = .answer run' error :: rest) : False := by
  obtain ⟨-, -, hevents⟩ := h
  rw [hout] at hevents
  obtain ⟨e', heq⟩ := hevents _ List.mem_cons_self
  cases heq

/-- The answer that arrives on a waiting lane is to the run's start, and settles it. -/
theorem Holds.answered {run run' : RunId} {error : Bool} {rest : List Message}
    (h : (waiting run).Holds k) (hout : k.outbox = .answer run' error :: rest) :
    run' = run ∧ (settled run).Holds { k with outbox := rest } := by
  have hanswer : ∀ {messages : List Message}, NoAnswer (.answer run' error :: messages) → False :=
    fun hno => by cases hno _ List.mem_cons_self
  rcases h with ⟨_, _, _, _, _, _, hmessages⟩ | ⟨_, _, hmessages⟩ |
    ⟨hstart, hanswered, pre, error', post, heq, hmessages, hevents⟩
  · rw [hout] at hmessages
    exact (hanswer hmessages).elim
  · rw [hout] at hmessages
    exact (hanswer hmessages).elim
  · rw [hout] at heq
    cases pre with
    | nil =>
        cases heq
        exact ⟨rfl, hstart, hanswered, hevents⟩
    | cons m pre =>
        cases heq
        exact (hanswer hmessages).elim

/-- An event that arrives on a waiting lane leaves it waiting. -/
theorem Holds.early {run run' : RunId} {e : VoiceAssistantEvent} {rest : List Message}
    (h : (waiting run).Holds k) (hout : k.outbox = .event run' e :: rest) :
    (waiting run).Holds { k with outbox := rest } := by
  have htail : ∀ {messages : List Message}, NoAnswer (.event run' e :: messages) →
      NoAnswer messages := fun hno m hm => hno m (List.mem_cons_of_mem _ hm)
  rcases h with ⟨pre, post, heq, hpre, hpost, hno, hmessages⟩ | ⟨hstart, hrun, hmessages⟩ |
    ⟨hstart, hanswered, pre, error, post, heq, hmessages, hevents⟩
  · rw [hout] at hmessages
    exact .inl ⟨pre, post, heq, hpre, hpost, hno, htail hmessages⟩
  · rw [hout] at hmessages
    exact .inr (.inl ⟨hstart, hrun, htail hmessages⟩)
  · rw [hout] at heq
    cases pre with
    | nil => cases heq
    | cons m pre =>
        cases heq
        exact .inr (.inr ⟨hstart, hanswered, pre, error, post, rfl, htail hmessages, hevents⟩)

end Lane

end EchoMuse.Satellite
