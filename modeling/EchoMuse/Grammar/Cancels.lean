import EchoMuse.Grammar.Timers

/-!
# Runs of Timer Cancels

A cancel with Home Assistant on the other side: the run gives requests and takes answers, and Home
Assistant's list changes only by the requests sent. Next to both stands what an observer counts: the
timers removed, those a request was answered for, and the requests.

## Main results

* `Invariant.step`: what every step keeps;
* `cancels_only_asked`: every request removes exactly the timers recorded for it.
-/

namespace EchoMuse.Timers

variable {ν : Type*} [DecidableEq ν]

/-! ### What a cancel asks for -/

/-- A cancel just asked for, or the answer to "Which one?". -/
inductive Request
  | cancel (cancel : TimerCancel)
  | chosen (chosen : ChosenTimers)

namespace Request

def plan (norm : List Char → ν) (timers : SpeakerTimers) : Request → TimerCancelPlan
  | cancel c => timers.plan norm c
  | chosen c => timers.planChosen norm c

/-- Whether a cancel is for a timer of the speaker. -/
def isFor : Request → HaTimer → Bool
  | cancel _, _ => true
  | chosen (.one timer), t => t.id = timer.id
  | chosen (.all offered), t => offered.any fun o => o.id = t.id

/-- The timers of the speaker that the cancel is for. -/
def asked (timers : SpeakerTimers) (request : Request) : List HaTimer :=
  timers.mine.filter request.isFor

end Request

/-! ### Sessions -/

/-- The timers the request that waits was recorded with. -/
def TimerCancelRun.waiting (run : TimerCancelRun) : List HaTimer := (run.sent.map (·.2)).getD []

/-- A run of cancels, and Home Assistant's timers. -/
structure Session where
  run : TimerCancelRun
  timers : List HaTimer
  /-- The timers the requests removed. -/
  removed : List HaTimer
  /-- The timers of the requests that were answered. -/
  tried : List HaTimer
  /-- The requests that were answered. -/
  requests : ℕ

inductive Event
  /-- `next_intent` is called. -/
  | next
  /-- The request is answered after Home Assistant handled it. -/
  | handled
  /-- It is answered though Home Assistant refused it, or never was sent it. -/
  | refused

namespace Session

/-- The answer to a request that removed `gone`: it applied when that is some timer. -/
def answer (s : Session) (gone : List HaTimer) : Session where
  run := s.run.answered (gone ≠ [])
  timers := s.timers.filter fun t => gone.all fun done => done.id ≠ t.id
  removed := s.removed ++ gone
  tried := s.tried ++ s.run.waiting
  requests := s.requests + if s.run.sent.isSome then 1 else 0

def step (norm : List Char → ν) (same : List Char → List Char → Bool) (s : Session) :
    Event → Session
  | .next => { s with run := (s.run.nextIntent norm).2 }
  | .handled => s.answer ((s.run.sent.map fun p => removes same s.run.device p.1 s.timers).getD [])
  | .refused => s.answer []

/-- The session a plan starts. -/
def start (run : TimerCancelRun) (every : List HaTimer) : Session where
  run := run
  timers := every
  removed := []
  tried := []
  requests := 0

end Session

/-- The timers the next call takes from the queue without a request for them. -/
def TimerCancelRun.skips (norm : List Char → ν) (run : TimerCancelRun) : List HaTimer :=
  let next := (run.nextIntent norm).2
  run.queue.filter fun t => t ∉ next.waiting ++ next.queue

/-! ### Taking a timer from the queue -/

section

variable {norm : List Char → ν} {every : List HaTimer} {device : String} {queue : List HaTimer}

theorem popQueue_some {selector : TimerSelector} {timer : HaTimer} {rest : List HaTimer}
    (h : TimerCancelRun.popQueue norm every device queue = (some (selector, timer), rest)) :
    (timer :: rest).Sublist queue ∧ pick norm timer every device = some selector := by
  fun_induction TimerCancelRun.popQueue norm every device queue with
  | case1 => cases h
  | case2 t queue selector hpick =>
    cases h
    exact ⟨List.Sublist.refl _, hpick⟩
  | case3 t queue hpick ih =>
    obtain ⟨hsub, hpicked⟩ := ih h
    exact ⟨hsub.cons t, hpicked⟩

theorem popQueue_none {rest : List HaTimer}
    (h : TimerCancelRun.popQueue norm every device queue = (none, rest)) : rest = [] := by
  fun_induction TimerCancelRun.popQueue norm every device queue with
  | case1 =>
    cases h
    rfl
  | case2 t queue selector hpick => cases h
  | case3 t queue hpick ih => exact ih h

/-- A timer taken without a request is one that cannot be picked. -/
theorem pick_of_popQueue {t : HaTimer} (ht : t ∈ queue)
    (hpicked : ∀ p ∈ (TimerCancelRun.popQueue norm every device queue).1, t ≠ p.2)
    (hqueue : t ∉ (TimerCancelRun.popQueue norm every device queue).2) :
    pick norm t every device = none := by
  fun_induction TimerCancelRun.popQueue norm every device queue with
  | case1 => cases ht
  | case2 timer queue selector hpick =>
    obtain rfl | ht := List.mem_cons.mp ht
    · exact absurd rfl (hpicked _ rfl)
    · exact absurd ht hqueue
  | case3 timer queue hpick ih =>
    obtain rfl | ht := List.mem_cons.mp ht
    · exact hpick
    · exact ih ht hpicked hqueue

end

/-! ### What every step keeps -/

/-- The run knows Home Assistant's timers, and has each timer it was asked for at most once: tried,
waiting or queued. -/
structure Invariant (same : List Char → List Char → Bool) (device : String)
    (start asked : List HaTimer) (s : Session) : Prop where
  here : s.run.device = device
  timers : s.timers = s.run.every
  every : s.run.every = start.filter fun t => s.run.cancelled.all fun done => done.id ≠ t.id
  removed : s.removed = s.run.cancelled
  tried : s.run.cancelled.Sublist s.tried
  order : (s.tried ++ (s.run.waiting ++ s.run.queue)).Sublist asked
  sent : ∀ intent ts, s.run.sent = some (intent, ts) →
    ts ≠ [] ∧ removes same device intent s.run.every = ts
  requests : s.requests ≤ s.tried.length
  total : s.run.total = asked.length

section

variable {norm : List Char → ν} {same : List Char → List Char → Bool} {device : String}
  {start asked : List HaTimer} {s : Session}

theorem TimerCancelRun.waiting_of_some {run : TimerCancelRun} {intent : DirectIntent}
    {ts : List HaTimer} (h : run.sent = some (intent, ts)) : run.waiting = ts := by
  rw [waiting, h]
  rfl

theorem TimerCancelRun.waiting_of_none {run : TimerCancelRun} (h : run.sent = none) :
    run.waiting = [] := by
  rw [waiting, h]
  rfl

/-- A timer not tried yet is still in Home Assistant. -/
theorem Invariant.mem_every (h : Invariant same device start asked s)
    (hnodup : (asked.map (·.id)).Nodup) (hstart : ∀ t ∈ asked, t ∈ start) {t : HaTimer}
    (ht : t ∈ s.run.waiting ++ s.run.queue) : t ∈ s.run.every := by
  have hmem : t ∈ asked := h.order.subset (List.mem_append_right _ ht)
  have hids := hnodup.sublist (h.order.map (·.id))
  rw [List.map_append, List.nodup_append] at hids
  rw [h.every, List.mem_filter, List.all_eq_true]
  refine ⟨hstart t hmem, fun done hdone => decide_eq_true ?_⟩
  exact hids.2.2 _ (List.mem_map_of_mem (h.tried.subset hdone)) _ (List.mem_map_of_mem ht)

/-- An answer to a request that removed nothing. -/
theorem Session.answer_nil (s : Session) :
    s.answer [] = { s with
      run := { s.run with sent := none }
      tried := s.tried ++ s.run.waiting
      requests := s.requests + if s.run.sent.isSome then 1 else 0 } := by
  have hrun : s.run.answered false = { s.run with sent := none } := by
    rw [TimerCancelRun.answered]
    split
    next hsent => rw [← hsent]
    next => rfl
  have htimers : (s.timers.filter fun t => ([] : List HaTimer).all fun done => done.id ≠ t.id) =
      s.timers := List.filter_eq_self.mpr fun _ _ => rfl
  rw [answer, htimers, List.append_nil]
  exact congrArg (fun run => Session.mk run s.timers s.removed (s.tried ++ s.run.waiting) _) hrun

theorem Invariant.answer_nil (h : Invariant same device start asked s) :
    Invariant same device start asked (s.answer []) := by
  rw [Session.answer_nil]
  refine ⟨h.here, h.timers, h.every, h.removed, ?_, ?_, by simp, ?_, h.total⟩
  · exact h.tried.trans (List.sublist_append_left _ _)
  · have horder := h.order
    rw [← List.append_assoc] at horder
    exact horder
  · have hrequests := h.requests
    rw [List.length_append]
    cases hsent : s.run.sent with
    | none => exact hrequests.trans (Nat.le_add_right _ _)
    | some p =>
      have hpos := List.length_pos_iff.mpr (h.sent p.1 p.2 hsent).1
      rw [TimerCancelRun.waiting_of_some hsent]
      exact Nat.add_le_add hrequests hpos

/-- An answer to a request that removed what it was recorded with. -/
theorem Invariant.answer_sent (h : Invariant same device start asked s) {intent : DirectIntent}
    {ts : List HaTimer} (hsent : s.run.sent = some (intent, ts)) :
    Invariant same device start asked (s.answer ts) := by
  have hne := (h.sent intent ts hsent).1
  have hrun : s.run.answered (ts ≠ []) = { s.run with
      sent := none
      every := s.run.every.filter fun t => ts.all fun done => done.id ≠ t.id
      cancelled := s.run.cancelled ++ ts } := by
    rw [TimerCancelRun.answered, hsent]
    exact if_pos (decide_eq_true hne)
  have hwaiting := TimerCancelRun.waiting_of_some hsent
  rw [Session.answer, hrun, hwaiting]
  refine ⟨h.here, ?_, ?_, ?_, h.tried.append (List.Sublist.refl ts), ?_, by simp, ?_, h.total⟩
  · rw [h.timers]
  · rw [h.every, List.filter_filter]
    refine List.filter_congr fun t _ => ?_
    rw [List.all_append, Bool.and_comm]
  · rw [h.removed]
  · have horder := h.order
    rw [hwaiting, ← List.append_assoc] at horder
    exact horder
  · have hpos := List.length_pos_iff.mpr hne
    rw [hsent, List.length_append]
    exact Nat.add_le_add h.requests hpos

/-- The next request is one Home Assistant carries out on the timer it was made for. -/
theorem Invariant.next (h : Invariant same device start asked s) (hrefl : ∀ a, same a a = true)
    (hfine : ∀ a b, same a b = true → norm a = norm b) (hids : (start.map (·.id)).Nodup)
    (hnodup : (asked.map (·.id)).Nodup)
    (hmine : ∀ t ∈ asked, t ∈ start ∧ t.haDevice = some device) :
    Invariant same device start asked (s.step norm same .next) := by
  rw [Session.step, TimerCancelRun.nextIntent]
  split
  next => exact h
  next hsent =>
    have hwaiting := TimerCancelRun.waiting_of_none hsent
    have horder := h.order
    rw [hwaiting, List.nil_append] at horder
    split
    next selector timer queue hpop =>
      obtain ⟨hsub, hpick⟩ := popQueue_some hpop
      have hmem : timer ∈ s.run.queue := hsub.subset List.mem_cons_self
      have hevery : timer ∈ s.run.every := h.mem_every hnodup (fun t ht => (hmine t ht).1)
        (List.mem_append_right _ hmem)
      have hdevice := (hmine timer (horder.subset (List.mem_append_right _ hmem))).2
      have heveryIds : (s.run.every.map (·.id)).Nodup := by
        rw [h.every]
        exact hids.sublist (List.filter_sublist.map _)
      refine ⟨h.here, h.timers, h.every, h.removed, h.tried, ?_, ?_, h.requests, h.total⟩
      · exact (List.Sublist.append_left hsub s.tried).trans horder
      · rintro intent ts ⟨⟩
        refine ⟨List.cons_ne_nil _ _, ?_⟩
        rw [h.here] at hpick
        rw [removes, findTimer_of_pick hrefl hfine heveryIds hevery hdevice hpick]
        rfl
    next queue hpop =>
      rw [popQueue_none hpop]
      refine ⟨h.here, h.timers, h.every, h.removed, h.tried, ?_, ?_, h.requests, h.total⟩
      · rw [List.append_nil]
        change (s.tried ++ s.run.waiting).Sublist asked
        rw [hwaiting, List.append_nil]
        exact (List.sublist_append_left s.tried s.run.queue).trans horder
      · exact h.sent

theorem Invariant.step (h : Invariant same device start asked s) (hrefl : ∀ a, same a a = true)
    (hfine : ∀ a b, same a b = true → norm a = norm b) (hids : (start.map (·.id)).Nodup)
    (hnodup : (asked.map (·.id)).Nodup)
    (hmine : ∀ t ∈ asked, t ∈ start ∧ t.haDevice = some device) (e : Event) :
    Invariant same device start asked (s.step norm same e) := by
  cases e with
  | next => exact h.next hrefl hfine hids hnodup hmine
  | refused => exact h.answer_nil
  | handled =>
    rw [Session.step]
    cases hsent : s.run.sent with
    | none => exact h.answer_nil
    | some p =>
      have hremoves := (h.sent p.1 p.2 hsent).2
      rw [Option.map_some, Option.getD_some, h.here, h.timers, hremoves]
      exact h.answer_sent hsent

end

/-! ### What a plan starts -/

section

variable {norm : List Char → ν} {same : List Char → List Char → Bool} {timers : SpeakerTimers}
  {request : Request} {run : TimerCancelRun}

theorem filter_id {l : List HaTimer} (hids : (l.map (·.id)).Nodup) {t : HaTimer} (ht : t ∈ l) :
    l.filter (fun x => x.id = t.id) = [t] := by
  have hsame : l.filter (fun x => x.id = t.id) = l.filter (· = t) := by
    refine List.filter_congr fun x hx => decide_eq_decide.mpr ⟨fun h => ?_, fun h => h ▸ rfl⟩
    exact List.inj_on_of_nodup_map hids hx ht h
  have hcount : l.count t = 1 := List.count_eq_one_of_mem (hids.of_map _) ht
  rw [hsame, List.filter_eq, hcount]
  rfl

theorem mine_nodup (hids : (timers.every.map (·.id)).Nodup) : (timers.mine.map (·.id)).Nodup :=
  hids.sublist (List.filter_sublist.map _)

theorem asked_sublist (timers : SpeakerTimers) (request : Request) :
    (request.asked timers).Sublist timers.every := List.filter_sublist.trans List.filter_sublist

theorem mem_asked {t : HaTimer} (h : t ∈ request.asked timers) :
    t ∈ timers.every ∧ t.haDevice = some timers.device := by
  obtain ⟨hevery, hdevice⟩ := List.mem_filter.mp (List.mem_filter.mp h).1
  exact ⟨hevery, of_decide_eq_true hdevice⟩

/-- A plan that is carried out, or stopped short, is for the timers asked for. -/
theorem plan_cases (norm : List Char → ν) (hids : (timers.every.map (·.id)).Nodup)
    (request : Request) :
    (∀ run, request.plan norm timers ≠ .cancel run) ∧
      (∀ timer count, request.plan norm timers ≠ .indistinct timer count) ∨
    (∃ timer, request.asked timers = [timer] ∧
      request.plan norm timers = timers.cancelOne norm timer) ∨
    request.plan norm timers = timers.cancelSet (request.asked timers) := by
  have hmine : ∀ c, (Request.cancel c).asked timers = timers.mine := fun c =>
    List.filter_eq_self.mpr fun _ _ => rfl
  cases request with
  | cancel c =>
    rw [hmine]
    simp only [Request.plan, SpeakerTimers.plan]
    split
    next => exact .inr (.inr rfl)
    next => exact .inl ⟨by simp, by simp⟩
    next one hone => exact .inr (.inl ⟨one, hone, rfl⟩)
    next => exact .inl ⟨by simp, by simp⟩
  | chosen c =>
    cases c with
    | one timer =>
      simp only [Request.plan, SpeakerTimers.planChosen]
      split
      next now hfind =>
        have hid : now.id = timer.id := by simpa using List.find?_some hfind
        refine .inr (.inl ⟨now, ?_, rfl⟩)
        have hfilter := filter_id (mine_nodup hids) (List.mem_of_find?_eq_some hfind)
        rw [hid] at hfilter
        exact hfilter
      next => exact .inl ⟨by simp, by simp⟩
    | all offered => exact .inr (.inr rfl)

/-- A run starts with every timer it is for untried. -/
theorem Invariant.start (hrefl : ∀ a, same a a = true)
    (hfine : ∀ a b, same a b = true → norm a = norm b)
    (hids : (timers.every.map (·.id)).Nodup) (h : request.plan norm timers = .cancel run) :
    Invariant same timers.device timers.every (request.asked timers)
      (Session.start run timers.every) := by
  have hkept : timers.every = timers.every.filter fun t =>
      ([] : List HaTimer).all fun done => done.id ≠ t.id := (List.filter_eq_self.mpr fun _ _ => rfl).symm
  obtain ⟨hcancel, -⟩ | ⟨timer, hasked, hplan⟩ | hplan := plan_cases norm hids request
  · exact absurd h (hcancel run)
  · rw [h, SpeakerTimers.cancelOne] at hplan
    obtain ⟨hevery, hdevice⟩ := mem_asked (hasked ▸ List.mem_singleton_self timer)
    split at hplan
    next selector hpick =>
      cases hplan
      refine ⟨rfl, rfl, hkept, rfl, List.Sublist.refl _, ?_, ?_, le_rfl, by rw [hasked]; rfl⟩
      · rw [hasked]
        exact List.Sublist.refl _
      · rintro intent ts ⟨⟩
        refine ⟨List.cons_ne_nil _ _, ?_⟩
        exact congrArg Option.toList (findTimer_of_pick hrefl hfine hids hevery hdevice hpick)
    next => cases hplan
  · rw [h, SpeakerTimers.cancelSet] at hplan
    split_ifs at hplan with hnil hlength
    · cases hplan
      refine ⟨rfl, rfl, hkept, rfl, List.Sublist.refl _, ?_, ?_, le_rfl, rfl⟩
      · change (request.asked timers ++ []).Sublist _
        rw [List.append_nil]
      · rintro intent ts ⟨⟩
        exact ⟨hnil, ((asked_sublist timers request).eq_of_length hlength).symm⟩
    · cases hplan
      exact ⟨rfl, rfl, hkept, rfl, List.Sublist.refl _, List.Sublist.refl _, nofun, le_rfl, rfl⟩

end

/-! ### Runs -/

/-- What the observer of a cancel sees. -/
structure Conforms (norm : List Char → ν) (same : List Char → List Char → Bool) (device : String)
    (start asked : List HaTimer) (s : Session) : Prop where
  /-- The request removes exactly the timers recorded for it, and the cancel was for these. -/
  request : ∀ intent ts, s.run.sent = some (intent, ts) →
    removes same device intent s.timers = ts ∧ ∀ t ∈ ts, t ∈ asked
  cancelled : s.run.cancelled = s.removed
  distinct : (s.removed.map (·.id)).Nodup
  left : s.timers = start.filter fun t => s.removed.all fun done => done.id ≠ t.id
  once : ((s.tried ++ s.run.waiting).map (·.id)).Nodup
  total : s.run.total = asked.length
  bound : (s.requests + if s.run.sent.isSome then 1 else 0) ≤ s.run.total
  ends : s.requests = s.run.total → (s.run.nextIntent norm).1 = none
  /-- A timer is skipped only when no request finds it. -/
  skipped : (∀ a b, same a b = decide (norm a = norm b)) → ∀ t ∈ s.run.skips norm, ∀ selector,
    findTimer same device selector s.timers ≠ some t

section

variable {norm : List Char → ν} {same : List Char → List Char → Bool} {device : String}
  {start asked : List HaTimer} {s : Session}

/-- A request is for a timer not counted yet. -/
theorem Invariant.bound (h : Invariant same device start asked s) :
    (s.requests + if s.run.sent.isSome then 1 else 0) ≤ s.run.total := by
  have horder := h.order.length_le
  rw [List.length_append, List.length_append] at horder
  have hrequests := h.requests
  rw [h.total]
  cases hsent : s.run.sent with
  | none =>
    rw [Option.isSome_none, if_neg Bool.false_ne_true]
    omega
  | some p =>
    have hpos := List.length_pos_iff.mpr (h.sent p.1 p.2 hsent).1
    rw [TimerCancelRun.waiting_of_some hsent] at horder
    rw [Option.isSome_some, if_pos rfl]
    omega

theorem TimerCancelRun.sent_of_nextIntent {run : TimerCancelRun}
    (h : (run.nextIntent norm).1 ≠ none) : (run.nextIntent norm).2.sent.isSome = true := by
  rw [nextIntent] at h ⊢
  split at h
  next p hsent =>
    rw [hsent]
    rfl
  next =>
    split at h
    next => rfl
    next => exact absurd rfl h

/-- A skipped timer is one that cannot be picked. -/
theorem TimerCancelRun.pick_of_skips {run : TimerCancelRun} {t : HaTimer} (h : t ∈ run.skips norm) :
    t ∈ run.queue ∧ pick norm t run.every run.device = none := by
  rw [skips, List.mem_filter, decide_eq_true_eq, List.mem_append, not_or] at h
  obtain ⟨hqueue, hwaiting, hrest⟩ := h
  refine ⟨hqueue, ?_⟩
  cases hsent : run.sent with
  | some p =>
    rw [nextIntent, hsent] at hrest
    exact absurd hqueue hrest
  | none =>
    cases hpop : popQueue norm run.every run.device run.queue with
    | mk first rest =>
      cases first with
      | none =>
        simp only [nextIntent, hsent, hpop] at hrest
        exact pick_of_popQueue hqueue (by simp [hpop]) (by rwa [hpop])
      | some p =>
        simp only [nextIntent, hsent, hpop] at hrest hwaiting
        refine pick_of_popQueue hqueue ?_ (by rwa [hpop])
        rw [hpop]
        rintro _ ⟨⟩ rfl
        exact hwaiting (List.mem_singleton_self _)

theorem Invariant.conforms (h : Invariant same device start asked s) (hrefl : ∀ a, same a a = true)
    (hfine : ∀ a b, same a b = true → norm a = norm b) (hids : (start.map (·.id)).Nodup)
    (hnodup : (asked.map (·.id)).Nodup)
    (hmine : ∀ t ∈ asked, t ∈ start ∧ t.haDevice = some device) :
    Conforms norm same device start asked s where
  request intent ts hsent := by
    rw [h.timers]
    refine ⟨(h.sent intent ts hsent).2, fun t ht => h.order.subset ?_⟩
    rw [TimerCancelRun.waiting_of_some hsent]
    exact List.mem_append_right _ (List.mem_append_left _ ht)
  cancelled := h.removed.symm
  distinct := by
    rw [h.removed]
    exact hnodup.sublist ((h.tried.trans ((List.sublist_append_left _ _).trans h.order)).map _)
  left := by rw [h.timers, h.removed, h.every]
  once := by
    have horder := h.order
    rw [← List.append_assoc] at horder
    exact hnodup.sublist (((List.sublist_append_left _ _).trans horder).map _)
  total := h.total
  bound := h.bound
  ends hlast := by
    by_contra hnext
    have hinvariant := h.next hrefl hfine hids hnodup hmine
    have hbound : (s.requests + if (s.run.nextIntent norm).2.sent.isSome then 1 else 0) ≤
        (s.run.nextIntent norm).2.total := hinvariant.bound
    have htotal : (s.run.nextIntent norm).2.total = asked.length := hinvariant.total
    rw [if_pos (TimerCancelRun.sent_of_nextIntent hnext), htotal, hlast, h.total] at hbound
    omega
  skipped hsame t ht selector := by
    obtain ⟨hqueue, hpick⟩ := TimerCancelRun.pick_of_skips ht
    have hevery : t ∈ s.run.every := h.mem_every hnodup (fun t ht => (hmine t ht).1)
      (List.mem_append_right _ hqueue)
    have hmem : t ∈ asked := h.order.subset (List.mem_append_right _ (List.mem_append_right _ hqueue))
    have heveryIds : (s.run.every.map (·.id)).Nodup := by
      rw [h.every]
      exact hids.sublist (List.filter_sublist.map _)
    have hfunction : same = normalized norm := funext fun a => funext fun b => hsame a b
    rw [h.here] at hpick
    rw [h.timers, hfunction]
    exact findTimer_of_not_pick heveryIds hevery (hmine t hmem).2 hpick selector

end

/-- Every request removes exactly the timers recorded for it, all of them asked for; what is reported
cancelled is what was removed; no timer is tried twice; the requests end. Where names are one in Home
Assistant exactly when they are one here, no timer is passed over that a request could cancel. -/
theorem cancels_only_asked {norm : List Char → ν} {same : List Char → List Char → Bool}
    (hrefl : ∀ a, same a a = true) (hfine : ∀ a b, same a b = true → norm a = norm b)
    {timers : SpeakerTimers} (hids : (timers.every.map (·.id)).Nodup) (request : Request) :
    (∀ run, request.plan norm timers = .cancel run → ∀ events : List Event,
      Conforms norm same timers.device timers.every (request.asked timers)
        (events.foldl (Session.step norm same) (Session.start run timers.every))) ∧
    ∀ timer count, request.plan norm timers = .indistinct timer count →
      timer ∈ request.asked timers ∧ ((∀ a b, same a b = decide (norm a = norm b)) → ∀ selector,
        findTimer same timers.device selector timers.every ≠ some timer) := by
  have hnodup : ((request.asked timers).map (·.id)).Nodup :=
    hids.sublist ((asked_sublist timers request).map _)
  have hmine : ∀ t ∈ request.asked timers, t ∈ timers.every ∧ t.haDevice = some timers.device :=
    fun t ht => mem_asked ht
  constructor
  · intro run hplan events
    have hinvariant : ∀ s, Invariant same timers.device timers.every (request.asked timers) s →
        Invariant same timers.device timers.every (request.asked timers)
          (events.foldl (Session.step norm same) s) := by
      induction events with
      | nil => exact fun s h => h
      | cons e events ih => exact fun s h => ih _ (h.step hrefl hfine hids hnodup hmine e)
    exact (hinvariant _ (.start hrefl hfine hids hplan)).conforms hrefl hfine hids hnodup hmine
  · intro timer count hplan
    obtain ⟨-, hindistinct⟩ | ⟨timer', hasked, hone⟩ | hset := plan_cases norm hids request
    · exact absurd hplan (hindistinct timer count)
    · rw [hplan, SpeakerTimers.cancelOne] at hone
      split at hone
      next => cases hone
      next hpick =>
        cases hone
        have hmem : timer ∈ request.asked timers := hasked ▸ List.mem_singleton_self timer
        refine ⟨hmem, fun hsame selector => ?_⟩
        have hfunction : same = normalized norm := funext fun a => funext fun b => hsame a b
        rw [hfunction]
        exact findTimer_of_not_pick hids (hmine timer hmem).1 (hmine timer hmem).2 hpick selector
    · rw [hplan, SpeakerTimers.cancelSet] at hset
      split_ifs at hset

/-! ### Names of lower case -/

/-- Names that are one but for case. -/
def sameLetters (a b : List Char) : Bool := a.map Char.toLower = b.map Char.toLower

theorem sameLetters_self (a : List Char) : sameLetters a a = true := decide_eq_true rfl

theorem normalize_of_sameLetters (a b : List Char) (h : sameLetters a b = true) :
    Grammar.normalize Grammar.ascii a = Grammar.normalize Grammar.ascii b := by
  have hlower : ∀ t : List Char, t.flatMap Grammar.ascii.toLowercase = t.map Char.toLower := fun t =>
    List.map_eq_flatMap.symm
  rw [Grammar.normalize, Grammar.normalize, Grammar.words, Grammar.words, Grammar.prepare,
    Grammar.prepare, hlower, hlower, of_decide_eq_true h]

/-- A timer of some minutes. -/
def minutes (id : String) (name : List Char) (n : UInt32) (device : String) : HaTimer where
  id := id
  name := some name
  haDevice := some device
  startHours := 0
  startMinutes := n
  startSeconds := 0

theorem cancels_only_asked_tea :
    let tea := minutes "c" "Tea".toList 3 "kitchen"
    let every := [tea, minutes "o" "tea".toList 5 "office"]
    Conforms (Grammar.normalize Grammar.ascii) sameLetters "kitchen" every [tea]
      ([Event.next, Event.handled].foldl
        (Session.step (Grammar.normalize Grammar.ascii) sameLetters) (Session.start
          { every := every, device := "kitchen", queue := [tea], sent := none, cancelled := [],
            total := 1 } every)) :=
  (@cancels_only_asked _ _ (Grammar.normalize Grammar.ascii) sameLetters sameLetters_self
    normalize_of_sameLetters
    ⟨[minutes "c" "Tea".toList 3 "kitchen", minutes "o" "tea".toList 5 "office"], "kitchen"⟩
    (by decide) (.cancel .all)).1 _ rfl _

/-- Two timers of a length whose names are one here cannot be told apart. -/
theorem plan_twins {norm : List Char → ν} {x y : List Char} (h : norm x = norm y) (n : UInt32)
    (device : String) :
    (Request.chosen (.one (minutes "a" x n device))).plan norm
        ⟨[minutes "a" x n device, minutes "b" y n device], device⟩ =
      .indistinct (minutes "a" x n device) 2 := by
  simp [Request.plan, SpeakerTimers.planChosen, SpeakerTimers.mine, SpeakerTimers.cancelOne, pick,
    Narrowing.narrow, sameName, startUnits, timerSeconds, minutes, h]

/-- Names that Home Assistant tells apart are one here where they are normalized to one. -/
theorem names_written_apart :
    let timers : SpeakerTimers :=
      ⟨[minutes "a" "mac & cheese".toList 10 "kitchen",
        minutes "b" "mac and cheese".toList 10 "kitchen"], "kitchen"⟩
    (∀ a b, sameLetters a b = true →
        Grammar.normalize Grammar.ascii a = Grammar.normalize Grammar.ascii b) ∧
      (timers.every.map (·.id)).Nodup ∧
      (Request.chosen (.one (minutes "a" "mac & cheese".toList 10 "kitchen"))).plan
        (Grammar.normalize Grammar.ascii) timers =
          .indistinct (minutes "a" "mac & cheese".toList 10 "kitchen") 2 ∧
      findTimer sameLetters "kitchen" (slotsOf (minutes "a" "mac & cheese".toList 10 "kitchen"))
        timers.every = some (minutes "a" "mac & cheese".toList 10 "kitchen") := by
  have hname : Grammar.normalize Grammar.ascii "mac & cheese".toList =
      Grammar.normalize Grammar.ascii "mac and cheese".toList := by
    rw [@Grammar.normalize_of_plain _ _ (["mac", "and", "cheese"].map String.toList) (by decide)
        (by decide),
      @Grammar.normalize_of_plain _ "mac and cheese".toList
        (["mac", "and", "cheese"].map String.toList) (by decide) (by decide)]
  exact ⟨normalize_of_sameLetters, by decide, plan_twins hname 10 "kitchen", by decide⟩

end EchoMuse.Timers
