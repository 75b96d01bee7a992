import EchoMuse.Alarms.Knowledge

/-!
# The Outcomes of Alarm Operations

What holds of every run of the applier, whatever is answered, lost, shown late or interrupted. A
snooze deletes its parent only after its child was shown, and an operation is ended once. That an
operation creates at most one event, and that its outcome is true, holds while its views are up to
date: the applier accepts any view of the present connection, and what a view does not list it
takes for missing.

## Main results

* `Inv.step`: the invariant of the applier, input by input;
* `at_most_one_event`: operations, their events and their results over a run;
* `outcomes_true`: what a stored result says of the calendar.
-/

namespace EchoMuse.Alarms

open Alerts (Text Uuid)
open Programs Monitors

/-! ### What is recorded -/

/-- The entries that may follow a log: a snooze deletes its parent after a view showed its child,
and an operation is ended once. -/
def Entry.May (before : List Entry) : Entry → Prop
  | .sent (.op row) (.delete _) => row.action = some .snooze → .showed row.opId ∈ before
  | .stored row _ _ => ∀ r settlement calendar, .stored r settlement calendar ∈ before →
      r.opId ≠ row.opId
  | _ => True

/-- A write that created an event of the operation, or still may. -/
def Sent.Counts (op : Uuid) (x : Sent) : Bool :=
  x.creates = some op ∧ x.tookEffect ≠ some false

/-- What a stored result says is true of the calendar. -/
structure Truth (home : Home) (row : OpRow) (settlement : Settlement) (calendar : List Event) :
    Prop where
  refused : row.action = some .create → Step.IsRejected (.done settlement) →
    ¬ Carried calendar row.opId
  removed : row.Removes → Step.IsApplied (.done settlement) → ¬ Occurs home calendar row.Handles

/-! ### The invariant -/

/-- The restore guard's program creates nothing and writes no step. -/
def guardMonitor : Monitor Ask.Answer Unit where
  may _ e := (∀ event, e ≠ .createEvent event) ∧ ∀ step, e ≠ .advance step
  next _ _ _ := ()

/-- What the program of an operation ends with. -/
def Ended.Fits (row : OpRow) (s : Known) : Ended → Prop
  | .attempt ended step => Ends row s (ended, step)
  | .guarded => True

section

variable (home : Home) (unmissed informed : Prop)

/-- A program that has sent nothing waits for nothing. -/
theorem awaits_none (w : World) (p : Asks Ended) : w.Awaits p none := by
  intro i hi
  cases hi

/-- A task stands where its program is followed by knowledge that holds. -/
inductive Works (w : World) (t : Task) : Prop
  | op {row : OpRow} {p : Asks Ended} {own : Option ℕ} {forced : Bool} {s : Known}
      (job : t.job = .op row) (stage : t.stage = .asking p own forced)
      (meets : p.Meets (Known.monitor row) (Ended.Fits row) s)
      (rel : Rel home unmissed informed w own row s) (asked : s.Asked t row)
      (awaits : w.Awaits p own)
  | settling {row : OpRow} {settlement : Settlement} {s : Known} (job : t.job = .op row)
      (stage : t.stage = .settling settlement) (claims : Claims row s (.done settlement))
      (rel : Rel home unmissed informed w none row s)
  | guard {target : EventTarget} {p : Asks Ended} {own : Option ℕ} {forced : Bool}
      (job : t.job = .guardDelete target) (stage : t.stage = .asking p own forced)
      (meets : p.Meets guardMonitor (fun _ ended => ended = .guarded) ()) (awaits : w.Awaits p own)

/-- The rows the applier has, in its queue or in hand. -/
def World.InHand (w : World) (row : OpRow) : Prop :=
  .op row ∈ w.jobs ∨ ∃ t, w.task = some t ∧ t.job = .op row

/-- The journal and the jobs made of it. -/
structure JournalInv (w : World) : Prop where
  ids : (w.journal.map (·.opId)).Nodup
  formed : ∀ r ∈ w.journal, r.Formed
  journaled : ∀ row, w.InHand row →
    row.Formed ∧ ∃ r ∈ w.journal, r.opId = row.opId ∧ r.action = row.action
  steps : ∀ row, row ∈ w.journal ∨ .op row ∈ w.jobs → row.action = some .snooze → 0 < row.step →
    .showed row.opId ∈ w.log
  stored : ∀ row settlement calendar, .stored row settlement calendar ∈ w.log →
    row.opId ∈ w.journal.map (·.opId) ∧ ∀ r ∈ w.journal, r.opId = row.opId → r.state ≠ .pending

/-- The log, and what the applier was shown. -/
structure LogInv (w : World) : Prop where
  obeys : Obeys Entry.May w.log
  truth : informed → ∀ row settlement calendar, .stored row settlement calendar ∈ w.log →
    Truth home row settlement calendar
  made : ∀ row settlement calendar, .stored row settlement calendar ∈ w.log →
    row.action = some .create → Step.IsApplied (.done settlement) →
    ∃ c ∈ w.past, Carried c row.opId
  shown : ∀ op, .showed op ∈ w.log → ∃ calendar ∈ w.past, Carried calendar op
  view : ∀ v, w.view = some v → ∃ calendar ∈ w.past, ∃ start stop,
    v.occurrences = occurrences home (itemsIn home calendar start stop)

/-- The writes sent. -/
structure SentInv (w : World) : Prop where
  single : unmissed → ∀ op, w.sent.countP (Sent.Counts op) ≤ 1
  dead : w.Dead home

/-- What holds of every world reached. -/
structure Inv (w : World) : Prop where
  journal : JournalInv w
  log : LogInv home informed w
  sent : SentInv home unmissed w
  works : ∀ t, w.task = some t → Works home unmissed informed w t

end

variable {home : Home} {unmissed informed : Prop} {w w' : World}

theorem inv_start : Inv home unmissed informed {} where
  journal := by
    refine ⟨List.nodup_nil, fun r hr => absurd hr List.not_mem_nil, ?_, ?_,
      fun _ _ _ h => absurd h List.not_mem_nil⟩
    · rintro row (h | ⟨t, h, -⟩) <;> cases h
    · rintro row (h | h) <;> cases h
  log := by
    refine ⟨obeys_nil _, fun _ _ _ _ h => absurd h List.not_mem_nil,
      fun _ _ _ h => absurd h List.not_mem_nil, fun _ h => absurd h List.not_mem_nil,
      fun v hv => ?_⟩
    cases hv
  sent := ⟨fun _ op => Nat.zero_le _, fun x hx => absurd hx List.not_mem_nil⟩
  works := fun t ht => by cases ht

/-- The program of an operation is followed by knowledge that holds. -/
theorem Works.asking {t : Task} (h : Works home unmissed informed w t) {row : OpRow}
    {p : Asks Ended} {own : Option ℕ} {forced : Bool} (hjob : t.job = .op row)
    (hstage : t.stage = .asking p own forced) :
    ∃ s, p.Meets (Known.monitor row) (Ended.Fits row) s ∧
      Rel home unmissed informed w own row s ∧ s.Asked t row ∧ w.Awaits p own := by
  cases h with
  | op job stage meets rel asked awaits =>
      cases job.symm.trans hjob
      cases stage.symm.trans hstage
      exact ⟨_, meets, rel, asked, awaits⟩
  | settling _ stage => cases stage.symm.trans hstage
  | guard job => cases job.symm.trans hjob

theorem Works.guarding {t : Task} (h : Works home unmissed informed w t) {target : EventTarget}
    {p : Asks Ended} {own : Option ℕ} {forced : Bool} (hjob : t.job = .guardDelete target)
    (hstage : t.stage = .asking p own forced) :
    p.Meets guardMonitor (fun _ ended => ended = .guarded) () ∧ w.Awaits p own := by
  cases h with
  | op job => cases job.symm.trans hjob
  | settling _ stage => cases stage.symm.trans hstage
  | guard job stage meets awaits =>
      cases stage.symm.trans hstage
      exact ⟨meets, awaits⟩

theorem Works.awaits {t : Task} (h : Works home unmissed informed w t) {p : Asks Ended}
    {own : Option ℕ} {forced : Bool} (hstage : t.stage = .asking p own forced) :
    w.Awaits p own := by
  rcases hjob : t.job with row | target
  · obtain ⟨s, -, -, -, hawaits⟩ := h.asking hjob hstage
    exact hawaits
  · exact (h.guarding hjob hstage).2

theorem Works.congr {t : Task} (h : Works home unmissed informed w t) (hsent : w'.sent = w.sent)
    (hcal : w'.calendar = w.calendar) (hlog : ∀ e ∈ w.log, e ∈ w'.log) :
    Works home unmissed informed w' t := by
  have hawaits : ∀ p own, w.Awaits p own → w'.Awaits p own := fun p own ha i hi => by
    rw [hsent]
    exact ha i hi
  cases h with
  | op job stage meets rel asked awaits =>
      exact .op job stage meets (rel.congr hsent hcal hlog) asked (hawaits _ _ awaits)
  | settling job stage claims rel =>
      exact .settling job stage claims (rel.congr hsent hcal hlog)
  | guard job stage meets awaits => exact .guard job stage meets (hawaits _ _ awaits)

theorem SentInv.congr (h : SentInv home unmissed w) (hsent : w'.sent = w.sent)
    (hcal : w'.calendar = w.calendar) : SentInv home unmissed w' := by
  obtain ⟨hsingle, hdead⟩ := h
  simp only [World.Dead, ← hsent, ← hcal] at hsingle hdead
  exact ⟨hsingle, hdead⟩

/-- Nothing changes with the connection and the views. -/
theorem Inv.view (h : Inv home unmissed informed w) (hjournal : w'.journal = w.journal)
    (hjobs : w'.jobs = w.jobs) (htask : w'.task = w.task) (hsent : w'.sent = w.sent)
    (hcal : w'.calendar = w.calendar) (hlog : w'.log = w.log) (hpast : w'.past = w.past)
    (hview : ∀ v, w'.view = some v → ∃ calendar ∈ w.past, ∃ start stop,
      v.occurrences = occurrences home (itemsIn home calendar start stop)) :
    Inv home unmissed informed w' := by
  obtain ⟨⟨hids, hformed, hjournaled, hsteps, hstored⟩, ⟨hobeys, htruth, hmade, hshown, -⟩, hsentInv,
    hworks⟩ := h
  simp only [World.InHand, ← hjournal, ← hjobs, ← htask, ← hlog, ← hpast]
    at hids hformed hjournaled hsteps hstored hobeys htruth hmade hshown hview hworks
  refine ⟨⟨hids, hformed, hjournaled, hsteps, hstored⟩, ⟨hobeys, htruth, hmade, hshown, hview⟩,
    hsentInv.congr hsent hcal, fun t ht => (hworks t ht).congr hsent hcal fun e he => ?_⟩
  rwa [hlog]

/-! ### Jobs -/

/-- The program of the restore guard deletes one target. -/
theorem guard_meets (target : EventTarget) (step : ℕ) :
    ((ApplierJob.guardDelete target).program step).Meets guardMonitor
      (fun _ ended => ended = .guarded) () :=
  ⟨⟨nofun, nofun⟩, fun _ => ⟨⟨nofun, nofun⟩, fun _ => rfl⟩⟩

/-- An attempt started at a step that a shown child allows. -/
theorem works_attempt {t : Task} {row : OpRow} (hjob : t.job = .op row)
    (hstage : t.stage = .asking ((ApplierJob.op row).program t.step) none false)
    (hanswered : t.answered = 0) (hformed : row.Formed)
    (hstep : row.action = some .snooze → 0 < t.step → .showed row.opId ∈ w.log) :
    Works home unmissed informed w t := by
  have hmeets : (attempt row t.step).Meets (Known.monitor row) (Ends row)
      (Known.start row t.step) :=
    attempt_meets hformed t.step (fun hsn h0 => ⟨hsn, h0⟩) id
  refine .op hjob hstage ?_ (Rel.start hstep) (.start row hanswered) (awaits_none w _)
  rw [ApplierJob.program, Prog.bind_eq, Prog.meets_andThen]
  exact hmeets.mono fun t r hr => hr

/-- The applier takes the next job. -/
theorem Inv.begin (h : Inv home unmissed informed w) {job : ApplierJob} {jobs : List ApplierJob}
    (hjobs : w.jobs = job :: jobs) :
    Inv home unmissed informed { w with jobs, task := some job.begin } := by
  obtain ⟨hj, hl, hs, hw⟩ := h
  have hmem : ∀ j, j ∈ job :: jobs → j ∈ w.jobs := fun j hj => hjobs ▸ hj
  refine ⟨⟨hj.ids, hj.formed, fun row hrow => hj.journaled row ?_, fun row hrow => hj.steps row ?_,
    hj.stored⟩, ⟨hl.obeys, hl.truth, hl.made, hl.shown, hl.view⟩, hs.congr rfl rfl, fun t ht => ?_⟩
  · rcases hrow with hrow | ⟨t, ht, htjob⟩
    · exact .inl (hmem _ (List.mem_cons_of_mem _ hrow))
    · obtain rfl := Option.some.inj ht
      exact .inl (hmem _ (by rw [← htjob]; exact List.mem_cons_self))
  · exact hrow.imp_right fun hrow => hmem _ (List.mem_cons_of_mem _ hrow)
  · obtain rfl := Option.some.inj ht
    cases job with
    | op row =>
        have hin := hmem (.op row) List.mem_cons_self
        exact works_attempt rfl rfl rfl (hj.journaled row (.inl hin)).1
          fun hsn h0 => hj.steps row (.inr hin) hsn h0
    | guardDelete target => exact .guard rfl rfl (guard_meets target 0) (awaits_none _ _)

/-- A task goes on in the same job, with nothing else changed. -/
theorem Inv.task (h : Inv home unmissed informed w) {t t' : Task} (ht : w.task = some t)
    (hjob : t'.job = t.job) (hworks : Works home unmissed informed w t') :
    Inv home unmissed informed { w with task := some t' } := by
  obtain ⟨hj, hl, hs, -⟩ := h
  refine ⟨⟨hj.ids, hj.formed, fun row hrow => hj.journaled row ?_, hj.steps, hj.stored⟩,
    ⟨hl.obeys, hl.truth, hl.made, hl.shown, hl.view⟩, hs.congr rfl rfl, fun u hu => ?_⟩
  · rcases hrow with hrow | ⟨u, hu, hujob⟩
    · exact .inl hrow
    · obtain rfl := Option.some.inj hu
      exact .inr ⟨t, ht, hjob.symm.trans hujob⟩
  · obtain rfl := Option.some.inj hu
    exact hworks.congr rfl rfl fun e he => he

/-- A task ends. -/
theorem Inv.drop (h : Inv home unmissed informed w) :
    Inv home unmissed informed { w with task := none } := by
  obtain ⟨hj, hl, hs, -⟩ := h
  refine ⟨⟨hj.ids, hj.formed, fun row hrow => hj.journaled row ?_, hj.steps, hj.stored⟩,
    ⟨hl.obeys, hl.truth, hl.made, hl.shown, hl.view⟩, hs.congr rfl rfl, fun t ht => nomatch ht⟩
  rcases hrow with hrow | ⟨u, hu, -⟩
  · exact .inl hrow
  · cases hu

/-- The program of a task ends: its claim is kept, or the next attempt starts. -/
theorem Inv.finish (h : Inv home unmissed informed w) {t : Task} (ht : w.task = some t)
    {ended : Ended} {own : Option ℕ} {forced : Bool}
    (hstage : t.stage = .asking (.ret ended) own forced) :
    Inv home unmissed informed (w.finish t ended) := by
  have hworks := h.works t ht
  rcases hjob : t.job with row | target
  · obtain ⟨s, meets, rel, -, awaits⟩ := hworks.asking hjob hstage
    have hown : own = none := by
      rcases own with _ | i
      · rfl
      obtain ⟨x, -, ⟨_, _, hp, -⟩ | ⟨_, _, hp, -⟩⟩ := awaits i rfl <;> cases hp
    subst hown
    have hfits : Ended.Fits row s ended := meets
    rcases ended with ⟨ended, n⟩ | -
    · obtain ⟨hclaims, hshown⟩ := hfits
      rcases ended with settlement | _ | _
      · exact h.task ht rfl (.settling hjob rfl hclaims rel)
      · refine h.task ht rfl (works_attempt hjob ?_ rfl (h.journal.journaled row ?_).1
          fun hsn h0 => rel.shown (hshown hsn h0))
        · rw [hjob]
        · exact .inr ⟨_, ht, hjob⟩
      · exact h.drop
    · exact h.drop
  · obtain rfl : ended = .guarded := (hworks.guarding hjob hstage).1
    exact h.drop

/-! ### The journal -/

/-- A change of rows that keeps what they are about, and never makes one pending again. -/
structure Keeps (f : OpRow → OpRow) : Prop where
  opId : ∀ r, (f r).opId = r.opId
  action : ∀ r, (f r).action = r.action
  plan : ∀ r, (f r).plan = r.plan
  state : ∀ r, (f r).state = .pending → r.state = .pending

theorem keeps_advance (op : Uuid) (step : ℕ) : Keeps fun row =>
    if row.opId = op ∧ row.state = .pending ∧ row.step < step then { row with step } else row := by
  constructor <;> intro r <;> split_ifs <;> simp

theorem keeps_settle (op : Uuid) (settlement : Settlement) : Keeps fun row =>
    if row.opId = op ∧ row.state = .pending then row.settle settlement else row := by
  constructor <;> intro r <;> split_ifs with h <;> cases settlement <;>
    simp [OpRow.settle, h]

theorem keeps_id : Keeps id := by
  constructor <;> intro r <;> simp

/-- The journal's invariant survives such a change of its rows. -/
theorem JournalInv.map (h : JournalInv w) {f : OpRow → OpRow} (hf : Keeps f)
    (hjournal : w'.journal = w.journal.map f) (hjobs : w'.jobs = w.jobs)
    (hhand : ∀ row, w'.InHand row → w.InHand row) (hlog : ∀ e ∈ w.log, e ∈ w'.log)
    (hsteps : ∀ r ∈ w.journal, r.action = some .snooze → 0 < (f r).step →
      .showed r.opId ∈ w'.log)
    (hstored : ∀ row settlement calendar, .stored row settlement calendar ∈ w'.log →
      .stored row settlement calendar ∈ w.log ∨ row.opId ∈ w.journal.map (·.opId) ∧
        ∀ r ∈ w.journal, r.opId = row.opId → (f r).state ≠ .pending) : JournalInv w' := by
  have hids : w'.journal.map (·.opId) = w.journal.map (·.opId) := by
    rw [hjournal, List.map_map]
    exact List.map_congr_left fun r _ => hf.opId r
  have hmem : ∀ r ∈ w'.journal, ∃ r' ∈ w.journal, f r' = r := fun r hr => by
    rw [hjournal] at hr
    exact List.mem_map.mp hr
  refine ⟨hids ▸ h.ids, fun r hr => ?_, fun row hrow => ?_, fun row hrow hsn h0 => ?_,
    fun row settlement calendar hrow => ?_⟩
  · obtain ⟨r', hr', rfl⟩ := hmem r hr
    intro plan hplan
    rw [hf.plan] at hplan
    rw [hf.opId]
    exact h.formed r' hr' plan hplan
  · obtain ⟨hform, r, hr, hop, hact⟩ := h.journaled row (hhand row hrow)
    refine ⟨hform, f r, ?_, (hf.opId r).trans hop, (hf.action r).trans hact⟩
    rw [hjournal]
    exact List.mem_map_of_mem hr
  · rcases hrow with hrow | hrow
    · obtain ⟨r, hr, rfl⟩ := hmem row hrow
      rw [hf.opId]
      exact hsteps r hr ((hf.action r).symm.trans hsn) h0
    · exact hlog _ (h.steps row (.inr (hjobs ▸ hrow)) hsn h0)
  · have hkey : row.opId ∈ w.journal.map (·.opId) ∧
        ∀ r ∈ w.journal, r.opId = row.opId → (f r).state ≠ .pending := by
      rcases hstored row settlement calendar hrow with hold | hnew
      · obtain ⟨hin, hdone⟩ := h.stored row settlement calendar hold
        exact ⟨hin, fun r hr hop hp => hdone r hr hop (hf.state r hp)⟩
      · exact hnew
    refine ⟨hids ▸ hkey.1, fun r hr hop => ?_⟩
    obtain ⟨r', hr', rfl⟩ := hmem r hr
    exact hkey.2 r' hr' ((hf.opId r').symm.trans hop)

/-! ### Answers -/

/-- The entry of a view shows an event that was on the calendar. -/
theorem LogInv.note (h : LogInv home informed w) {t : Task} {e : Ask} {op : Uuid}
    (hop : .showed op ∈ w.note t e) : ∃ calendar ∈ w.past, Carried calendar op := by
  unfold World.note at hop
  split at hop
  next row v _ hview =>
    split_ifs at hop with hshows
    · obtain rfl : op = row.opId := by simpa using hop
      have hv : w.view = some v := by
        cases e with
        | freshView =>
            have hfresh : w.fresh = some v := hview
            unfold World.fresh at hfresh
            split at hfresh
            · exact (Option.filter_eq_some_iff.mp hfresh).1
            · cases hfresh
        | confirm after holds => exact (seen_holds hview).1
        | _ => cases hview
      obtain ⟨calendar, hpast, start, stop, hocc⟩ := h.view v hv
      obtain ⟨o, ho, hcreating⟩ := (v.createdBy_isSome row.opId).mp hshows
      rw [hocc] at ho
      exact ⟨calendar, hpast, carried_of_occurs home ho hcreating⟩
    · cases hop
  next => cases hop

/-- Showing a task a view keeps the log in order. -/
theorem LogInv.take (h : LogInv home informed w) (t : Task) (input : Input) (e : Ask)
    (p : Asks Ended) : LogInv home informed (w.take t input e p) := by
  have hold : ∀ row settlement calendar,
      .stored row settlement calendar ∈ (w.take t input e p).log →
      .stored row settlement calendar ∈ w.log := by
    intro row settlement calendar hrow
    rcases List.mem_append.mp hrow with hrow | hrow
    · exact hrow
    · rcases note_eq (w := w) t e with hnote | ⟨row', -, hnote⟩ <;> simp [hnote] at hrow
  refine ⟨?_, fun hi row settlement calendar hrow => h.truth hi _ _ _ (hold _ _ _ hrow),
    fun row settlement calendar hrow => h.made _ _ _ (hold _ _ _ hrow), fun op hop => ?_, h.view⟩
  · rcases note_eq (w := w) t e with hnote | ⟨row, -, hnote⟩
    · simpa [World.take, hnote] using h.obeys
    · simp only [World.take, hnote]
      exact obeys_concat.mpr ⟨h.obeys, trivial⟩
  · rcases List.mem_append.mp hop with hop | hop
    · exact h.shown op hop
    · exact h.note hop

/-- What the answer to an ask writes into the journal. -/
theorem journalAfter_eq (t : Task) (input : Input) (e : Ask) :
    w.journalAfter t input e = w.journal ∨ ∃ row step, t.job = .op row ∧ e = .advance step ∧
      w.journalAfter t input e = advanceStep row.opId step w.journal := by
  unfold World.journalAfter
  split
  next step =>
    split
    next row outcome hjob =>
      split_ifs
      · exact .inr ⟨row, step, hjob, rfl, rfl⟩
      · exact .inl rfl
    next => exact .inl rfl
  next => exact .inl rfl

/-- The invariant survives the answer to an ask. -/
theorem Inv.take (h : Inv home unmissed informed w) {t : Task} {e : Ask} {k : e.Answer → Asks Ended}
    {own : Option ℕ} {forced : Bool} {input : Input} (ht : w.task = some t)
    (hstage : t.stage = .asking (.ask e k) own forced)
    (hrule : w.Rule home unmissed informed input) {a : e.Answer}
    (htold : w.told home own forced input e = some a) :
    Inv home unmissed informed (w.take t input e (k a)) := by
  have hworks := h.works t ht
  have hhand : ∀ row, (w.take t input e (k a)).InHand row → w.InHand row := by
    rintro row (hrow | ⟨u, hu, hujob⟩)
    · exact .inl hrow
    · obtain rfl := Option.some.inj hu
      exact .inr ⟨t, ht, hujob⟩
  have hlog : ∀ x ∈ w.log, x ∈ (w.take t input e (k a)).log :=
    fun x hx => List.mem_append_left _ hx
  have hstored : ∀ row settlement calendar,
      .stored row settlement calendar ∈ (w.take t input e (k a)).log →
      .stored row settlement calendar ∈ w.log := by
    intro row settlement calendar hrow
    rcases List.mem_append.mp hrow with hrow | hrow
    · exact hrow
    · rcases note_eq (w := w) t e with hnote | ⟨row', -, hnote⟩ <;> simp [hnote] at hrow
  refine ⟨?_, h.log.take t input e _, h.sent.congr rfl rfl, fun u hu => ?_⟩
  · rcases journalAfter_eq (w := w) t input e with hsame | ⟨row, step, hjob, rfl, hadv⟩
    · refine h.journal.map keeps_id (by simpa [World.take] using hsame) rfl hhand hlog
        (fun r hr hsn h0 => hlog _ (h.journal.steps r (.inl hr) hsn h0))
        fun row settlement calendar hrow => .inl (hstored row settlement calendar hrow)
    · obtain ⟨s, meets, rel, -, -⟩ := hworks.asking hjob hstage
      obtain ⟨-, r₀, hr₀, hop₀, hact₀⟩ := h.journal.journaled row (.inr ⟨t, ht, hjob⟩)
      refine h.journal.map (keeps_advance row.opId step) hadv rfl hhand hlog
        (fun r hr hsn h0 => ?_)
        fun row settlement calendar hrow => .inl (hstored row settlement calendar hrow)
      split_ifs at h0 with hcond
      · have hr : r = r₀ := List.inj_on_of_nodup_map h.journal.ids hr hr₀
          (hcond.1.trans hop₀.symm)
        have hmay : row.action = some .snooze → _ := meets.1
        rw [hcond.1]
        exact hlog _ (rel.shown (hmay (by rw [← hact₀, ← hr, hsn])))
      · exact hlog _ (h.journal.steps r (.inl hr) hsn h0)
  · obtain rfl := Option.some.inj hu
    rcases hjob : t.job with row | target
    · obtain ⟨s, meets, rel, hasked, awaits⟩ := hworks.asking hjob hstage
      exact .op hjob rfl (meets.2 a)
        (rel.tell (p := k a) ht hjob hstage awaits h.sent.dead hasked hrule htold)
        (.next e a (k a)) (awaits_none _ _)
    · exact .guard hjob rfl ((hworks.guarding hjob hstage).1.2 a) (awaits_none _ _)

/-! ### Writes -/

/-- A write that was sent is one its job may send. -/
structure MaySend (unmissed : Prop) (w : World) (job : ApplierJob) (request : Request) : Prop where
  entry : Entry.May w.log (.sent job request)
  create : unmissed → ∀ op, Sent.creates { request } = some op → w.Lost none op

/-- An open write counts for its operation only. -/
theorem counts_new {request : Request} {op : Uuid} :
    Sent.Counts op { request } = true ↔ Sent.creates { request } = some op := by
  simp [Sent.Counts]

/-- The invariant survives the sending of a write. -/
theorem Inv.dispatch (h : Inv home unmissed informed w) {t : Task} {p : Asks Ended}
    {forced : Bool} {request : Request} (ht : w.task = some t)
    (hstage : t.stage = .asking p none forced)
    (hask : (∃ event k, p = .ask (.createEvent event) k ∧ request = .create event) ∨
      ∃ target k, p = .ask (.deleteEvent target) k ∧ request = .delete target)
    (hmay : MaySend unmissed w t.job request) :
    Inv home unmissed informed (w.dispatch t p request) := by
  have hworks := h.works t ht
  have hlog : ∀ x ∈ w.log, x ∈ (w.dispatch t p request).log :=
    fun x hx => List.mem_append_left _ hx
  have hstored : ∀ row settlement calendar,
      .stored row settlement calendar ∈ (w.dispatch t p request).log →
      .stored row settlement calendar ∈ w.log := by
    intro row settlement calendar hrow
    simpa [World.dispatch] using hrow
  have hawaits : (w.dispatch t p request).Awaits p (some w.sent.length) := by
    rintro i ⟨rfl⟩
    exact ⟨{ request }, List.getElem?_concat_length, hask⟩
  refine ⟨?_, ?_, ?_, fun u hu => ?_⟩
  · refine h.journal.map keeps_id (by simp [World.dispatch]) rfl ?_ hlog
      (fun r hr hsn h0 => hlog _ (h.journal.steps r (.inl hr) hsn h0))
      fun row settlement calendar hrow => .inl (hstored row settlement calendar hrow)
    rintro row (hrow | ⟨u, hu, hujob⟩)
    · exact .inl hrow
    · obtain rfl := Option.some.inj hu
      exact .inr ⟨t, ht, hujob⟩
  · refine ⟨obeys_concat.mpr ⟨h.log.obeys, hmay.entry⟩, fun hi row settlement calendar hrow => ?_,
      fun row settlement calendar hrow => ?_, fun op hop => ?_, h.log.view⟩
    · exact h.log.truth hi row settlement calendar (hstored row settlement calendar hrow)
    · exact h.log.made row settlement calendar (hstored row settlement calendar hrow)
    · exact h.log.shown op (by simpa [World.dispatch] using hop)
  · refine ⟨fun hu op => ?_, fun x hx target hreq heff => ?_⟩
    · have hold := h.sent.single hu op
      simp only [World.dispatch, List.countP_append, List.countP_singleton]
      split_ifs with hcount
      · have hlost := hmay.create hu op (counts_new.mp hcount)
        have hzero : w.sent.countP (Sent.Counts op) = 0 := by
          refine List.countP_eq_zero.mpr fun x hx hc => ?_
          obtain ⟨hcr, hfate⟩ := of_decide_eq_true hc
          obtain ⟨i, hi⟩ := List.mem_iff_getElem?.mp hx
          exact hfate (hlost i x hi hcr nofun)
        omega
      · exact hold
    · rcases List.mem_append.mp hx with hx | hx
      · exact h.sent.dead x hx target hreq heff
      · obtain rfl := List.mem_singleton.mp hx
        cases heff
  · obtain rfl := Option.some.inj hu
    rcases hjob : t.job with row | target
    · obtain ⟨s, meets, rel, hasked, -⟩ := hworks.asking hjob hstage
      exact .op rfl rfl meets (rel.send rfl rfl hlog) ⟨hasked.first, hasked.creating⟩ hawaits
    · exact .guard rfl rfl (hworks.guarding hjob hstage).1 hawaits

/-- What a task that asks for a write may send. -/
theorem Works.maySend {t : Task} {e : Ask} {k : e.Answer → Asks Ended} {forced : Bool}
    (h : Works home unmissed informed w t) (hstage : t.stage = .asking (.ask e k) none forced) :
    (∀ event, e = .createEvent event → MaySend unmissed w t.job (.create event)) ∧
      ∀ target, e = .deleteEvent target → MaySend unmissed w t.job (.delete target) := by
  rcases hjob : t.job with row | target
  · obtain ⟨s, meets, rel, -, -⟩ := h.asking hjob hstage
    constructor
    · rintro event rfl
      obtain ⟨hclear, hop⟩ : s.clear ∧ event.op = some row.opId := meets.1
      refine ⟨trivial, fun hu op hcr => ?_⟩
      have hcreates : event.op = some op := hcr
      obtain rfl : row.opId = op := Option.some.inj (hop.symm.trans hcreates)
      exact rel.clear hu hclear
    · rintro target rfl
      exact ⟨fun hsn => rel.shown (meets.1 hsn), fun _ _ hcr => by cases hcr⟩
  · obtain ⟨meets, -⟩ := h.guarding hjob hstage
    constructor
    · rintro event rfl
      exact absurd rfl (meets.1.1 event)
    · rintro target rfl
      exact ⟨trivial, fun _ _ hcr => by cases hcr⟩

/-- The invariant survives an input that leaves a task waiting. -/
theorem Inv.await (h : Inv home unmissed informed w) {t : Task} {e : Ask}
    {k : e.Answer → Asks Ended} {own : Option ℕ} {forced : Bool} (ht : w.task = some t)
    (hstage : t.stage = .asking (.ask e k) own forced) (input : Input) :
    Inv home unmissed informed (w.await t own input (.ask e k)) := by
  have hworks := h.works t ht
  have hnone : ∀ after holds, e = .confirm after holds → own = none := by
    rintro after holds rfl
    exact (hworks.awaits hstage).own_none nofun nofun
  unfold World.await
  split
  next event k' heq =>
    cases heq
    exact h.dispatch ht hstage (.inl ⟨event, _, rfl, rfl⟩)
      ((hworks.maySend hstage).1 event rfl)
  next target k' heq =>
    cases heq
    exact h.dispatch ht hstage (.inr ⟨target, _, rfl, rfl⟩)
      ((hworks.maySend hstage).2 target rfl)
  next after holds k' heq =>
    cases heq
    obtain rfl := hnone after holds rfl
    refine h.task ht rfl ?_
    rcases hjob : t.job with row | target
    · obtain ⟨s, meets, rel, hasked, awaits⟩ := hworks.asking hjob hstage
      exact .op rfl rfl meets rel ⟨hasked.first, hasked.creating⟩ awaits
    · obtain ⟨meets, awaits⟩ := hworks.guarding hjob hstage
      exact .guard rfl rfl meets awaits
  next => exact h

/-- A write under way gets its fate. -/
theorem Inv.fated (h : Inv home unmissed informed w) {j : ℕ} {fate : Bool} {x : Sent}
    (hx : w.sent[j]? = some x) (hopen : x.tookEffect = none) {calendar : List Event}
    {past : List (List Event)} (hpast : ∀ c ∈ w.past, c ∈ past)
    (hdead : World.Dead home
      { w with sent := w.sent.set j { x with tookEffect := some fate }, calendar, past })
    (hcarried : ∀ op, Carried calendar op →
      Carried w.calendar op ∨ x.creates = some op ∧ fate = true)
    (hholds : ∀ row : OpRow, Occurs home calendar row.Handles →
      Occurs home w.calendar row.Handles ∨ World.Brings home row x.request) :
    Inv home unmissed informed
      { w with sent := w.sent.set j { x with tookEffect := some fate }, calendar, past } := by
  set w' : World :=
    { w with sent := w.sent.set j { x with tookEffect := some fate }, calendar, past } with hw'
  have hf : Fated w w' j fate := fated_set hx hopen rfl
  have hnew : w'.sent[j]? = some { x with tookEffect := some fate } :=
    List.getElem?_set_self (List.getElem?_eq_some_iff.mp hx).1
  refine ⟨⟨h.journal.ids, h.journal.formed, h.journal.journaled, h.journal.steps,
    h.journal.stored⟩, ⟨h.log.obeys, h.log.truth, fun row st c hr hrow happ => ?_,
    fun op hop => ?_, fun v hv => ?_⟩, ⟨fun hu op => ?_, hdead⟩, fun t ht => ?_⟩
  · obtain ⟨c', hc', hcar⟩ := h.log.made row st c hr hrow happ
    exact ⟨c', hpast c' hc', hcar⟩
  · obtain ⟨c, hc, hcar⟩ := h.log.shown op hop
    exact ⟨c, hpast c hc, hcar⟩
  · obtain ⟨c, hc, hocc⟩ := h.log.view v hv
    exact ⟨c, hpast c hc, hocc⟩
  · refine le_trans ?_ (h.sent.single hu op)
    obtain ⟨hj, hget⟩ := List.getElem?_eq_some_iff.mp hx
    rw [hw']
    simp only
    rw [List.countP_set hj, hget]
    have hcount : Sent.Counts op { x with tookEffect := some fate } = true →
        Sent.Counts op x = true := by
      intro hc
      have hcreates := (of_decide_eq_true hc).1
      have hx : x.creates = some op := hcreates
      simp [Sent.Counts, hx, hopen]
    have hpos : Sent.Counts op x = true → 1 ≤ w.sent.countP (Sent.Counts op) := fun hc =>
      List.countP_pos_iff.mpr ⟨x, List.mem_of_getElem? hx, hc⟩
    split_ifs with h1 h2 h2
    · have := hpos h1
      omega
    · omega
    · exact absurd (hcount h2) h1
    · omega
  · have hworks := h.works t ht
    have hrel : ∀ {own row s}, Rel home unmissed informed w own row s →
        Rel home unmissed informed w' own row s := by
      intro own row s hr
      refine hr.fated hf rfl (fun hq hc => ?_) fun hq hc => ?_
      · rcases hcarried _ hc with hc | ⟨hcr, hfate⟩
        · exact .inl hc
        · have hcreate := (Sent.creates_isCreate hcr).congr (rfl : _ = x.request)
          exact .inr ⟨_, hf.own_of_quiet hq hx hcr, hnew, hcreate, by rw [hfate]⟩
      · rcases hholds _ hc with hc | hcr
        · exact .inl hc
        · obtain ⟨event, _, hreq, -⟩ := id hcr
          exact .inr ⟨_, hf.own_of_quiet hq hx hcr, hnew, event, hreq⟩
    cases hworks with
    | op job stage meets rel asked awaits =>
        exact .op job stage meets (hrel rel) asked (hf.awaits awaits)
    | settling job stage claims rel => exact .settling job stage claims (hrel rel)
    | guard job stage meets awaits => exact .guard job stage meets (hf.awaits awaits)

/-! ### Results -/

/-- What a task that settles has found is true. -/
theorem Works.truth {t : Task} {row : OpRow} {settlement : Settlement}
    (h : Works home unmissed informed w t) (hjob : t.job = .op row)
    (hstage : t.stage = .settling settlement) (hi : informed) :
    Truth home row settlement w.calendar := by
  cases h with
  | op _ stage => cases stage.symm.trans hstage
  | guard _ stage => cases stage.symm.trans hstage
  | settling job stage claims rel =>
      cases job.symm.trans hjob
      cases stage.symm.trans hstage
      refine ⟨fun hrow hrej hcar => ?_, fun hrow happ hocc => ?_⟩
      · obtain ⟨i, x, hnone, -⟩ := (rel.absent hi (claims.refused hrow hrej)).2 hcar
        cases hnone
      · obtain ⟨i, x, hnone, -⟩ := (rel.gone hi (claims.removed hrow happ)).2 hocc
        cases hnone

/-- A create that settles as applied was shown its event. -/
theorem Works.shown {t : Task} {row : OpRow} {settlement : Settlement}
    (h : Works home unmissed informed w t) (hjob : t.job = .op row)
    (hstage : t.stage = .settling settlement) (hrow : row.action = some .create)
    (happ : Step.IsApplied (.done settlement)) : .showed row.opId ∈ w.log := by
  cases h with
  | op _ stage => cases stage.symm.trans hstage
  | guard _ stage => cases stage.symm.trans hstage
  | settling job stage claims rel =>
      cases job.symm.trans hjob
      cases stage.symm.trans hstage
      exact rel.shown (claims.created hrow happ)

/-- The invariant survives the storing of a result. -/
theorem Inv.store (h : Inv home unmissed informed w) {t : Task} {row : OpRow}
    {settlement : Settlement} (ht : w.task = some t) (hjob : t.job = .op row)
    (hstage : t.stage = .settling settlement) (outcome : DbOutcome) :
    Inv home unmissed informed (w.store row settlement outcome) := by
  have hworks := h.works t ht
  have htask : ∀ u, (w.store row settlement outcome).task = some u → u = t := by
    intro u hu
    simp only [World.store] at hu
    split_ifs at hu
    exact Option.some.inj (hu.symm.trans ht)
  have hlog : ∀ x ∈ w.log, x ∈ (w.store row settlement outcome).log := by
    intro x hx
    simp only [World.store]
    split_ifs
    · exact List.mem_append_left _ hx
    · exact hx
  -- A new entry stands for a row that was pending until now.
  have hentry : ∀ x ∈ (w.store row settlement outcome).log, x ∈ w.log ∨
      x = .stored row settlement w.calendar ∧ outcome.applies = true ∧
        ∃ r ∈ w.journal, r.opId = row.opId ∧ r.state = .pending := by
    intro x hx
    simp only [World.store] at hx
    split_ifs at hx with hcond
    · rcases List.mem_append.mp hx with hx | hx
      · exact .inl hx
      · obtain ⟨happ, hpend⟩ := Bool.and_eq_true_iff.mp hcond
        obtain ⟨r, hr, hdec⟩ := List.any_eq_true.mp hpend
        exact .inr ⟨List.mem_singleton.mp hx, happ, r, hr, of_decide_eq_true hdec⟩
    · exact .inl hx
  refine ⟨?_, ⟨?_, fun hi r st c hr => ?_, fun r st c hr hrow happ => ?_, fun op hop => ?_,
    h.log.view⟩, h.sent.congr rfl rfl, fun u hu => ?_⟩
  · have hkeep : ∃ f, Keeps f ∧ (w.store row settlement outcome).journal = w.journal.map f ∧
        (∀ r, (f r).step = r.step) ∧
        (outcome.applies = true → ∀ r, r.opId = row.opId → (f r).state ≠ .pending) := by
      by_cases happ : outcome.applies = true
      · refine ⟨_, keeps_settle row.opId settlement, by simp [World.store, happ, settleRow],
          fun r => ?_, fun _ r hr => ?_⟩
        · split_ifs
          · cases settlement <;> rfl
          · rfl
        · split_ifs with hp
          · cases settlement <;> simp [OpRow.settle]
          · exact fun hpend => hp ⟨hr, hpend⟩
      · exact ⟨id, keeps_id, by simp [World.store, happ], fun _ => rfl, fun h => absurd h happ⟩
    obtain ⟨f, hf, hj, hsame, hdone⟩ := hkeep
    refine h.journal.map hf hj rfl ?_ hlog (fun r hr hsn h0 => ?_) fun r st c hr => ?_
    · rintro r (hr | ⟨u, hu, hujob⟩)
      · exact .inl hr
      · obtain rfl := htask u hu
        exact .inr ⟨u, ht, hujob⟩
    · exact hlog _ (h.journal.steps r (.inl hr) hsn (hsame r ▸ h0))
    · rcases hentry _ hr with hr | ⟨heq, happ, r', hr', hop, -⟩
      · exact .inl hr
      · cases heq
        exact .inr ⟨List.mem_map.mpr ⟨r', hr', hop⟩, fun r _ hrop => hdone happ r hrop⟩
  · simp only [World.store]
    split_ifs with hcond
    · refine obeys_concat.mpr ⟨h.log.obeys, fun r st c hr hop => ?_⟩
      obtain ⟨-, hpend⟩ := Bool.and_eq_true_iff.mp hcond
      obtain ⟨r', hr', hdec⟩ := List.any_eq_true.mp hpend
      obtain ⟨hop', hpending⟩ := of_decide_eq_true hdec
      exact (h.journal.stored r st c hr).2 r' hr' (hop'.trans hop.symm) hpending
    · exact h.log.obeys
  · rcases hentry _ hr with hr | ⟨heq, -⟩
    · exact h.log.truth hi r st c hr
    · cases heq
      exact hworks.truth hjob hstage hi
  · rcases hentry _ hr with hr | ⟨heq, -⟩
    · exact h.log.made r st c hr hrow happ
    · cases heq
      exact h.log.shown _ (hworks.shown hjob hstage hrow happ)
  · rcases hentry _ hop with hop | ⟨heq, -⟩
    · exact h.log.shown op hop
    · cases heq
  · obtain rfl := htask u hu
    exact hworks.congr rfl rfl hlog

/-! ### Inputs -/

/-- A job is put into the queue. -/
theorem Inv.queue (h : Inv home unmissed informed w) {jobs : List ApplierJob}
    {journal : List OpRow} {task : Option Task} {running : Bool} {status : Option ℕ}
    {view : Option CalendarView} {pushes : ℕ}
    (hview : ∀ v, view = some v → w.view = some v) (htask : ∀ t, task = some t → w.task = some t)
    (hjournal : JournalInv { w with jobs, journal, task, running, status, view, pushes }) :
    Inv home unmissed informed { w with jobs, journal, task, running, status, view, pushes } :=
  ⟨hjournal, ⟨h.log.obeys, h.log.truth, h.log.made, h.log.shown, fun v hv => h.log.view v (hview v hv)⟩,
    h.sent.congr rfl rfl, fun t ht => (h.works t (htask t ht)).congr rfl rfl fun _ he => he⟩

theorem Inv.journalRow (h : Inv home unmissed informed w) {row : OpRow}
    (hnew : row.opId ∉ w.journal.map (·.opId)) (hformed : row.Formed) (hstep : row.step = 0) :
    Inv home unmissed informed
      { w with journal := w.journal ++ [row], jobs := w.jobs ++ [.op row] } := by
  refine h.queue (fun _ hv => hv) (fun _ ht => ht) ⟨?_, fun r hr => ?_, fun r hr => ?_,
    fun r hr hsn h0 => ?_, fun r st c hr => ?_⟩
  · rw [List.map_append, List.nodup_append]
    refine ⟨h.journal.ids, List.nodup_singleton _, fun a ha b hb => ?_⟩
    obtain rfl := List.mem_singleton.mp hb
    rintro rfl
    exact hnew ha
  · rcases List.mem_append.mp hr with hr | hr
    · exact h.journal.formed r hr
    · obtain rfl := List.mem_singleton.mp hr
      exact hformed
  · have hold : w.InHand r → r.Formed ∧ ∃ r' ∈ w.journal ++ [row],
        r'.opId = r.opId ∧ r'.action = r.action := by
      intro hin
      obtain ⟨hform, r', hr', hsame⟩ := h.journal.journaled r hin
      exact ⟨hform, r', List.mem_append_left _ hr', hsame⟩
    rcases hr with hr | hr
    · rcases List.mem_append.mp hr with hr | hr
      · exact hold (.inl hr)
      · cases List.mem_singleton.mp hr
        exact ⟨hformed, row, List.mem_append_right _ (List.mem_singleton_self _), rfl, rfl⟩
    · exact hold (.inr hr)
  · have hzero : r = row → .showed r.opId ∈ w.log := by
      rintro rfl
      omega
    rcases hr with hr | hr
    · rcases List.mem_append.mp hr with hr | hr
      · exact h.journal.steps r (.inl hr) hsn h0
      · exact hzero (List.mem_singleton.mp hr)
    · rcases List.mem_append.mp hr with hr | hr
      · exact h.journal.steps r (.inr hr) hsn h0
      · exact hzero (ApplierJob.op.inj (List.mem_singleton.mp hr))
  · obtain ⟨hin, hdone⟩ := h.journal.stored r st c hr
    refine ⟨?_, fun r' hr' hop => ?_⟩
    · rw [List.map_append]
      exact List.mem_append_left _ hin
    · rcases List.mem_append.mp hr' with hr' | hr'
      · exact hdone r' hr' hop
      · obtain rfl := List.mem_singleton.mp hr'
        exact absurd (hop ▸ hin) hnew

/-- Jobs that are rows of the journal, or for the restore guard, may stand in the queue. -/
theorem JournalInv.requeue (h : JournalInv w) (hjournal : w'.journal = w.journal)
    (hlog : w'.log = w.log) (htask : ∀ t, w'.task = some t → w.task = some t)
    (hjobs : ∀ row, .op row ∈ w'.jobs → .op row ∈ w.jobs ∨ row ∈ w.journal) : JournalInv w' := by
  obtain ⟨hids, hformed, hjournaled, hsteps, hstored⟩ := h
  refine ⟨hjournal ▸ hids, hjournal ▸ hformed, fun row hrow => ?_, fun row hrow hsn h0 => ?_,
    fun r st c hr => ?_⟩
  · rw [hjournal]
    rcases hrow with hrow | ⟨t, ht, htjob⟩
    · rcases hjobs row hrow with hrow | hrow
      · exact hjournaled row (.inl hrow)
      · exact ⟨hformed row hrow, row, hrow, rfl, rfl⟩
    · exact hjournaled row (.inr ⟨t, htask t ht, htjob⟩)
  · rw [hlog]
    rcases hrow with hrow | hrow
    · exact hsteps row (.inl (hjournal ▸ hrow)) hsn h0
    · rcases hjobs row hrow with hrow | hrow
      · exact hsteps row (.inr hrow) hsn h0
      · exact hsteps row (.inl hrow) hsn h0
  · rw [hjournal]
    exact hstored r st c (hlog ▸ hr)

/-- The invariant survives what a task does with an input. -/
theorem Inv.work (h : Inv home unmissed informed w) {t : Task} (ht : w.task = some t)
    {input : Input} (hrule : w.Rule home unmissed informed input) :
    Inv home unmissed informed (w.work home t input) := by
  rcases hstage : t.stage with ⟨program, own, forced⟩ | settlement
  · rcases program with ended | ⟨e, k⟩
    · cases input with
      | poll =>
          simp only [World.work, hstage]
          exact h.finish ht hstage
      | _ =>
          simp only [World.work, hstage]
          exact h
    · simp only [World.work, hstage]
      split
      next a htold => exact h.take ht hstage hrule htold
      next => exact h.await ht hstage input
  · rcases hjob : t.job with row | target
    · cases input with
      | db outcome =>
          simp only [World.work, hstage, hjob]
          exact h.store ht hjob hstage outcome
      | _ =>
          simp only [World.work, hstage, hjob]
          exact h
    · simp only [World.work, hstage, hjob]
      exact h

/-- A landed write leaves nothing on the calendar that a delete has targeted. -/
theorem Inv.land (h : Inv home unmissed informed w) {i : ℕ} {uid : Text}
    (hallows : w.Allows (.land i uid)) : Inv home unmissed informed (w.land i uid) := by
  obtain ⟨hopen, huid, htargets⟩ := hallows
  unfold World.land
  split
  next x hx =>
    have hnone : x.tookEffect = none := by
      rw [hx] at hopen
      exact Option.some.inj hopen
    have hpast : ∀ (c : List Event) c', c' ∈ w.past → c' ∈ w.past ++ [c] :=
      fun _ _ hc => List.mem_append_left _ hc
    have hset : ∀ y ∈ w.sent.set i { x with tookEffect := some true },
        y ∈ w.sent ∨ y.request = x.request := by
      intro y hy
      rcases List.mem_or_eq_of_mem_set hy with hy | rfl
      · exact .inl hy
      · exact .inr rfl
    obtain ⟨request, fate⟩ := x
    rcases request with event | target
    · refine h.fated hx hnone (hpast _) (fun y hy target hdel heff hocc => ?_) (fun op hcar => ?_)
        fun q hocc => ?_
      · rcases hset y hy with hy | hy
        · rcases occurs_concat home hocc with hocc | hocc
          · exact h.sent.dead y hy target hdel heff hocc
          · obtain ⟨o, rfl, ho⟩ := occurs_uid home hocc
            exact htargets y hy (by rw [hdel]; exact congrArg some ho)
        · cases hy.symm.trans hdel
      · obtain ⟨e, he, hop⟩ := hcar
        rcases List.mem_append.mp he with he | he
        · exact .inl ⟨e, he, hop⟩
        · obtain rfl := List.mem_singleton.mp he
          exact .inr ⟨hop, rfl⟩
      · rcases occurs_concat home hocc with hocc | hocc
        · exact .inl hocc
        · exact .inr ⟨event, uid, rfl, hocc⟩
    · refine h.fated hx hnone (hpast _) (fun y hy target' hdel heff hocc => ?_)
        (fun op hcar => .inl (carried_delete hcar)) fun q hocc => .inl ?_
      · obtain ⟨start, stop, o, ho, htarget, hne⟩ := occurs_delete home hocc
        rcases hset y hy with hy | hy
        · exact h.sent.dead y hy target' hdel heff ⟨start, stop, o, ho, htarget⟩
        · cases hy.symm.trans hdel
          exact hne htarget
      · obtain ⟨start, stop, o, ho, hq, -⟩ := occurs_delete home hocc
        exact ⟨start, stop, o, ho, hq⟩
  next => exact h

theorem Inv.lose (h : Inv home unmissed informed w) {i : ℕ} (hallows : w.Allows (.lose i)) :
    Inv home unmissed informed (w.lose i) := by
  have hopen : (w.sent[i]?).map (·.tookEffect) = some none := hallows
  unfold World.lose
  split
  next x hx =>
    have hnone : x.tookEffect = none := by
      rw [hx] at hopen
      exact Option.some.inj hopen
    refine h.fated hx hnone (fun c hc => hc) (fun y hy target hdel heff => ?_)
      (fun op hcar => .inl hcar) fun q hocc => .inl hocc
    rcases List.mem_or_eq_of_mem_set hy with hy | rfl
    · exact h.sent.dead y hy target hdel heff
    · cases heff
  next => exact h

/-- The invariant survives every input that is allowed. -/
theorem Inv.step (h : Inv home unmissed informed w) {input : Input}
    (hrule : w.Rule home unmissed informed input) :
    Inv home unmissed informed (w.step home input) := by
  have hwork : Inv home unmissed informed (w.serve home input) := by
    unfold World.serve
    split
    next t ht => exact h.work ht hrule
    next job jobs _ hjobs => exact h.begin hjobs
    next => exact h
  cases input with
  | poll => exact hwork
  | expire => exact hwork
  | answer outcome => exact hwork
  | read moment => exact hwork
  | db outcome => exact hwork
  | land i uid => exact h.land hrule.1
  | lose i => exact h.lose hrule.1
  | connect generation => exact h.view rfl rfl rfl rfl rfl rfl rfl h.log.view
  | disconnect => exact h.view rfl rfl rfl rfl rfl rfl rfl h.log.view
  | clock now => exact h.view rfl rfl rfl rfl rfl rfl rfl h.log.view
  | push generation start stop moment =>
      simp only [World.step]
      split
      next calendar hrunning hpast =>
        refine h.view rfl rfl rfl rfl rfl rfl rfl fun v hv => ?_
        obtain rfl := Option.some.inj hv
        exact ⟨calendar, List.mem_of_getElem? hpast, start, stop, rfl⟩
      next => exact h
  | rebuild =>
      simp only [World.step]
      split
      next v hv =>
        refine h.view rfl rfl rfl rfl rfl rfl rfl fun u hu => ?_
        obtain rfl := Option.some.inj hu
        exact h.log.view v hv
      next => exact h
  | journal row =>
      obtain ⟨hnew, hformed, -, hstep, -⟩ := hrule.1
      simp only [World.step]
      split_ifs
      · exact h.journalRow hnew hformed hstep
      · exact h
  | guard target =>
      simp only [World.step]
      split_ifs
      · refine h.queue (fun _ hv => hv) (fun _ ht => ht)
          (h.journal.requeue rfl rfl (fun _ ht => ht) fun row hrow => ?_)
        rcases List.mem_append.mp hrow with hrow | hrow
        · exact .inl hrow
        · cases List.mem_singleton.mp hrow
      · exact h
  | crash =>
      refine h.queue (fun _ hv => by cases hv) (fun _ ht => by cases ht)
        (h.journal.requeue rfl rfl (fun _ ht => by cases ht) fun row hrow => ?_)
      exact absurd hrow List.not_mem_nil
  | register stashed =>
      simp only [World.step]
      split_ifs with hrunning hstashed
      · exact h
      · refine h.queue (fun _ hv => hv) (fun _ ht => ht)
          (h.journal.requeue rfl rfl (fun _ ht => ht) fun row hrow => ?_)
        obtain ⟨r, hr, hop⟩ := List.mem_map.mp hrow
        cases hop
        exact .inr (List.mem_filter.mp hr).1
      · refine h.queue (fun _ hv => hv) (fun _ ht => ht)
          (h.journal.requeue rfl rfl (fun _ ht => ht) fun row hrow => ?_)
        exact absurd hrow List.not_mem_nil

end EchoMuse.Alarms
