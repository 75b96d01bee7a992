import EchoMuse.Alarms.Machine

/-!
# Knowledge That Holds

What an attempt takes from a view is true of the calendar only while the view is up to date and
its window covers what the operation is about. Both are conditions on what the applier is told, not
on the applier; under them its knowledge holds of the world.

## Main results

* `World.Unmissed`, `World.Informed`: the two conditions;
* `Rel.tell`: what an attempt learns from an answer holds;
* `Rel.fated`, `Rel.send`: what happens meanwhile takes nothing of it away.
-/

namespace EchoMuse.Alarms

open Alerts (Text Uuid)
open Programs

/-! ### Conditions -/

namespace World

/-- No write of a kind is under way, the task's own apart. -/
def Quiet (w : World) (own : Option ℕ) (kind : Request → Prop) : Prop :=
  ∀ i x, w.sent[i]? = some x → kind x.request → own ≠ some i → x.tookEffect ≠ none

/-- Every create of an operation was lost, the task's own apart. -/
def Lost (w : World) (own : Option ℕ) (op : Uuid) : Prop :=
  ∀ i x, w.sent[i]? = some x → x.creates = some op → own ≠ some i → x.tookEffect = some false

variable (home : Home)

/-- A create of an event with an occurrence that the operation handles. -/
def Brings (row : OpRow) (request : Request) : Prop :=
  ∃ event uid, request = .create event ∧
    Occurs home [{ uid, write := event, deleted := [] }] row.Handles

/-- Something the operation handles is on the calendar. -/
def Holds (w : World) (row : OpRow) : Prop := Occurs home w.calendar row.Handles

/-- Something the operation handles may be on the calendar: it is there, or it is on its way. -/
def MayHold (w : World) (own : Option ℕ) (row : OpRow) : Prop :=
  w.Holds home row ∨ ¬ w.Quiet own (Brings home row)

/-- An event of the operation may be on the calendar: it is there, or it is on its way. -/
def MayCarry (w : World) (own : Option ℕ) (op : Uuid) : Prop :=
  Carried w.calendar op ∨ ¬ w.Quiet own (·.creates = some op)

/-- An input answers the ask of an operation's task, and what is answered fits. -/
def Hears (w : World) (input : Input) (fits : Task → OpRow → (e : Ask) → e.Answer → Prop) : Prop :=
  ∀ t row e k sent forced a, w.task = some t → t.job = .op row →
    t.stage = .asking (.ask e k) sent forced → w.told home sent forced input e = some a →
    fits t row e a

/-- The view from which an attempt may create shows the event of the operation where an earlier
create took effect or is still under way. -/
def Unmissed (w : World) (input : Input) : Prop :=
  w.Hears home input fun t row e a =>
    match e, a with
    | .freshView, (v : CalendarView) =>
      t.answered = 0 → row.Creates t.step → ¬ v.Shows row.opId → w.Lost none row.opId
    | _, _ => True

/-- What an attempt is told is missing, of the event it creates or of what it handles, is missing:
it is not on the calendar and not on its way. -/
def InformedBy (w : World) (t : Task) (row : OpRow) : (e : Ask) → e.Answer → Prop
  | .freshView, v =>
    (row.action = some .create → w.MayCarry none row.opId → v.Shows row.opId) ∧
      ((row.action = some .snooze → t.answered ≠ 0) → w.MayHold home none row →
        row.Lists v ∨ row.LooksUp v)
  | .viewNow, v => w.MayHold home none row → ∀ u, v = some u → row.Lists u
  | .confirm after holds, (confirmed : Bool) =>
    (confirmed = true → (∀ v, holds v = true → ¬ row.Lists v) → ¬ w.MayHold home none row) ∧
      (confirmed = false → row.action = some .create → w.MayCarry none row.opId →
        ∃ v, w.view = some v ∧ after < v.push ∧ v.Shows row.opId)
  | .deleteEvent target, (outcome : EffectOutcome) =>
    outcome = .applied → row.recorded = some target →
      w.Quiet none (Brings home row) ∧
        ¬ Occurs home w.calendar fun o => row.Handles o ∧ occurrenceTarget o ≠ target
  | .calendarEvents _ _, (items : Option (List CalendarItem)) =>
    w.MayHold home none row → ∀ l target, items = some l → row.recorded = some target →
      l.any (isTarget target) = true
  | _, _ => True

/-- Every answer an attempt takes knowledge from is true now. -/
def Informed (w : World) (input : Input) : Prop := w.Hears home input (w.InformedBy home)

/-- Inputs a world allows; with `unmissed` and `informed`, the conditions hold of them too. -/
def Rule (unmissed informed : Prop) (w : World) (input : Input) : Prop :=
  w.Allows input ∧ (unmissed → w.Unmissed home input) ∧ (informed → w.Informed home input)

/-- A write a program waits for is the one it asks for. -/
def Awaits (w : World) (p : Asks Ended) (own : Option ℕ) : Prop :=
  ∀ i, own = some i → ∃ x, w.sent[i]? = some x ∧
    ((∃ event k, p = .ask (.createEvent event) k ∧ x.request = .create event) ∨
      ∃ target k, p = .ask (.deleteEvent target) k ∧ x.request = .delete target)

end World

/-! ### Knowledge of a world -/

variable {home : Home}

section

variable (home) (unmissed informed : Prop)

/-- What a task knows holds of the world; what depends on its own unanswered create is open. -/
structure Rel (w : World) (own : Option ℕ) (row : OpRow) (s : Known) : Prop where
  clear : unmissed → s.clear → w.Lost own row.opId
  shown : s.shown → .showed row.opId ∈ w.log
  absent : informed → s.absent → w.Quiet own (·.creates = some row.opId) ∧
    (Carried w.calendar row.opId →
      ∃ i x, own = some i ∧ w.sent[i]? = some x ∧ x.IsCreate ∧ x.tookEffect = some true)
  gone : informed → s.gone → w.Quiet own (World.Brings home row) ∧ (w.Holds home row →
    ∃ i x, own = some i ∧ w.sent[i]? = some x ∧ x.IsCreate)

end

variable {unmissed informed : Prop} {w w' : World} {own : Option ℕ} {row : OpRow} {s : Known}

theorem Sent.creates_isCreate {x : Sent} {op : Uuid} (h : x.creates = some op) : x.IsCreate := by
  rcases x with ⟨event | target, fate⟩
  · exact ⟨event, rfl⟩
  · cases h

theorem Sent.IsCreate.ne_delete {x : Sent} (h : x.IsCreate) {target : EventTarget} :
    x.request ≠ .delete target := by
  obtain ⟨event, h⟩ := h
  rw [h]
  exact nofun

/-- Knowledge depends on the writes, the calendar and what was shown only. -/
theorem Rel.congr (h : Rel home unmissed informed w own row s) (hsent : w'.sent = w.sent)
    (hcal : w'.calendar = w.calendar) (hlog : ∀ e ∈ w.log, e ∈ w'.log) :
    Rel home unmissed informed w' own row s := by
  obtain ⟨hclear, hshown, habsent, hgone⟩ := h
  simp only [World.Lost, World.Quiet, World.Holds, ← hsent, ← hcal] at *
  exact ⟨hclear, fun hs => hlog _ (hshown hs), habsent, hgone⟩

/-- What an attempt knows of its own asks is so. -/
structure Known.Asked (s : Known) (t : Task) (row : OpRow) : Prop where
  first : s.first ↔ t.answered = 0
  creating : s.creating → s.first ∧ row.Creates t.step

theorem Known.Asked.next {s : Known} {t : Task} {row : OpRow} (e : Ask) (a : e.Answer)
    (p : Asks Ended) : (s.next row e a).Asked (World.goOn t p) row := by
  have hfirst : ¬ (s.next row e a).first := by cases e <;> exact id
  have hcreating : ¬ (s.next row e a).creating := by cases e <;> exact id
  exact ⟨⟨fun h => absurd h hfirst, fun h => absurd h (Nat.succ_ne_zero _)⟩,
    fun h => absurd h hcreating⟩

theorem Known.Asked.start {t : Task} (row : OpRow) (h : t.answered = 0) :
    (Known.start row t.step).Asked t row :=
  ⟨⟨fun _ => h, fun _ => trivial⟩, fun hc => ⟨trivial, hc⟩⟩

/-- Nothing but the step reached is known at the start of an attempt. -/
theorem Rel.start {step : ℕ} (h : row.action = some .snooze → 0 < step → .showed row.opId ∈ w.log) :
    Rel home unmissed informed w none row (Known.start row step) :=
  ⟨fun _ h => h.elim, fun hs => h hs.1 hs.2, fun _ h => h.elim, fun _ h => h.elim⟩

/-! ### Writes under way -/

/-- A write got its fate, keeping its request. -/
structure Fated (w w' : World) (j : ℕ) (fate : Bool) : Prop where
  open_ : (w.sent[j]?).map (·.tookEffect) = some none
  sent : ∀ i x, w'.sent[i]? = some x →
    (i ≠ j ∧ w.sent[i]? = some x) ∨
      (i = j ∧ ∃ y, w.sent[i]? = some y ∧ y.request = x.request ∧ x.tookEffect = some fate)
  other : ∀ i x, w.sent[i]? = some x → i ≠ j → w'.sent[i]? = some x
  own : ∀ x, w.sent[j]? = some x → ∃ y, w'.sent[j]? = some y ∧ y.request = x.request ∧
    y.tookEffect = some fate

theorem Sent.IsCreate.congr {x y : Sent} (h : x.IsCreate) (hreq : y.request = x.request) :
    y.IsCreate := by
  obtain ⟨event, h⟩ := h
  exact ⟨event, hreq.trans h⟩

theorem Sent.creates_congr {x y : Sent} (hreq : y.request = x.request) : y.creates = x.creates := by
  rw [Sent.creates, Sent.creates, hreq]

variable {kind : Request → Prop}

variable {j : ℕ} {fate : Bool}

theorem Fated.lost (h : Fated w w' j fate) {op : Uuid} (hlost : w.Lost own op) :
    w'.Lost own op := by
  intro i x hx hop hown
  rcases h.sent i x hx with ⟨-, hx'⟩ | ⟨rfl, y, hy, hreq, -⟩
  · exact hlost i x hx' hop hown
  · have hfate := hlost i y hy ((Sent.creates_congr hreq).trans hop) hown
    have hopen := h.open_
    rw [hy] at hopen
    simp [hfate] at hopen

theorem Fated.quiet (h : Fated w w' j fate) (hquiet : w.Quiet own kind) : w'.Quiet own kind := by
  intro i x hx hkind hown
  rcases h.sent i x hx with ⟨-, hx'⟩ | ⟨rfl, y, hy, hreq, hfate⟩
  · exact hquiet i x hx' hkind hown
  · rw [hfate]
    exact nofun

/-- While no other write of a kind is under way, one that gets its fate is the task's own. -/
theorem Fated.own_of_quiet (h : Fated w w' j fate) (hquiet : w.Quiet own kind) {x : Sent}
    (hx : w.sent[j]? = some x) (hkind : kind x.request) : own = some j := by
  by_contra hne
  have hopen := h.open_
  rw [hx] at hopen
  exact hquiet j x hx hkind hne (Option.some.inj hopen)

theorem Fated.landed (h : Fated w w' j fate)
    (hland : ∃ i x, own = some i ∧ w.sent[i]? = some x ∧ x.IsCreate ∧ x.tookEffect = some true) :
    ∃ i x, own = some i ∧ w'.sent[i]? = some x ∧ x.IsCreate ∧ x.tookEffect = some true := by
  obtain ⟨i, x, hown, hx, hcreate, hfate⟩ := hland
  have hne : i ≠ j := by
    rintro rfl
    have hopen := h.open_
    rw [hx] at hopen
    simp [hfate] at hopen
  exact ⟨i, x, hown, h.other i x hx hne, hcreate, hfate⟩

theorem Fated.ownCreate (h : Fated w w' j fate)
    (hown : ∃ i x, own = some i ∧ w.sent[i]? = some x ∧ x.IsCreate) :
    ∃ i x, own = some i ∧ w'.sent[i]? = some x ∧ x.IsCreate := by
  obtain ⟨i, x, hi, hx, hcreate⟩ := hown
  by_cases hne : i = j
  · obtain rfl := hne
    obtain ⟨y, hy, hreq, -⟩ := h.own x hx
    exact ⟨i, y, hi, hy, hcreate.congr hreq⟩
  · exact ⟨i, x, hi, h.other i x hx hne, hcreate⟩

theorem Fated.awaits (h : Fated w w' j fate) {p : Asks Ended} (hp : w.Awaits p own) :
    w'.Awaits p own := by
  intro i hi
  obtain ⟨x, hx, hreq⟩ := hp i hi
  by_cases hne : i = j
  · obtain rfl := hne
    obtain ⟨y, hy, hyreq, -⟩ := h.own x hx
    exact ⟨y, hy, by rwa [hyreq]⟩
  · exact ⟨x, h.other i x hx hne, hreq⟩

/-- Setting a fate changes nothing else. -/
theorem fated_set {x : Sent} (hx : w.sent[j]? = some x) (hopen : x.tookEffect = none)
    (hsent : w'.sent = w.sent.set j { x with tookEffect := some fate }) : Fated w w' j fate := by
  have hj : j < w.sent.length := (List.getElem?_eq_some_iff.mp hx).1
  refine ⟨by rw [hx]; exact congrArg some hopen, fun i y hy => ?_, fun i y hy hne => ?_,
    fun y hy => ?_⟩
  · rw [hsent, List.getElem?_set] at hy
    split_ifs at hy with hij
    · obtain rfl := hij
      obtain rfl := Option.some.inj hy
      exact .inr ⟨rfl, x, hx, rfl, rfl⟩
    · exact .inl ⟨Ne.symm hij, hy⟩
  · rw [hsent, List.getElem?_set_ne (Ne.symm hne)]
    exact hy
  · obtain rfl : x = y := Option.some.inj (hx.symm.trans hy)
    refine ⟨{ x with tookEffect := some fate }, ?_, rfl, rfl⟩
    rw [hsent, List.getElem?_set_self hj]

/-- Knowledge survives a fate that brings nothing onto the calendar but the task's own event. -/
theorem Rel.fated (h : Rel home unmissed informed w own row s) (hf : Fated w w' j fate)
    (hlog : w'.log = w.log)
    (hcarried : w.Quiet own (·.creates = some row.opId) → Carried w'.calendar row.opId →
      Carried w.calendar row.opId ∨
        ∃ x, own = some j ∧ w'.sent[j]? = some x ∧ x.IsCreate ∧ x.tookEffect = some true)
    (hholds : w.Quiet own (World.Brings home row) → w'.Holds home row →
      w.Holds home row ∨ ∃ x, own = some j ∧ w'.sent[j]? = some x ∧ x.IsCreate) :
    Rel home unmissed informed w' own row s := by
  refine ⟨fun hu hs => hf.lost (h.clear hu hs), fun hs => hlog ▸ h.shown hs, fun hi hs => ?_,
    fun hi hs => ?_⟩
  · obtain ⟨hquiet, hcal⟩ := h.absent hi hs
    refine ⟨hf.quiet hquiet, fun hc => ?_⟩
    rcases hcarried hquiet hc with hc | ⟨x, hown, hx⟩
    · exact hf.landed (hcal hc)
    · exact ⟨j, x, hown, hx⟩
  · obtain ⟨hquiet, hcal⟩ := h.gone hi hs
    refine ⟨hf.quiet hquiet, fun hc => ?_⟩
    rcases hholds hquiet hc with hc | ⟨x, hown, hx⟩
    · exact hf.ownCreate (hcal hc)
    · exact ⟨j, x, hown, hx⟩

/-! ### Sending -/

theorem sent_concat {x y : Sent} {i : ℕ} (h : (w.sent ++ [y])[i]? = some x) :
    w.sent[i]? = some x ∨ i = w.sent.length ∧ x = y := by
  rcases Nat.lt_trichotomy i w.sent.length with hlt | rfl | hgt
  · rw [List.getElem?_append_left hlt] at h
    exact .inl h
  · rw [List.getElem?_concat_length] at h
    exact .inr ⟨rfl, (Option.some.inj h).symm⟩
  · rw [List.getElem?_eq_none (by rw [List.length_append, List.length_singleton]; omega)] at h
    cases h

/-- A write sent by the task takes none of its knowledge away while it is open. -/
theorem Rel.send (h : Rel home unmissed informed w none row s) {y : Sent}
    (hsent : w'.sent = w.sent ++ [y]) (hcal : w'.calendar = w.calendar)
    (hlog : ∀ e ∈ w.log, e ∈ w'.log) :
    Rel home unmissed informed w' (some w.sent.length) row s := by
  have hquiet : ∀ kind, w.Quiet none kind → w'.Quiet (some w.sent.length) kind := by
    intro kind hq i x hx hkind hown
    rw [hsent] at hx
    rcases sent_concat hx with hx | ⟨rfl, -⟩
    · exact hq i x hx hkind nofun
    · exact absurd rfl hown
  refine ⟨fun hu hs i x hx hop hown => ?_, fun hs => hlog _ (h.shown hs), fun hi hs => ?_,
    fun hi hs => ?_⟩
  · rw [hsent] at hx
    rcases sent_concat hx with hx | ⟨rfl, -⟩
    · exact h.clear hu hs i x hx hop nofun
    · exact absurd rfl hown
  · obtain ⟨hq, hc⟩ := h.absent hi hs
    refine ⟨hquiet _ hq, fun hcar => ?_⟩
    rw [hcal] at hcar
    obtain ⟨i, x, hnone, -⟩ := hc hcar
    cases hnone
  · obtain ⟨hq, hc⟩ := h.gone hi hs
    refine ⟨hquiet _ hq, fun hcar => ?_⟩
    rw [World.Holds, hcal] at hcar
    obtain ⟨i, x, hnone, -⟩ := hc hcar
    cases hnone

/-! ### Answers -/

variable {input : Input} {t : Task} {forced : Bool}

/-- The world a task goes on in after an answer: only what was shown and the journal changed. -/
structure After (w w' : World) (note : List Entry) : Prop where
  sent : w'.sent = w.sent
  calendar : w'.calendar = w.calendar
  log : w'.log = w.log ++ note

theorem World.take_after (w : World) (t : Task) (input : Input) (e : Ask) (p : Asks Ended) :
    After w (w.take t input e p) (w.note t e) := ⟨rfl, rfl, rfl⟩

theorem World.quiet_none {w : World} (h : w.Quiet own kind) (hown : ∀ i, own = some i →
    ∀ x, w.sent[i]? = some x → kind x.request → x.tookEffect ≠ none) : w.Quiet none kind := by
  intro i x hx hkind _
  by_cases hi : own = some i
  · exact hown i hi x hx hkind
  · exact h i x hx hkind hi

/-- What a task knew while it waited for a delete, it still knows without it. -/
theorem Rel.answered_delete (h : Rel home unmissed informed w own row s)
    (hown : ∀ i, own = some i → ∀ x, w.sent[i]? = some x → ¬ x.IsCreate) :
    Rel home unmissed informed w none row s := by
  refine ⟨fun hu hs i x hx hop _ => ?_, h.shown, fun hi hs => ?_, fun hi hs => ?_⟩
  · by_cases hi : own = some i
    · exact absurd (Sent.creates_isCreate hop) (hown i hi x hx)
    · exact h.clear hu hs i x hx hop hi
  · obtain ⟨hq, hc⟩ := h.absent hi hs
    refine ⟨World.quiet_none hq fun i hi x hx hkind => ?_, fun hcar => ?_⟩
    · exact absurd (Sent.creates_isCreate hkind) (hown i hi x hx)
    obtain ⟨i, x, hi, hx, hcreate, -⟩ := hc hcar
    exact absurd hcreate (hown i hi x hx)
  · obtain ⟨hq, hc⟩ := h.gone hi hs
    refine ⟨World.quiet_none hq fun i hi x hx hkind => ?_, fun hcar => ?_⟩
    · obtain ⟨event, -, hreq, -⟩ := hkind
      exact absurd ⟨event, hreq⟩ (hown i hi x hx)
    obtain ⟨i, x, hi, hx, hcreate⟩ := hc hcar
    exact absurd hcreate (hown i hi x hx)

/-- Nothing is on the calendar that a delete which took effect has targeted. -/
def World.Dead (home : Home) (w : World) : Prop :=
  ∀ x ∈ w.sent, ∀ target, x.request = .delete target → x.tookEffect = some true →
    ¬ Occurs home w.calendar fun o => occurrenceTarget o = target

/-- An ask that writes nothing waits for no write. -/
theorem World.Awaits.own_none {e : Ask} {k : e.Answer → Asks Ended} (h : w.Awaits (.ask e k) own)
    (hc : ∀ event, e ≠ .createEvent event) (hd : ∀ target, e ≠ .deleteEvent target) :
    own = none := by
  rcases own with _ | i
  · rfl
  obtain ⟨x, -, ⟨event, k', hp, -⟩ | ⟨target, k', hp, -⟩⟩ := h i rfl
  · cases hp
    exact absurd rfl (hc event)
  · cases hp
    exact absurd rfl (hd target)

theorem seen_holds {after : ℕ} {holds : CalendarView → Bool} {v : CalendarView}
    (h : w.seen after holds = some v) : w.view = some v ∧ after < v.push ∧ holds v = true := by
  obtain ⟨hv, hp⟩ := Option.filter_eq_some_iff.mp h
  rw [Bool.and_eq_true, decide_eq_true_eq] at hp
  exact ⟨hv, hp⟩

theorem note_shown {e : Ask} {v : CalendarView} (hjob : t.job = .op row)
    (hview : w.viewOf e = some v) (hshows : v.Shows row.opId) :
    .showed row.opId ∈ w.note t e := by
  have hsome : (v.createdBy row.opId).isSome = true := hshows
  rw [World.note, hjob, hview]
  dsimp only
  rw [if_pos hsome]
  exact List.mem_singleton_self _

theorem note_eq (t : Task) (e : Ask) :
    w.note t e = [] ∨ ∃ row, t.job = .op row ∧ w.note t e = [.showed row.opId] := by
  unfold World.note
  split
  next row v hjob _ =>
    split_ifs
    · exact .inr ⟨row, hjob, rfl⟩
    · exact .inl rfl
  next => exact .inl rfl

variable {p : Asks Ended}

/-- A view handed to an attempt tells it what is missing and what is gone. -/
theorem Rel.tell_freshView (h : Rel home unmissed informed w none row s) (hjob : t.job = .op row)
    {v : CalendarView} (hfresh : w.fresh = some v)
    (hasked : s.Asked t row)
    (hunmissed : unmissed → t.answered = 0 → row.Creates t.step → ¬ v.Shows row.opId →
      w.Lost none row.opId)
    (hinformed : informed → w.InformedBy home t row .freshView v) :
    Rel home unmissed informed (w.take t input .freshView p) none row
      (Known.next row s .freshView v) := by
  refine ⟨fun hu hs => ?_, fun hs => ?_, fun hi hs => ?_, fun hi hs => ?_⟩
  · obtain ⟨hfirst, hcreates⟩ := hasked.creating hs.1
    exact hunmissed hu (hasked.first.mp hfirst) hcreates hs.2
  · rcases hs with hs | hs
    · exact List.mem_append_left _ (h.shown hs)
    · exact List.mem_append_right _ (note_shown hjob hfresh hs)
  · have hnot : ¬ w.MayCarry none row.opId := fun hc => hs.2 ((hinformed hi).1 hs.1 hc)
    obtain ⟨hcar, hquiet⟩ := not_or.mp hnot
    exact ⟨not_not.mp hquiet, fun hc => absurd hc hcar⟩
  · obtain ⟨hsnooze, hlists, hlooks⟩ := hs
    have hnot : ¬ w.MayHold home none row := fun hc =>
      ((hinformed hi).2 (fun h h0 => hsnooze h (hasked.first.mpr h0)) hc).elim hlists hlooks
    obtain ⟨hhold, hquiet⟩ := not_or.mp hnot
    exact ⟨not_not.mp hquiet, fun hc => absurd hc hhold⟩

/-- The end of a wait for a confirmation tells what the views show by then. -/
theorem Rel.tell_confirm (h : Rel home unmissed informed w none row s) (hjob : t.job = .op row)
    {after : ℕ} {holds : CalendarView → Bool} {confirmed : Bool}
    (hseen : (w.seen after holds).isSome = confirmed)
    (hinformed : informed → w.InformedBy home t row (.confirm after holds) confirmed) :
    Rel home unmissed informed (w.take t input (.confirm after holds) p) none row
      (Known.next row s (.confirm after holds) confirmed) := by
  refine ⟨h.clear, fun hs => ?_, fun hi hs => ?_, fun hi hs => ?_⟩
  · rcases hs with hs | ⟨rfl, hshows⟩
    · exact List.mem_append_left _ (h.shown hs)
    · obtain ⟨v, hv⟩ := Option.isSome_iff_exists.mp hseen
      exact List.mem_append_right _ (note_shown hjob hv (hshows v (seen_holds hv).2.2))
  · rcases hs with hs | ⟨hrow, rfl, hall⟩
    · exact h.absent hi hs
    · have hnot : ¬ w.MayCarry none row.opId := by
        intro hc
        obtain ⟨v, hv, hpush, hshows⟩ := (hinformed hi).2 rfl hrow hc
        have hnone : w.seen after holds = none := by simpa using hseen
        rw [World.seen, hv] at hnone
        simp [Option.filter, hpush, hall v hshows] at hnone
      obtain ⟨hcar, hquiet⟩ := not_or.mp hnot
      exact ⟨not_not.mp hquiet, fun hc => absurd hc hcar⟩
  · rcases hs with hs | ⟨rfl, hgone⟩
    · exact h.gone hi hs
    · obtain ⟨hhold, hquiet⟩ := not_or.mp ((hinformed hi).1 rfl hgone)
      exact ⟨not_not.mp hquiet, fun hc => absurd hc hhold⟩

/-- The answer to a create tells whether it was refused. -/
theorem Rel.tell_create (h : Rel home unmissed informed w own row s) {i : ℕ} (hi : own = some i)
    {x : Sent} (hx : w.sent[i]? = some x) {event : EventWrite}
    {outcome : EffectOutcome}
    (hrefused : outcome ≠ .applied → outcome ≠ .unknown → x.tookEffect = some false) :
    Rel home unmissed informed (w.take t input (.createEvent event) p) none row
      (Known.next row s (.createEvent event) outcome) := by
  refine ⟨fun hu hs j y hy hop _ => ?_, fun hs => ?_, fun hinf hs => ?_, fun _ hs => hs.elim⟩
  · obtain ⟨hclear, hne⟩ := hs
    by_cases hj : own = some j
    · obtain rfl : i = j := Option.some.inj (hi.symm.trans hj)
      obtain rfl : x = y := Option.some.inj (hx.symm.trans hy)
      exact hrefused hne.1 hne.2
    · exact h.clear hu hclear j y hy hop hj
  · exact List.mem_append_left _ (h.shown hs)
  · obtain ⟨habsent, hne⟩ := hs
    have hfate := hrefused hne.1 hne.2
    obtain ⟨hquiet, hcar⟩ := h.absent hinf habsent
    refine ⟨World.quiet_none hquiet fun j hj y hy _ => ?_, fun hc => ?_⟩
    · obtain rfl : i = j := Option.some.inj (hi.symm.trans hj)
      obtain rfl : x = y := Option.some.inj (hx.symm.trans hy)
      rw [hfate]
      exact nofun
    · obtain ⟨j, y, hj, hy, -, hlanded⟩ := hcar hc
      obtain rfl : i = j := Option.some.inj (hi.symm.trans hj)
      obtain rfl : x = y := Option.some.inj (hx.symm.trans hy)
      rw [hfate] at hlanded
      cases hlanded

/-- The answer to a delete tells that its target is gone, where that is what was recorded. -/
theorem Rel.tell_delete (h : Rel home unmissed informed w own row s) {i : ℕ} (hi : own = some i)
    {x : Sent} (hx : w.sent[i]? = some x) {target : EventTarget}
    (hreq : x.request = .delete target) (hdead : w.Dead home) {outcome : EffectOutcome}
    (happlied : outcome = .applied → x.tookEffect = some true)
    (hinformed : informed → w.InformedBy home t row (.deleteEvent target) outcome) :
    Rel home unmissed informed (w.take t input (.deleteEvent target) p) none row
      (Known.next row s (.deleteEvent target) outcome) := by
  have hbase : Rel home unmissed informed w none row s := by
    refine h.answered_delete fun j hj y hy hcreate => ?_
    obtain rfl : i = j := Option.some.inj (hi.symm.trans hj)
    obtain rfl : x = y := Option.some.inj (hx.symm.trans hy)
    exact hcreate.ne_delete hreq
  refine ⟨hbase.clear, fun hs => List.mem_append_left _ (hbase.shown hs), hbase.absent,
    fun hinf hs => ?_⟩
  rcases hs with hs | ⟨rfl, hrec⟩
  · exact hbase.gone hinf hs
  · obtain ⟨hquiet, hall⟩ := hinformed hinf rfl hrec
    refine ⟨hquiet, ?_⟩
    rintro ⟨start, stop, o, ho, hhandles⟩
    by_cases htarget : occurrenceTarget o = target
    · have hmem := List.mem_of_getElem? hx
      exact absurd ⟨start, stop, o, ho, htarget⟩ (hdead x hmem target hreq (happlied rfl))
    · exact absurd ⟨start, stop, o, ho, hhandles, htarget⟩ hall

/-- A read through REST tells that the recorded target is gone, where it is not listed. -/
theorem Rel.tell_calendarEvents (h : Rel home unmissed informed w none row s) {start stop : ℤ}
    {items : Option (List CalendarItem)}
    (hinformed : informed → w.InformedBy home t row (.calendarEvents start stop) items) :
    Rel home unmissed informed (w.take t input (.calendarEvents start stop) p) none row
      (Known.next row s (.calendarEvents start stop) items) := by
  refine ⟨h.clear, fun hs => List.mem_append_left _ (h.shown hs), h.absent, fun hi hs => ?_⟩
  rcases hs with hs | ⟨l, target, rfl, hrec, hnone⟩
  · exact h.gone hi hs
  · have hnot : ¬ w.MayHold home none row := by
      intro hc
      rw [hinformed hi hc l target rfl hrec] at hnone
      cases hnone
    obtain ⟨hhold, hquiet⟩ := not_or.mp hnot
    exact ⟨not_not.mp hquiet, fun hc => absurd hc hhold⟩

theorem Rel.tell_viewNow (h : Rel home unmissed informed w none row s)
    {view : Option CalendarView}
    (hinformed : informed → w.InformedBy home t row .viewNow view) :
    Rel home unmissed informed (w.take t input .viewNow p) none row
      (Known.next row s .viewNow view) := by
  refine ⟨h.clear, fun hs => List.mem_append_left _ (h.shown hs), h.absent, fun hi hs => ?_⟩
  rcases hs with hs | ⟨v, rfl, hnone⟩
  · exact h.gone hi hs
  · obtain ⟨hhold, hquiet⟩ := not_or.mp fun hc => hnone (hinformed hi hc v rfl)
    exact ⟨not_not.mp hquiet, fun hc => absurd hc hhold⟩

/-- What an attempt learns from an answer holds. -/
theorem Rel.tell (h : Rel home unmissed informed w own row s) {e : Ask}
    {k : e.Answer → Asks Ended} (htask : w.task = some t) (hjob : t.job = .op row)
    (hstage : t.stage = .asking (.ask e k) own forced) (hawaits : w.Awaits (.ask e k) own)
    (hdead : w.Dead home) (hasked : s.Asked t row) (hrule : w.Rule home unmissed informed input)
    {a : e.Answer}
    (htold : w.told home own forced input e = some a) :
    Rel home unmissed informed (w.take t input e p) none row (Known.next row s e a) := by
  obtain ⟨hallows, hunm, hinf⟩ := hrule
  have hunmissed := fun hu => hunm hu t row e k own forced a htask hjob hstage htold
  have hinformed := fun hi => hinf hi t row e k own forced a htask hjob hstage htold
  have hplain : own = none → Known.next row s e a = s.moved →
      Rel home unmissed informed (w.take t input e p) none row (Known.next row s e a) := by
    rintro rfl hs
    rw [hs]
    exact ⟨h.clear, fun hs => List.mem_append_left _ (h.shown hs), h.absent, h.gone⟩
  have hawaited : ∀ i, own = some i → w.awaited = w.sent[i]? := by
    rintro i rfl
    rw [World.awaited, htask]
    dsimp only
    rw [hstage]
  cases e with
  | freshView =>
      obtain rfl := hawaits.own_none nofun nofun
      dsimp only [World.told] at htold
      split at htold
      · exact h.tell_freshView hjob htold hasked hunmissed hinformed
      · cases htold
  | viewNow =>
      obtain rfl := hawaits.own_none nofun nofun
      exact h.tell_viewNow hinformed
  | createEvent event =>
      dsimp only [World.told] at htold
      split at htold
      next outcome i =>
        obtain rfl := Option.some.inj htold
        obtain ⟨x, hx, -⟩ := hawaits i rfl
        refine h.tell_create rfl hx fun hne hne' => ?_
        have hanswers : w.Answers outcome := hallows
        unfold World.Answers at hanswers
        rw [hawaited i rfl, hx] at hanswers
        cases outcome with
        | notDispatched => exact hanswers
        | rejected code message => exact hanswers
        | applied => exact absurd rfl hne
        | unknown => exact absurd rfl hne'
      next => cases htold
  | deleteEvent target =>
      dsimp only [World.told] at htold
      split at htold
      next outcome i =>
        obtain rfl := Option.some.inj htold
        obtain ⟨x, hx, hreq⟩ := hawaits i rfl
        have hdel : x.request = .delete target := by
          rcases hreq with ⟨event, k', hp, -⟩ | ⟨target', k', hp, hreq⟩
          · cases hp
          · cases hp
            exact hreq
        refine h.tell_delete rfl hx hdel hdead (fun happ => ?_) hinformed
        subst happ
        have hanswers : w.Answers .applied := hallows
        rwa [World.Answers, hawaited i rfl, hx] at hanswers
      next => cases htold
  | calendarEvents start stop =>
      obtain rfl := hawaits.own_none nofun nofun
      exact h.tell_calendarEvents hinformed
  | confirm after holds =>
      obtain rfl := hawaits.own_none nofun nofun
      refine h.tell_confirm hjob ?_ hinformed
      dsimp only [World.told] at htold
      split at htold
      · split_ifs at htold with hseen
        rw [hseen, Option.some.inj htold]
      · split_ifs at htold with hseen hforced
        · rw [hseen, Option.some.inj htold]
        · rw [← Option.some.inj htold]
          simpa using hseen
      · cases htold
  | reread after => exact hplain (hawaits.own_none nofun nofun) rfl
  | advance step => exact hplain (hawaits.own_none nofun nofun) rfl
  | waitReconnect => exact hplain (hawaits.own_none nofun nofun) rfl
  | nowUtcMs => exact hplain (hawaits.own_none nofun nofun) rfl
  | panics => exact a.elim

end EchoMuse.Alarms
