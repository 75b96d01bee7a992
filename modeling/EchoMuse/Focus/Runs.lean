import EchoMuse.Focus.Exclusion
import Mathlib.Data.List.Induction
import Mathlib.Data.List.ReduceOption
import Mathlib.Order.Bounds.Defs

/-!
# Runs of the Speaker Focus

Runs of calls with a clock that does not go back. Next to the manager stands what an observer
counts: how long the active occurrence has been in the background since its last completed burst,
and when new provisional ducks were applied.

## Main results

* `Slots.apply`: the slots hold the last ducks, and a window never sees more ducks than slots;
* `speaker_focus`: the laws of every run, exclusion among them as long as no call is exposed.
-/

namespace EchoMuse.Focus

variable {D : Type*}

namespace Manager

/-! ### The ducks of a window -/

theorem before_trans {a b c : Option ℕ} (hab : before a b = true) (hbc : before b c = true) :
    before a c = true := by
  rcases a with _ | a <;> rcases b with _ | b <;> rcases c with _ | c <;> simp_all [before]
  omega

/-- No slot is before the oldest. -/
theorem oldest_least (times : List (Option ℕ)) (hne : times ≠ []) :
    oldest times < times.length ∧
      ∀ j < times.length, before (times.getD j none) (times.getD (oldest times) none) = false := by
  have hfold (k : ℕ) : ∀ o, o = (List.range k).foldl
      (fun i j => if before (times.getD j none) (times.getD i none) then j else i) 0 →
        o < max k 1 ∧ ∀ j < k, before (times.getD j none) (times.getD o none) = false := by
    induction k with
    | zero => rintro o rfl; simp
    | succ k ih =>
        rintro o rfl
        rw [List.range_succ, List.foldl_append]
        obtain ⟨hlt, hleast⟩ := ih _ rfl
        generalize (List.range k).foldl _ 0 = o at hlt hleast
        simp only [List.foldl_cons, List.foldl_nil]
        split_ifs with hbefore
        · refine ⟨by omega, fun j hj => ?_⟩
          rcases Nat.lt_succ_iff_lt_or_eq.mp hj with hj | rfl
          · by_contra h
            have h := before_trans (by simpa using h) hbefore
            exact absurd ((hleast j hj).symm.trans h) nofun
          · rcases times.getD j none with _ | t <;> simp [before]
        · refine ⟨by omega, fun j hj => ?_⟩
          rcases Nat.lt_succ_iff_lt_or_eq.mp hj with hj | rfl
          · exact hleast j hj
          · simpa using hbefore
  have hpos : 0 < times.length := List.length_pos_iff.mpr hne
  obtain ⟨hlt, hleast⟩ := hfold times.length _ rfl
  exact ⟨by rwa [Nat.max_eq_left hpos] at hlt, hleast⟩

/-- The ducks of a window. -/
def within (ducks : List ℕ) (w : ℕ) : ℕ :=
  ducks.countP fun t => w ≤ t ∧ t < w + provisionalWindow

/-- The slots hold the last ducks, and no window holds more ducks than there are slots. -/
structure Slots (times : List (Option ℕ)) (ducks : List ℕ) (now : ℕ) : Prop where
  length : times.length = provisionalPerWindow
  past : ∀ t ∈ ducks, t ≤ now
  last : ∃ old : List ℕ, ducks.Perm (old ++ times.reduceOption) ∧
    ∀ x ∈ old, ∀ s ∈ times, ∃ y, s = some y ∧ x ≤ y
  bound : ∀ w, within ducks w ≤ provisionalPerWindow

theorem Slots.mono {times : List (Option ℕ)} {ducks : List ℕ} {t now : ℕ} (h : Slots times ducks t)
    (ht : t ≤ now) : Slots times ducks now :=
  ⟨h.length, fun x hx => (h.past x hx).trans ht, h.last, h.bound⟩

/-- A new duck takes the oldest slot. -/
theorem Slots.apply {times : List (Option ℕ)} {ducks : List ℕ} {now : ℕ} (h : Slots times ducks now)
    (hrecent : (times.countP fun t => t.any fun t => now - t < provisionalWindow) <
      provisionalPerWindow) :
    Slots (times.set (oldest times) (some now)) (ducks ++ [now]) now := by
  have hlength : 0 < times.length := by simp [h.length, provisionalPerWindow]
  obtain ⟨hlt, hleast⟩ := oldest_least times (List.length_pos_iff.mp hlength)
  obtain ⟨pre, post, htimes, -, hset⟩ := @List.exists_of_set _ (oldest times) (some now) times hlt
  generalize ha : times[oldest times] = a at htimes
  have hmem (s : Option ℕ) (hs : s ∈ times) : before s a = false := by
    obtain ⟨j, hj, rfl⟩ := List.mem_iff_getElem.mp hs
    have hjleast := hleast j hj
    simpa [hj, hlt, ha] using hjleast
  obtain ⟨old, hperm, hold⟩ := h.last
  rw [hset]
  refine ⟨?_, fun t ht => ?_, ⟨old ++ a.toList, ?_, ?_⟩, fun w => ?_⟩
  · rw [← hset, List.length_set, h.length]
  · rcases List.mem_append.mp ht with ht | ht
    · exact h.past t ht
    · exact (List.mem_singleton.mp ht).le
  · have hcons : (pre ++ a :: post).reduceOption =
        pre.reduceOption ++ (a.toList ++ post.reduceOption) := by
      rcases a with _ | a <;> simp [List.reduceOption_append]
    rw [htimes, hcons] at hperm
    rw [List.reduceOption_append, List.reduceOption_cons_of_some]
    refine (hperm.append_right [now]).trans ?_
    rw [List.perm_iff_count]
    intro x
    simp only [List.count_append, List.count_cons]
    simp
    omega
  · intro x hx s hs
    have hs : s = some now ∨ s ∈ times := by
      rw [htimes]
      simp only [List.mem_append, List.mem_cons] at hs ⊢
      tauto
    have hx : x ≤ now ∧ (x ∈ old ∨ a = some x) := by
      rcases List.mem_append.mp hx with hx | hx
      · exact ⟨h.past x (hperm.mem_iff.mpr (List.mem_append_left _ hx)), .inl hx⟩
      · have ha' : a = some x := by simpa using hx
        have hin : x ∈ times.reduceOption := by
          rw [List.reduceOption_mem_iff, htimes, ha']
          simp
        exact ⟨h.past x (hperm.mem_iff.mpr (List.mem_append_right _ hin)), .inr ha'⟩
    rcases hs with rfl | hs
    · exact ⟨now, rfl, hx.1⟩
    · rcases hx.2 with hx | rfl
      · exact hold x hx s hs
      · rcases s with _ | y
        · exact absurd (hmem none hs) (by simp [before])
        · exact ⟨y, rfl, by simpa [before] using hmem _ hs⟩
  · -- the window of the new duck holds neither the duck it replaces nor one before it
    have hstale : ∀ y, a = some y → y + provisionalWindow ≤ now := by
      rintro y rfl
      have hslot : ∃ s ∈ times, ¬ (s.any fun t => now - t < provisionalWindow) = true := by
        by_contra hall
        push Not at hall
        rw [List.countP_eq_length.mpr hall, h.length] at hrecent
        exact absurd hrecent (Nat.lt_irrefl _)
      obtain ⟨s, hs, hfar⟩ := hslot
      have hbefore := hmem s hs
      rcases s with _ | z
      · simp [before] at hbefore
      · have hyz : y ≤ z := by simpa [before] using hbefore
        have hz : provisionalWindow ≤ now - z := by simpa using hfar
        have hpos : 0 < provisionalWindow := by decide
        omega
    have hsplit : within (ducks ++ [now]) w =
        within old w + within pre.reduceOption w + within a.toList w +
          within post.reduceOption w + within [now] w := by
      have hcons : (pre ++ a :: post).reduceOption =
          pre.reduceOption ++ (a.toList ++ post.reduceOption) := by
        rcases a with _ | a <;> simp [List.reduceOption_append]
      rw [htimes, hcons] at hperm
      simp only [within, List.countP_append, hperm.countP_eq]
      omega
    by_cases hin : w ≤ now ∧ now < w + provisionalWindow
    · have hsize : pre.length + post.length + 1 = provisionalPerWindow := by
        have hlen := h.length
        rw [htimes, List.length_append, List.length_cons] at hlen
        omega
      have hpre := (List.countP_le_length (l := pre.reduceOption)
        (p := fun t => w ≤ t ∧ t < w + provisionalWindow)).trans (List.reduceOption_length_le pre)
      have hpost := (List.countP_le_length (l := post.reduceOption)
        (p := fun t => w ≤ t ∧ t < w + provisionalWindow)).trans (List.reduceOption_length_le post)
      have hreplaced : within a.toList w = 0 := by
        rw [within, List.countP_eq_zero]
        intro y hy
        have hfar := hstale y (by simpa using hy)
        simp
        omega
      have hgone : within old w = 0 := by
        rw [within, List.countP_eq_zero]
        intro x hx
        obtain ⟨y, rfl, hxy⟩ := hold x hx a (by simp [htimes])
        have hfar := hstale y rfl
        simp
        omega
      have hnew : within [now] w ≤ 1 := List.countP_le_length
      rw [hsplit, hreplaced, hgone]
      unfold within at hnew ⊢
      omega
    · have hnew : within [now] w = 0 := by
        rw [within, List.countP_eq_zero]
        simpa using hin
      have hbound := h.bound w
      have happend : within (ducks ++ [now]) w = within ducks w + within [now] w :=
        List.countP_append
      omega

/-! ### What an observer counts -/

variable [LinearOrder D] [Zero D]

/-- The call applies a new provisional duck. -/
def newDuck (m : Manager D) (c : Call D) : Bool :=
  match c.op with
  | .candidateOpen id _ _ =>
      (m.step c).2.2 = .ducked true && (m.expire c.visit c.now).prov.all (·.id ≠ id)
  | _ => false

end Manager

variable [LinearOrder D] [Zero D]

/-- The manager, the clock it last read, how long the active occurrence has been in the
background since its last completed burst, and when new provisional ducks were applied. -/
structure History (D : Type*) where
  manager : Manager D
  last : ℕ
  total : ℕ
  ducks : List ℕ

/-- A call that reads the clock, as an observer counts it. -/
def History.see (h : History D) (c : Call D) : History D :=
  if c.op.valid then
    { manager := (h.manager.step c).1
      last := c.now
      total :=
        if c.op = .alertBurstCompleted h.manager.alertID ∨
            (h.manager.step c).1.alertID ≠ h.manager.alertID then 0
        else h.total + if h.manager.alertBG then c.now - h.last else 0
      ducks := if h.manager.newDuck c then h.ducks ++ [c.now] else h.ducks }
  else h

/-- The history of a run. -/
def history (duckDB : D) (calls : List (Call D)) : History D :=
  calls.foldl History.see ⟨.new duckDB, 0, 0, []⟩

theorem manager_history (duckDB : D) (calls : List (Call D)) :
    (history duckDB calls).manager = Manager.after duckDB calls := by
  induction calls using List.reverseRecOn with
  | nil => rfl
  | append_singleton calls c ih =>
      rw [history, Manager.after, List.foldl_append, List.foldl_append]
      change (History.see (history duckDB calls) c).manager =
        ((Manager.after duckDB calls).step c).1
      rw [← ih]
      by_cases hvalid : c.op.valid = true
      · rw [History.see, if_pos hvalid]
      · rw [History.see, if_neg hvalid, Manager.step, if_neg hvalid]

namespace Manager

/-- The background time counted against the occurrence's budget. -/
def counted (m : Manager D) (now : ℕ) : ℕ := m.budget + if m.alertBG then now - m.bgSince else 0

omit [LinearOrder D] [Zero D] in
/-- What an operation does to the background budget. -/
theorem budget_change (m : Manager D) (now : ℕ) (op : Op) :
    (op ≠ .alertBurstCompleted m.alertID ∧ (m.change now op).1.alertID = m.alertID ∧
      (m.change now op).1.counted now = m.counted now) ∨
    (op = .alertBurstCompleted m.alertID ∧ (m.change now op).1.alertID = m.alertID ∧
      (m.change now op).1.counted now = 0) ∨
    (op ≠ .alertBurstCompleted m.alertID ∧
      ((m.change now op).1.alertID ≠ m.alertID ∨ m.alertID = "") ∧
      (m.change now op).1.alertBG = false ∧ (m.change now op).1.budget = 0) := by
  rcases op with ⟨x, owner, g, kind, ttl⟩ | ⟨x, g, ttl⟩ | ⟨x, g⟩ | _ | ⟨x, b, ttl⟩ | ⟨x, ttl⟩ |
    x | ⟨x, owner, g⟩ | ⟨x, owner, g⟩ | ⟨x, g⟩ | x | x | ⟨x, b⟩ | _
  case acquire =>
      refine .inl ⟨by simp, ?_⟩
      simp only [change, Manager.acquire, cancelDialog_eq]
      split_ifs <;> exact ⟨rfl, rfl⟩
  case renew =>
      refine .inl ⟨by simp, ?_⟩
      simp only [change, Manager.renew]
      split_ifs <;> exact ⟨rfl, rfl⟩
  case release =>
      refine .inl ⟨by simp, ?_⟩
      simp only [change, Manager.release]
      split_ifs <;> exact ⟨rfl, rfl⟩
  case endSession =>
      refine .inl ⟨by simp, ?_⟩
      simp only [change, Manager.endSession, cancelDialog_eq]
      exact ⟨trivial, rfl⟩
  case candidateOpen =>
      refine .inl ⟨by simp, ?_⟩
      simp only [change, Manager.candidateOpen]
      split_ifs <;> exact ⟨rfl, rfl⟩
  case candidateAccept =>
      refine .inl ⟨by simp, ?_⟩
      simp only [change, Manager.candidateAccept, cancelDialog_eq]
      split
      · exact ⟨rfl, rfl⟩
      · split_ifs <;> exact ⟨rfl, rfl⟩
  case dialogOutputStarted =>
      refine .inl ⟨by simp, ?_⟩
      simp only [change, Manager.dialogOutputStarted]
      split_ifs <;> exact ⟨rfl, rfl⟩
  case dialogOutputFinished =>
      refine .inl ⟨by simp, ?_⟩
      simp only [change, Manager.dialogOutputFinished]
      split_ifs <;> exact ⟨rfl, rfl⟩
  case alertActive =>
      simp only [change, Manager.alertActive]
      split_ifs with hx
      · exact .inl ⟨by simp, rfl, rfl⟩
      · exact .inr (.inr ⟨by simp, .inl hx, rfl, rfl⟩)
      · exact .inr (.inr ⟨by simp, .inl hx, rfl, rfl⟩)
  case alertBurstCompleted =>
      simp only [change, Manager.alertBurstCompleted]
      split_ifs with hx
      · refine .inl ⟨fun h => hx ?_, rfl, rfl⟩
        exact Op.alertBurstCompleted.inj h
      · refine .inr (.inl ⟨congrArg _ (not_not.mp hx), rfl, ?_⟩)
        simp [counted]
  case alertEnded =>
      simp only [change, Manager.alertEnded]
      have hended : "" ≠ m.alertID ∨ m.alertID = "" := by
        rcases eq_or_ne m.alertID "" with h | h
        · exact .inr h
        · exact .inl h.symm
      split_ifs with hx
      · exact .inl ⟨by simp, rfl, rfl⟩
      · exact .inr (.inr ⟨by simp, hended, rfl, rfl⟩)
      · exact .inr (.inr ⟨by simp, hended, rfl, rfl⟩)
  all_goals exact .inl ⟨by simp, rfl, rfl⟩

/-- The deadlines and the policy leave the background time that is counted. -/
theorem counted_step {m : Manager D} {c : Call D} (hvalid : c.op.valid = true) :
    (m.step c).1.counted c.now = ((m.expire c.visit c.now).change c.now c.op).1.counted c.now ∧
      (m.step c).1.alertID = ((m.expire c.visit c.now).change c.now c.op).1.alertID ∧
      (m.step c).1.duckTimes = ((m.expire c.visit c.now).change c.now c.op).1.duckTimes ∧
      (m.step c).2.2 = ((m.expire c.visit c.now).change c.now c.op).2 := by
  have hrest := (fires_deadlines c.now ((m.expire c.visit c.now).change c.now c.op).1).rest
  obtain ⟨out, pending, -, -, heq⟩ := recompute_eq c.now
    (((m.expire c.visit c.now).change c.now c.op).1.deadlines c.now)
  simp only [step, hvalid, if_true, heq]
  generalize ((m.expire c.visit c.now).change c.now c.op).1 = f at hrest ⊢
  generalize f.deadlines c.now = g at hrest
  have hbudget : g.budget = f.budget := by rw [hrest]
  have hbg : g.alertBG = f.alertBG := by rw [hrest]
  have hsince : g.bgSince = f.bgSince := by rw [hrest]
  have halert : g.alertID = f.alertID := by rw [hrest]
  have htimes : g.duckTimes = f.duckTimes := by rw [hrest]
  refine ⟨?_, halert, htimes, trivial⟩
  simp only [counted, hbudget, hbg, hsince]
  rcases f.alertBG with _ | _ <;> rcases g.background with _ | _ <;> simp

omit [LinearOrder D] [Zero D] in
/-- Only a new duck touches the slots: it takes the oldest, if there is room in the window. -/
theorem duckTimes_change (m : Manager D) (now : ℕ) (op : Op) :
    (m.change now op).1.duckTimes = m.duckTimes ∧
        (∀ id b ttl, op = .candidateOpen id b ttl →
          (m.change now op).2 = .ducked true → m.prov.any (·.id = id) = true) ∨
      ∃ id b ttl, op = .candidateOpen id b ttl ∧ (m.change now op).2 = .ducked true ∧
        m.prov.any (·.id = id) = false ∧ m.recent now < provisionalPerWindow ∧
          (m.change now op).1.duckTimes = m.duckTimes.set (oldest m.duckTimes) (some now) := by
  rcases op with ⟨x, owner, g, kind, ttl⟩ | ⟨x, g, ttl⟩ | ⟨x, g⟩ | _ | ⟨x, b, ttl⟩ | ⟨x, ttl⟩ |
    x | ⟨x, owner, g⟩ | ⟨x, owner, g⟩ | ⟨x, g⟩ | x | x | ⟨x, b⟩ | _
  case candidateOpen =>
      simp only [change, Manager.candidateOpen]
      split_ifs with hsound hany hrecent
      · exact .inl ⟨rfl, by simp⟩
      · refine .inl ⟨rfl, fun id b ttl hop _ => ?_⟩
        obtain ⟨rfl, -, -⟩ := Op.candidateOpen.inj hop
        exact hany
      · exact .inl ⟨rfl, by simp⟩
      · exact .inr ⟨x, b, ttl, rfl, rfl, by simpa using hany, Nat.not_le.mp hrecent, rfl⟩
  all_goals refine .inl ⟨?_, by simp⟩
  case acquire =>
      simp only [change, Manager.acquire, cancelDialog_eq]
      split_ifs <;> rfl
  case renew =>
      simp only [change, Manager.renew]
      split_ifs <;> rfl
  case release =>
      simp only [change, Manager.release]
      split_ifs <;> rfl
  case endSession => simp only [change, Manager.endSession, cancelDialog_eq]
  case candidateAccept =>
      simp only [change, Manager.candidateAccept, cancelDialog_eq]
      split
      · rfl
      · split_ifs <;> rfl
  case dialogOutputStarted =>
      simp only [change, Manager.dialogOutputStarted]
      split_ifs <;> rfl
  case dialogOutputFinished =>
      simp only [change, Manager.dialogOutputFinished]
      split_ifs <;> rfl
  case alertActive =>
      simp only [change, Manager.alertActive]
      split_ifs <;> rfl
  case alertBurstCompleted =>
      simp only [change, Manager.alertBurstCompleted]
      split_ifs <;> rfl
  case alertEnded =>
      simp only [change, Manager.alertEnded]
      split_ifs <;> rfl
  all_goals rfl

theorem slots_step {m : Manager D} {c : Call D} (hvalid : c.op.valid = true) {ducks : List ℕ}
    (h : Slots m.duckTimes ducks c.now) :
    Slots (m.step c).1.duckTimes (if m.newDuck c then ducks ++ [c.now] else ducks) c.now := by
  obtain ⟨-, -, htimes, hout⟩ := counted_step (m := m) hvalid
  have hexpire : (m.expire c.visit c.now).duckTimes = m.duckTimes := by
    rw [(trims_expire c.visit c.now m).rest]
  rw [htimes]
  rcases duckTimes_change (m.expire c.visit c.now) c.now c.op with
    ⟨hsame, hold⟩ | ⟨id, b, ttl, hop, hducked, hnew, hrecent, hset⟩
  · have hnot : m.newDuck c = false := by
      unfold newDuck
      split
      case h_1 id b ttl hop =>
          rw [hout]
          by_cases hducked : ((m.expire c.visit c.now).change c.now c.op).2 = .ducked true
          · have hany := hold id b ttl hop hducked
            simp only [List.any_eq_true, decide_eq_true_eq] at hany
            simpa [hducked] using hany
          · simp [hducked]
      case h_2 => rfl
    rw [hnot, hsame, hexpire]
    exact h
  · have hduck : m.newDuck c = true := by
      unfold newDuck
      rw [hop]
      simp only [hout, hducked, decide_true, Bool.true_and]
      simpa using hnew
    rw [hduck, hset, hexpire]
    rw [recent, hexpire] at hrecent
    exact h.apply hrecent

end Manager

/-- What the observer counts agrees with what the manager keeps. -/
structure History.Agrees (h : History D) : Prop where
  invariant : h.manager.Invariant h.last
  total : h.total = h.manager.counted h.last
  idle : h.manager.alertID = "" → h.manager.budget = 0
  slots : Manager.Slots h.manager.duckTimes h.ducks h.last

/-- Every call keeps the counts. -/
theorem History.Agrees.see {h : History D} (ha : h.Agrees) {c : Call D} (ht : h.last ≤ c.now) :
    (h.see c).Agrees := by
  by_cases hvalid : c.op.valid = true
  swap
  · rwa [History.see, if_neg hvalid]
  have hinv := ha.invariant
  obtain ⟨hcounted, halert, -, -⟩ := Manager.counted_step (m := h.manager) hvalid
  have hrest := (Manager.trims_expire c.visit c.now h.manager).rest
  have hbefore : (h.manager.expire c.visit c.now).counted c.now =
      h.total + if h.manager.alertBG then c.now - h.last else 0 := by
    rw [hrest, ha.total]
    simp only [Manager.counted]
    rcases hbg : h.manager.alertBG with _ | _
    · simp
    · have hsince := hinv.since hbg
      simp
      omega
  have hexpireID : (h.manager.expire c.visit c.now).alertID = h.manager.alertID := by rw [hrest]
  have hidle (hnone : h.manager.alertID = "") :
      (h.manager.expire c.visit c.now).counted c.now = 0 ∧
        h.total + (if h.manager.alertBG then c.now - h.last else 0) = 0 := by
    have hbg : h.manager.alertBG = false := by
      rcases hbg : h.manager.alertBG with _ | _
      · rfl
      · exact absurd hnone (hinv.active (.inl hbg))
    rw [hbefore, ha.total]
    simp [Manager.counted, hbg, ha.idle hnone]
  have hchange := Manager.budget_change (h.manager.expire c.visit c.now) c.now c.op
  rw [hexpireID] at hchange
  rw [History.see, if_pos hvalid]
  refine ⟨hinv.step ht hvalid, ?_, fun hnone => ?_,
    Manager.slots_step hvalid (ha.slots.mono ht)⟩
  · dsimp only
    rw [hcounted, halert]
    rcases hchange with ⟨hop, hid, hc⟩ | ⟨hop, hid, hc⟩ | ⟨hop, hid, hbg, hb⟩
    · rw [if_neg (by simp [hop, hid]), hc, hbefore]
    · rw [if_pos (.inl hop), hc]
    · have hzero : ((h.manager.expire c.visit c.now).change c.now c.op).1.counted c.now = 0 := by
        simp [Manager.counted, hbg, hb]
      rw [hzero]
      rcases hid with hid | hnone
      · exact if_pos (.inr hid)
      · split
        · rfl
        · exact (hidle hnone).2
  · have hle : (h.manager.step c).1.budget ≤ (h.manager.step c).1.counted c.now :=
      Nat.le_add_right _ _
    have hzero : (h.manager.step c).1.counted c.now = 0 := by
      rw [hcounted]
      rcases hchange with ⟨-, hid, hc⟩ | ⟨-, -, hc⟩ | ⟨-, -, hbg, hb⟩
      · rw [hc]
        exact (hidle (hid.symm.trans (halert.symm.trans hnone))).1
      · exact hc
      · simp [Manager.counted, hbg, hb]
    dsimp only
    omega

/-! ### Runs -/

omit [Zero D] in
/-- A fold of minima is the least of its values. -/
theorem isLeast_foldl_min (a : D) (ds : List D) : IsLeast {x | x = a ∨ x ∈ ds} (ds.foldl min a) := by
  induction ds generalizing a with
  | nil => exact ⟨.inl rfl, fun x hx => hx.elim (fun h => h.ge) fun h => absurd h List.not_mem_nil⟩
  | cons d ds ih =>
      obtain ⟨hmem, hle⟩ := ih (min a d)
      refine ⟨?_, fun x hx => ?_⟩
      · rcases hmem with hmem | hmem
        · rcases min_choice a d with h | h
          · exact .inl (hmem.trans h)
          · refine .inr ?_
            change ds.foldl min (min a d) ∈ d :: ds
            rw [hmem, h]
            exact List.mem_cons_self
        · exact .inr (List.mem_cons_of_mem _ hmem)
      · have hfirst := hle (.inl rfl)
        rcases hx with rfl | hx
        · exact hfirst.trans (min_le_left _ _)
        · rcases List.mem_cons.mp hx with rfl | hx
          · exact hfirst.trans (min_le_right _ _)
          · exact hle (.inr hx)

namespace Manager

/-- The ducks are the deepest among the leases and the provisional ducks; of the leases only
those converted from a candidate duck the dialog. -/
structure Deepest (m : Manager D) : Prop where
  content : IsLeast {x | x = 0 ∨ (∃ l ∈ m.leases, l.duckDB = x) ∨ ∃ p ∈ m.prov, p.duckDB = x}
    m.out.mix.contentDuckDB
  dialog : IsLeast
    {x | x = 0 ∨ (∃ l ∈ m.leases, l.converted = true ∧ l.duckDB = x) ∨ ∃ p ∈ m.prov, p.duckDB = x}
    m.out.mix.dialogDuckDB

theorem Decides.deepest {m : Manager D} (h : Decides m m.out) : m.Deepest := by
  have hfold (ls ps : List D) : IsLeast {x | x = 0 ∨ x ∈ ls ∨ x ∈ ps} (ps.foldl min (ls.foldl min 0)) := by
    have hboth := isLeast_foldl_min 0 (ls ++ ps)
    rw [List.foldl_append] at hboth
    simpa only [List.mem_append] using hboth
  constructor
  · rw [h.contentDuckDB]
    simpa [contentDuck] using hfold (m.leases.map (·.duckDB)) (m.prov.map (·.duckDB))
  · rw [h.dialogDuckDB]
    simpa [dialogDuck, and_assoc] using
      hfold ((m.leases.filter (·.converted)).map (·.duckDB)) (m.prov.map (·.duckDB))

/-- No call of the run is exposed. -/
def Careful (m : Manager D) : List (Call D) → Prop
  | [] => True
  | c :: calls =>
      (c.op.valid = true → ¬ (m.expire c.visit c.now).Exposes c.now c.op) ∧
        Careful (m.step c).1 calls

instance (m : Manager D) (now : ℕ) (op : Op) : Decidable (m.Exposes now op) :=
  inferInstanceAs (Decidable (_ ∧ _ ∧ _ ∧ _))

instance decidableCareful : (m : Manager D) → (calls : List (Call D)) → Decidable (m.Careful calls)
  | _, [] => isTrue trivial
  | m, c :: calls =>
      have := decidableCareful (m.step c).1 calls
      inferInstanceAs (Decidable ((_ → ¬ _) ∧ _))

/-- The last call of a careful run is not exposed. -/
theorem Careful.last {m : Manager D} {calls : List (Call D)} {c : Call D}
    (h : m.Careful (calls ++ [c])) (hvalid : c.op.valid = true) :
    ¬ ((calls.foldl (fun m c => (m.step c).1) m).expire c.visit c.now).Exposes c.now c.op := by
  induction calls generalizing m with
  | nil => exact h.1 hvalid
  | cons c' calls ih => exact ih h.2

/-- The manager is called at every deadline: no call comes later than the deadline before it. -/
def Punctual (m : Manager D) : List (Call D) → Prop
  | [] => True
  | c :: calls =>
      (c.op.valid = true → ∀ d, m.nextDeadline = some d → c.now ≤ d) ∧ Punctual (m.step c).1 calls

end Manager

/-- The clock does not go back. -/
def Forward (calls : List (Call D)) : Prop :=
  (calls.filter (·.op.valid)).Pairwise (·.now ≤ ·.now)

/-- The manager of a history takes the step of the call. -/
theorem History.manager_see (h : History D) (c : Call D) :
    (h.see c).manager = (h.manager.step c).1 := by
  by_cases hvalid : c.op.valid = true
  · rw [see, if_pos hvalid]
  · rw [see, if_neg hvalid, Manager.step, if_neg hvalid]

/-- A call at or before the deadline leaves the background time within the cap. -/
theorem History.total_see {h : History D} (ha : h.Agrees) (htotal : h.total ≤ alertBackgroundCap)
    {c : Call D} (hpunctual : c.op.valid = true →
      ∀ d, h.manager.nextDeadline = some d → c.now ≤ d) : (h.see c).total ≤ alertBackgroundCap := by
  by_cases hvalid : c.op.valid = true
  swap
  · rwa [see, if_neg hvalid]
  rw [see, if_pos hvalid]
  dsimp only
  split
  · exact Nat.zero_le _
  · rcases hbg : h.manager.alertBG with _ | _
    · simpa using htotal
    · -- the deadline is no later than the end of the budget
      have hinv := ha.invariant
      have hspent : h.manager.budgetSpent = false := by
        have hbackground := hinv.background.symm.trans hbg
        simp only [Manager.background, Bool.and_eq_true] at hbackground
        simpa using hbackground.1.2
      have hdue : h.manager.bgSince + (alertBackgroundCap - h.manager.budget) ∈
          h.manager.dueTimes := by
        simp [Manager.dueTimes, hbg, hspent]
      have hdeadline := hpunctual hvalid _ (List.min?_eq_some_min (List.ne_nil_of_mem hdue))
      have hend := hdeadline.trans (List.min_le_of_mem hdue)
      have htotal := ha.total
      have hwithin := hinv.within hbg hspent
      have hsince := hinv.since hbg
      simp only [Manager.counted, hbg, if_true] at htotal ⊢
      omega

/-- Runs keep the counts; careful ones keep alerts and dialog output apart, and punctual ones keep
the background time within the cap. -/
theorem History.run {h : History D} (ha : h.Agrees) (calls : List (Call D))
    (hlast : ∀ c ∈ calls, c.op.valid = true → h.last ≤ c.now) (hforward : Forward calls) :
    (calls.foldl see h).Agrees ∧
      (h.manager.Careful calls → h.manager.Exclusive →
        (calls.foldl see h).manager.Exclusive) ∧
      (h.manager.Punctual calls → h.total ≤ alertBackgroundCap →
        (calls.foldl see h).total ≤ alertBackgroundCap) := by
  induction calls generalizing h with
  | nil => exact ⟨ha, fun _ h => h, fun _ h => h⟩
  | cons c calls ih =>
      have hsee : (h.see c).Agrees ∧
          ∀ c' ∈ calls, c'.op.valid = true → (h.see c).last ≤ c'.now := by
        by_cases hvalid : c.op.valid = true
        · refine ⟨ha.see (hlast c List.mem_cons_self hvalid), fun c' hc' hvalid' => ?_⟩
          rw [see, if_pos hvalid]
          have hpairs := hforward
          rw [Forward, List.filter_cons, if_pos hvalid, List.pairwise_cons] at hpairs
          exact hpairs.1 c' (List.mem_filter.mpr ⟨hc', hvalid'⟩)
        · rw [see, if_neg hvalid]
          exact ⟨ha, fun c' hc' => hlast c' (List.mem_cons_of_mem _ hc')⟩
      have hrest : Forward calls :=
        hforward.sublist ((List.sublist_cons_self c calls).filter _)
      obtain ⟨hagrees, hexclusive, htotal⟩ := ih hsee.1 hsee.2 hrest
      rw [List.foldl_cons]
      rw [History.manager_see] at hexclusive htotal
      refine ⟨hagrees, fun hcareful hm => ?_, fun hpunctual ht => ?_⟩
      · exact hexclusive hcareful.2 (hm.step ha.invariant hcareful.1)
      · exact htotal hpunctual.2 (total_see ha ht hpunctual.1)

theorem agrees_new (duckDB : D) : (⟨.new duckDB, 0, 0, []⟩ : History D).Agrees := by
  refine ⟨Manager.invariant_new duckDB, rfl, fun _ => rfl, ?_⟩
  refine ⟨rfl, nofun, ⟨[], by simp [Manager.new], nofun⟩, fun w => Nat.zero_le _⟩

/-- Every time at which there is work to do lies ahead of the clock last read. -/
theorem Manager.Invariant.lt_nextDeadline {now : ℕ} {m : Manager D} (h : m.Invariant now) {d : ℕ}
    (hd : m.nextDeadline = some d) : now < d := by
  have hmem : d ∈ m.dueTimes := List.min?_mem hd
  simp only [dueTimes, List.mem_append, List.mem_map, Option.mem_toList] at hmem
  rcases hmem with ((⟨l, hl, rfl⟩ | ⟨p, hp, rfl⟩) | hyield) | hbudget
  · exact h.leases l hl
  · exact h.prov p hp
  · exact h.yieldAt d hyield
  · split_ifs at hbudget with hcond
    · obtain ⟨hbg, hspent⟩ : m.alertBG = true ∧ m.budgetSpent = false := by simpa using hcond
      obtain rfl := List.mem_singleton.mp hbudget
      have hwithin := h.within hbg hspent
      have hsince := h.since hbg
      omega
    · exact absurd hbudget List.not_mem_nil

/-- **The speaker focus.** In every run whose clock does not go back: an occurrence is in the
background for less than its cap in total between two completed bursts; a window sees no more
provisional ducks than it may; the ducks of the policy are the deepest among the live leases and
provisional ducks, and content is paused exactly while an occurrence is active; and the next
deadline lies ahead of the clock last read. As long as no call is exposed, a foreground alert and
a running dialog output do not coexist, and the output that played or starts has been cancelled. -/
theorem speaker_focus (duckDB : D) (calls : List (Call D)) (hforward : Forward calls) :
    let m := Manager.after duckDB calls
    let h := history duckDB calls
    ((Manager.new duckDB).Careful calls → m.Exclusive ∧
      ∀ c, c.op.valid = true → (Manager.new duckDB).Careful (calls ++ [c]) →
        (m.step c).1.alertID ≠ "" → (m.step c).1.alertBG = false →
          (∀ id generation, m.isDialog id generation = true →
            c.op ≠ .dialogOutputFinished id generation →
              (∀ id' owner g, c.op ≠ .dialogOutputStarted id' owner g) →
                .cancelPlayback id generation .normal ∈ (m.step c).2.1) ∧
          ∀ id owner generation, c.op = .dialogOutputStarted id owner generation →
            .cancelPlayback id generation .normal ∈ (m.step c).2.1) ∧
      (m.alertBG = true → h.total < alertBackgroundCap) ∧
      ((Manager.new duckDB).Punctual calls → h.total ≤ alertBackgroundCap) ∧
      (∀ w, Manager.within h.ducks w ≤ provisionalPerWindow) ∧
      (∀ l ∈ m.leases, h.last < l.expires) ∧ (∀ p ∈ m.prov, h.last < p.expires) ∧
      m.Deepest ∧ m.out.mix.pauseContent = decide (m.alertID ≠ "") ∧
      m.out.alertBackground = m.alertBG ∧
      ∀ d, m.nextDeadline = some d → h.last < d := by
  intro m h
  have hm : h.manager = m := manager_history duckDB calls
  obtain ⟨hagrees, hexclusive, htotal⟩ := History.run (agrees_new duckDB) calls
    (fun c _ _ => Nat.zero_le _) hforward
  change h.Agrees at hagrees
  change _ → _ → h.manager.Exclusive at hexclusive
  change _ → _ → h.total ≤ _ at htotal
  have hinv := hagrees.invariant
  rw [hm] at hexclusive hinv
  have hnew : (Manager.new duckDB).Exclusive := fun _ _ => rfl
  refine ⟨fun hcareful => ⟨hexclusive hcareful hnew, fun c hvalid hcareful' halert hbg => ?_⟩,
    fun hbg => ?_, fun hpunctual => htotal hpunctual (Nat.zero_le _), hagrees.slots.bound,
    hinv.leases, hinv.prov, hinv.decides.deepest, hinv.decides.pauseContent,
    hinv.decides.alertBackground.trans hinv.background.symm, fun d => hinv.lt_nextDeadline⟩
  · have hquiet := (hexclusive hcareful hnew).step hinv hcareful'.last halert hbg
    exact Manager.cancelled_of_quiet hvalid hquiet
  · have hspent : m.budgetSpent = false := by
      have hbackground := hinv.background.symm.trans hbg
      simp only [Manager.background, Bool.and_eq_true] at hbackground
      simpa using hbackground.1.2
    have hcounted := hagrees.total
    rw [hm] at hcounted
    rw [hcounted]
    simpa [Manager.counted, hbg] using hinv.within hbg hspent

/-- A call that iterates the leases as they are listed. -/
def call (now : ℕ) (op : Op) : Call ℤ := ⟨now, id, fun _ => .refl _, op⟩

/-- An answer plays as the alarm becomes due. -/
def answering : List (Call ℤ) :=
  [call 0 (.dialogOutputStarted "answer" "turn" 1), call 0 (.alertActive "alarm")]

theorem speaker_focus_answering :
    (Manager.after (-18) answering).Exclusive ∧
      .cancelPlayback "answer" 1 .normal ∈
        ((Manager.after (-18) answering).step (call alertYield .tick)).2.1 := by
  have hforward : Forward answering := by
    unfold Forward
    decide
  obtain ⟨hexclusive, hcancels⟩ := (speaker_focus (-18) answering hforward).1 (by decide +kernel)
  refine ⟨hexclusive, ?_⟩
  have htick := hcancels (call alertYield .tick) rfl (by decide +kernel) (by decide +kernel)
    (by decide +kernel)
  exact htick.1 "answer" 1 (by decide +kernel) nofun nofun

/-- A reply that starts while the user is being listened to, after the answer has yielded to the
alarm, goes on under the ringing alarm when the listening ends. -/
theorem reply_under_alarm :
    ¬ ∀ calls : List (Call ℤ), Forward calls → (Manager.after (-18) calls).Exclusive := by
  intro h
  have hforward : Forward (answering ++
      [call second (.acquire "listen" "turn2" 2 .dialogInput (10 * second)),
        call alertYield .tick, call alertYield (.dialogOutputStarted "reply" "turn2" 2),
        call alertYield (.release "listen" 2)]) := by
    unfold Forward
    decide
  have hquiet := h _ hforward (by decide +kernel) (by decide +kernel)
  revert hquiet
  decide +kernel

end EchoMuse.Focus
