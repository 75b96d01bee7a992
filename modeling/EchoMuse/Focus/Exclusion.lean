import EchoMuse.Focus.Manager

/-!
# Alerts and Dialog Output Exclude Each Other

What the phases of a call do to the focus: the expiries, the operation, the deadlines, and the
policy derived from what is left. A foreground alert and a running dialog output do not meet,
unless output that the occurrence has already made yield plays on, or starts, while the last
input focus goes.

## Main results

* `Invariant.step`: what every call keeps;
* `Exclusive.step`: a call that is not `Exposed` keeps alerts and dialog output apart.
-/

namespace EchoMuse.Focus

variable {D : Type*}

theorem ttlOr_pos (ttl : ℤ) : 0 < ttlOr ttl := by
  unfold ttlOr
  split_ifs with h
  · decide
  · omega

namespace Manager

/-! ### The expiries -/

theorem cancelDialog_eq (m : Manager D) :
    m.cancelDialog =
      { m with
        dialogPlaying := false
        pending := m.pending ++
          if m.dialogPlaying then [.cancelPlayback m.dialogID m.dialogGen .normal] else [] } := by
  rcases m with ⟨⟩
  unfold cancelDialog
  split_ifs <;> simp_all [queue]

/-- The dialog output still plays, or its cancellation is queued. -/
def Accounts (id : String) (generation : ℕ) (m : Manager D) : Prop :=
  m.isDialog id generation = true ∨ .cancelPlayback id generation .normal ∈ m.pending

theorem Accounts.cancelDialog {id : String} {generation : ℕ} {m : Manager D}
    (h : Accounts id generation m) : Accounts id generation m.cancelDialog := by
  rw [cancelDialog_eq]
  rcases h with h | h
  · simp only [isDialog, Bool.and_eq_true, decide_eq_true_eq] at h
    obtain ⟨⟨hplays, rfl⟩, rfl⟩ := h
    exact .inr (by simp [hplays])
  · exact .inr (List.mem_append_left _ h)

/-- What the expiries can do: they drop leases and ducks, and cancel the dialog output. -/
structure Trims (m e : Manager D) : Prop where
  leases : e.leases ⊆ m.leases
  prov : e.prov ⊆ m.prov
  playing : e.dialogPlaying = true → m.dialogPlaying = true
  accounts : ∀ id generation, Accounts id generation m → Accounts id generation e
  rest : e = { m with
    leases := e.leases, prov := e.prov, dialogPlaying := e.dialogPlaying, pending := e.pending }

namespace Trims

variable {m e f : Manager D}

theorem refl (m : Manager D) : Trims m m :=
  ⟨fun _ => id, fun _ => id, id, fun _ _ => id, rfl⟩

theorem trans (h : Trims m e) (h' : Trims e f) : Trims m f := by
  refine ⟨fun _ hl => h.leases (h'.leases hl), fun _ hp => h.prov (h'.prov hp),
    fun hf => h.playing (h'.playing hf), fun id g ha => h'.accounts id g (h.accounts id g ha), ?_⟩
  have hrest := h'.rest
  rw [h.rest] at hrest
  exact hrest

end Trims

theorem trims_cancelDialog (m : Manager D) : Trims m m.cancelDialog := by
  have haccounts (id : String) (g : ℕ) (h : Accounts id g m) : Accounts id g m.cancelDialog :=
    h.cancelDialog
  rw [cancelDialog_eq] at haccounts ⊢
  exact ⟨fun _ => id, fun _ => id, nofun, haccounts, rfl⟩

theorem trims_expireLease (now : ℕ) (m : Manager D) (l : Held D) :
    Trims m (expireLease now m l) := by
  have hdrop : Trims m
      ({ m with leases := m.leases.filter (·.id ≠ l.id) }.queue (.leaseExpired l.toLease)) := by
    refine ⟨List.filter_sublist.subset, fun _ => id, id, fun _ _ h => ?_, rfl⟩
    exact h.imp_right (List.mem_append_left _)
  unfold expireLease
  dsimp only
  split_ifs
  · exact .refl m
  · exact hdrop.trans (trims_cancelDialog _)
  · exact hdrop

theorem trims_foldl (now : ℕ) (ls : List (Held D)) (m : Manager D) :
    Trims m (ls.foldl (expireLease now) m) := by
  induction ls generalizing m with
  | nil => exact .refl m
  | cons l ls ih => exact (trims_expireLease now m l).trans (ih _)

/-- A lease that is visited and stays has not expired. -/
theorem live_of_mem_foldl {now : ℕ} {ls : List (Held D)} {m : Manager D} {l : Held D}
    (hl : l ∈ ls) (hstays : l ∈ (ls.foldl (expireLease now) m).leases) : now < l.expires := by
  induction ls generalizing m with
  | nil => exact absurd hl List.not_mem_nil
  | cons x ls ih =>
      rcases List.mem_cons.mp hl with rfl | hl
      · by_contra hexpired
        have hgone : l ∈ (expireLease now m l).leases := (trims_foldl now ls _).leases hstays
        rw [expireLease, if_neg hexpired] at hgone
        dsimp only at hgone
        split_ifs at hgone
        · rw [cancelDialog_eq] at hgone
          simp [queue] at hgone
        · simp [queue] at hgone
      · exact ih hl hstays

variable {visit : List (Held D) → List (Held D)} (hvisit : ∀ ls, (visit ls).Perm ls)

theorem trims_expire (visit : List (Held D) → List (Held D)) (now : ℕ) (m : Manager D) :
    Trims m (m.expire visit now) := by
  have h := trims_foldl now (visit m.leases) m
  exact h.trans ⟨fun _ => id, List.filter_sublist.subset, id, fun _ _ => id, rfl⟩

include hvisit in
theorem live_expire {now : ℕ} {m : Manager D} {l : Held D} (hl : l ∈ (m.expire visit now).leases) :
    now < l.expires := by
  refine live_of_mem_foldl ((hvisit m.leases).mem_iff.mpr ?_) hl
  exact (trims_expire visit now m).leases hl

theorem live_prov_expire {now : ℕ} {m : Manager D} {p : Provisional D}
    (hp : p ∈ (m.expire visit now).prov) : now < p.expires := by
  simpa using (List.mem_filter.mp hp).2

/-! ### The invariant -/

/-- What holds in the course of a call that has read the clock, once the expiries are done. -/
structure Between (now : ℕ) (m : Manager D) : Prop where
  leases : ∀ l ∈ m.leases, now < l.expires
  prov : ∀ p ∈ m.prov, now < p.expires
  yielded : m.yielded = true → m.yieldAt = none
  spent : m.budgetSpent = false → m.budget < alertBackgroundCap
  since : m.alertBG = true → m.bgSince ≤ now
  active : m.alertBG = true ∨ m.budgetSpent = true → m.alertID ≠ ""

namespace Between

variable {now : ℕ} {m : Manager D}

theorem cancelDialog (h : Between now m) : Between now m.cancelDialog := by
  rw [cancelDialog_eq]
  exact ⟨h.leases, h.prov, h.yielded, h.spent, h.since, h.active⟩

theorem put (h : Between now m) {l : Held D} (hl : now < l.expires) : Between now (m.put l) := by
  refine ⟨fun x hx => ?_, h.prov, h.yielded, h.spent, h.since, h.active⟩
  rcases List.mem_cons.mp hx with rfl | hx
  · exact hl
  · exact h.leases x (List.mem_filter.mp hx).1

theorem resetAlert (h : Between now m) : Between now m.resetAlert :=
  ⟨h.leases, h.prov, fun _ => rfl, fun _ => by simp [Manager.resetAlert, alertBackgroundCap, second],
    nofun, by simp [Manager.resetAlert]⟩

theorem acquire (h : Between now m) (id owner : String) (generation : ℕ) (kind : Kind) (ttl : ℤ) :
    Between now (m.acquire now id owner generation kind ttl).1 := by
  have hkept : Between now
      { m with leases := m.leases.filter fun l => ¬ (l.converted ∧ l.owner = owner) } :=
    ⟨fun l hl => h.leases l (List.mem_filter.mp hl).1, h.prov, h.yielded, h.spent, h.since,
      h.active⟩
  have hexpires : now < now + ttlOr ttl := Nat.lt_add_of_pos_right (ttlOr_pos ttl)
  unfold Manager.acquire
  dsimp only
  split_ifs
  · exact h
  · refine Between.put (Between.cancelDialog ?_) hexpires
    exact ⟨hkept.leases, hkept.prov, nofun, hkept.spent, hkept.since, hkept.active⟩
  · exact hkept.put hexpires

theorem renew (h : Between now m) (id : String) (generation : ℕ) (ttl : ℤ) :
    Between now (m.renew now id generation ttl).1 := by
  unfold Manager.renew
  split_ifs
  · exact h
  · exact h
  · refine ⟨fun l hl => ?_, h.prov, h.yielded, h.spent, h.since, h.active⟩
    obtain ⟨x, hx, rfl⟩ := List.mem_map.mp hl
    split_ifs
    · exact Nat.lt_add_of_pos_right (ttlOr_pos ttl)
    · exact h.leases x hx

theorem release (h : Between now m) (id : String) (generation : ℕ) :
    Between now (m.release id generation).1 := by
  unfold Manager.release
  split_ifs
  · exact h
  · exact ⟨fun l hl => h.leases l (List.mem_filter.mp hl).1, h.prov, h.yielded, h.spent, h.since,
      h.active⟩

theorem candidateOpen (h : Between now m) (id : String) (producingSound : Bool) (ttl : ℤ) :
    Between now (m.candidateOpen now id producingSound ttl).1 := by
  unfold Manager.candidateOpen
  split_ifs
  · exact h
  · exact h
  · exact h
  · refine ⟨h.leases, fun p hp => ?_, nofun, h.spent, h.since, h.active⟩
    rcases List.mem_cons.mp hp with rfl | hp
    · exact Nat.lt_add_of_pos_right (ttlOr_pos ttl)
    · exact h.prov p hp

theorem candidateRenew (h : Between now m) (id : String) (ttl : ℤ) :
    Between now (m.candidateRenew now id ttl) := by
  refine ⟨h.leases, fun p hp => ?_, h.yielded, h.spent, h.since, h.active⟩
  obtain ⟨x, hx, rfl⟩ := List.mem_map.mp hp
  split_ifs
  · exact Nat.lt_add_of_pos_right (ttlOr_pos ttl)
  · exact h.prov x hx

theorem candidateAccept (h : Between now m) (id owner : String) (generation : ℕ) :
    Between now (m.candidateAccept now id owner generation) := by
  unfold Manager.candidateAccept
  split
  · exact h
  · have hdropped : Between now { m with prov := m.prov.filter (·.id ≠ id) } :=
      ⟨h.leases, fun p hp => h.prov p (List.mem_filter.mp hp).1, h.yielded, h.spent, h.since,
        h.active⟩
    dsimp only
    split_ifs
    · exact hdropped.cancelDialog
    · have hexpires : now < now + defaultTTL := Nat.lt_add_of_pos_right (by decide)
      exact hdropped.cancelDialog.put hexpires

theorem dialogOutputFinished (h : Between now m) (id : String) (generation : ℕ) :
    Between now (m.dialogOutputFinished id generation) := by
  unfold Manager.dialogOutputFinished
  dsimp only
  split_ifs
  · exact ⟨h.leases, h.prov, fun _ => rfl, h.spent, h.since, h.active⟩
  · exact ⟨h.leases, h.prov, h.yielded, h.spent, h.since, h.active⟩
  · exact h

theorem alertActive (h : Between now m) (id : String) : Between now (m.alertActive now id) := by
  unfold Manager.alertActive
  dsimp only
  have hreset := h.resetAlert
  split_ifs
  · exact h
  · exact ⟨h.leases, h.prov, nofun, hreset.spent, nofun, by simp [Manager.resetAlert]⟩
  · exact ⟨h.leases, h.prov, fun _ => rfl, hreset.spent, nofun, by simp [Manager.resetAlert]⟩

theorem alertEnded (h : Between now m) (id : String) (physical : Bool) :
    Between now (m.alertEnded id physical) := by
  unfold Manager.alertEnded
  dsimp only
  have hreset := h.resetAlert
  split_ifs
  · exact h
  · exact ⟨hreset.leases, hreset.prov, hreset.yielded, hreset.spent, hreset.since, hreset.active⟩
  · exact hreset

/-- Every operation keeps what holds in the course of a call. -/
theorem change (h : Between now m) (op : Op) : Between now (m.change now op).1 := by
  rcases op with ⟨id, owner, g, kind, ttl⟩ | ⟨id, g, ttl⟩ | ⟨id, g⟩ | _ | ⟨id, b, ttl⟩ | ⟨id, ttl⟩ |
    id | ⟨id, owner, g⟩ | ⟨id, owner, g⟩ | ⟨id, g⟩ | id | id | ⟨id, b⟩ | _
  · exact h.acquire id owner g kind ttl
  · exact h.renew id g ttl
  · exact h.release id g
  · refine Between.cancelDialog ⟨?_, ?_, h.yielded, h.spent, h.since, h.active⟩ <;> simp
  · exact h.candidateOpen id b ttl
  · exact h.candidateRenew id ttl
  · exact ⟨h.leases, fun p hp => h.prov p (List.mem_filter.mp hp).1, h.yielded, h.spent, h.since,
      h.active⟩
  · exact h.candidateAccept id owner g
  · simp only [Manager.change, Manager.dialogOutputStarted]
    split_ifs <;> exact ⟨h.leases, h.prov, h.yielded, h.spent, h.since, h.active⟩
  · exact h.dialogOutputFinished id g
  · exact h.alertActive id
  · simp only [Manager.change, Manager.alertBurstCompleted]
    split_ifs with hid
    · exact h
    · have hcap : 0 < alertBackgroundCap := by decide
      refine ⟨h.leases, h.prov, h.yielded, fun _ => hcap, fun _ => Nat.le_refl _, ?_⟩
      rintro (hbg | hspent)
      · exact h.active (.inl hbg)
      · exact absurd hspent nofun
  · exact h.alertEnded id b
  · exact h

end Between

/-! ### The deadlines -/

/-- What the deadlines can do: mark the occurrence as yielded to or its budget as spent, with the
dialog output cancelled. -/
structure Fires (f g : Manager D) : Prop where
  accounts : ∀ id generation, Accounts id generation f → Accounts id generation g
  playing : g.dialogPlaying = true → g = f
  rest : g = { f with
    yieldAt := g.yieldAt, yielded := g.yielded, budgetSpent := g.budgetSpent
    dialogPlaying := g.dialogPlaying, pending := g.pending }

theorem Fires.trans {f g h : Manager D} (hfg : Fires f g) (hgh : Fires g h) : Fires f h := by
  refine ⟨fun id n ha => hgh.accounts id n (hfg.accounts id n ha), fun hplays => ?_, ?_⟩
  · obtain rfl := hgh.playing hplays
    exact hfg.playing hplays
  · have hrest := hgh.rest
    rw [hfg.rest] at hrest
    exact hrest

theorem fires_yieldDue (now : ℕ) (m : Manager D) : Fires m (m.yieldDue now) := by
  unfold yieldDue
  split_ifs
  · have haccounts (id : String) (n : ℕ) (h : Accounts id n m) :
        Accounts id n ({ m with yieldAt := none, yielded := true } : Manager D).cancelDialog :=
      Accounts.cancelDialog h
    rw [cancelDialog_eq] at haccounts ⊢
    exact ⟨haccounts, nofun, rfl⟩
  · exact ⟨fun _ _ => id, fun _ => rfl, rfl⟩

theorem fires_budgetDue (now : ℕ) (m : Manager D) : Fires m (m.budgetDue now) := by
  unfold budgetDue
  split_ifs
  · have haccounts (id : String) (n : ℕ) (h : Accounts id n m) :
        Accounts id n (({ m with budgetSpent := true } : Manager D).cancelDialog.queue
          (.alertPreempted m.alertID)) :=
      (Accounts.cancelDialog (m := { m with budgetSpent := true }) h).imp_right
        (List.mem_append_left _)
    rw [cancelDialog_eq] at haccounts ⊢
    exact ⟨haccounts, nofun, rfl⟩
  · exact ⟨fun _ _ => id, fun _ => rfl, rfl⟩

theorem fires_deadlines (now : ℕ) (m : Manager D) : Fires m (m.deadlines now) :=
  (fires_yieldDue now m).trans (fires_budgetDue now _)

/-- No deadline is left behind. -/
structure Timely (now : ℕ) (m : Manager D) : Prop where
  yieldAt : ∀ t, m.yieldAt = some t → now < t
  within : m.alertBG = true → m.budgetSpent = false →
    m.budget + (now - m.bgSince) < alertBackgroundCap

theorem yieldAt_yieldDue {now : ℕ} {m : Manager D} {t : ℕ}
    (h : (m.yieldDue now).yieldAt = some t) : now < t := by
  unfold yieldDue at h
  split_ifs at h with hdue
  · rw [cancelDialog_eq] at h
    exact absurd h nofun
  · simpa [h] using hdue

theorem Between.deadlines {now : ℕ} {m : Manager D} (h : Between now m) :
    Between now (m.deadlines now) ∧ Timely now (m.deadlines now) := by
  have hyield : Between now (m.yieldDue now) := by
    unfold yieldDue
    split_ifs
    · refine Between.cancelDialog ⟨h.leases, h.prov, fun _ => rfl, h.spent, h.since, h.active⟩
    · exact h
  have htimely := @yieldAt_yieldDue D now m
  unfold Manager.deadlines
  generalize m.yieldDue now = g at hyield htimely
  unfold budgetDue
  split_ifs with hdue
  · rw [cancelDialog_eq]
    refine ⟨⟨hyield.leases, hyield.prov, hyield.yielded, nofun, hyield.since, ?_⟩,
      fun _ => htimely, fun _ => nofun⟩
    exact fun _ => hyield.active (.inl hdue.1)
  · refine ⟨hyield, fun _ => htimely, fun hbg hspent => ?_⟩
    by_contra hover
    exact hdue ⟨hbg, by simp [hspent], Nat.not_lt.mp hover⟩

/-! ### The policy -/

section

variable [LinearOrder D] [Zero D]

/-- The policy is the one the leases, the ducks and the occurrence ask for. -/
structure Decides (m : Manager D) (out : Output D) : Prop where
  contentDuckDB : out.mix.contentDuckDB = m.contentDuck
  dialogDuckDB : out.mix.dialogDuckDB = m.dialogDuck
  pauseContent : out.mix.pauseContent = decide (m.alertID ≠ "")
  alertBackground : out.alertBackground = m.background

/-- What deriving the policy does: it counts the background time that ends. -/
theorem recompute_eq (now : ℕ) (m : Manager D) :
    ∃ out pending, Decides m out ∧ m.pending ⊆ pending ∧
      m.recompute now = { m with
        bgSince := if m.alertBG = false ∧ m.background = true then now else m.bgSince
        budget :=
          if m.alertBG = true ∧ m.background = false then m.budget + (now - m.bgSince)
          else m.budget
        alertBG := m.background, ramp := .normal, out, pending } := by
  have hcounted : (if m.background ≠ m.alertBG then
        { m with
          bgSince := if m.background then now else m.bgSince
          budget := if m.background then m.budget else m.budget + (now - m.bgSince)
          alertBG := m.background }
      else m) =
      { m with
        bgSince := if m.alertBG = false ∧ m.background = true then now else m.bgSince
        budget :=
          if m.alertBG = true ∧ m.background = false then m.budget + (now - m.bgSince)
          else m.budget
        alertBG := m.background } := by
    generalize m.background = bg
    rcases m with ⟨⟩
    rcases bg with _ | _ <;> split_ifs <;> simp_all
  unfold recompute
  dsimp only
  rw [hcounted]
  generalize (if m.alertBG = false ∧ m.background = true then now else m.bgSince) = since
  generalize (if m.alertBG = true ∧ m.background = false then m.budget + (now - m.bgSince)
    else m.budget) = budget
  split_ifs with hsame
  · obtain ⟨hmix, hbg⟩ := Output.mk.inj hsame
    obtain ⟨hcontent, hdialog, hpause, -⟩ := Policy.mk.inj hmix
    exact ⟨m.out, m.pending, ⟨hcontent.symm, hdialog.symm, hpause.symm, hbg.symm⟩, fun _ => id, rfl⟩
  · exact ⟨_, _, ⟨rfl, rfl, rfl, rfl⟩, List.subset_append_left _ _, rfl⟩

/-- What holds between the calls, `now` being the clock last read. -/
structure Invariant (now : ℕ) (m : Manager D) : Prop extends Between now m, Timely now m where
  background : m.alertBG = m.background
  decides : Decides m m.out
  taken : m.pending = []

theorem invariant_recompute {now : ℕ} {m : Manager D} (h : Between now m) (ht : Timely now m) :
    Invariant now { m.recompute now with pending := [] } := by
  obtain ⟨out, pending, hout, -, heq⟩ := recompute_eq now m
  have hbackground (hbg : m.background = true) : m.alertID ≠ "" ∧ m.budgetSpent = false := by
    simp only [Manager.background, Bool.and_eq_true] at hbg
    simpa using hbg.1
  rw [heq]
  refine ⟨⟨h.leases, h.prov, h.yielded, fun hspent => ?_, fun hbg => ?_, ?_⟩,
    ⟨ht.yieldAt, fun hbg hspent => ?_⟩, rfl,
    ⟨hout.contentDuckDB, hout.dialogDuckDB, hout.pauseContent, hout.alertBackground⟩, rfl⟩
  · dsimp only at hspent ⊢
    split_ifs with hleaves
    · exact ht.within hleaves.1 hspent
    · exact h.spent hspent
  · dsimp only at hbg ⊢
    rcases hwas : m.alertBG with _ | _
    · simp [hbg]
    · simpa using h.since hwas
  · rintro (hbg | hspent)
    · exact (hbackground hbg).1
    · exact h.active (.inr hspent)
  · dsimp only at hbg hspent ⊢
    rcases hwas : m.alertBG with _ | _
    · simpa [hbg] using h.spent hspent
    · simpa [hbg] using ht.within hwas hspent

/-! ### Calls -/

theorem Invariant.expire {t now : ℕ} {m : Manager D} (h : Invariant t m) (ht : t ≤ now)
    {visit : List (Held D) → List (Held D)} (hvisit : ∀ ls, (visit ls).Perm ls) :
    Between now (m.expire visit now) := by
  have hrest := (trims_expire visit now m).rest
  refine ⟨fun l => live_expire hvisit, fun p => live_prov_expire, ?_, ?_, ?_, ?_⟩ <;> rw [hrest]
  · exact h.yielded
  · exact h.spent
  · exact fun hbg => (h.since hbg).trans ht
  · exact h.active

/-- Every call that reads the clock keeps the invariant. -/
theorem Invariant.step {t : ℕ} {m : Manager D} (h : Invariant t m) {c : Call D} (ht : t ≤ c.now)
    (hvalid : c.op.valid = true) : Invariant c.now (m.step c).1 := by
  obtain ⟨hbetween, htimely⟩ := ((h.expire ht c.visit_perm).change c.op).deadlines
  have hstep : (m.step c).1 = { (((m.expire c.visit c.now).change c.now c.op).1.deadlines
      c.now).recompute c.now with pending := [] } := by
    rw [Manager.step, if_pos hvalid]
  rw [hstep]
  exact invariant_recompute hbetween htimely

theorem invariant_new (duckDB : D) : Invariant 0 (new duckDB) := by
  have hcap : 0 < alertBackgroundCap := by decide
  refine ⟨⟨nofun, nofun, nofun, fun _ => hcap, nofun, ?_⟩, ⟨nofun, nofun⟩, rfl,
    ⟨rfl, rfl, rfl, rfl⟩, rfl⟩
  simp [new]

end

/-! ### Exclusion -/

/-- A foreground alert and a running dialog output do not coexist. -/
def Exclusive (m : Manager D) : Prop :=
  m.alertID ≠ "" → m.alertBG = false → m.dialogPlaying = false

/-- A dialog output plays on through the operation, or starts in it, and the occurrence does not
take back that output has yielded to it. -/
def playsOn (m : Manager D) (now : ℕ) : Op → Bool
  | .acquire id _ generation kind _ =>
      m.dialogPlaying && (m.stale id generation || kind ≠ .dialogInput)
  | .endSession => false
  | .candidateOpen id producingSound _ => m.dialogPlaying && !m.ducks now id producingSound
  | .candidateAccept id _ _ => m.dialogPlaying && m.prov.all (·.id ≠ id)
  | .dialogOutputStarted _ _ _ => m.alertBG
  | .dialogOutputFinished id generation => m.dialogPlaying && !m.isDialog id generation
  | .alertActive id => m.dialogPlaying && id = m.alertID
  | .alertEnded id _ => m.dialogPlaying && id ≠ m.alertID
  | _ => m.dialogPlaying

/-- An input lease or a provisional duck stays through the operation. -/
def keepsInput (m : Manager D) : Op → Bool
  | .acquire id owner generation _ _ =>
      m.stale id generation && m.hasInput ||
        (m.leases.any fun l =>
          l.kind = .dialogInput && l.id ≠ id && !(l.converted && l.owner = owner)) ||
        !m.prov.isEmpty
  | .release id generation =>
      m.stale id generation && m.hasInput ||
        (m.leases.any fun l => l.kind = .dialogInput && l.id ≠ id) || !m.prov.isEmpty
  | .candidateRelease id => m.leases.any (·.kind = .dialogInput) || m.prov.any (·.id ≠ id)
  | _ => m.hasInput

/-- The call takes the last input focus from under a dialog output that the occurrence has
already made yield: `m` is the manager behind the expiries. -/
def Exposes (m : Manager D) (now : ℕ) (op : Op) : Prop :=
  m.alertID ≠ "" ∧ m.yielded = true ∧ m.playsOn now op = true ∧ m.keepsInput op = false

theorem hasInput_eq_false {m : Manager D} :
    m.hasInput = false ↔ (∀ l ∈ m.leases, l.kind ≠ .dialogInput) ∧ m.prov = [] := by
  simp [hasInput]

/-- Behind an operation that leaves a yielded output playing with no input focus, the call was
exposed. -/
theorem exposes_of_change {m : Manager D} (hm : m.Exclusive) {now : ℕ} {op : Op}
    (halert : (m.change now op).1.alertID ≠ "") (hplays : (m.change now op).1.dialogPlaying = true)
    (hyielded : (m.change now op).1.yielded = true)
    (hinput : (m.change now op).1.hasInput = false) : m.Exposes now op := by
  rw [hasInput_eq_false] at hinput
  obtain ⟨hleases, hprov⟩ := hinput
  rcases op with ⟨id, owner, g, kind, ttl⟩ | ⟨id, g, ttl⟩ | ⟨id, g⟩ | _ | ⟨id, b, ttl⟩ | ⟨id, ttl⟩ |
    id | ⟨id, owner, g⟩ | ⟨id, owner, g⟩ | ⟨id, g⟩ | id | id | ⟨id, b⟩ | _
  case acquire =>
      rcases hstale : m.stale id g with _ | _
      · by_cases hkind : kind = .dialogInput
        · simp [change, Manager.acquire, hstale, hkind, cancelDialog_eq, put] at hyielded
        · simp [change, Manager.acquire, hstale, hkind, put] at halert hplays hyielded hleases hprov
          refine ⟨halert, hyielded, by simp [playsOn, hplays, hkind], ?_⟩
          simp [keepsInput, hstale, hprov]
          grind
      · simp [change, Manager.acquire, hstale] at halert hplays hyielded hleases hprov
        refine ⟨halert, hyielded, by simp [playsOn, hplays, hstale], ?_⟩
        simp [keepsInput, hasInput, hprov]
        grind
  case renew =>
      have hsame : ∀ l ∈ m.leases, l.kind ≠ .dialogInput := by
        intro l hl
        simp only [change, Manager.renew] at hleases
        split_ifs at hleases
        · exact hleases l hl
        · exact hleases l hl
        · have hextended := hleases _ (List.mem_map_of_mem hl)
          split_ifs at hextended <;> exact hextended
      simp only [change, Manager.renew] at halert hplays hyielded hprov
      split_ifs at halert hplays hyielded hprov
      all_goals exact ⟨halert, hyielded, hplays, hasInput_eq_false.mpr ⟨hsame, hprov⟩⟩
  case release =>
      rcases hstale : m.stale id g with _ | _ <;>
        simp [change, Manager.release, hstale] at halert hplays hyielded hleases hprov
      · refine ⟨halert, hyielded, hplays, ?_⟩
        simp [keepsInput, hstale, hprov]
        grind
      · refine ⟨halert, hyielded, hplays, ?_⟩
        simp [keepsInput, hasInput, hprov]
        grind
  case endSession => simp [change, Manager.endSession, cancelDialog_eq] at hplays
  case candidateOpen =>
      simp only [change, Manager.candidateOpen] at halert hplays hyielded hleases hprov
      split_ifs at halert hplays hyielded hleases hprov with hsound hany hrecent
      · have hplays : m.dialogPlaying = true := hplays
        refine ⟨halert, hyielded, ?_, hasInput_eq_false.mpr ⟨hleases, hprov⟩⟩
        simp [playsOn, hplays, ducks, hsound]
      · have hprov : m.prov = [] := hprov
        simp [hprov] at hany
      · have hplays : m.dialogPlaying = true := hplays
        refine ⟨halert, hyielded, ?_, hasInput_eq_false.mpr ⟨hleases, hprov⟩⟩
        simp [playsOn, hplays, ducks, Nat.not_lt.mpr hrecent]
  case candidateRenew =>
      refine ⟨halert, hyielded, hplays, hasInput_eq_false.mpr ⟨hleases, ?_⟩⟩
      simpa [change, Manager.candidateRenew] using hprov
  case candidateRelease =>
      refine ⟨halert, hyielded, hplays, ?_⟩
      simp [change, Manager.candidateRelease] at hleases hprov
      simp [keepsInput]
      exact ⟨hleases, hprov⟩
  case candidateAccept =>
      simp only [change, Manager.candidateAccept] at halert hplays hyielded hleases hprov
      split at hplays
      case h_1 hnone =>
          rw [hnone] at halert hyielded hleases hprov
          refine ⟨halert, hyielded, ?_, hasInput_eq_false.mpr ⟨hleases, hprov⟩⟩
          simp [playsOn, hplays, hprov]
      case h_2 =>
          split_ifs at hplays <;> simp [cancelDialog_eq, put] at hplays
  case dialogOutputStarted =>
      simp only [change, Manager.dialogOutputStarted] at halert hplays hyielded hleases hprov
      split_ifs at halert hplays hyielded hleases hprov with hforeground
      · -- refused: nothing plays under a foreground alert
        have hquiet := hm hforeground.1 (by simpa using hforeground.2)
        exact absurd (hquiet.symm.trans hplays) nofun
      · refine ⟨halert, hyielded, ?_, hasInput_eq_false.mpr ⟨hleases, hprov⟩⟩
        by_contra hbg
        exact hforeground ⟨halert, hbg⟩
  case dialogOutputFinished =>
      rcases hdialog : m.isDialog id g with _ | _
      · have hkept : m.dialogOutputFinished id g = m := by
          simp [Manager.dialogOutputFinished, hdialog]
        simp only [change, hkept] at halert hplays hyielded hleases hprov
        refine ⟨halert, hyielded, ?_, hasInput_eq_false.mpr ⟨hleases, hprov⟩⟩
        simp [playsOn, hplays, hdialog]
      · simp only [change, Manager.dialogOutputFinished, hdialog, if_true] at hplays
        split_ifs at hplays
  case alertActive =>
      simp only [change, Manager.alertActive] at halert hplays hyielded hleases hprov
      split_ifs at halert hplays hyielded hleases hprov with hid
      · refine ⟨halert, hyielded, ?_, hasInput_eq_false.mpr ⟨hleases, hprov⟩⟩
        simp [playsOn, hplays, hid]
      · exact absurd hyielded nofun
      · exact absurd hyielded nofun
  case alertBurstCompleted =>
      simp only [change, Manager.alertBurstCompleted] at halert hplays hyielded hleases hprov
      split_ifs at halert hplays hyielded hleases hprov <;>
        exact ⟨halert, hyielded, hplays, hasInput_eq_false.mpr ⟨hleases, hprov⟩⟩
  case alertEnded =>
      simp only [change, Manager.alertEnded] at halert hplays hyielded hleases hprov
      split_ifs at halert hplays hyielded hleases hprov with hid
      · refine ⟨halert, hyielded, ?_, hasInput_eq_false.mpr ⟨hleases, hprov⟩⟩
        simp [playsOn, hplays, hid]
      · exact absurd rfl halert
      · exact absurd rfl halert
  case tick => exact ⟨halert, hyielded, hplays, hasInput_eq_false.mpr ⟨hleases, hprov⟩⟩

/-- An operation does not start an output under an occurrence whose budget is spent. -/
theorem quiet_of_spent {m : Manager D} {now : ℕ} {op : Op} (hbg : m.alertBG = false)
    (halert : m.alertID ≠ "") (hquiet : m.dialogPlaying = false) :
    (m.change now op).1.dialogPlaying = false := by
  rcases op with ⟨id, owner, g, kind, ttl⟩ | ⟨id, g, ttl⟩ | ⟨id, g⟩ | _ | ⟨id, b, ttl⟩ | ⟨id, ttl⟩ |
    id | ⟨id, owner, g⟩ | ⟨id, owner, g⟩ | ⟨id, g⟩ | id | id | ⟨id, b⟩ | _
  case acquire =>
      simp only [change, Manager.acquire]
      split_ifs
      · exact hquiet
      · simp [put, cancelDialog_eq]
      · exact hquiet
  case renew =>
      simp only [change, Manager.renew]
      split_ifs <;> exact hquiet
  case release =>
      simp only [change, Manager.release]
      split_ifs <;> exact hquiet
  case endSession => simp [change, Manager.endSession, cancelDialog_eq]
  case candidateOpen =>
      simp only [change, Manager.candidateOpen]
      split_ifs <;> exact hquiet
  case candidateAccept =>
      simp only [change, Manager.candidateAccept]
      split
      · exact hquiet
      · split_ifs <;> simp [cancelDialog_eq, put]
  case dialogOutputStarted => simp [change, Manager.dialogOutputStarted, halert, hbg, queue, hquiet]
  case dialogOutputFinished =>
      simp only [change, Manager.dialogOutputFinished]
      split_ifs <;> first | rfl | exact hquiet
  case alertActive =>
      simp only [change, Manager.alertActive]
      split_ifs <;> exact hquiet
  case alertBurstCompleted =>
      simp only [change, Manager.alertBurstCompleted]
      split_ifs <;> exact hquiet
  case alertEnded =>
      simp only [change, Manager.alertEnded]
      split_ifs <;> exact hquiet
  all_goals exact hquiet

/-- A budget is spent behind an operation only if it was before. -/
theorem spent_of_change {m : Manager D} {now : ℕ} {op : Op}
    (h : (m.change now op).1.budgetSpent = true) : m.budgetSpent = true := by
  rcases op with ⟨id, owner, g, kind, ttl⟩ | ⟨id, g, ttl⟩ | ⟨id, g⟩ | _ | ⟨id, b, ttl⟩ | ⟨id, ttl⟩ |
    id | ⟨id, owner, g⟩ | ⟨id, owner, g⟩ | ⟨id, g⟩ | id | id | ⟨id, b⟩ | _
  case acquire =>
      simp only [change, Manager.acquire, cancelDialog_eq] at h
      split_ifs at h <;> exact h
  case renew =>
      simp only [change, Manager.renew] at h
      split_ifs at h <;> exact h
  case release =>
      simp only [change, Manager.release] at h
      split_ifs at h <;> exact h
  case endSession =>
      simp only [change, Manager.endSession, cancelDialog_eq] at h
      exact h
  case candidateOpen =>
      simp only [change, Manager.candidateOpen] at h
      split_ifs at h <;> exact h
  case candidateAccept =>
      simp only [change, Manager.candidateAccept, cancelDialog_eq] at h
      split at h
      · exact h
      · split_ifs at h <;> exact h
  case dialogOutputStarted =>
      simp only [change, Manager.dialogOutputStarted] at h
      split_ifs at h <;> exact h
  case dialogOutputFinished =>
      simp only [change, Manager.dialogOutputFinished] at h
      split_ifs at h <;> exact h
  case alertActive =>
      simp only [change, Manager.alertActive] at h
      split_ifs at h
      · exact h
      · exact absurd h nofun
      · exact absurd h nofun
  case alertBurstCompleted =>
      simp only [change, Manager.alertBurstCompleted] at h
      split_ifs at h
      exact h
  case alertEnded =>
      simp only [change, Manager.alertEnded] at h
      split_ifs at h
      · exact h
      · exact absurd h nofun
      · exact absurd h nofun
  all_goals exact h

section

variable [LinearOrder D] [Zero D]

/-- **Exclusion.** A call that does not expose a yielded output keeps alerts and dialog output
apart. -/
theorem Exclusive.step {t : ℕ} {m : Manager D} (hm : m.Exclusive) (h : Invariant t m) {c : Call D}
    (hsafe : c.op.valid = true → ¬ (m.expire c.visit c.now).Exposes c.now c.op) :
    (m.step c).1.Exclusive := by
  by_cases hvalid : c.op.valid = true
  swap
  · rwa [Manager.step, if_neg hvalid]
  have hrest := (trims_expire c.visit c.now m).rest
  have hplaying := (trims_expire c.visit c.now m).playing
  have hsafe := hsafe hvalid
  have hstep : (m.step c).1 = { (((m.expire c.visit c.now).change c.now c.op).1.deadlines
      c.now).recompute c.now with pending := [] } := by
    rw [Manager.step, if_pos hvalid]
  have hexclusive : (m.expire c.visit c.now).Exclusive := by
    intro halert hbg
    rw [hrest] at halert hbg
    rcases hp : (m.expire c.visit c.now).dialogPlaying with _ | _
    · rfl
    · exact absurd ((hm halert hbg).symm.trans (hplaying hp)) nofun
  have hspent : (m.expire c.visit c.now).budgetSpent = true →
      (m.expire c.visit c.now).alertBG = false ∧ (m.expire c.visit c.now).alertID ≠ "" := by
    rw [hrest]
    intro hspent
    refine ⟨?_, h.active (.inr hspent)⟩
    rw [h.background]
    simp [Manager.background, show m.budgetSpent = true from hspent]
  rw [hstep]
  generalize m.expire c.visit c.now = e at hsafe hexclusive hspent
  have hfires := fires_deadlines c.now (e.change c.now c.op).1
  obtain ⟨out, pending, -, -, heq⟩ := recompute_eq c.now ((e.change c.now c.op).1.deadlines c.now)
  rw [heq]
  intro halert hbg
  dsimp only at halert hbg ⊢
  by_contra hplays
  have hplays : ((e.change c.now c.op).1.deadlines c.now).dialogPlaying = true := by
    simpa using hplays
  -- a deadline that fires cancels the output, so none has
  rw [hfires.playing hplays] at halert hbg hplays
  by_cases hs : (e.change c.now c.op).1.budgetSpent = true
  · obtain ⟨hbg', halert'⟩ := hspent (spent_of_change hs)
    have hquiet : (e.change c.now c.op).1.dialogPlaying = false :=
      quiet_of_spent hbg' halert' (hexclusive halert' hbg')
    exact absurd (hquiet.symm.trans hplays) nofun
  · simp [Manager.background, halert, hs, hasOutput, hplays] at hbg
    exact hsafe (exposes_of_change hexclusive halert hplays hbg.2 hbg.1.2)

end

/-! ### Cancelled outputs -/

/-- An operation that neither reports the output's end nor starts another accounts for it. -/
theorem Accounts.change {id : String} {generation : ℕ} {m : Manager D}
    (h : Accounts id generation m) (now : ℕ) {op : Op}
    (hfinished : op ≠ .dialogOutputFinished id generation)
    (hstarted : ∀ id' owner g, op ≠ .dialogOutputStarted id' owner g) :
    Accounts id generation (m.change now op).1 := by
  rcases op with ⟨x, owner, g, kind, ttl⟩ | ⟨x, g, ttl⟩ | ⟨x, g⟩ | _ | ⟨x, b, ttl⟩ | ⟨x, ttl⟩ |
    x | ⟨x, owner, g⟩ | ⟨x, owner, g⟩ | ⟨x, g⟩ | x | x | ⟨x, b⟩ | _
  case acquire =>
      simp only [Manager.change, Manager.acquire]
      split_ifs
      · exact h
      · exact Accounts.cancelDialog (m := { m with leases := _, yielded := false }) h
      · exact h
  case renew =>
      simp only [Manager.change, Manager.renew]
      split_ifs <;> exact h
  case release =>
      simp only [Manager.change, Manager.release]
      split_ifs <;> exact h
  case endSession => exact Accounts.cancelDialog (m := { m with leases := [], prov := [] }) h
  case candidateOpen =>
      simp only [Manager.change, Manager.candidateOpen]
      split_ifs <;> exact h
  case candidateAccept =>
      simp only [Manager.change, Manager.candidateAccept]
      split
      · exact h
      · split_ifs <;> exact Accounts.cancelDialog (m := { m with prov := _ }) h
  case dialogOutputStarted => exact absurd rfl (hstarted x owner g)
  case dialogOutputFinished =>
      simp only [Manager.change, Manager.dialogOutputFinished]
      split_ifs with hx
      all_goals
        refine h.imp_left fun hdialog => ?_
        simp only [isDialog, Bool.and_eq_true, decide_eq_true_eq] at hx hdialog ⊢
      · exact absurd (by rw [← hx.1.2, ← hx.2, hdialog.1.2, hdialog.2]) hfinished
      · exact absurd (by rw [← hx.1.2, ← hx.2, hdialog.1.2, hdialog.2]) hfinished
      · exact hdialog
  case alertActive =>
      simp only [Manager.change, Manager.alertActive]
      split_ifs <;> exact h
  case alertBurstCompleted =>
      simp only [Manager.change, Manager.alertBurstCompleted]
      split_ifs <;> exact h
  case alertEnded =>
      simp only [Manager.change, Manager.alertEnded]
      split_ifs <;> exact h
  all_goals exact h

section

variable [LinearOrder D] [Zero D]

/-- Behind a call that leaves an alert in the foreground and no output playing, the output that
was playing, or starts in it, has been cancelled, unless it had finished or another replaced it. -/
theorem cancelled_of_quiet {m : Manager D} {c : Call D} (hvalid : c.op.valid = true)
    (hquiet : (m.step c).1.dialogPlaying = false) :
    (∀ id generation, m.isDialog id generation = true →
      c.op ≠ .dialogOutputFinished id generation →
        (∀ id' owner g, c.op ≠ .dialogOutputStarted id' owner g) →
          .cancelPlayback id generation .normal ∈ (m.step c).2.1) ∧
    ∀ id owner generation, c.op = .dialogOutputStarted id owner generation →
      .cancelPlayback id generation .normal ∈ (m.step c).2.1 := by
  have hfires := fires_deadlines c.now ((m.expire c.visit c.now).change c.now c.op).1
  obtain ⟨out, pending, -, hpending, heq⟩ := recompute_eq c.now
    (((m.expire c.visit c.now).change c.now c.op).1.deadlines c.now)
  have haccounts {id : String} {generation : ℕ}
      (h : Accounts id generation ((m.expire c.visit c.now).change c.now c.op).1) :
      .cancelPlayback id generation .normal ∈ (m.step c).2.1 := by
    have hstep : (m.step c).2.1 = pending ∧ (m.step c).1.dialogPlaying =
        (((m.expire c.visit c.now).change c.now c.op).1.deadlines c.now).dialogPlaying := by
      simp only [Manager.step, hvalid, if_true, heq, and_self]
    rw [hstep.2] at hquiet
    rw [hstep.1]
    rcases hfires.accounts id generation h with hdialog | hmem
    · simp [isDialog, hquiet] at hdialog
    · exact hpending hmem
  constructor
  · intro id generation hdialog hfinished hstarted
    have he := (trims_expire c.visit c.now m).accounts id generation (.inl hdialog)
    exact haccounts (he.change c.now hfinished hstarted)
  · intro id owner generation hop
    refine haccounts ?_
    simp only [hop, change, dialogOutputStarted]
    split_ifs
    · exact .inr (List.mem_append_right _ (List.mem_singleton_self _))
    · exact .inl (by simp [isDialog])

end

end Manager

end EchoMuse.Focus
