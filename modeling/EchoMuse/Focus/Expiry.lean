import EchoMuse.Focus.Runs
import Mathlib.Data.List.Nodup

/-!
# The Order of Expiries

`expireLocked` goes through the leases and the provisional ducks in the order their maps are
iterated in, which is arbitrary. A lease is judged against those still in the map, expired or not,
so of the leases of one owner that all expire only the one visited last can cancel the owner's
dialog output.

## Main results

* `expires_foldl`: what one pass over the leases comes to;
* `expiry_order_iff`: all orders come to the same, and cancel what they should, exactly when the
  generations of the expiring leases are not on both sides of the output's.
-/

namespace EchoMuse.Focus

variable {D : Type*}

namespace Manager

/-! ### One pass -/

/-- Takes a provisional duck away if it has expired. -/
def expireDuck (now : ℕ) (m : Manager D) (p : Provisional D) : Manager D :=
  if now < p.expires then m else { m with prov := m.prov.filter (·.id ≠ p.id) }

/-- The maps hold one lease and one duck under each id. -/
structure Keyed (m : Manager D) : Prop where
  leases : (m.leases.map (·.id)).Nodup
  prov : (m.prov.map (·.id)).Nodup

/-- Orders in which the maps can be iterated. -/
structure Order (m : Manager D) where
  leases : List (Held D)
  prov : List (Provisional D)
  leases_perm : leases.Perm m.leases
  prov_perm : prov.Perm m.prov

/-- Lets go what has expired, in the order `o`. -/
def expireIn (m : Manager D) (o : Order m) (now : ℕ) : Manager D :=
  o.prov.foldl (expireDuck now) (o.leases.foldl (expireLease now) m)

/-! ### What a pass comes to -/

/-- A lease that has expired by `now`. -/
def expiredBy (now : ℕ) (l : Held D) : Bool := l.expires ≤ now

/-- The visited leases are all that the owner of the playing output has, all have expired, and
the one visited last is not older than the output. -/
def Cancels (m : Manager D) (now : ℕ) (visited : List (Held D)) : Prop :=
  m.dialogPlaying = true ∧
    (∀ l ∈ m.leases, l.owner = m.dialogOwner → l ∈ visited ∧ expiredBy now l = true) ∧
      ∃ l, (visited.filter (·.owner = m.dialogOwner)).getLast? = some l ∧
        m.dialogGen ≤ l.generation

/-- What visiting leases does to the manager. -/
structure Expires (m : Manager D) (now : ℕ) (visited : List (Held D)) (e : Manager D) : Prop where
  leases : e.leases = m.leases.filter fun l =>
    !expiredBy now l || visited.all (·.id ≠ l.id)
  playing : e.dialogPlaying = true ↔ m.dialogPlaying = true ∧ ¬ m.Cancels now visited
  pending : e.pending.Perm (m.pending ++
    (visited.filter (expiredBy now)).map (fun l => Act.leaseExpired l.toLease) ++
      if m.dialogPlaying && !e.dialogPlaying then
        [.cancelPlayback m.dialogID m.dialogGen .normal] else [])
  rest : e = { m with
    leases := e.leases, dialogPlaying := e.dialogPlaying, pending := e.pending }

variable {m : Manager D} {now : ℕ}

/-- Visiting none changes nothing. -/
theorem Expires.nil : Expires m now [] m where
  leases := by
    refine (List.filter_eq_self.mpr fun l _ => ?_).symm
    rw [List.all_nil, Bool.or_true]
  playing := by
    refine ⟨fun h => ⟨h, ?_⟩, And.left⟩
    rintro ⟨-, -, l, hlast, -⟩
    cases hlast
  pending := by
    cases m.dialogPlaying <;> simp
  rest := rfl

/-- The lease is the last of the playing output's owner, and not older than the output. -/
def lastOf (m : Manager D) (l : Held D) : Bool :=
  m.dialogOwner = l.owner ∧ m.dialogGen ≤ l.generation ∧
    (m.leases.filter (·.id ≠ l.id)).all (·.owner ≠ l.owner) = true

/-- The manager after an expired lease has been visited. -/
def afterExpired (m : Manager D) (l : Held D) : Manager D :=
  { m with
    leases := m.leases.filter (·.id ≠ l.id)
    dialogPlaying := m.dialogPlaying && !m.lastOf l
    pending := m.pending ++ .leaseExpired l.toLease ::
      if m.dialogPlaying && m.lastOf l then [.cancelPlayback m.dialogID m.dialogGen .normal]
      else [] }

theorem expireLease_of_live {l : Held D} (h : expiredBy now l = false) :
    expireLease now m l = m := by
  rw [expiredBy, decide_eq_false_iff_not, not_le] at h
  rw [expireLease, if_pos h]

theorem expireLease_of_expired {l : Held D} (h : expiredBy now l = true) :
    expireLease now m l = m.afterExpired l := by
  rw [expiredBy, decide_eq_true_eq] at h
  rw [expireLease, if_neg (not_lt.mpr h)]
  dsimp only
  generalize hd : { m with leases := m.leases.filter (·.id ≠ l.id) }.queue
    (.leaseExpired l.toLease) = d
  have hjudged : (d.dialogPlaying = true ∧ d.dialogOwner = l.owner ∧
      d.dialogGen ≤ l.generation ∧ ¬ d.ownerLive l.owner = true) ↔
        (m.dialogPlaying && m.lastOf l) = true := by
    rw [Bool.and_eq_true, lastOf, decide_eq_true_eq, ownerLive, Bool.not_eq_true,
      List.any_eq_false, List.all_eq_true, ← hd]
    simp [queue]
  by_cases hc : (m.dialogPlaying && m.lastOf l) = true
  · obtain ⟨hplays, hlast⟩ := Bool.and_eq_true_iff.mp hc
    rw [if_pos (hjudged.mpr hc), cancelDialog_eq, afterExpired, ← hd]
    simp [queue, hplays, hlast]
  · rw [if_neg (mt hjudged.mp hc), afterExpired, if_neg hc, ← hd]
    rw [Bool.and_eq_true, not_and, Bool.not_eq_true] at hc
    rcases hplays : m.dialogPlaying with _ | _
    · simp [queue]
    · simp [queue, hc hplays]

/-- Leases of a map with one id are one lease. -/
theorem Keyed.eq_of_id (h : m.Keyed) {l l' : Held D} (hl : l ∈ m.leases) (hl' : l' ∈ m.leases)
    (hid : l.id = l'.id) : l = l' := List.inj_on_of_nodup_map h.leases hl hl' hid

theorem mem_afterExpired {v l : Held D} :
    l ∈ (m.afterExpired v).leases ↔ l ∈ m.leases ∧ l.id ≠ v.id := by
  rw [afterExpired, List.mem_filter, decide_eq_true_eq]

/-- The one visited last of several is the one visited last of the rest, if there is a rest. -/
theorem getLast?_filter_cons {p : Held D → Bool} {v l : Held D} {vs : List (Held D)}
    (h : (vs.filter p).getLast? = some l) : ((v :: vs).filter p).getLast? = some l := by
  rw [List.filter_cons]
  split_ifs
  · rw [List.getLast?_cons, h, Option.getD_some]
  · exact h

/-- An expired lease cancels the output itself, or leaves it to those visited after it. -/
theorem cancels_cons {v : Held D} {vs : List (Held D)} (h : m.Keyed)
    (hvisited : v :: vs ⊆ m.leases) (hids : ((v :: vs).map (·.id)).Nodup)
    (hv : expiredBy now v = true) :
    m.Cancels now (v :: vs) ↔
      m.dialogPlaying = true ∧ m.lastOf v = true ∨ (m.afterExpired v).Cancels now vs := by
  have hrest : ∀ l ∈ vs, l.id ≠ v.id := fun l hl hid =>
    (List.nodup_cons.mp hids).1 (List.mem_map.mpr ⟨l, hl, hid⟩)
  have hsplit : ∀ l ∈ m.leases, l = v ∨ l ∈ (m.afterExpired v).leases := fun l hl =>
    or_iff_not_imp_left.mpr fun hne => mem_afterExpired.mpr
      ⟨hl, fun hid => hne (h.eq_of_id hl (hvisited List.mem_cons_self) hid)⟩
  constructor
  · rintro ⟨hplays, hall, l, hlast, hgen⟩
    by_cases hv' : m.lastOf v = true
    · exact .inl ⟨hplays, hv'⟩
    refine .inr ⟨by rw [afterExpired, hplays]; simp [hv'], fun x hx howner => ?_, ?_⟩
    · obtain ⟨hx, hid⟩ := mem_afterExpired.mp hx
      obtain ⟨hmem, hexpired⟩ := hall x hx howner
      exact ⟨(List.mem_cons.mp hmem).resolve_left fun heq => hid (heq ▸ rfl), hexpired⟩
    · change ∃ l, (vs.filter (·.owner = m.dialogOwner)).getLast? = some l ∧ _
      rcases hfilter : (vs.filter (·.owner = m.dialogOwner)).getLast? with _ | x
      · exfalso
        rw [List.getLast?_eq_none_iff] at hfilter
        rw [List.filter_cons, hfilter] at hlast
        split_ifs at hlast with howner
        · cases hlast
          refine hv' (decide_eq_true ⟨(of_decide_eq_true howner).symm, hgen,
            List.all_eq_true.mpr fun x hx => ?_⟩)
          obtain ⟨hx, hid⟩ := List.mem_filter.mp hx
          refine decide_eq_true fun hxowner => ?_
          have hxdialog : x.owner = m.dialogOwner := hxowner.trans (of_decide_eq_true howner)
          rcases List.mem_cons.mp (hall x hx hxdialog).1 with rfl | hmem
          · exact of_decide_eq_true hid rfl
          · have hxfilter : x ∈ vs.filter (·.owner = m.dialogOwner) :=
              List.mem_filter.mpr ⟨hmem, decide_eq_true hxdialog⟩
            rw [hfilter] at hxfilter
            cases hxfilter
        · cases hlast
      · refine ⟨x, hfilter, ?_⟩
        rw [getLast?_filter_cons hfilter] at hlast
        cases hlast
        exact hgen
  · rintro (⟨hplays, hlast⟩ | ⟨hplays, hall, l, hlast, hgen⟩)
    · obtain ⟨howner, hgen, hothers⟩ := of_decide_eq_true hlast
      have hnone : ∀ x ∈ m.leases, x.id ≠ v.id → x.owner ≠ m.dialogOwner := fun x hx hid => by
        have hx' := List.all_eq_true.mp hothers x (List.mem_filter.mpr ⟨hx, decide_eq_true hid⟩)
        rw [howner]
        exact of_decide_eq_true hx'
      refine ⟨hplays, fun l hl hl' => ?_, v, ?_, hgen⟩
      · rcases hsplit l hl with rfl | hmem
        · exact ⟨List.mem_cons_self, hv⟩
        · exact absurd hl' (hnone l hl (mem_afterExpired.mp hmem).2)
      · have hvs : vs.filter (·.owner = m.dialogOwner) = [] := List.filter_eq_nil_iff.mpr
          fun x hx hxowner => hnone x (hvisited (List.mem_cons_of_mem _ hx)) (hrest x hx)
            (of_decide_eq_true hxowner)
        rw [List.filter_cons, if_pos (decide_eq_true howner.symm), hvs, List.getLast?_singleton]
    · have hplays' : m.dialogPlaying = true := (Bool.and_eq_true_iff.mp hplays).1
      refine ⟨hplays', fun x hx howner => ?_, l, getLast?_filter_cons hlast, hgen⟩
      rcases hsplit x hx with rfl | hmem
      · exact ⟨List.mem_cons_self, hv⟩
      · exact (hall x hmem howner).imp_left (List.mem_cons_of_mem _)

theorem Keyed.afterExpired (h : m.Keyed) (v : Held D) : (m.afterExpired v).Keyed where
  leases := h.leases.sublist (List.filter_sublist.map _)
  prov := h.prov

/-- A lease that lives on is as if not visited. -/
theorem Expires.cons_live {v : Held D} {vs : List (Held D)} {e : Manager D} (h : m.Keyed)
    (hmem : v ∈ m.leases) (hv : expiredBy now v = false) (he : Expires m now vs e) :
    Expires m now (v :: vs) e := by
  have hcancels : m.Cancels now (v :: vs) ↔ m.Cancels now vs := by
    constructor
    · rintro ⟨hplays, hall, l, hlast, hgen⟩
      have hne : ¬ v.owner = m.dialogOwner := fun howner => by
        have hexpired := (hall v hmem howner).2
        rw [hv] at hexpired
        cases hexpired
      rw [List.filter_cons, if_neg (by simpa using hne)] at hlast
      refine ⟨hplays, fun x hx howner => ?_, l, hlast, hgen⟩
      obtain ⟨hx, hexpired⟩ := hall x hx howner
      refine ⟨(List.mem_cons.mp hx).resolve_left ?_, hexpired⟩
      rintro rfl
      exact hne howner
    · rintro ⟨hplays, hall, l, hlast, hgen⟩
      exact ⟨hplays, fun x hx howner => (hall x hx howner).imp_left (List.mem_cons_of_mem _), l,
        getLast?_filter_cons hlast, hgen⟩
  refine ⟨?_, ?_, ?_, he.rest⟩
  · rw [he.leases]
    refine List.filter_congr fun l hl => ?_
    rcases hl' : expiredBy now l with _ | _
    · rfl
    · have hne : v.id ≠ l.id := fun hid => by
        rw [h.eq_of_id hmem hl hid, hl'] at hv
        cases hv
      rw [List.all_cons, decide_eq_true hne, Bool.true_and]
  · rw [he.playing, hcancels]
  · rw [List.filter_cons, hv, if_neg Bool.false_ne_true]
    exact he.pending

/-- An expired lease goes, and the rest are visited without it. -/
theorem Expires.cons_expired {v : Held D} {vs : List (Held D)} {e : Manager D} (h : m.Keyed)
    (hvisited : v :: vs ⊆ m.leases) (hids : ((v :: vs).map (·.id)).Nodup)
    (hv : expiredBy now v = true) (he : Expires (m.afterExpired v) now vs e) :
    Expires m now (v :: vs) e := by
  have hmem := hvisited List.mem_cons_self
  have hplaying : (m.afterExpired v).dialogPlaying = (m.dialogPlaying && !m.lastOf v) := rfl
  have hpending : (m.afterExpired v).pending = m.pending ++ .leaseExpired v.toLease ::
      if m.dialogPlaying && m.lastOf v then [.cancelPlayback m.dialogID m.dialogGen .normal]
      else [] := rfl
  refine ⟨?_, ?_, ?_, ?_⟩
  · rw [he.leases, afterExpired, List.filter_filter]
    refine List.filter_congr fun l hl => ?_
    rcases hl' : expiredBy now l with _ | _
    · have hne : l.id ≠ v.id := fun hid => by
        rw [← h.eq_of_id hl hmem hid, hl'] at hv
        cases hv
      simp [hne]
    · simp [eq_comm, Bool.and_comm]
  · rw [he.playing, cancels_cons h hvisited hids hv, hplaying, Bool.and_eq_true,
      Bool.not_eq_true']
    cases m.dialogPlaying <;> cases m.lastOf v <;> simp
  · refine he.pending.trans ?_
    rw [List.filter_cons_of_pos hv, List.map_cons, hplaying, hpending]
    rcases hlast : m.dialogPlaying && m.lastOf v with _ | _
    · have hsame : (m.dialogPlaying && !m.lastOf v) = m.dialogPlaying := by
        rcases hplays : m.dialogPlaying with _ | _
        · rfl
        · rw [hplays, Bool.true_and] at hlast
          rw [hlast]
          rfl
      rw [hsame]
      simp [afterExpired]
    · obtain ⟨hplays, hlast⟩ := Bool.and_eq_true_iff.mp hlast
      have hquiet : e.dialogPlaying = false := by
        rw [Bool.eq_false_iff, ne_eq, he.playing, hplaying, hlast, Bool.not_true, Bool.and_false]
        exact fun h => Bool.false_ne_true h.1
      simp only [hplays, hlast, hquiet, Bool.and_true, Bool.and_false, Bool.not_true,
        Bool.not_false, Bool.false_eq_true, if_true, if_false, List.append_nil, List.append_assoc,
        List.cons_append, List.nil_append]
      exact ((List.perm_append_singleton _ _).symm.cons _).append_left _
  · rw [he.rest]
    rfl

/-- **What one pass over leases comes to.** -/
theorem expires_foldl {visited : List (Held D)} (h : m.Keyed) (hvisited : visited ⊆ m.leases)
    (hids : (visited.map (·.id)).Nodup) :
    Expires m now visited (visited.foldl (expireLease now) m) := by
  induction visited generalizing m with
  | nil => exact .nil
  | cons v vs ih =>
      have hmem := hvisited List.mem_cons_self
      have hvs : vs ⊆ m.leases := fun l hl => hvisited (List.mem_cons_of_mem _ hl)
      obtain ⟨hfresh, hnodup⟩ := List.nodup_cons.mp hids
      rw [List.foldl_cons]
      rcases hexpired : expiredBy now v with _ | _
      · rw [expireLease_of_live hexpired]
        exact (ih h hvs hnodup).cons_live h hmem hexpired
      · rw [expireLease_of_expired hexpired]
        refine (ih (h.afterExpired v) (fun l hl => ?_) hnodup).cons_expired h hvisited hids hexpired
        refine mem_afterExpired.mpr ⟨hvs hl, fun hid => hfresh ?_⟩
        exact List.mem_map.mpr ⟨l, hl, hid⟩

/-- A pass over the ducks leaves those that have not expired. -/
theorem foldl_expireDuck {visited : List (Provisional D)} (hkeys : (m.prov.map (·.id)).Nodup)
    (hvisited : visited ⊆ m.prov) (hids : (visited.map (·.id)).Nodup) :
    visited.foldl (expireDuck now) m =
      { m with prov := m.prov.filter fun p => now < p.expires ∨ ∀ v ∈ visited, v.id ≠ p.id } := by
  induction visited generalizing m with
  | nil => simp
  | cons v vs ih =>
      have hmem := hvisited List.mem_cons_self
      have hvs : vs ⊆ m.prov := fun p hp => hvisited (List.mem_cons_of_mem _ hp)
      obtain ⟨hfresh, hnodup⟩ := List.nodup_cons.mp hids
      have hone : ∀ p ∈ m.prov, v.id = p.id → v = p := fun p hp hid =>
        List.inj_on_of_nodup_map hkeys hmem hp hid
      rw [List.foldl_cons, expireDuck]
      by_cases hlive : now < v.expires
      · rw [if_pos hlive, ih hkeys hvs hnodup]
        refine congrArg (fun prov => { m with prov }) (List.filter_congr fun p hp => ?_)
        rw [decide_eq_decide, List.forall_mem_cons]
        refine or_congr_right' fun hexpired => (and_iff_right ?_).symm
        exact fun hid => hexpired (hone p hp hid ▸ hlive)
      · rw [if_neg hlive, ih (hkeys.sublist (List.filter_sublist.map _)) ?_ hnodup]
        · refine congrArg (fun prov => { m with prov }) ?_
          rw [List.filter_filter]
          refine List.filter_congr fun p hp => ?_
          rw [← Bool.decide_and, decide_eq_decide, List.forall_mem_cons]
          constructor
          · rintro ⟨h | h, hne⟩
            · exact .inl h
            · exact .inr ⟨Ne.symm hne, h⟩
          · rintro (h | ⟨hne, h⟩)
            · refine ⟨.inl h, fun hid => hlive ?_⟩
              rw [hone p hp hid.symm]
              exact h
            · exact ⟨.inr h, hne.symm⟩
        · refine fun p hp => List.mem_filter.mpr ⟨hvs hp, decide_eq_true fun hid => hfresh ?_⟩
          exact List.mem_map.mpr ⟨p, hp, hid⟩

/-! ### All orders -/

/-- What a whole expiry comes to in the order `o`. -/
theorem expireIn_spec (now : ℕ) (h : m.Keyed) (o : Order m) :
    ∃ e, Expires m now o.leases e ∧ e.leases = m.leases.filter (now < ·.expires) ∧
      m.expireIn o now = { e with prov := m.prov.filter (now < ·.expires) } := by
  have hleases : Expires m now o.leases (o.leases.foldl (expireLease now) m) :=
    expires_foldl h (fun l hl => o.leases_perm.mem_iff.mp hl)
      ((o.leases_perm.map _).nodup_iff.mpr h.leases)
  refine ⟨_, hleases, ?_, ?_⟩
  · rw [hleases.leases]
    refine List.filter_congr fun l hl => ?_
    have hvisits : o.leases.all (·.id ≠ l.id) = false := List.all_eq_false.mpr
      ⟨l, o.leases_perm.mem_iff.mpr hl, by simp⟩
    rw [hvisits, Bool.or_false, expiredBy, ← decide_not, decide_eq_decide, not_le]
  · have hprov : (o.leases.foldl (expireLease now) m).prov = m.prov := by rw [hleases.rest]
    rw [expireIn, foldl_expireDuck (hprov ▸ h.prov)
      (fun p hp => hprov ▸ o.prov_perm.mem_iff.mp hp)
      ((o.prov_perm.map _).nodup_iff.mpr h.prov), hprov]
    refine congrArg (fun prov => { o.leases.foldl (expireLease now) m with prov })
      (List.filter_congr fun p hp => ?_)
    rw [decide_eq_decide]
    refine or_iff_left fun hall => ?_
    exact hall p (o.prov_perm.mem_iff.mpr hp) rfl

/-- All orders come to the same state, and run the same callbacks. -/
def OrderFree (m : Manager D) (now : ℕ) : Prop :=
  ∀ o o' : Order m,
    { m.expireIn o now with pending := [] } = { m.expireIn o' now with pending := [] } ∧
      (m.expireIn o now).pending.Perm (m.expireIn o' now).pending

/-- The last leases of the playing output's owner expire. -/
def OwnerExpires (m : Manager D) (now : ℕ) : Prop :=
  m.dialogPlaying = true ∧ (∃ l ∈ m.leases, l.owner = m.dialogOwner) ∧
    ∀ l ∈ m.leases, l.owner = m.dialogOwner → l.expires ≤ now

/-- When the last leases of its owner expire the output is cancelled in every order exactly when
one of them is not older than it. -/
def CancelsWhenDue (m : Manager D) (now : ℕ) : Prop :=
  m.OwnerExpires now → ∀ o : Order m, (m.expireIn o now).dialogPlaying = false ↔
    ∃ l ∈ m.leases, l.owner = m.dialogOwner ∧ l.expires ≤ now ∧ m.dialogGen ≤ l.generation

/-- The last leases of the playing output's owner expire, one older than it and one not. -/
def Mixed (m : Manager D) (now : ℕ) : Prop :=
  m.OwnerExpires now ∧
    (∃ l ∈ m.leases, l.owner = m.dialogOwner ∧ l.generation < m.dialogGen) ∧
      ∃ l ∈ m.leases, l.owner = m.dialogOwner ∧ m.dialogGen ≤ l.generation

/-- An order in which a lease comes last. -/
theorem exists_order_last {l : Held D} (hl : l ∈ m.leases) :
    ∃ (o : Order m) (before : List (Held D)), o.leases = before ++ [l] := by
  obtain ⟨a, b, hsplit⟩ := List.append_of_mem hl
  refine ⟨⟨a ++ b ++ [l], m.prov, ?_, .refl _⟩, a ++ b, rfl⟩
  rw [hsplit]
  exact (List.perm_append_singleton l (a ++ b)).trans List.perm_middle.symm

/-- With generations on one side of the output's the order decides nothing. -/
theorem cancels_iff_due (hmixed : ¬ m.Mixed now) (o : Order m) :
    m.Cancels now o.leases ↔ m.OwnerExpires now ∧
      ∃ l ∈ m.leases, l.owner = m.dialogOwner ∧ l.expires ≤ now ∧ m.dialogGen ≤ l.generation := by
  constructor
  · rintro ⟨hplays, hall, l, hlast, hgen⟩
    obtain ⟨hmem, howner⟩ := List.mem_filter.mp (List.mem_of_getLast? hlast)
    have hl := o.leases_perm.mem_iff.mp hmem
    have howner := of_decide_eq_true howner
    have hexpires : ∀ x ∈ m.leases, x.owner = m.dialogOwner → x.expires ≤ now :=
      fun x hx hxowner => of_decide_eq_true (hall x hx hxowner).2
    exact ⟨⟨hplays, ⟨l, hl, howner⟩, hexpires⟩, l, hl, howner, hexpires l hl howner, hgen⟩
  · rintro ⟨hexpires, l, hl, howner, -, hgen⟩
    have hnew : ∀ x ∈ m.leases, x.owner = m.dialogOwner → m.dialogGen ≤ x.generation := by
      intro x hx hxowner
      by_contra hold
      exact hmixed ⟨hexpires, ⟨x, hx, hxowner, not_le.mp hold⟩, l, hl, howner, hgen⟩
    refine ⟨hexpires.1, fun x hx hxowner =>
      ⟨o.leases_perm.mem_iff.mpr hx, decide_eq_true (hexpires.2.2 x hx hxowner)⟩, ?_⟩
    have hfilter : l ∈ o.leases.filter (·.owner = m.dialogOwner) :=
      List.mem_filter.mpr ⟨o.leases_perm.mem_iff.mpr hl, decide_eq_true howner⟩
    obtain ⟨x, hx⟩ : ∃ x, (o.leases.filter (·.owner = m.dialogOwner)).getLast? = some x :=
      ⟨_, List.getLast?_eq_some_getLast (List.ne_nil_of_mem hfilter)⟩
    obtain ⟨hmem, hxowner⟩ := List.mem_filter.mp (List.mem_of_getLast? hx)
    exact ⟨x, hx, hnew x (o.leases_perm.mem_iff.mp hmem) (of_decide_eq_true hxowner)⟩

/-- Two expiries that agree on the output agree on everything. -/
theorem Expires.same {o o' : Order m} {e e' : Manager D} (he : Expires m now o.leases e)
    (he' : Expires m now o'.leases e') (hleases : e.leases = e'.leases)
    (hplaying : e.dialogPlaying = e'.dialogPlaying) :
    { e with pending := [] } = { e' with pending := [] } ∧ e.pending.Perm e'.pending := by
  refine ⟨?_, ?_⟩
  · rw [he.rest, he'.rest, hleases, hplaying]
  · have hvisited := o.leases_perm.trans o'.leases_perm.symm
    refine he.pending.trans (List.Perm.trans ?_ he'.pending.symm)
    rw [hplaying]
    exact (((hvisited.filter _).map _).append_left _).append_right _

/-- **Every order of an expiry comes to the same state, callbacks and cancellation, and cancels
the output when it is due, exactly when no older lease of its owner expires with the last
others.** -/
theorem expiry_order_iff (m : Manager D) (now : ℕ) (h : m.Keyed) :
    m.OrderFree now ∧ m.CancelsWhenDue now ↔ ¬ m.Mixed now := by
  constructor
  · rintro ⟨-, hdue⟩ ⟨hexpires, ⟨l, hl, howner, hold⟩, x, hx, hxowner, hxgen⟩
    obtain ⟨o, before, ho⟩ := exists_order_last hl
    obtain ⟨e, he, -, heq⟩ := expireIn_spec now h o
    have hquiet := (hdue hexpires o).mpr
      ⟨x, hx, hxowner, hexpires.2.2 x hx hxowner, hxgen⟩
    have hplays : e.dialogPlaying = true := by
      refine he.playing.mpr ⟨hexpires.1, ?_⟩
      rintro ⟨-, -, y, hlast, hgen⟩
      rw [ho, List.filter_append, List.filter_cons, if_pos (decide_eq_true howner),
        List.filter_nil, List.getLast?_concat] at hlast
      cases hlast
      omega
    rw [heq] at hquiet
    change e.dialogPlaying = false at hquiet
    rw [hplays] at hquiet
    cases hquiet
  · intro hmixed
    have hplaying : ∀ (o : Order m) (e : Manager D), Expires m now o.leases e →
        (e.dialogPlaying = true ↔ m.dialogPlaying = true ∧ ¬ (m.OwnerExpires now ∧
          ∃ l ∈ m.leases, l.owner = m.dialogOwner ∧ l.expires ≤ now ∧
            m.dialogGen ≤ l.generation)) :=
      fun o e he => by rw [he.playing, cancels_iff_due hmixed o]
    constructor
    · intro o o'
      obtain ⟨e, he, hleases, heq⟩ := expireIn_spec now h o
      obtain ⟨e', he', hleases', heq'⟩ := expireIn_spec now h o'
      have hsame := he.same he' (hleases.trans hleases'.symm)
        (Bool.eq_iff_iff.mpr ((hplaying o e he).trans (hplaying o' e' he').symm))
      rw [heq, heq']
      refine ⟨?_, hsame.2⟩
      exact congrArg (fun s : Manager D => { s with prov := m.prov.filter (now < ·.expires) })
        hsame.1
    · intro hexpires o
      obtain ⟨e, he, -, heq⟩ := expireIn_spec now h o
      rw [heq]
      change e.dialogPlaying = false ↔ _
      rw [← Bool.not_eq_true, hplaying o e he, not_and_not_right]
      exact ⟨fun hdue => (hdue hexpires.1).2, fun hdue _ => ⟨hexpires, hdue⟩⟩

/-! ### A turn that ends -/

/-- A turn's input lease, its output lease of the next generation, and its output. -/
def ending : Manager ℤ :=
  after (-18) [
    call 0 (.acquire "in" "turn" 1 .dialogInput 0),
    call 0 (.acquire "out" "turn" 2 .dialogOutput 0),
    call 0 (.dialogOutputStarted "reply" "turn" 2)]

/-- Both leases expire together. Visited last the output's cancels the reply; visited first it
does not, and the reply plays on. -/
theorem ending_depends_on_order :
    (∃ o o' : Order ending, (ending.expireIn o (3 * second)).dialogPlaying = false ∧
      (ending.expireIn o' (3 * second)).dialogPlaying = true) ∧
    ¬ (ending.OrderFree (3 * second) ∧ ending.CancelsWhenDue (3 * second)) := by
  have horders : ∃ o o' : Order ending,
      (ending.expireIn o (3 * second)).dialogPlaying = false ∧
        (ending.expireIn o' (3 * second)).dialogPlaying = true :=
    ⟨⟨ending.leases.reverse, ending.prov, List.reverse_perm _, .refl _⟩,
      ⟨ending.leases, ending.prov, .refl _, .refl _⟩, by decide, by decide⟩
  refine ⟨horders, fun h => ?_⟩
  obtain ⟨o, o', hquiet, hplays⟩ := horders
  have hsame := congrArg (·.dialogPlaying) (h.1 o o').1
  change (ending.expireIn o _).dialogPlaying = (ending.expireIn o' _).dialogPlaying at hsame
  rw [hquiet, hplays] at hsame
  cases hsame

/-- Before either lease expires the order does not matter. -/
theorem expiry_order_iff_ending :
    ending.OrderFree second ∧ ending.CancelsWhenDue second := by
  refine (expiry_order_iff ending second ⟨by decide, by decide⟩).mpr ?_
  rintro ⟨⟨-, ⟨l, hl, howner⟩, hexpires⟩, -⟩
  have hlate : ∀ l ∈ ending.leases, ¬ l.expires ≤ second := by decide
  exact hlate l hl (hexpires l hl howner)

end Manager

end EchoMuse.Focus
