import EchoMuse.Playback.Handling

/-!
# The Operations of the Render Client

Every operation handles entries one after another. This module relates all of a client's entries
to its log, and shows that each operation, with any answers of the link, keeps the relation.

## Main results

* `Sound.handle`: handling one entry keeps the relation;
* `sound_run`: every run of operations keeps it.
-/

namespace EchoMuse.Render

open Monitors

/-! ### The entries of a client and its log -/

/-- What a client's entries have to do with its log, in which only the ids `used` occur. -/
structure Sound (entries : List Entry) (log : List Effect) (used : List PlaybackId) : Prop where
  nodup : (entries.map fun e => e.playback.id).Nodup
  lawful : ∀ id, Obeys May (about id log)
  kept : ∀ e ∈ entries, Kept e (about e.playback.id log)
  /-- A playback that was opened is live or over. -/
  gone : ∀ id, (about id log).any Effect.isOpened = true →
    (∃ e ∈ entries, e.playback.id = id) ∨ (about id log).any Effect.isEnded = true
  used : ∀ id, about id log ≠ [] → id ∈ used

theorem sound_nil (used : List PlaybackId) : Sound [] [] used where
  nodup := List.nodup_nil
  lawful := fun _ => obeys_nil May
  kept := by simp
  gone := by simp [about]
  used := fun _ h => absurd rfl h

/-- What is in the entries once the one at `i` was replaced or removed. -/
theorem mem_replaced {entries : List Entry} {i : ℕ} {e : Entry} {after : Option Entry}
    (hnodup : (entries.map fun e => e.playback.id).Nodup) (hi : entries[i]? = some e) {x : Entry}
    (hx : x ∈ replaced entries i after) :
    after = some x ∨ x ∈ entries ∧ x.playback.id ≠ e.playback.id := by
  have hother : ∀ j, j ≠ i → entries[j]? = some x → x ∈ entries ∧ x.playback.id ≠ e.playback.id := by
    intro j hj hxj
    refine ⟨List.mem_of_getElem? hxj, fun hid => hj ?_⟩
    obtain ⟨hjlt, -⟩ := List.getElem?_eq_some_iff.mp hxj
    refine (List.getElem?_inj (by simpa using hjlt) hnodup).mp ?_
    rw [List.getElem?_map, List.getElem?_map, hxj, hi, Option.map_some, Option.map_some, hid]
  cases after with
  | none =>
      obtain ⟨j, hj, hxj⟩ := List.mem_eraseIdx_iff_getElem?.mp hx
      exact .inr (hother j hj hxj)
  | some e' =>
      obtain ⟨j, hxj⟩ := List.mem_iff_getElem?.mp hx
      by_cases hj : j = i
      · subst hj
        obtain ⟨hlt, -⟩ := List.getElem?_eq_some_iff.mp hi
        rw [replaced, List.getElem?_set_self hlt] at hxj
        exact .inl hxj
      · rw [replaced, List.getElem?_set_ne (Ne.symm hj)] at hxj
        exact .inr (hother j hj hxj)

theorem mem_replaced_of_ne {entries : List Entry} {i : ℕ} {e x : Entry} (after : Option Entry)
    (hi : entries[i]? = some e) (hx : x ∈ entries) (hne : x.playback.id ≠ e.playback.id) :
    x ∈ replaced entries i after := by
  obtain ⟨j, hj⟩ := List.mem_iff_getElem?.mp hx
  have hji : j ≠ i := by
    rintro rfl
    rw [hj, Option.some.injEq] at hi
    exact hne (by rw [hi])
  cases after with
  | none => exact List.mem_eraseIdx_iff_getElem?.mpr ⟨j, hji, hj⟩
  | some e' =>
      exact List.mem_iff_getElem?.mpr ⟨j, by rw [replaced, List.getElem?_set_ne (Ne.symm hji), hj]⟩

/-- Handling one entry lawfully keeps the relation of the entries and the log. -/
theorem Sound.handle {entries : List Entry} {log new : List Effect} {used : List PlaybackId}
    {i : ℕ} {e : Entry} {after : Option Entry} (h : Sound entries log used)
    (hi : entries[i]? = some e) (habout : ∀ x ∈ new, x.playbackId = e.playback.id)
    (hafter : After e (about e.playback.id log ++ new) after) :
    Sound (replaced entries i after) (log ++ new) used := by
  have hself : about e.playback.id (log ++ new) = about e.playback.id log ++ new := by
    rw [about_append, about_eq_self habout]
  have hother : ∀ id, id ≠ e.playback.id → about id (log ++ new) = about id log := by
    intro id hne
    rw [about_append, about_eq_nil hne habout, List.append_nil]
  have he : e ∈ entries := List.mem_of_getElem? hi
  have hplayback : ∀ e', after = some e' → e'.playback = e.playback := by
    rintro e' rfl
    exact hafter.1
  have hlaw : Obeys May (about e.playback.id log ++ new) := by
    cases after with
    | none => exact hafter.1
    | some e' => exact hafter.2.1
  constructor
  · cases after with
    | none => exact h.nodup.sublist ((List.eraseIdx_sublist _ _).map _)
    | some e' =>
        have hset : (entries.set i e').map (fun e => e.playback.id) =
            entries.map fun e => e.playback.id := by
          refine List.ext_getElem? fun j => ?_
          obtain ⟨hlt, -⟩ := List.getElem?_eq_some_iff.mp hi
          by_cases hj : i = j
          · rw [← hj, List.getElem?_map, List.getElem?_map, List.getElem?_set_self hlt, hi,
              Option.map_some, Option.map_some, hplayback e' rfl]
          · rw [List.getElem?_map, List.getElem?_map, List.getElem?_set_ne hj]
        rw [replaced, hset]
        exact h.nodup
  · intro id
    by_cases hid : id = e.playback.id
    · rw [hid, hself]
      exact hlaw
    · rw [hother id hid]
      exact h.lawful id
  · intro x hx
    rcases mem_replaced h.nodup hi hx with rfl | ⟨hx, hne⟩
    · rw [hplayback x rfl, hself]
      exact hafter.2.2
    · rw [hother _ hne]
      exact h.kept x hx
  · intro id hopened
    by_cases hid : id = e.playback.id
    · cases after with
      | none =>
          rw [hid, hself]
          exact .inr hafter.2
      | some e' =>
          obtain ⟨hlt, -⟩ := List.getElem?_eq_some_iff.mp hi
          refine .inl ⟨e', ?_, by rw [hplayback e' rfl, hid]⟩
          exact List.mem_iff_getElem?.mpr ⟨i, by rw [replaced, List.getElem?_set_self hlt]⟩
    · rw [hother id hid] at hopened ⊢
      rcases h.gone id hopened with ⟨x, hx, rfl⟩ | hended
      · exact .inl ⟨x, mem_replaced_of_ne after hi hx hid, rfl⟩
      · exact .inr hended
  · intro id hne
    by_cases hid : id = e.playback.id
    · refine h.used id fun hnil => ?_
      have hopened := (h.kept e he).opened
      rw [← hid, hnil] at hopened
      cases hopened
    · rw [hother id hid] at hne
      exact h.used id hne

/-! ### Operations -/

section

variable {L : Type*} {w w' : World L} {used : List PlaybackId}

/-- A client whose entries and log fit. -/
def World.Sound (w : World L) (used : List PlaybackId) : Prop :=
  Render.Sound w.client.entries w.log used

theorem World.Sound.handled (h : w.Sound used) {i : ℕ} {e : Entry} {new : List Effect}
    {after : Option Entry} (hi : w.client.entries[i]? = some e) (hh : Handled w w' i e new after)
    (hafter : After e (about e.playback.id w.log ++ new) after) : w'.Sound used := by
  rw [World.Sound, hh.entries, hh.log]
  exact Sound.handle h hi hh.about hafter

/-- The client and the log of `w`, seen through another world. -/
theorem World.Sound.of_eq (h : w.Sound used) (hentries : w'.client.entries = w.client.entries)
    (hlog : w'.log = w.log) : w'.Sound used := by
  rw [World.Sound, hentries, hlog]
  exact h

theorem World.Sound.entry (h : w.Sound used) {i : ℕ} {e : Entry}
    (hi : w.client.entries[i]? = some e) :
    Kept e (about e.playback.id w.log) ∧ Obeys May (about e.playback.id w.log) :=
  ⟨h.kept e (List.mem_of_getElem? hi), h.lawful _⟩

theorem World.Sound.mono (h : w.Sound used) {more : List PlaybackId} (hsub : used ⊆ more) :
    w.Sound more :=
  ⟨h.nodup, h.lawful, h.kept, h.gone, fun id hid => hsub (h.used id hid)⟩

theorem World.Sound.endAt (h : w.Sound used) (i : ℕ) (how : PlaybackEnd) :
    (Render.endAt w i how).Sound used := by
  rcases hi : w.client.entries[i]? with _ | e
  · simpa only [Render.endAt, hi] using h
  · obtain ⟨hkept, hlaw⟩ := h.entry hi
    obtain ⟨new, hh, hafter⟩ := endAt_handled hi hkept.token how
    exact h.handled hi hh (hafter _ hlaw hkept.notEnded)

variable (lk : RenderLink L)

theorem World.Sound.cancelAt (h : w.Sound used) {i : ℕ} {e : Entry}
    (hi : w.client.entries[i]? = some e) (hphase : e.phase ≠ .cancelling) (reason : CancelReason) :
    (Render.cancelAt lk w i reason).Sound used := by
  obtain ⟨hkept, hlaw⟩ := h.entry hi
  obtain ⟨new, after, hh, hafter, -⟩ := cancelAt_handled lk hi hkept hlaw hphase reason
  exact h.handled hi hh hafter

theorem World.Sound.pump (h : w.Sound used) (now i : ℕ) : (Render.pump lk w now i).Sound used := by
  rcases hi : w.client.entries[i]? with _ | e
  · simpa only [Render.pump, hi] using h
  · obtain ⟨hkept, hlaw⟩ := h.entry hi
    obtain ⟨new, after, hh, hafter, -⟩ := pump_handled lk now hi hkept hlaw
    exact h.handled hi hh hafter

/-- An entry that is replaced while its playback's log says `x`. -/
theorem World.Sound.replace (h : w.Sound used) {i : ℕ} {e : Entry} (e' : Entry) {x : Effect}
    (hi : w.client.entries[i]? = some e) (hentries : w'.client.entries = w.client.entries.set i e')
    (hlog : w'.log = w.log ++ [x]) (hx : x.playbackId = e.playback.id)
    (he' : e'.playback = e.playback)
    (hmay : May (about e.playback.id w.log) x) (hkept : Kept e' (about e.playback.id w.log ++ [x])) :
    w'.Sound used := by
  have hafter : After e (about e.playback.id w.log ++ [x]) (some e') :=
    ⟨he', obeys_concat.mpr ⟨h.lawful _, hmay⟩, hkept⟩
  have hh : Handled w w' i e [x] (some e') := by
    refine ⟨hentries, hlog, fun y hy => ?_⟩
    rw [List.mem_singleton.mp hy, hx]
  exact h.handled hi hh hafter

theorem findIdx?_entry {entries : List Entry} {p : Entry → Bool} {i : ℕ}
    (h : entries.findIdx? p = some i) : ∃ e, entries[i]? = some e ∧ p e = true := by
  obtain ⟨hlt, hp, -⟩ := List.findIdx?_eq_some_iff_getElem.mp h
  exact ⟨_, List.getElem?_eq_getElem hlt, hp⟩

theorem World.Sound.supersedeLoop (h : w.Sound used) (sourceClass : SourceClass) (fuel : ℕ) :
    (Render.supersedeLoop lk sourceClass fuel w).Sound used := by
  induction fuel generalizing w with
  | zero => exact h
  | succ fuel ih =>
      rw [Render.supersedeLoop]
      split
      · next i hfind =>
        obtain ⟨e, hi, hp⟩ := findIdx?_entry hfind
        exact ih (h.cancelAt lk hi (by simp_all) .superseded)
      · exact h

/-- What is said about a new playback, and the entry it may get. -/
theorem World.Sound.fresh (h : w.Sound used) {id : PlaybackId} (hfresh : id ∉ used)
    {new : List Effect} {opened : Option Entry} (hlog : w'.log = w.log ++ new)
    (hentries : w'.client.entries = w.client.entries ++ opened.toList)
    (habout : ∀ x ∈ new, x.playbackId = id) (hlaw : Obeys May new)
    (hopened : ∀ e, opened = some e → e.playback.id = id ∧ Kept e new)
    (hnone : opened = none → new.any Effect.isOpened = false) : w'.Sound (id :: used) := by
  have hnil : about id w.log = [] := by
    by_contra hne
    exact hfresh (h.used id hne)
  have hself : about id w'.log = new := by
    rw [hlog, about_append, hnil, about_eq_self habout, List.nil_append]
  have hother : ∀ id', id' ≠ id → about id' w'.log = about id' w.log := by
    intro id' hne
    rw [hlog, about_append, about_eq_nil hne habout, List.append_nil]
  have hnotMem : ∀ e ∈ w.client.entries, e.playback.id ≠ id := by
    rintro e he rfl
    have hkept := (h.kept e he).opened
    rw [hnil] at hkept
    cases hkept
  constructor
  · rw [hentries, List.map_append, List.nodup_append]
    refine ⟨h.nodup, by cases opened <;> simp, ?_⟩
    intro a ha b hb
    obtain ⟨e, he, rfl⟩ := List.mem_map.mp ha
    obtain ⟨e', he', rfl⟩ := List.mem_map.mp hb
    rw [(hopened e' (by simpa using he')).1]
    exact hnotMem e he
  · intro id'
    by_cases hid : id' = id
    · rw [hid, hself]
      exact hlaw
    · rw [hother id' hid]
      exact h.lawful id'
  · intro e he
    rw [hentries, List.mem_append] at he
    rcases he with he | he
    · rw [hother _ (hnotMem e he)]
      exact h.kept e he
    · obtain ⟨hid, hkept⟩ := hopened e (by simpa using he)
      rw [hid, hself]
      exact hkept
  · intro id' hany
    by_cases hid : id' = id
    · rw [hid, hself] at hany
      cases ho : opened with
      | none => simp [hnone ho] at hany
      | some e => exact .inl ⟨e, by simp [hentries, ho], by rw [hid, (hopened e ho).1]⟩
    · rw [hother id' hid] at hany ⊢
      refine (h.gone id' hany).imp_left ?_
      rintro ⟨e, he, hid'⟩
      exact ⟨e, by simp [hentries, he], hid'⟩
  · intro id' hne
    by_cases hid : id' = id
    · exact hid ▸ List.mem_cons_self
    · rw [hother id' hid] at hne
      exact List.mem_cons_of_mem _ (h.used id' hne)

/-- A playback that was just opened has no audio yet. -/
theorem sending_opened {playback : PlaybackRef} {body : RenderStart} {epoch : RenderEpoch}
    {token : CancellationToken} :
    Sending ⟨epoch, token, [], none, none, 0, 0, 0, false, false⟩ none
      [.request (.renderStart body) playback.generation true, .opened playback] where
  done := rfl
  completed := rfl
  audio := rfl
  nextFrame := rfl
  nextSequence := rfl
  full := nofun
  hand_fits := nofun
  endSent := rfl
  ended := nofun

theorem obeys_start (body : RenderStart) (generation : UInt32) (sent : Bool) :
    Obeys May [.request (.renderStart body) generation sent] := by
  have hone : Obeys May ([] ++ [.request (.renderStart body) generation sent]) :=
    obeys_concat.mpr ⟨obeys_nil May, rfl, trivial⟩
  exact hone

/-- A start of a new playback. -/
theorem World.Sound.launch (h : w.Sound used) {playback : PlaybackRef} {body : RenderStart}
    {network : Option Network} {limits : Option LimitClock} (hid : body.playbackId = playback.id)
    (hfresh : playback.id ∉ used)
    (hnet : ∀ net, network = some net →
      ∃ epoch, net = ⟨epoch, ⟨playback.id⟩, [], none, none, 0, 0, 0, false, false⟩) :
    (Render.launch lk w playback body network limits).1.Sound (playback.id :: used) := by
  rw [Render.launch]
  split
  · next w₁ hrequest =>
    obtain ⟨hclient, hlog⟩ := World.request_eq hrequest
    have hentries : w₁.client.entries = w.client.entries ++ (none : Option Entry).toList := by
      simp [hclient]
    refine h.fresh hfresh hlog hentries ?_ (obeys_start _ _ _) (by simp) (fun _ => rfl)
    intro x hx
    rw [List.mem_singleton.mp hx]
    exact hid
  · next w₁ m hrequest =>
    obtain ⟨hclient, hlog⟩ := World.request_eq hrequest
    set e : Entry :=
      { playback := playback, phase := .awaitingAck, network := network, limits := limits } with he
    set new : List Effect :=
      [.request (.renderStart body) playback.generation true, .opened playback] with hnew
    have hlaw : Obeys May new := by
      have htwo : Obeys May ([.request (.renderStart body) playback.generation true] ++
          [.opened playback]) := obeys_concat.mpr ⟨obeys_start _ _ _, rfl, trivial⟩
      exact htwo
    have hkept : Kept e new :=
      { opened := rfl
        notEnded := rfl
        awaiting := fun _ => ⟨rfl, rfl⟩
        running := by simp
        cancelling := by simp
        token := by
          intro net hn
          obtain ⟨epoch, rfl⟩ := hnet net hn
          rfl
        sending := by
          intro _ net hn
          obtain ⟨epoch, rfl⟩ := hnet net hn
          exact sending_opened
        retry := by
          intro net hn hretry
          obtain ⟨epoch, rfl⟩ := hnet net hn
          cases hretry }
    have habout : ∀ x ∈ new, x.playbackId = playback.id := by
      intro x hx
      rcases List.mem_cons.mp hx with rfl | hx
      · exact hid
      · rw [List.mem_singleton.mp hx]
        rfl
    have hopened : ∀ e', some e = some e' → e'.playback.id = playback.id ∧ Kept e' new := by
      rintro _ ⟨⟩
      exact ⟨rfl, hkept⟩
    exact h.fresh hfresh (by simp [hlog, hnew]) (by simp [hclient, he]) habout hlaw hopened (by simp)

theorem World.Sound.nextPlayback (h : w.Sound used) (sourceClass : SourceClass) (id : PlaybackId) :
    (Render.nextPlayback w sourceClass id).1.Sound used :=
  h.of_eq rfl rfl

theorem World.Sound.startNetwork (h : w.Sound used) (start : NetworkStart) {id : PlaybackId}
    (epoch : RenderEpoch) (hfresh : id ∉ used) :
    (Render.startNetwork lk w start id epoch).1.Sound (id :: used) :=
  ((h.supersedeLoop lk _ _).nextPlayback _ id).launch lk rfl hfresh (by
    rintro _ ⟨⟩
    exact ⟨epoch, rfl⟩)

theorem World.Sound.startLocal (h : w.Sound used) (source : LocalSource) (gainDb : UInt64)
    (announcement : Bool) {id : PlaybackId} (hfresh : id ∉ used) :
    (Render.startLocal lk w source gainDb announcement id).1.Sound (id :: used) := by
  rw [Render.startLocal]
  split
  · exact h.mono (List.subset_cons_self _ _)
  · have hnext := (h.supersedeLoop lk source.class w.client.entries.length).nextPlayback
      source.class id
    dsimp only
    split
    · next hl =>
      refine congrArg Prod.fst hl ▸ ?_
      exact hnext.launch lk rfl hfresh (by simp)
    · next hl =>
      refine congrArg Prod.fst hl ▸ ?_
      exact hnext.launch lk rfl hfresh (by simp)

/-- What `push_audio` and `finish_audio` do to a playback whose source is not done. -/
structure Feeds (playback : PlaybackRef) (mark : Effect) (change : Network → Network) : Prop where
  about : mark.playbackId = playback.id
  accepted : mark.isAccepted = false
  cancelled : mark.isCancelled = false
  ended : mark.isEnded = false
  follows : ∀ es : List Effect, es.any Effect.isSourceDone = false → Follows es mark
  token : ∀ net, (change net).token = net.token
  blocked : ∀ net, (change net).blocked = net.blocked
  retryAt : ∀ net, (change net).retryAt = net.retryAt
  sending : ∀ net es, net.sourceDone = false → Sending net net.blocked es →
    Sending (change net) net.blocked (es ++ [mark])

theorem Sending.full_of_open {net : Network} {hand : Option RenderFrame} {es : List Effect}
    (h : Sending net hand es) (hopen : net.sourceDone = false) :
    (∀ g ∈ queued es, g.frames = PACKET_FRAMES) ∧
      (∀ f, hand = some f → f.frames = PACKET_FRAMES) ∧ net.endSent = false := by
  refine ⟨fun g hg => ?_, fun f hf => ?_, ?_⟩
  · rcases h.full g hg with hg | ⟨hdone, -⟩
    · exact hg
    · exact absurd (hdone.symm.trans hopen) nofun
  · obtain ⟨-, -, -, -, hfull | ⟨hdone, -⟩, -⟩ := h.hand_fits f hf
    · exact hfull
    · exact absurd (hdone.symm.trans hopen) nofun
  · by_contra hended
    exact absurd ((h.ended (by simpa using hended)).1.symm.trans hopen) nofun

theorem feeds_pushAudio (playback : PlaybackRef) (pcm : List Int16) :
    Feeds playback (.buffered playback pcm) fun net => { net with pending := net.pending ++ pcm } where
  about := rfl
  accepted := rfl
  cancelled := rfl
  ended := rfl
  follows := fun _ h => h
  token := fun _ => rfl
  blocked := fun _ => rfl
  retryAt := fun _ => rfl
  sending := by
    intro net es hopen h
    obtain ⟨hqueued, hhand, hend⟩ := h.full_of_open hopen
    have hq : queued [.buffered playback pcm] = [] := rfl
    have hp : played [.buffered playback pcm] = [] := rfl
    have hb : buffered [.buffered playback pcm] = pcm := List.append_nil pcm
    refine
      { done := ?_, completed := ?_, audio := ?_, nextFrame := ?_, nextSequence := ?_, full := ?_
        hand_fits := ?_, endSent := ?_, ended := ?_ }
    · simpa [Effect.isSourceDone] using h.done
    · simpa [reportedFrames_concat, Effect.completed] using h.completed
    · rw [buffered_append, hb, h.audio, played_append, hp]
      simp only [List.append_assoc, List.append_nil]
    · simpa [hp] using h.nextFrame
    · simpa [hq] using h.nextSequence
    · intro g hg
      exact .inl (hqueued g (by simpa [hq] using hg))
    · intro f hf
      obtain ⟨h₁, h₂, h₃, h₄, -, h₆⟩ := h.hand_fits f hf
      refine ⟨h₁, by simpa [hq] using h₂, by simpa [hp] using h₃, h₄, .inl (hhand f hf), ?_⟩
      simpa [reportedFrames_concat, Effect.completed] using h₆
    · simpa [Effect.isRenderEnd] using h.endSent
    · intro hended
      exact absurd (hended.symm.trans hend) (by simp)

theorem feeds_finishAudio (playback : PlaybackRef) :
    Feeds playback (.sourceDone playback) fun net => { net with sourceDone := true } where
  about := rfl
  accepted := rfl
  cancelled := rfl
  ended := rfl
  follows := fun _ h => h
  token := fun _ => rfl
  blocked := fun _ => rfl
  retryAt := fun _ => rfl
  sending := by
    intro net es hopen h
    obtain ⟨hqueued, hhand, hend⟩ := h.full_of_open hopen
    have hq : queued [.sourceDone playback] = [] := rfl
    have hp : played [.sourceDone playback] = [] := rfl
    have hb : buffered [.sourceDone playback] = [] := rfl
    refine
      { done := ?_, completed := ?_, audio := ?_, nextFrame := ?_, nextSequence := ?_, full := ?_
        hand_fits := ?_, endSent := ?_, ended := ?_ }
    · simp [Effect.isSourceDone]
    · simpa [reportedFrames_concat, Effect.completed] using h.completed
    · simpa [hb, hp] using h.audio
    · simpa [hp] using h.nextFrame
    · simpa [hq] using h.nextSequence
    · intro g hg
      exact .inl (hqueued g (by simpa [hq] using hg))
    · intro f hf
      obtain ⟨h₁, h₂, h₃, h₄, -, h₆⟩ := h.hand_fits f hf
      refine ⟨h₁, by simpa [hq] using h₂, by simpa [hp] using h₃, h₄, .inl (hhand f hf), ?_⟩
      simpa [reportedFrames_concat, Effect.completed] using h₆
    · simpa [Effect.isRenderEnd] using h.endSent
    · intro hended
      exact absurd (hended.symm.trans hend) (by simp)

theorem World.Sound.feed (h : w.Sound used) (now : ℕ) {playback : PlaybackRef} {mark : Effect}
    {change : Network → Network} (hfeeds : Feeds playback mark change) :
    (Render.feed lk w now playback mark change).1.Sound used := by
  rw [Render.feed]
  split
  · exact h
  next i hindex =>
  obtain ⟨e, hi, hp⟩ := findIdx?_entry hindex
  obtain rfl : e.playback = playback := by simpa using hp
  obtain ⟨hkept, -⟩ := h.entry hi
  simp only [hi]
  split_ifs with hphase
  · exact h
  split
  · exact h
  next net hnet =>
  have hsending := hkept.sending hphase net hnet
  split_ifs with hdone
  · exact h
  rw [Bool.not_eq_true] at hdone
  have hnotDone := hsending.done.symm.trans hdone
  refine (h.replace { e with network := some (change net) } hi rfl rfl hfeeds.about rfl
    ⟨hkept.notEnded, hfeeds.follows _ hnotDone⟩ ?_).pump lk now i
  exact
    { opened := by simp [hkept.opened]
      notEnded := by simp [hkept.notEnded, hfeeds.ended]
      awaiting := fun hp => by simpa [hfeeds.accepted, hfeeds.cancelled] using hkept.awaiting hp
      running := fun hp => by simpa [hfeeds.accepted, hfeeds.cancelled] using hkept.running hp
      cancelling := fun hp => absurd hp hphase
      token := by
        rintro _ ⟨⟩
        rw [hfeeds.token]
        exact hkept.token net hnet
      sending := by
        rintro - _ ⟨⟩
        rw [hfeeds.blocked]
        exact hfeeds.sending net _ hdone hsending
      retry := by
        rintro _ ⟨⟩ hretry
        rw [hfeeds.retryAt] at hretry
        rw [hfeeds.blocked]
        exact hkept.retry net hnet hretry }

theorem World.Sound.cancel (h : w.Sound used) (playback : PlaybackRef) (reason : CancelReason) :
    (Render.cancel lk w playback reason).1.Sound used := by
  rw [Render.cancel]
  split
  · exact h
  next i hindex =>
  obtain ⟨e, hi, -⟩ := findIdx?_entry hindex
  simp only [hi]
  split_ifs with hphase
  · exact h
  · exact h.cancelAt lk hi hphase reason

/-- A start that the device acknowledged. -/
theorem Kept.accept {e : Entry} {es : List Effect} (h : Kept e es) (hphase : e.phase = .awaitingAck) :
    Kept { e with phase := .running } (es ++ [.event (.accepted e.playback)]) where
  opened := by simp [h.opened]
  notEnded := by simp [h.notEnded, Effect.isEnded]
  awaiting := by simp
  running := fun _ => by simp [(h.awaiting hphase).2, Effect.isAccepted, Effect.isCancelled]
  cancelling := by simp
  token := h.token
  sending := fun _ net hnet =>
    (h.sending (by simp [hphase]) net hnet).concat rfl rfl rfl rfl rfl
  retry := fun net hnet hretry => ⟨rfl, (h.retry net hnet hretry).2⟩

/-- The position of a live playback's entry. -/
theorem position_entry {id : PlaybackId} {i : ℕ} (h : w.client.position id = some i) :
    ∃ e, w.client.entries[i]? = some e ∧ e.playback.id = id := by
  obtain ⟨e, hi, hp⟩ := findIdx?_entry h
  exact ⟨e, hi, by simpa using hp⟩

theorem World.Sound.onAck (h : w.Sound used) (now : ℕ) (messageId : MessageId)
    (outcome : AckOutcome) : (Render.onAck lk w now messageId outcome).1.Sound used := by
  rw [Render.onAck]
  split
  · exact h
  next id kind hcommand =>
  generalize hw₁ : ({ w with client := { w.client with
    commands := Function.update w.client.commands messageId none } } : World L) = w₁
  have h₁ : w₁.Sound used := hw₁ ▸ h.of_eq rfl rfl
  dsimp only
  split
  · exact h₁
  next i hposition =>
  obtain ⟨e, hi, -⟩ := position_entry hposition
  obtain ⟨hkept, -⟩ := h₁.entry hi
  simp only [hi]
  split
  · -- the start was accepted
    split_ifs with hphase
    · have hmay : May (about e.playback.id w₁.log) (.event (.accepted e.playback)) :=
        ⟨hkept.notEnded, (hkept.awaiting hphase).1⟩
      exact (h₁.replace { e with phase := .running } hi rfl rfl rfl rfl hmay
        (hkept.accept hphase)).pump lk now i
    · exact h₁
  · exact h₁.endAt i _
  · -- the start was not acknowledged in time
    have h₂ : (if e.phase ≠ .cancelling then Render.cancelAt lk w₁ i .unconfirmed else w₁).Sound
        used := by
      split_ifs with hphase
      · exact h₁.cancelAt lk hi hphase .unconfirmed
      · exact h₁
    split
    · exact h₂.endAt _ _
    · exact h₂
  · exact h₁.endAt i _
  · exact h₁
  · exact h₁

theorem Entry.report_playback (e : Entry) (now : ℕ) (progress : RenderProgress) :
    (e.report now progress).playback = e.playback := rfl

/-- A progress report moves the frames completed on. -/
theorem Sending.report {net : Network} {hand : Option RenderFrame} {es : List Effect}
    (h : Sending net hand es) (p : PlaybackRef) (progress : RenderProgress) :
    Sending (if net.completed < progress.completedFrames then
      { net with completed := progress.completedFrames } else net) hand
      (es ++ [.event (.progress p progress)]) := by
  set x : Effect := .event (.progress p progress) with hx
  have hq : queued [x] = [] := rfl
  have hp : played [x] = [] := rfl
  have hb : buffered [x] = [] := rfl
  have hcompleted : (if net.completed < progress.completedFrames then
      { net with completed := progress.completedFrames } else net).completed.toNat =
      reportedFrames (es ++ [x]) := by
    rw [reportedFrames_concat, ← h.completed]
    change _ = max net.completed.toNat progress.completedFrames.toNat
    split_ifs with hlt
    · exact (Nat.max_eq_right (UInt64.lt_iff_toNat_lt.mp hlt).le).symm
    · exact (Nat.max_eq_left (UInt64.not_lt.mp hlt |> UInt64.le_iff_toNat_le.mp)).symm
  have hmono : reportedFrames es ≤ reportedFrames (es ++ [x]) := by
    rw [reportedFrames_concat]
    exact Nat.le_max_left _ _
  generalize hnet' : (if net.completed < progress.completedFrames then
      { net with completed := progress.completedFrames } else net) = net' at hcompleted ⊢
  have hsame : net'.sourceDone = net.sourceDone ∧ net'.pending = net.pending ∧
      net'.token = net.token ∧ net'.endSent = net.endSent ∧ net'.nextFrame = net.nextFrame ∧
      net'.nextSequence = net.nextSequence := by
    rw [← hnet']
    split_ifs <;> simp
  obtain ⟨hdone, hpending, htoken, hend, hframe, hsequence⟩ := hsame
  refine
    { done := ?_, completed := hcompleted, audio := ?_, nextFrame := ?_, nextSequence := ?_
      full := ?_, hand_fits := ?_, endSent := ?_, ended := ?_ }
  · simpa [hdone, hx, Effect.isSourceDone] using h.done
  · simpa [hpending, hb, hp] using h.audio
  · simpa [hframe, hp] using h.nextFrame
  · simpa [hsequence, hq] using h.nextSequence
  · simpa [hdone, hpending, hq] using h.full
  · intro f hf
    obtain ⟨h₁, h₂, h₃, h₄, h₅, h₆⟩ := h.hand_fits f hf
    refine ⟨h₁.trans htoken.symm, by simpa [hq] using h₂, by simpa [hp] using h₃, h₄, ?_, by omega⟩
    simpa [hdone, hpending] using h₅
  · simpa [hend, hx, Effect.isRenderEnd] using h.endSent
  · simpa [hend, hdone, hpending] using h.ended

/-- An entry after a progress report. -/
theorem Kept.report {e : Entry} {es : List Effect} (h : Kept e es) (now : ℕ)
    (progress : RenderProgress) :
    Kept (e.report now progress) (es ++ [.event (.progress e.playback progress)]) where
  opened := by simp [h.opened]
  notEnded := by simp [h.notEnded, Effect.isEnded]
  awaiting := fun hp => by simpa [Effect.isAccepted, Effect.isCancelled] using h.awaiting hp
  running := fun hp => by simpa [Effect.isAccepted, Effect.isCancelled] using h.running hp
  cancelling := fun hp => by simp [h.cancelling hp]
  token := by
    intro net hnet
    obtain ⟨old, hold, rfl⟩ := Option.map_eq_some_iff.mp hnet
    have htoken := h.token old hold
    split_ifs <;> exact htoken
  sending := by
    intro hp net hnet
    obtain ⟨old, hold, rfl⟩ := Option.map_eq_some_iff.mp hnet
    have hsending := (h.sending hp old hold).report e.playback progress
    have hblocked : (if old.completed < progress.completedFrames then
        { old with completed := progress.completedFrames } else old).blocked = old.blocked := by
      split_ifs <;> rfl
    rw [hblocked]
    exact hsending
  retry := by
    intro net hnet hretry
    obtain ⟨old, hold, rfl⟩ := Option.map_eq_some_iff.mp hnet
    have hold' := h.retry old hold
    split_ifs at hretry ⊢ <;> exact hold' hretry

theorem World.Sound.onReport (h : w.Sound used) (now : ℕ) (generation : UInt32)
    (report : RenderReport) : (Render.onReport lk w now generation report).1.Sound used := by
  rw [Render.onReport]
  split
  · exact h
  next i hfind =>
  obtain ⟨e, hi, -⟩ := findIdx?_entry hfind
  obtain ⟨hkept, -⟩ := h.entry hi
  simp only [hi]
  split
  · next progress =>
    refine World.Sound.pump lk ?_ now i
    obtain ⟨hkept, hlaw⟩ := h.entry hi
    set starts : List Effect :=
      if progress.event = .known .start then [.event (.started e.playback)] else [] with hstarts
    have habout : ∀ x ∈ starts ++ [.event (.progress e.playback progress)],
        x.playbackId = e.playback.id := by
      intro x hx
      rw [hstarts] at hx
      split_ifs at hx <;> simp at hx <;> rcases hx with rfl | rfl <;> rfl
    have hstarted : Kept e (about e.playback.id w.log ++ starts) ∧
        Obeys May (about e.playback.id w.log ++ starts) := by
      rw [hstarts]
      split_ifs
      · exact ⟨hkept.concat (neutral_started _), obeys_concat.mpr ⟨hlaw, hkept.notEnded, trivial⟩⟩
      · rw [List.append_nil]
        exact ⟨hkept, hlaw⟩
    have hafter : After e (about e.playback.id w.log ++
        (starts ++ [.event (.progress e.playback progress)])) (some (e.report now progress)) := by
      rw [← List.append_assoc]
      exact ⟨rfl, obeys_concat.mpr ⟨hstarted.2, hstarted.1.notEnded, trivial⟩,
        hstarted.1.report now progress⟩
    refine h.handled hi ⟨?_, ?_, habout⟩ hafter
    · split_ifs <;> rfl
    · rw [hstarts]
      split_ifs <;> simp
  · exact h.endAt i _

/-! ### Polling -/

theorem World.Sound.pollRetry (h : w.Sound used) (now i : ℕ) :
    (Render.pollRetry lk w now i).Sound used := by
  rw [Render.pollRetry]
  split
  · exact h
  · split_ifs
    · exact h.pump lk now i
    · exact h

theorem World.Sound.pollLimit (h : w.Sound used) (now i : ℕ) :
    (Render.pollLimit lk w now i).Sound used := by
  rw [Render.pollLimit]
  split
  · exact h
  next e hi =>
  split_ifs with hphase
  · exact h
  split
  · exact h
  next limits hlimits =>
  split_ifs
  · obtain ⟨hkept, -⟩ := h.entry hi
    have hexceeded : (w.emit (.limitExceeded e.playback limits.deadline.2)).Sound used := by
      refine h.replace e hi ?_ rfl rfl rfl ⟨hkept.notEnded, trivial⟩
        (hkept.concat (neutral_limitExceeded _ _))
      obtain ⟨hlt, rfl⟩ := List.getElem?_eq_some_iff.mp hi
      exact (List.set_getElem_self hlt).symm
    exact hexceeded.cancelAt lk hi hphase .responseTimeout
  · exact h

theorem World.Sound.pollOne (h : w.Sound used) (now : ℕ) (id : PlaybackId) :
    (Render.pollOne lk now w id).Sound used := by
  rw [Render.pollOne]
  split
  · exact h
  next i hposition =>
  have hretried := h.pollRetry lk now i
  dsimp only
  split
  · exact hretried
  · exact hretried.pollLimit lk now _

theorem World.Sound.poll (h : w.Sound used) (now : ℕ) : (Render.poll lk w now).Sound used := by
  rw [Render.poll]
  generalize (w.client.entries.map fun e => e.playback.id) = ids
  induction ids generalizing w with
  | nil => exact h
  | cons id ids ih => exact ih (h.pollOne lk now id)

/-! ### The end of the session -/

theorem World.Sound.sessionEnded (h : w.Sound used) : (Render.sessionEnded w).Sound used := by
  rw [Render.sessionEnded]
  generalize hentries : w.client.entries = entries
  generalize hw' : ({ w with client := { w.client with
    entries := [], commands := fun _ => none } } : World L) = w'
  have hlive : Render.Sound entries w'.log used := by
    rw [← hw', ← hentries]
    exact h
  have hnone : w'.client.entries = [] := by rw [← hw']
  clear h hentries hw'
  induction entries generalizing w' with
  | nil =>
      rw [List.foldl_nil, World.Sound, hnone]
      exact hlive
  | cons e entries ih =>
      rw [List.foldl_cons]
      have hkept := hlive.kept e List.mem_cons_self
      obtain ⟨hlaw, hnotEnded⟩ := obeys_tokenEffects (hlive.lawful e.playback.id) hkept.notEnded
        e.network
      refine ih _ ?_ (by simp [hnone])
      have habout : ∀ x ∈ tokenEffects e.network ++ [.event (.ended e.playback .linkClosed)],
          x.playbackId = e.playback.id := by
        intro x hx
        rcases List.mem_append.mp hx with hx | hx
        · exact tokenEffects_about hkept.token x hx
        · rw [List.mem_singleton.mp hx]
          rfl
      have hafter : After e (about e.playback.id w'.log ++
          (tokenEffects e.network ++ [.event (.ended e.playback .linkClosed)])) none := by
        refine ⟨?_, by simp [Effect.isEnded]⟩
        rw [← List.append_assoc]
        exact obeys_concat.mpr ⟨hlaw, hnotEnded, trivial⟩
      have hhead : (e :: entries)[0]? = some e := rfl
      have hhandled := hlive.handle hhead habout hafter
      simpa [replaced] using hhandled

theorem World.Sound.nextEvent (h : w.Sound used) : (Render.nextEvent w).1.Sound used := by
  rw [Render.nextEvent]
  split
  · exact h
  · exact h.of_eq rfl rfl

/-! ### Runs -/

/-- The id a start draws. -/
def Op.draws : Op → List PlaybackId
  | .startNetwork _ id _ => [id]
  | .startLocal _ _ _ id => [id]
  | _ => []

theorem World.Sound.step (h : w.Sound used) (op : Op) (hfresh : ∀ id ∈ op.draws, id ∉ used) :
    (Render.step lk w op).Sound (op.draws ++ used) := by
  cases op with
  | startNetwork start id epoch =>
      exact h.startNetwork lk start epoch (hfresh id (List.mem_singleton_self id))
  | startLocal source gainDb announcement id =>
      exact h.startLocal lk source gainDb announcement (hfresh id (List.mem_singleton_self id))
  | pushAudio now playback pcm => exact h.feed lk now (feeds_pushAudio playback pcm)
  | finishAudio now playback => exact h.feed lk now (feeds_finishAudio playback)
  | cancel playback reason => exact h.cancel lk playback reason
  | onAck now messageId outcome => exact h.onAck lk now messageId outcome
  | onReport now generation report => exact h.onReport lk now generation report
  | poll now => exact h.poll lk now
  | sessionEnded => exact h.sessionEnded
  | nextEvent => exact h.nextEvent

theorem drawn_cons (op : Op) (ops : List Op) : drawn (op :: ops) = op.draws ++ drawn ops := by
  cases op <;> rfl

/-- **Every run keeps the relation**, when the playback ids drawn in it are distinct. -/
theorem World.Sound.run {ops : List Op} (h : w.Sound used) (hids : (drawn ops).Nodup)
    (hfresh : ∀ id ∈ drawn ops, id ∉ used) :
    ∃ used', (ops.foldl (Render.step lk) w).Sound used' := by
  induction ops generalizing w used with
  | nil => exact ⟨used, h⟩
  | cons op ops ih =>
      rw [drawn_cons] at hids hfresh
      obtain ⟨-, hids, hdisjoint⟩ := List.nodup_append.mp hids
      refine ih (h.step lk op fun id hid => hfresh id (List.mem_append_left _ hid)) hids ?_
      intro id hid
      rw [List.mem_append, not_or]
      exact ⟨fun hop => hdisjoint id hop id hid rfl, hfresh id (List.mem_append_right _ hid)⟩

theorem sound_run (noInputChime announcementChime : Bool) (link : L) {ops : List Op}
    (hids : (drawn ops).Nodup) :
    ∃ used, (Render.run lk noInputChime announcementChime link ops).Sound used :=
  World.Sound.run lk (sound_nil []) hids nofun

end

end EchoMuse.Render
