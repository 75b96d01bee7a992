import EchoMuse.Bytes

/-!
# Journals of Framed Records

An append-only journal of records, each a length, a payload and a CRC32 over both. `replay` reads a
journal back into a state: it stops at an incomplete record at the end, and reports a damaged
record before it. The payloads are those of an encoding, and what a record does to the state is a
step that can refuse it.

## Main results

* `replay_frame`: a whole record is one step, and the replay goes on behind it;
* `replay_torn`: a record cut short at the end is dropped;
* `replay_journal`: a journal of whole records and a torn end replays every record;
* `replayFrom_sound`: whatever a journal holds, the replay has applied the records in front of
  where it stopped.
-/

namespace EchoMuse.Journal

/-! ### CRC32 -/

/-- One bit of the reflected CRC. -/
def crcBit (c : UInt32) : UInt32 := if c &&& 1 = 1 then (c >>> 1) ^^^ 0xEDB88320 else c >>> 1

/-- One byte of the reflected CRC. -/
def crcByte (c : UInt32) (b : UInt8) : UInt32 :=
  (List.range 8).foldl (fun c _ => crcBit c) (c ^^^ b.toUInt32)

/-- The IEEE CRC32 of a byte string. -/
def crc32 (bytes : List UInt8) : UInt32 := bytes.foldl crcByte 0xFFFFFFFF ^^^ 0xFFFFFFFF

/-! ### Frames -/

/-- The size of the length before a payload, and of the checksum behind it. -/
def recordHeader : ℕ := 4

def recordTrailer : ℕ := 4

/-- One record: the length of the payload, the payload, and the CRC32 of both. -/
def frame (payload : List UInt8) : List UInt8 :=
  leBytes recordHeader payload.length ++ payload ++
    leBytes recordTrailer (crc32 (leBytes recordHeader payload.length ++ payload)).toNat

theorem length_frame (payload : List UInt8) :
    (frame payload).length = recordHeader + payload.length + recordTrailer := by
  rw [frame, List.length_append, List.length_append, length_leBytes, length_leBytes]

/-! ### Replay -/

section

variable {π σ : Type} (maxRecordBytes : ℕ) (decode : List UInt8 → Option π)
  (step : σ → π → Option σ)

/-- Reads records into `s` from offset `off` on: the state, the end of the last good record, and
whether a bad record precedes the tail. `fuel` is the number of bytes left. -/
def replayFrom : ℕ → σ → ℕ → List UInt8 → σ × ℕ × Bool
  | 0, s, off, _ => (s, off, false)
  | fuel + 1, s, off, rest =>
    if rest.length < recordHeader then (s, off, false)
    else
      let n := leNat (rest.take recordHeader)
      let stop := recordHeader + n + recordTrailer
      -- A zeroed tail is what a preallocated file ends in.
      if n = 0 then (s, off, !rest.all (· = 0))
      else if rest.length < stop then (s, off, false)
      else if maxRecordBytes < n then (s, off, true)
      else if (crc32 (rest.take (recordHeader + n))).toNat ≠
          leNat (field rest (recordHeader + n) recordTrailer) then
        (s, off, stop ≠ rest.length)
      else
        match (decode (field rest recordHeader n)).bind (step s) with
        | none => (s, off, true)
        | some s' => replayFrom fuel s' (off + stop) (rest.drop stop)

/-- A whole journal. -/
def replay (s : σ) (data : List UInt8) : σ × ℕ × Bool :=
  replayFrom maxRecordBytes decode step data.length s 0 data

end

/-! ### Whole records -/

/-- The records of `payloads`, one after the other. -/
def journal (payloads : List (List UInt8)) : List UInt8 := (payloads.map frame).flatten

@[simp] theorem journal_nil : journal [] = [] := rfl

@[simp] theorem journal_cons (payload : List UInt8) (payloads : List (List UInt8)) :
    journal (payload :: payloads) = frame payload ++ journal payloads := rfl

theorem journal_concat (payloads : List (List UInt8)) (payload : List UInt8) :
    journal (payloads ++ [payload]) = journal payloads ++ frame payload := by
  simp [journal]

section

variable {π σ : Type} {maxRecordBytes : ℕ} {decode : List UInt8 → Option π}
  {step : σ → π → Option σ} {fuel off : ℕ} {s s' : σ} {payload rest : List UInt8} {p : π}

/-- A payload that a journal can hold, and what it says. -/
structure Holds (maxRecordBytes : ℕ) (decode : List UInt8 → Option π) (payload : List UInt8)
    (p : π) : Prop where
  nonempty : payload ≠ []
  small : payload.length ≤ maxRecordBytes
  decodes : decode payload = some p

/-- The end of the journal. -/
theorem replayFrom_nil (fuel : ℕ) (s : σ) (off : ℕ) :
    replayFrom maxRecordBytes decode step fuel s off [] = (s, off, false) := by
  cases fuel with
  | zero => rfl
  | succ fuel => exact if_pos (Nat.succ_pos 3)

/-- The number a frame begins with. -/
theorem leNat_take_frame (hlt : payload.length < 2 ^ 32) (rest : List UInt8) :
    leNat ((frame payload ++ rest).take recordHeader) = payload.length := by
  have hlen : (leBytes recordHeader payload.length).length = recordHeader := length_leBytes _ _
  rw [frame, List.append_assoc, List.append_assoc,
    List.take_append_of_le_length hlen.ge, List.take_of_length_le hlen.le]
  exact leNat_leBytes hlt

/-- What a checksum covers. -/
theorem take_frame (payload rest : List UInt8) :
    (frame payload ++ rest).take (recordHeader + payload.length) =
      leBytes recordHeader payload.length ++ payload := by
  have hlen : (leBytes recordHeader payload.length ++ payload).length =
      recordHeader + payload.length := by
    rw [List.length_append, length_leBytes]
  rw [frame, List.append_assoc, ← hlen]
  exact List.take_left

/-- The payload of a frame. -/
theorem field_payload (payload rest : List UInt8) :
    field (frame payload ++ rest) recordHeader payload.length = payload := by
  have hlen : (leBytes recordHeader payload.length).length = recordHeader := length_leBytes _ _
  have hdrop : (frame payload ++ rest).drop recordHeader = payload ++
      (leBytes recordTrailer (crc32 (leBytes recordHeader payload.length ++ payload)).toNat ++
        rest) := by
    rw [frame, List.append_assoc, List.append_assoc]
    exact List.drop_left' hlen
  rw [field, hdrop]
  exact List.take_left

/-- The checksum of a frame. -/
theorem field_checksum (payload rest : List UInt8) :
    leNat (field (frame payload ++ rest) (recordHeader + payload.length) recordTrailer) =
      (crc32 (leBytes recordHeader payload.length ++ payload)).toNat := by
  have hlen : (leBytes recordHeader payload.length ++ payload).length =
      recordHeader + payload.length := by
    rw [List.length_append, length_leBytes]
  have hdrop : (frame payload ++ rest).drop (recordHeader + payload.length) =
      leBytes recordTrailer (crc32 (leBytes recordHeader payload.length ++ payload)).toNat ++
        rest := by
    rw [frame, List.append_assoc]
    exact List.drop_left' hlen
  rw [field, hdrop, List.take_left' (length_leBytes _ _)]
  exact leNat_leBytes (UInt32.toNat_lt _)

/-- A whole record is one step, and the replay goes on behind it. -/
theorem replay_frame (hmax : maxRecordBytes < 2 ^ 32)
    (h : Holds maxRecordBytes decode payload p) (hstep : step s p = some s') (rest : List UInt8) :
    replayFrom maxRecordBytes decode step (fuel + 1) s off (frame payload ++ rest) =
      replayFrom maxRecordBytes decode step fuel s' (off + (frame payload).length) rest := by
  have hn := leNat_take_frame (h.small.trans_lt hmax) rest
  have hpos : payload.length ≠ 0 := fun he => h.nonempty (List.length_eq_zero_iff.mp he)
  have hsmall := h.small
  have hframe := length_frame payload
  have htotal : (frame payload ++ rest).length = (frame payload).length + rest.length :=
    List.length_append
  have hdrop : (frame payload ++ rest).drop (recordHeader + payload.length + recordTrailer) =
      rest := List.drop_left' hframe
  rw [replayFrom, if_neg (by omega)]
  dsimp only
  rw [hn, if_neg hpos, if_neg (by omega), if_neg (by omega), take_frame, field_checksum,
    if_neg (fun hc => hc rfl), field_payload, h.decodes, Option.bind_some, hstep]
  dsimp only
  rw [hdrop, hframe]

/-- What a crash leaves of the record being written: nothing, or a record cut short. -/
def Torn (maxRecordBytes : ℕ) (decode : List UInt8 → Option π) (rest : List UInt8) : Prop :=
  rest = [] ∨ ∃ payload p k, Holds maxRecordBytes decode payload p ∧ k < (frame payload).length ∧
    rest = (frame payload).take k

/-- A record cut short at the end is dropped. -/
theorem replay_torn (hmax : maxRecordBytes < 2 ^ 32) (h : Torn maxRecordBytes decode rest) :
    replayFrom maxRecordBytes decode step fuel s off rest = (s, off, false) := by
  rcases h with rfl | ⟨payload, p, k, h, hk, rfl⟩
  · exact replayFrom_nil fuel s off
  have hlen : ((frame payload).take k).length = k := List.length_take_of_le hk.le
  have hframe := length_frame payload
  have hpos : payload.length ≠ 0 := fun he => h.nonempty (List.length_eq_zero_iff.mp he)
  cases fuel with
  | zero => rfl
  | succ fuel =>
      rw [replayFrom]
      by_cases hk4 : k < recordHeader
      · rw [if_pos (by omega)]
      have hn : leNat (((frame payload).take k).take recordHeader) = payload.length := by
        have hfull := leNat_take_frame (h.small.trans_lt hmax) []
        rw [List.append_nil] at hfull
        rw [List.take_take, Nat.min_eq_left (by omega), hfull]
      rw [if_neg (by omega)]
      dsimp only
      rw [hn, if_neg hpos, if_pos (by omega)]

/-- A journal of whole records replays every one of them, and goes on behind them. -/
theorem replay_frames (hmax : maxRecordBytes < 2 ^ 32) {payloads : List (List UInt8)}
    {ps : List π} (h : List.Forall₂ (Holds maxRecordBytes decode) payloads ps)
    (hsteps : ps.foldlM step s = some s') (hfuel : payloads.length ≤ fuel) (rest : List UInt8) :
    replayFrom maxRecordBytes decode step fuel s off (journal payloads ++ rest) =
      replayFrom maxRecordBytes decode step (fuel - payloads.length) s'
        (off + (journal payloads).length) rest := by
  induction h generalizing s off fuel with
  | nil =>
      cases hsteps
      rfl
  | @cons payload p payloads ps hp _ ih =>
      rw [List.foldlM_cons] at hsteps
      obtain ⟨s₁, hs₁, hrest⟩ := Option.bind_eq_some_iff.mp hsteps
      obtain ⟨fuel, rfl⟩ : ∃ f, fuel = f + 1 := ⟨fuel - 1, by simp at hfuel; omega⟩
      rw [List.length_cons] at hfuel ⊢
      rw [journal_cons, List.append_assoc, replay_frame hmax hp hs₁,
        ih hrest (by omega), List.length_append, Nat.add_assoc, Nat.add_sub_add_right]

/-- Whole records take at least a byte each. -/
theorem length_le_journal (payloads : List (List UInt8)) :
    payloads.length ≤ (journal payloads).length := by
  induction payloads with
  | nil => exact le_refl 0
  | cons payload payloads ih =>
      have hframe := length_frame payload
      rw [journal_cons, List.length_cons, List.length_append]
      have h4 : recordHeader = 4 := rfl
      omega

/-- A journal of whole records and a torn end replays every record. -/
theorem replay_journal (hmax : maxRecordBytes < 2 ^ 32) {payloads : List (List UInt8)}
    {ps : List π} (h : List.Forall₂ (Holds maxRecordBytes decode) payloads ps)
    (hsteps : ps.foldlM step s = some s') (hrest : Torn maxRecordBytes decode rest) :
    replay maxRecordBytes decode step s (journal payloads ++ rest) =
      (s', (journal payloads).length, false) := by
  have hlen := length_le_journal payloads
  rw [replay, replay_frames hmax h hsteps (by rw [List.length_append]; omega),
    replay_torn hmax hrest, Nat.zero_add]

/-- Bytes whose length and checksum agree are a frame. -/
theorem frame_append_drop {data : List UInt8} {n : ℕ}
    (hn : leNat (data.take recordHeader) = n)
    (hlen : recordHeader + n + recordTrailer ≤ data.length)
    (hcrc : (crc32 (data.take (recordHeader + n))).toNat =
      leNat (field data (recordHeader + n) recordTrailer)) :
    frame (field data recordHeader n) ++ data.drop (recordHeader + n + recordTrailer) = data := by
  have hhead : leBytes recordHeader n = data.take recordHeader := by
    have hfield := leBytes_leNat_field (b := data) (i := 0) (w := recordHeader) (by omega)
    rwa [field, List.drop_zero, hn] at hfield
  have hcover : leBytes recordHeader n ++ field data recordHeader n =
      data.take (recordHeader + n) := by
    rw [hhead, field, List.take_add]
  have hpay : (field data recordHeader n).length = n := length_field (by omega)
  rw [frame, hpay, hcover, hcrc, leBytes_leNat_field hlen, List.append_assoc, field_append_drop,
    List.take_append_drop]

/-- Whatever a journal holds, the replay has applied the whole records in front of where it
stopped. -/
theorem replayFrom_sound {data : List UInt8} {e : ℕ} {bad : Bool}
    (h : replayFrom maxRecordBytes decode step fuel s off data = (s', e, bad)) :
    ∃ payloads ps rest, data = journal payloads ++ rest ∧ e = off + (journal payloads).length ∧
      List.Forall₂ (Holds maxRecordBytes decode) payloads ps ∧ ps.foldlM step s = some s' := by
  induction fuel generalizing s off data with
  | zero =>
      cases h
      exact ⟨[], [], data, rfl, rfl, .nil, rfl⟩
  | succ fuel ih =>
      have stopped (hs : (s, off) = (s', e)) :
          ∃ payloads ps rest, data = journal payloads ++ rest ∧
            e = off + (journal payloads).length ∧
            List.Forall₂ (Holds maxRecordBytes decode) payloads ps ∧
              ps.foldlM step s = some s' := by
        cases hs
        exact ⟨[], [], data, rfl, rfl, .nil, rfl⟩
      rw [replayFrom] at h
      by_cases h4 : data.length < recordHeader
      · rw [if_pos h4] at h
        exact stopped (by cases h; rfl)
      rw [if_neg h4] at h
      dsimp only at h
      generalize hn : leNat (data.take recordHeader) = n at h
      by_cases h0 : n = 0
      · rw [if_pos h0] at h
        exact stopped (by cases h; rfl)
      rw [if_neg h0] at h
      by_cases hlen : data.length < recordHeader + n + recordTrailer
      · rw [if_pos hlen] at h
        exact stopped (by cases h; rfl)
      rw [if_neg hlen] at h
      by_cases hmax : maxRecordBytes < n
      · rw [if_pos hmax] at h
        exact stopped (by cases h; rfl)
      rw [if_neg hmax] at h
      by_cases hcrc : (crc32 (data.take (recordHeader + n))).toNat ≠
          leNat (field data (recordHeader + n) recordTrailer)
      · rw [if_pos hcrc] at h
        exact stopped (by cases h; rfl)
      rw [if_neg hcrc] at h
      cases hd : decode (field data recordHeader n) with
      | none =>
          rw [hd] at h
          exact stopped (by cases h; rfl)
      | some p =>
          rw [hd, Option.bind_some] at h
          cases hs : step s p with
          | none =>
              rw [hs] at h
              exact stopped (by cases h; rfl)
          | some s₁ =>
              rw [hs] at h
              obtain ⟨payloads, ps, rest, hrest, he, hall, hsteps⟩ := ih h
              have hframe := frame_append_drop hn (not_lt.mp hlen) (not_not.mp hcrc)
              have hpay : (field data recordHeader n).length = n := length_field (by omega)
              have hholds : Holds maxRecordBytes decode (field data recordHeader n) p := by
                refine ⟨fun hnil => ?_, by omega, hd⟩
                rw [hnil] at hpay
                exact h0 hpay.symm
              refine ⟨field data recordHeader n :: payloads, p :: ps, rest, ?_, ?_,
                .cons hholds hall, ?_⟩
              · rw [journal_cons, List.append_assoc, ← hrest, hframe]
              · rw [he, journal_cons, List.length_append, length_frame, hpay]
                omega
              · rw [List.foldlM_cons, hs]
                exact hsteps

end

end EchoMuse.Journal
