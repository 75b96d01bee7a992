import Mathlib.Data.List.Basic

/-!
# Decoding a Stream in Chunks

A decoder looks at the front of its buffer: it takes an item off it, finds that it can never be
one, or needs more input. If further input changes neither an item nor a failure, it does not
matter how the input is cut into chunks.

## Main results

* `decode_append`: decoding goes on where it stopped;
* `foldl_feed`: input fed chunk by chunk is decoded as the whole.
-/

namespace EchoMuse.Chunks

variable {α φ ε : Type*}

/-- What a decoder makes of the front of its buffer. -/
inductive Front (φ ε : Type*)
  | more
  | failed (e : ε)
  | item (f : φ) (size : ℕ)

/-- Further input changes neither an item nor a failure. -/
structure Stable (front : List α → Front φ ε) : Prop where
  size : ∀ {b f n}, front b = .item f n → 0 < n ∧ n ≤ b.length
  item : ∀ {b f n} (c : List α), front b = .item f n → front (b ++ c) = .item f n
  failed : ∀ {b e} (c : List α), front b = .failed e → front (b ++ c) = .failed e

/-- What has been decoded, the failure if there is one, and what is left of the input. -/
@[ext]
structure Progress (α φ ε : Type*) where
  items : List φ
  error : Option ε
  rest : List α

/-- What was decoded before, then what was decoded next. -/
def Progress.followedBy (p q : Progress α φ ε) : Progress α φ ε :=
  ⟨p.items ++ q.items, p.error.or q.error, q.rest⟩

section

variable (front : List α → Front φ ε)

/-- Takes items until more input is needed or the decoder fails, so many at most. -/
def drain : ℕ → List α → Progress α φ ε
  | 0, b => ⟨[], none, b⟩
  | n + 1, b =>
    match front b with
    | .more => ⟨[], none, b⟩
    | .failed e => ⟨[], some e, b⟩
    | .item f size =>
      let next := drain n (b.drop size)
      ⟨f :: next.items, next.error, next.rest⟩

/-- Takes items until more input is needed or the decoder fails. -/
def decode (b : List α) : Progress α φ ε := drain front (b.length + 1) b

/-- Appends a chunk to what is left and decodes it. -/
def feed (p : Progress α φ ε) (chunk : List α) : Progress α φ ε :=
  p.followedBy (decode front (p.rest ++ chunk))

end

variable {front : List α → Front φ ε} (h : Stable front)

include h in
/-- The bound does not matter once it is longer than the input. -/
theorem drain_eq {n m : ℕ} {b : List α} (hn : b.length < n) (hm : b.length < m) :
    drain front n b = drain front m b := by
  induction n generalizing m b with
  | zero => omega
  | succ n ih =>
      obtain ⟨m, rfl⟩ : ∃ k, m = k + 1 := ⟨m - 1, by omega⟩
      rw [drain, drain]
      rcases hfront : front b with _ | e | ⟨f, size⟩
      · rfl
      · rfl
      · have hsize := h.size hfront
        have hdrop : (b.drop size).length = b.length - size := List.length_drop
        dsimp only
        rw [ih (m := m) (by omega) (by omega)]

include h in
/-- Decoding goes item by item. -/
theorem decode_item {b : List α} {f : φ} {n : ℕ} (hfront : front b = .item f n) :
    decode front b =
      ⟨f :: (decode front (b.drop n)).items, (decode front (b.drop n)).error,
        (decode front (b.drop n)).rest⟩ := by
  have hsize := h.size hfront
  have hdrop : (b.drop n).length = b.length - n := List.length_drop
  have hbound : drain front b.length (b.drop n) = decode front (b.drop n) :=
    drain_eq h (by omega) (by omega)
  rw [decode, drain, hfront]
  dsimp only
  rw [hbound]

theorem decode_more {b : List α} (hfront : front b = .more) : decode front b = ⟨[], none, b⟩ := by
  rw [decode, drain, hfront]

theorem decode_failed {b : List α} {e : ε} (hfront : front b = .failed e) :
    decode front b = ⟨[], some e, b⟩ := by
  rw [decode, drain, hfront]

include h in
/-- What holds of a decoder that needs more or fails, and of one more item, holds of all input. -/
theorem decode_induction {P : List α → Prop} (more : ∀ b, front b = .more → P b)
    (failed : ∀ b e, front b = .failed e → P b)
    (item : ∀ b f n, front b = .item f n → P (b.drop n) → P b) (b : List α) : P b := by
  induction hn : b.length using Nat.strongRecOn generalizing b with
  | ind n ih =>
      rcases hfront : front b with _ | e | ⟨f, size⟩
      · exact more b hfront
      · exact failed b e hfront
      · have hsize := h.size hfront
        have hdrop : (b.drop size).length = b.length - size := List.length_drop
        exact item b f size hfront (ih (b.drop size).length (by omega) (b.drop size) rfl)

include h in
/-- **Decoding goes on where it stopped.** -/
theorem decode_append (b c : List α) : decode front (b ++ c) = feed front (decode front b) c := by
  induction b using decode_induction h with
  | more b hfront =>
      rw [decode_more hfront]
      rfl
  | failed b e hfront =>
      rw [decode_failed hfront, feed, decode_failed (h.failed c hfront)]
      rfl
  | item b f n hfront ih =>
      have hsize := (h.size hfront).2
      rw [decode_item h hfront, decode_item h (h.item c hfront), List.drop_append_of_le_length hsize,
        ih]
      rfl

include h in
/-- **Input fed chunk by chunk is decoded as the whole.** -/
theorem foldl_feed (b : List α) (chunks : List (List α)) :
    chunks.foldl (feed front) (decode front b) = decode front (b ++ chunks.flatten) := by
  induction chunks generalizing b with
  | nil => rw [List.foldl_nil, List.flatten_nil, List.append_nil]
  | cons c chunks ih =>
      rw [List.foldl_cons, ← decode_append h, ih, List.flatten_cons, List.append_assoc]

end EchoMuse.Chunks
