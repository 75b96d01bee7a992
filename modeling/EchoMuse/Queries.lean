import EchoMuse.Fields

/-!
# Query Parameters in a Text

The URL query parameters that occur in a text: a question mark opens a query, wherever it stands,
and a hash closes it. In an open query a parameter starts behind the question mark and behind every
ampersand, has a name up to its first equals sign, and a value up to the next ampersand or hash.

## Main results

* `slot_pieces`: a parameter's name stands in one of the pieces a query is split into;
* `slot_first`: or behind the first question mark.
-/

namespace EchoMuse.Queries

/-- Whether a query is open behind a character. -/
def opens (o : Bool) (c : Char) : Bool := if c = '?' then true else if c = '#' then false else o

/-- A text within one parameter. -/
def Inner (t : List Char) : Prop := ∀ c ∈ t, c ≠ '&' ∧ c ≠ '#'

/-- What stands behind a parameter. -/
def Ends (t : List Char) : Prop := ∀ c ∈ t.head?, c = '&' ∨ c = '#'

/-- A text that ends with a parameter's name and its equals sign. -/
inductive Slot : Bool → List Char → List Char → Prop
  | here {o : Bool} {c : Char} {n : List Char} (hc : c = '?' ∨ c = '&' ∧ o = true)
      (hn : Inner n) (heq : '=' ∉ n) : Slot o n (c :: (n ++ ['=']))
  | later {o : Bool} {c : Char} {n pre : List Char} (h : Slot (opens o c) n pre) :
      Slot o n (c :: pre)

/-- The text has a parameter of this name and value. -/
def Param (o : Bool) (s n v : List Char) : Prop :=
  ∃ pre post, s = pre ++ (v ++ post) ∧ Slot o n pre ∧ Inner v ∧ Ends post

/-- The texts differ in the value of one parameter. -/
def Swap (ok : List Char → List Char → List Char → Prop) (o : Bool) (s t : List Char) : Prop :=
  ∃ n pre v w post, s = pre ++ (v ++ post) ∧ t = pre ++ (w ++ post) ∧ Slot o n pre ∧
    Inner v ∧ Inner w ∧ Ends post ∧ ok n v w

/-! ### Texts within a parameter -/

theorem inner_nil : Inner [] := fun _ hc => absurd hc List.not_mem_nil

theorem inner_cons {c : Char} {t : List Char} : Inner (c :: t) ↔ (c ≠ '&' ∧ c ≠ '#') ∧ Inner t :=
  List.forall_mem_cons

theorem inner_append {a b : List Char} : Inner (a ++ b) ↔ Inner a ∧ Inner b := by
  rw [Inner, List.forall_mem_append]
  rfl

theorem ends_nil : Ends [] := nofun

theorem ends_cons {c : Char} (t : List Char) (hc : c = '&' ∨ c = '#') : Ends (c :: t) := by
  intro d hd
  cases hd
  exact hc

theorem Ends.eq_nil {t : List Char} (h : Ends t) (hin : Inner t) : t = [] := by
  match t with
  | [] => rfl
  | c :: t =>
    have hc := (inner_cons.mp hin).1
    exact ((h c rfl).elim hc.1 hc.2).elim

/-- Where a text within a parameter ends is settled. -/
theorem inner_unique {a b x y : List Char} (ha : Inner a) (hb : Inner b) (hx : Ends x)
    (hy : Ends y) (h : a ++ x = b ++ y) : a = b ∧ x = y := by
  induction a generalizing b with
  | nil =>
      match b with
      | [] => exact ⟨rfl, h⟩
      | c :: b =>
        rw [List.nil_append] at h
        subst h
        have hc := (inner_cons.mp hb).1
        exact ((hx c rfl).elim hc.1 hc.2).elim
  | cons c a ih =>
      match b with
      | [] =>
        rw [List.nil_append] at h
        subst h
        have hc := (inner_cons.mp ha).1
        exact ((hy c rfl).elim hc.1 hc.2).elim
      | d :: b =>
        rw [List.cons_append, List.cons_append, List.cons.injEq] at h
        obtain ⟨rfl, h⟩ := h
        obtain ⟨rfl, rfl⟩ := ih (inner_cons.mp ha).2 (inner_cons.mp hb).2 h
        exact ⟨rfl, rfl⟩

/-! ### Where a name stands -/

theorem Slot.ne_nil {o : Bool} {n pre : List Char} (h : Slot o n pre) : pre ≠ [] := by
  cases h <;> exact List.cons_ne_nil _ _

theorem opens_mono {c : Char} {o : Bool} (ho : opens o c = true) : opens true c = true := by
  rw [opens] at ho ⊢
  split_ifs at ho ⊢ <;> rfl

/-- More parameters start when a query is open. -/
theorem Slot.open {o : Bool} {n pre : List Char} (h : Slot o n pre) : Slot true n pre := by
  induction h with
  | here hc hn heq => exact .here (hc.imp_right fun hc => ⟨hc.1, rfl⟩) hn heq
  | @later o c n pre h ih =>
      refine .later ?_
      cases ho : opens o c with
      | true => rwa [opens_mono ho]
      | false =>
          rw [ho] at h
          cases htrue : opens true c with
          | true => exact ih
          | false => exact h

/-- A question mark opens a query in any case. -/
theorem slot_question {o o' : Bool} {n pre : List Char} (h : Slot o n ('?' :: pre)) :
    Slot o' n ('?' :: pre) := by
  cases h with
  | here hc hn heq => exact .here (.inl rfl) hn heq
  | later h => exact .later h

/-- Nothing starts before the first question mark. -/
theorem slot_first {base n pre x q : List Char} (hbase : '?' ∉ base) (h : Slot false n pre)
    (heq : pre ++ x = base ++ q) : ∃ pre', pre = base ++ pre' ∧ Slot false n pre' ∧ pre' ++ x = q := by
  induction base generalizing pre with
  | nil => exact ⟨pre, rfl, h, heq⟩
  | cons c base ih =>
      rw [List.mem_cons, not_or] at hbase
      have hc : opens false c = false := by
        rw [opens, if_neg (Ne.symm hbase.1), ite_self]
      cases h with
      | @here _ d _ hd _ _ =>
          rw [List.cons_append, List.cons_append, List.cons.injEq] at heq
          rcases hd with rfl | hd
          · exact absurd heq.1 hbase.1
          · cases hd.2
      | @later _ d _ pre h =>
          rw [List.cons_append, List.cons_append, List.cons.injEq] at heq
          obtain ⟨rfl, heq⟩ := heq
          rw [hc] at h
          obtain ⟨pre', rfl, h, heq⟩ := ih hbase.2 h heq
          exact ⟨pre', rfl, h, heq⟩

theorem Slot.append {o : Bool} {n pre : List Char} (a : List Char)
    (h : Slot (a.foldl opens o) n pre) : Slot o n (a ++ pre) := by
  induction a generalizing o with
  | nil => exact h
  | cons c a ih => exact .later (ih h)

/-- No hash closes the query within a parameter. -/
theorem foldl_opens {p : List Char} (hp : Inner p) : p.foldl opens true = true := by
  induction p with
  | nil => rfl
  | cons c p ih =>
      obtain ⟨hc, hp⟩ := inner_cons.mp hp
      have hopen : opens true c = true := by
        rw [opens, if_neg hc.2, ite_self]
      rw [List.foldl_cons, hopen, ih hp]

/-- A name stands within a text that is within a parameter, or behind it. -/
theorem slot_inner {o : Bool} {n pre v post p r : List Char} (h : Slot o n pre) (hv : Inner v)
    (hpost : Ends post) (hin : Inner p) (hr : Ends r) (heq : pre ++ (v ++ post) = p ++ r) :
    (p = pre ++ v ∧ post = r) ∨
      ∃ pre', pre = p ++ pre' ∧ Slot (p.foldl opens o) n pre' ∧ pre' ++ (v ++ post) = r := by
  induction p generalizing o pre with
  | nil => exact .inr ⟨pre, rfl, h, heq⟩
  | cons c p ih =>
      obtain ⟨-, hp⟩ := inner_cons.mp hin
      cases h with
      | @here _ d _ hd hn _ =>
          rw [List.cons_append, List.cons_append, List.cons.injEq] at heq
          obtain ⟨rfl, heq⟩ := heq
          have hname : Inner (n ++ ['='] ++ v) :=
            inner_append.mpr ⟨inner_append.mpr ⟨hn, inner_cons.mpr ⟨by decide, inner_nil⟩⟩, hv⟩
          rw [← List.append_assoc] at heq
          obtain ⟨rfl, rfl⟩ := inner_unique hname hp hpost hr heq
          exact .inl ⟨rfl, rfl⟩
      | @later _ d _ pre h =>
          rw [List.cons_append, List.cons_append, List.cons.injEq] at heq
          obtain ⟨rfl, heq⟩ := heq
          obtain ⟨rfl, rfl⟩ | ⟨pre', rfl, hslot, htail⟩ := ih h hp heq
          · exact .inl ⟨rfl, rfl⟩
          · exact .inr ⟨pre', rfl, hslot, htail⟩

/-! ### The pieces of a query -/

/-- A parameter of a query with what it starts behind. -/
def IsPiece (piece : List Char) : Prop :=
  ∃ c p, piece = c :: p ∧ (c = '?' ∨ c = '&') ∧ Inner p

/-- A name stands in the first piece or behind it. -/
theorem slot_piece {n pre v post piece r : List Char} (h : Slot true n pre) (hv : Inner v)
    (hpost : Ends post) (hpiece : IsPiece piece) (hr : Ends r)
    (heq : pre ++ (v ++ post) = piece ++ r) :
    (piece = pre ++ v ∧ post = r) ∨
      ∃ pre', pre = piece ++ pre' ∧ Slot true n pre' ∧ pre' ++ (v ++ post) = r := by
  obtain ⟨c, p, rfl, hc, hp⟩ := hpiece
  have hopen : opens true c = true := by
    rcases hc with rfl | rfl <;> rfl
  cases h with
  | @here _ d _ hd hn _ =>
      rw [List.cons_append, List.cons_append, List.cons.injEq] at heq
      obtain ⟨rfl, heq⟩ := heq
      have hname : Inner (n ++ ['='] ++ v) :=
        inner_append.mpr ⟨inner_append.mpr ⟨hn, inner_cons.mpr ⟨by decide, inner_nil⟩⟩, hv⟩
      rw [← List.append_assoc] at heq
      obtain ⟨rfl, rfl⟩ := inner_unique hname hp hpost hr heq
      exact .inl ⟨rfl, rfl⟩
  | @later _ d _ pre h =>
      rw [List.cons_append, List.cons_append, List.cons.injEq] at heq
      obtain ⟨rfl, heq⟩ := heq
      rw [hopen] at h
      obtain ⟨rfl, rfl⟩ | ⟨pre', rfl, hslot, htail⟩ := slot_inner h hv hpost hp hr heq
      · exact .inl ⟨rfl, rfl⟩
      · rw [foldl_opens hp] at hslot
        exact .inr ⟨pre', rfl, hslot, htail⟩

theorem ends_pieces {pieces : List (List Char)} (tail : List Char)
    (hpieces : ∀ p ∈ pieces, ∃ t, p = '&' :: t) (htail : Ends tail) :
    Ends (pieces.flatten ++ tail) := by
  match pieces with
  | [] => exact htail
  | p :: pieces =>
    obtain ⟨t, rfl⟩ := hpieces p List.mem_cons_self
    exact ends_cons _ (.inl rfl)

/-- **A name stands in one of the pieces or behind them all.** -/
theorem slot_pieces {n pre v post tail : List Char} {pieces : List (List Char)}
    (h : Slot true n pre) (hv : Inner v) (hpost : Ends post)
    (hall : ∀ p ∈ pieces, ∃ t, p = '&' :: t ∧ Inner t) (htail : Ends tail)
    (heq : pre ++ (v ++ post) = pieces.flatten ++ tail) :
    (∃ l pre' r, pieces = l ++ (pre' ++ v) :: r ∧ Slot true n pre' ∧ pre = l.flatten ++ pre' ∧
        post = r.flatten ++ tail) ∨
      ∃ pre', pre = pieces.flatten ++ pre' ∧ Slot true n pre' ∧ pre' ++ (v ++ post) = tail := by
  induction pieces generalizing pre with
  | nil => exact .inr ⟨pre, rfl, h, heq⟩
  | cons p pieces ih =>
      obtain ⟨⟨t, rfl, ht⟩, hpieces⟩ := List.forall_mem_cons.mp hall
      have hends : Ends (pieces.flatten ++ tail) :=
        ends_pieces tail (fun p hp => (hpieces p hp).imp fun _ h => h.1) htail
      rw [List.flatten_cons, List.append_assoc] at heq
      obtain ⟨hp, rfl⟩ | ⟨pre', rfl, hslot, heq⟩ :=
        slot_piece h hv hpost ⟨'&', t, rfl, .inr rfl, ht⟩ hends heq
      · exact .inl ⟨[], pre, pieces, by rw [hp]; rfl, h, rfl, rfl⟩
      · obtain ⟨l, pre'', r, rfl, hlater, rfl, rfl⟩ | ⟨pre'', rfl, hlater, heq⟩ :=
          ih hslot hpieces heq
        · refine .inl ⟨('&' :: t) :: l, pre'', r, rfl, hlater, ?_, rfl⟩
          rw [List.flatten_cons, List.append_assoc]
        · refine .inr ⟨pre'', ?_, hlater, heq⟩
          rw [List.flatten_cons, List.append_assoc]

/-! ### The first query -/

open Fields (join splitOnce)

/-- A text as what stands before its first question mark, the parameters of the query that opens
there, and what stands from the hash on that closes it. -/
structure IsQuery (s base : List Char) (parts : List (List Char)) (tail : List Char) : Prop where
  eq : s = base ++ '?' :: (join '&' parts ++ tail)
  base : '?' ∉ base
  nonempty : parts ≠ []
  parts : ∀ p ∈ parts, Inner p
  tail : tail = [] ∨ ∃ f, tail = '#' :: f

instance (t : List Char) : Decidable (Inner t) := inferInstanceAs (Decidable (∀ c ∈ t, _))

/-- A text is split at its first question mark, a hash and the ampersands between. -/
theorem isQuery_splitOn {base q tail : List Char} (hbase : '?' ∉ base) (hq : '#' ∉ q)
    (htail : tail = [] ∨ ∃ f, tail = '#' :: f) :
    IsQuery (base ++ '?' :: (q ++ tail)) base (q.splitOn '&') tail where
  eq := by rw [join, List.intercalate_splitOn]
  base := hbase
  nonempty := List.splitOn_ne_nil _ _
  parts p hp c hc := by
    rw [List.splitOn_eq_splitOnP] at hp
    obtain ⟨hmem, hne⟩ := Fields.mem_splitOnP hp c hc
    refine ⟨by simpa using hne, ?_⟩
    rintro rfl
    exact hq hmem
  tail := htail

theorem IsQuery.ends {s base tail : List Char} {parts : List (List Char)}
    (h : IsQuery s base parts tail) : Ends tail := by
  rcases h.tail with rfl | ⟨f, rfl⟩
  · exact ends_nil
  · exact ends_cons f (.inr rfl)

/-- A query's parameters, each behind an ampersand. -/
theorem join_pieces (parts : List (List Char)) (h : parts ≠ []) :
    '&' :: join '&' parts = (parts.map ('&' :: ·)).flatten := by
  induction parts with
  | nil => exact absurd rfl h
  | cons p parts ih =>
      match parts with
      | [] => simp [join]
      | q :: parts =>
        rw [join, List.intercalate_cons_cons, List.map_cons, List.flatten_cons,
          ← ih (List.cons_ne_nil _ _), join]
        simp

theorem slot_ampersand {n pre : List Char} (h : Slot true n ('?' :: pre)) :
    Slot true n ('&' :: pre) := by
  cases h with
  | here hc hn heq => exact .here (.inr ⟨rfl, rfl⟩) hn heq
  | later h => exact .later h

theorem slot_question_of_ampersand {o : Bool} {n pre : List Char} (h : Slot true n ('&' :: pre)) :
    Slot o n ('?' :: pre) := by
  cases h with
  | here hc hn heq => exact .here (.inl rfl) hn heq
  | later h => exact .later h

theorem Slot.head_ne {o : Bool} {n pre t : List Char} (h : Slot o n pre) (x : List Char)
    (heq : pre ++ x = '#' :: t) : ∃ pre', pre = '#' :: pre' ∧ Slot false n pre' ∧ pre' ++ x = t := by
  cases h with
  | @here _ c _ hc _ _ =>
      rw [List.cons_append, List.cons.injEq] at heq
      obtain ⟨rfl, -⟩ := heq
      rcases hc with hc | hc
      · cases hc
      · cases hc.1
  | @later _ c _ pre h =>
      rw [List.cons_append, List.cons.injEq] at heq
      obtain ⟨rfl, heq⟩ := heq
      exact ⟨pre, rfl, h, heq⟩

/-- **A name stands in a parameter of the first query, or behind the hash that closes it.** -/
theorem slot_query {s base tail n pre v post : List Char} {parts : List (List Char)}
    (hs : IsQuery s base parts tail) (h : Slot false n pre) (hv : Inner v) (hpost : Ends post)
    (heq : s = pre ++ (v ++ post)) :
    (∃ l r pre', parts = l ++ (pre' ++ v) :: r ∧ Slot true n ('&' :: pre') ∧
        ∀ w, pre ++ (w ++ post) = base ++ '?' :: (join '&' (l ++ (pre' ++ w) :: r) ++ tail)) ∨
      ∃ f pre', tail = '#' :: f ∧ f = pre' ++ (v ++ post) ∧ Slot false n pre' ∧
        ∀ w, pre ++ (w ++ post) = base ++ '?' :: (join '&' parts ++ '#' :: (pre' ++ (w ++ post))) := by
  have hends := hs.ends
  obtain ⟨heqs, hbase, hne, hparts, htail⟩ := hs
  rw [heqs] at heq
  obtain ⟨pre, rfl, hquery, hrest⟩ := slot_first hbase h heq.symm
  obtain ⟨c, pre, rfl⟩ := List.exists_cons_of_ne_nil hquery.ne_nil
  rw [List.cons_append, List.cons.injEq] at hrest
  obtain ⟨rfl, hrest⟩ := hrest
  have hpieces : ∀ p ∈ parts.map ('&' :: ·), ∃ t, p = '&' :: t ∧ Inner t := by
    intro p hp
    obtain ⟨t, ht, rfl⟩ := List.mem_map.mp hp
    exact ⟨t, rfl, hparts t ht⟩
  have hflat : '&' :: pre ++ (v ++ post) = (parts.map ('&' :: ·)).flatten ++ tail := by
    rw [List.cons_append, hrest, ← join_pieces _ hne, List.cons_append]
  obtain ⟨l, pre', r, hmap, hslot, hpre, rfl⟩ | ⟨pre', hpre, hslot, htaileq⟩ :=
    slot_pieces (slot_ampersand hquery.open) hv hpost hpieces hends hflat
  · obtain ⟨l, pr, rfl, rfl, hmap'⟩ := List.map_eq_append_iff.mp hmap
    obtain ⟨p, r, rfl, hp, rfl⟩ := List.map_eq_cons_iff.mp hmap'
    obtain ⟨c, pre', rfl⟩ := List.exists_cons_of_ne_nil hslot.ne_nil
    rw [List.cons_append, List.cons.injEq] at hp
    obtain ⟨rfl, rfl⟩ := hp
    refine .inl ⟨l, r, pre', rfl, hslot, fun w => ?_⟩
    have hcons := join_pieces (l ++ (pre' ++ w) :: r) (by simp)
    rw [List.map_append, List.map_cons, List.flatten_append, List.flatten_cons, ← List.cons_append,
      ← List.append_assoc, ← List.append_assoc, ← hpre, List.cons_append, List.cons_append,
      List.cons.injEq] at hcons
    rw [hcons.2]
    simp
  · rcases htail with rfl | ⟨f, rfl⟩
    · exact absurd (List.append_eq_nil_iff.mp htaileq).1 hslot.ne_nil
    · obtain ⟨pre', rfl, hfragment, hf⟩ := hslot.head_ne _ htaileq
      refine .inr ⟨f, pre', rfl, hf.symm, hfragment, fun w => ?_⟩
      rw [← join_pieces _ hne, List.cons_append, List.cons.injEq] at hpre
      rw [hpre.2]
      simp

theorem foldl_pieces {l : List (List Char)} (h : ∀ p ∈ l, Inner p) :
    (l.map ('&' :: ·)).flatten.foldl opens true = true := by
  induction l with
  | nil => rfl
  | cons p l ih =>
      obtain ⟨hp, hl⟩ := List.forall_mem_cons.mp h
      have hopen : opens true '&' = true := rfl
      rw [List.map_cons, List.flatten_cons, List.foldl_append, List.foldl_cons, hopen,
        foldl_opens hp, ih hl]

/-- A parameter of the first query is one of the text. -/
theorem param_of_part {s base tail n pre v : List Char} {l r : List (List Char)}
    (hs : IsQuery s base (l ++ (pre ++ v) :: r) tail) (h : Slot true n ('&' :: pre)) :
    ∃ pre' post, Slot false n pre' ∧ Ends post ∧
      ∀ w, base ++ '?' :: (join '&' (l ++ (pre ++ w) :: r) ++ tail) = pre' ++ (w ++ post) := by
  have hpost : Ends ((r.map ('&' :: ·)).flatten ++ tail) := by
    refine ends_pieces tail (fun p hp => ?_) hs.ends
    obtain ⟨t, -, rfl⟩ := List.mem_map.mp hp
    exact ⟨t, rfl⟩
  have hslot : Slot true n ((l.map ('&' :: ·)).flatten ++ '&' :: pre) := by
    refine Slot.append _ ?_
    rwa [foldl_pieces fun p hp => hs.parts p (List.mem_append_left _ hp)]
  obtain ⟨x, hx⟩ : ∃ x, (l.map ('&' :: ·)).flatten ++ '&' :: pre = '&' :: x := by
    cases l with
    | nil => exact ⟨pre, rfl⟩
    | cons p l => exact ⟨_, rfl⟩
  rw [hx] at hslot
  refine ⟨base ++ '?' :: x, _, Slot.append base (slot_question_of_ampersand hslot), hpost,
    fun w => ?_⟩
  have hcons := join_pieces (l ++ (pre ++ w) :: r) (by simp)
  rw [List.map_append, List.map_cons, List.flatten_append, List.flatten_cons, ← List.cons_append,
    ← List.append_assoc, ← List.append_assoc, hx, List.cons_append, List.cons_append,
    List.cons.injEq] at hcons
  rw [hcons.2]
  simp

/-- A parameter behind the hash is one of the text. -/
theorem param_of_fragment {n pre : List Char} (x : List Char) (h : Slot false n pre) :
    Slot false n (x ++ '#' :: pre) := by
  refine Slot.append x (.later ?_)
  exact h

theorem IsQuery.with {s base tail : List Char} {parts : List (List Char)}
    (hs : IsQuery s base parts tail) (parts' : List (List Char)) (hne : parts' ≠ [])
    (hparts : ∀ p ∈ parts', Inner p) :
    IsQuery (base ++ '?' :: (join '&' parts' ++ tail)) base parts' tail :=
  ⟨rfl, hs.base, hne, hparts, hs.tail⟩

/-- Nothing starts without a question mark. -/
theorem Slot.question {n pre : List Char} (h : Slot false n pre) : '?' ∈ pre := by
  by_contra hq
  obtain ⟨pre', hpre, hslot, -⟩ := slot_first (x := []) (q := []) hq h rfl
  rw [List.self_eq_append_right] at hpre
  exact hslot.ne_nil hpre

/-- Within a parameter only a question mark starts another one. -/
theorem Slot.closed {o : Bool} {n pre : List Char} (h : Slot o n pre) (hpre : Inner pre) :
    Slot false n pre := by
  induction h with
  | here hc hn heq =>
      refine .here (hc.imp_right fun hc => ?_) hn heq
      exact absurd hc.1 (inner_cons.mp hpre).1.1
  | @later o c n pre h ih =>
      have hslot := ih (inner_cons.mp hpre).2
      refine .later ?_
      cases opens false c with
      | true => exact hslot.open
      | false => exact hslot

/-- A name within a parameter, where its own name ends. -/
theorem Slot.name {o : Bool} {n pre : List Char} (h : Slot o n pre) (hpre : Inner pre) :
    ∃ k y, pre = k ++ '=' :: y ∧ '=' ∉ k ∧ (y = [] ∨ '?' ∈ y) := by
  induction h with
  | @here o c n hc hn heq =>
      refine ⟨c :: n, [], rfl, ?_, .inl rfl⟩
      rw [List.mem_cons, not_or]
      refine ⟨?_, heq⟩
      rintro rfl
      rcases hc with hc | hc
      · cases hc
      · cases hc.1
  | @later o c n pre h ih =>
      have hin := (inner_cons.mp hpre).2
      by_cases heq : c = '='
      · subst heq
        exact ⟨[], pre, rfl, List.not_mem_nil, .inr (h.closed hin).question⟩
      · obtain ⟨k, y, rfl, hk, hy⟩ := ih hin
        exact ⟨c :: k, y, rfl, List.not_mem_cons_of_ne_of_not_mem (Ne.symm heq) hk, hy⟩

/-- A name in a parameter is its own, or one that a question mark within it starts. -/
theorem slot_name {n pre : List Char} (h : Slot true n ('&' :: pre)) (hpre : Inner pre) :
    ∃ k y, pre = k ++ '=' :: y ∧ '=' ∉ k ∧ (y = [] ∨ '?' ∈ y) ∧ (k = n ∨ Slot false n pre) := by
  cases h with
  | here hc hn heq => exact ⟨n, [], rfl, heq, .inl rfl, .inl rfl⟩
  | later h =>
      obtain ⟨k, y, hky, hk, hy⟩ := h.name hpre
      exact ⟨k, y, hky, hk, hy, .inr (h.closed hpre)⟩

end EchoMuse.Queries
