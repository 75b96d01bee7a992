import EchoMuse.Alerts.Link
import EchoMuse.Alerts.Reading
import Mathlib.Data.Char
import Mathlib.Data.List.Lex

/-!
# Canonical JSON of Texts

The controller re-encodes a text in canonical form (`canonical_json_text`) as the firmware does
with the texts it receives. Whatever it encodes the firmware encodes alike, and every
serialisation of a value built in the controller has the canonical form of that value, whatever
its order of members, whitespace, escapes and number literals.

## Main results

* `canonical_forms_agree`: the three encoders agree on every text;
* `Json.Shuffled.canonical`: the order of members does not matter.
-/

namespace EchoMuse.Alerts

/-! ### The controller's encoder of texts -/

/-- The controller's form of a parsed number. -/
def writeNodeNumber (F : FloatText) : NodeNumber → Except CanonicalError Text
  | .integer digits => .ok digits
  | .float d => writeFloat F d

/-- The controller's `write_node`. -/
def writeNode (F : FloatText) (v : Json NodeNumber) : Except CanonicalError Text :=
  v.canonical (writeNodeNumber F)

/-- The controller's `canonical_json_text`: one value, and nothing after it. -/
def canonicalJsonText (F : FloatText) (text : Text) : Except CanonicalError Text :=
  match (parser F text).value maxDepth text with
  | .error e => .error e
  | .ok (node, rest) =>
    if Reader.whitespace rest = [] then writeNode F node
    else .error (Parser.bad text "end of input" (Reader.whitespace rest))

/-! ### Integers -/

theorem digitChar_of_isDigit {c : Char} (h : c.isDigit = true) :
    ∃ n, n < 10 ∧ c = Nat.digitChar n ∧ c.toNat - '0'.toNat = n := by
  have hrange : 48 ≤ c.toNat ∧ c.toNat ≤ 57 := by
    simp only [Char.isDigit, Bool.and_eq_true, decide_eq_true_eq] at h
    exact ⟨h.1, h.2⟩
  have hall : ∀ n, n < 10 → Nat.digitChar n = Char.ofNat (48 + n) := by decide
  refine ⟨c.toNat - 48, by omega, ?_, rfl⟩
  rw [hall _ (by omega), Nat.add_sub_cancel' hrange.1, Char.ofNat_toNat]

/-- Digits after a positive number are appended to its literal. -/
theorem toDigits_ofDigitChars {ds : Text} (hds : ds.all Char.isDigit = true) {m : ℕ}
    (hm : 0 < m) : Nat.toDigits 10 (Nat.ofDigitChars 10 ds m) = Nat.toDigits 10 m ++ ds := by
  induction ds generalizing m with
  | nil => rw [Nat.ofDigitChars_nil, List.append_nil]
  | cons d ds ih =>
      rw [List.all_cons, Bool.and_eq_true] at hds
      obtain ⟨n, hn, hchar, hval⟩ := digitChar_of_isDigit hds.1
      rw [Nat.ofDigitChars_cons, hval, ih hds.2 (by omega),
        ← Nat.toDigits_append_toDigits (by decide) hm hn, Nat.toDigits_of_lt_base hn, ← hchar,
        List.append_assoc]
      rfl

/-- Digits without a leading zero are the decimal literal of their number. -/
theorem decimal_ofDigitChars {i : Text} (h : IsInteger i) :
    decimal (Nat.ofDigitChars 10 i 0) = i := by
  obtain ⟨⟨hne, hall⟩, hzero⟩ := h
  cases i with
  | nil => exact absurd rfl hne
  | cons d ds =>
      rw [List.all_cons, Bool.and_eq_true] at hall
      obtain ⟨n, hn, hchar, hval⟩ := digitChar_of_isDigit hall.1
      by_cases hd : d = '0'
      · rw [hzero (by rw [hd]; rfl)]
        decide
      · have hpos : 0 < n := by
          rcases Nat.eq_zero_or_pos n with rfl | hpos
          · exact absurd hchar hd
          · exact hpos
        rw [decimal, Nat.ofDigitChars_cons, hval, Nat.mul_zero, Nat.zero_add,
          toDigits_ofDigitChars hall.2 hpos, Nat.toDigits_of_lt_base hn, ← hchar]
        rfl

theorem IsExponent.eq_nil {e : Text} (he : IsExponent e) (hmark : e.any isFloatMark = false) :
    e = [] := by
  rcases he with rfl | ⟨c, s, ds, hc, -, -, rfl⟩
  · rfl
  · rw [List.any_cons, isFloatMark_exponent hc] at hmark
    cases hmark

theorem IsFraction.eq_nil {f : Text} (hf : IsFraction f) (hmark : f.any isFloatMark = false) :
    f = [] := by
  rcases hf with rfl | ⟨ds, -, rfl⟩
  · rfl
  · rw [List.any_cons] at hmark
    exact absurd hmark (by simp [isFloatMark])

/-- An integer literal is read as the integer whose literal it is, but for minus zero. -/
theorem parseBig_literal {l : Text} (hl : IsNumber l) (hmark : l.any isFloatMark = false) :
    ∃ z, parseBig l = some z ∧ integer z = if l = "-0".toList then "0".toList else l := by
  obtain ⟨s, i, f, e, hs, hi, hf, he, rfl⟩ := hl
  simp only [List.any_append, Bool.or_eq_false_iff] at hmark
  obtain rfl := hf.eq_nil hmark.2.2.1
  obtain rfl := he.eq_nil hmark.2.2.2
  simp only [List.append_nil]
  have hdecimal := decimal_ofDigitChars hi
  obtain ⟨⟨hne, hall⟩, -⟩ := hi
  rcases hs with rfl | rfl
  · have hparse := parseBig_integer (.ofNat (Nat.ofDigitChars 10 i 0))
    change parseBig (decimal _) = _ at hparse
    rw [hdecimal] at hparse
    refine ⟨_, hparse, ?_⟩
    rw [List.nil_append, if_neg]
    · exact hdecimal
    · rintro rfl
      cases hall
  · have hparse : parseBig ('-' :: i) = some (-(Nat.ofDigitChars 10 i 0 : ℤ)) :=
      if_pos ⟨hne, hall⟩
    refine ⟨_, hparse, ?_⟩
    rcases hn : Nat.ofDigitChars 10 i 0 with _ | n
    · rw [hn] at hdecimal
      rw [← hdecimal]
      decide
    · rw [hn] at hdecimal
      rw [if_neg]
      · change '-' :: decimal (n + 1) = '-' :: i
        rw [hdecimal]
      · intro heq
        have hi : i = ['0'] := (List.cons.inj heq).2
        rw [hi] at hn
        cases hn

/-! ### The numbers of the three encoders -/

/-- The firmware writes a literal as the controller writes the number it parsed. -/
theorem appendPyNumber_reads {F : FloatText} {n : NodeNumber} {l : Text} (h : n.Reads F l) :
    Carried (writeNodeNumber F n) (appendPyNumber F l) := by
  intro t ht
  cases n with
  | integer digits =>
      obtain ⟨hl, hmark, rfl⟩ := h
      obtain ⟨z, hz, hinteger⟩ := parseBig_literal hl hmark
      cases ht
      rw [appendPyNumber, hmark, if_pos Bool.false_ne_true, hz, ← hinteger]
  | float d =>
      obtain ⟨-, hmark, hparse, hfinite⟩ := h
      change writeFloat F d = _ at ht
      rw [writeFloat, if_pos hfinite] at ht
      cases ht
      rw [appendPyNumber, hmark, if_neg (not_not_intro rfl), hparse]
      dsimp only
      rw [if_pos hfinite, appendPyFloat, if_pos hfinite]

/-- The literals of a number. -/
def Number.Denotes (F : FloatText) : Number → Text → Prop
  | .int z, l => IsNumber l ∧ l.any isFloatMark = false ∧ parseBig l = some z
  | .float d, l => IsNumber l ∧ l.any isFloatMark = true ∧ F.parse l = some d

/-- A number as the parser keeps it. -/
def Number.node : Number → NodeNumber
  | .int z => .integer (integer z)
  | .float d => .float d

/-- A double of a `serde_json` value is finite. -/
def Number.finite : Number → Prop
  | .int _ => True
  | .float d => d.finite

theorem Number.Denotes.reads {F : FloatText} {n : Number} {l : Text} (h : n.Denotes F l)
    (hfinite : n.finite) : n.node.Reads F l := by
  cases n with
  | int z =>
      obtain ⟨hl, hmark, hz⟩ := h
      obtain ⟨z', hz', hinteger⟩ := parseBig_literal hl hmark
      rw [hz] at hz'
      cases hz'
      exact ⟨hl, hmark, hinteger⟩
  | float d =>
      obtain ⟨hl, hmark, hparse⟩ := h
      exact ⟨hl, hmark, hparse, hfinite⟩

theorem writeNodeNumber_node (F : FloatText) (n : Number) :
    writeNodeNumber F n.node = writeNumber F n := by
  cases n with
  | int z => rfl
  | float d => rfl

/-! ### The order of members -/

section

variable {ν μ ε α : Type}

mutual

/-- The same value with the members of its objects in another order. -/
inductive Json.Shuffled : Json ν → Json ν → Prop
  | null : Json.Shuffled .null .null
  | bool (b : Bool) : Json.Shuffled (.bool b) (.bool b)
  | num (n : ν) : Json.Shuffled (.num n) (.num n)
  | str (s : Text) : Json.Shuffled (.str s) (.str s)
  | arr {vs ws : List (Json ν)} (h : ShuffledItems vs ws) : Json.Shuffled (.arr vs) (.arr ws)
  | obj {vs ms ws : List (Text × Json ν)} (h : ShuffledMembers vs ms) (hp : ms.Perm ws) :
      Json.Shuffled (.obj vs) (.obj ws)

inductive ShuffledItems : List (Json ν) → List (Json ν) → Prop
  | nil : ShuffledItems [] []
  | cons {v w : Json ν} {vs ws : List (Json ν)} (h : Json.Shuffled v w)
      (hs : ShuffledItems vs ws) : ShuffledItems (v :: vs) (w :: ws)

inductive ShuffledMembers : List (Text × Json ν) → List (Text × Json ν) → Prop
  | nil : ShuffledMembers [] []
  | cons (k : Text) {v w : Json ν} {vs ws : List (Text × Json ν)} (h : Json.Shuffled v w)
      (hs : ShuffledMembers vs ws) : ShuffledMembers ((k, v) :: vs) ((k, w) :: ws)

end

mutual

/-- Every number satisfies `p`, and no object has two members under one key: what a `serde_json`
value holds when `p` is finiteness. -/
def Json.Holds (p : ν → Prop) : Json ν → Prop
  | .num n => p n
  | .arr items => HoldsItems p items
  | .obj members => (members.map Prod.fst).Nodup ∧ HoldsMembers p members
  | _ => True

def HoldsItems (p : ν → Prop) : List (Json ν) → Prop
  | [] => True
  | v :: vs => v.Holds p ∧ HoldsItems p vs

def HoldsMembers (p : ν → Prop) : List (Text × Json ν) → Prop
  | [] => True
  | (_, v) :: ms => v.Holds p ∧ HoldsMembers p ms

end

/-- Entries under different keys can be put into a map in either order. -/
theorem insertKey_comm {k k' : Text} (hne : k ≠ k') (a b : α) (l : List (Text × α)) :
    insertKey k a (insertKey k' b l) = insertKey k' b (insertKey k a l) := by
  induction l with
  | nil =>
      rcases lt_or_gt_of_ne hne with hlt | hlt
      · simp [insertKey, hne, hne.symm, hlt, hlt.asymm]
      · simp [insertKey, hne, hne.symm, hlt, hlt.asymm]
  | cons e l ih =>
      rcases lt_trichotomy k e.1 with h | h | h <;> rcases lt_trichotomy k' e.1 with h' | h' | h'
      · rcases lt_or_gt_of_ne hne with hlt | hlt
        · simp [insertKey, h, h', h.ne, h'.ne, hne, hne.symm, hlt, hlt.asymm]
        · simp [insertKey, h, h', h.ne, h'.ne, hne, hne.symm, hlt, hlt.asymm]
      · simp [insertKey, h, h.ne, h', h.ne', h.asymm]
      · simp [insertKey, h, h.ne, h'.ne', h'.asymm, (h.trans h').asymm, (h.trans h').ne']
      · simp [insertKey, h', h, h'.ne, h'.ne', h'.asymm]
      · exact absurd (h.trans h'.symm) hne
      · simp [insertKey, h, h'.ne', h'.asymm]
      · simp [insertKey, h', h'.ne, h.ne', h.asymm, (h'.trans h).asymm, (h'.trans h).ne']
      · simp [insertKey, h', h.ne', h.asymm]
      · simp [insertKey, h.ne', h.asymm, h'.ne', h'.asymm, ih]

/-- Members under different keys build the same map in any order. -/
theorem byKey_perm {l l' : List (Text × α)} (hp : l.Perm l') (hkeys : (l.map Prod.fst).Nodup) :
    byKey l = byKey l' := by
  refine hp.foldl_eq' (fun x hx y hy z => ?_) []
  by_cases hxy : x = y
  · rw [hxy]
  · refine insertKey_comm (fun hk => hxy ?_) _ _ _
    exact List.inj_on_of_nodup_map hkeys hx hy hk.symm

theorem canonicalMembers_eq_map (num : ν → Except ε Text) (ms : List (Text × Json ν)) :
    canonicalMembers num ms = ms.map fun m => (m.1, m.2.canonical num) := by
  induction ms with
  | nil => rfl
  | cons m ms ih => rw [canonicalMembers, ih, List.map_cons]

theorem canonicalMembers_fst (num : ν → Except ε Text) (ms : List (Text × Json ν)) :
    (canonicalMembers num ms).map Prod.fst = ms.map Prod.fst := by
  rw [canonicalMembers_eq_map, List.map_map]
  rfl

/-- How deep members are nested does not depend on their order. -/
theorem depthMembers_perm {ms ws : List (Text × Json ν)} (hp : ms.Perm ws) :
    depthMembers ms = depthMembers ws := by
  induction hp with
  | nil => rfl
  | cons m _ ih => simp only [depthMembers, ih]
  | swap m n ms =>
      simp only [depthMembers]
      omega
  | trans _ _ ih ih' => exact ih.trans ih'

mutual

/-- Values in another order are written alike. -/
theorem Json.Shuffled.canonical {p : ν → Prop} {num : ν → Except ε Text} {v w : Json ν}
    (h : Json.Shuffled v w) (hv : v.Holds p) : v.canonical num = w.canonical num := by
  cases h with
  | null => rfl
  | bool b => rfl
  | num n => rfl
  | str s => rfl
  | arr h => simp only [Json.canonical, ShuffledItems.canonical h hv]
  | @obj vs ms ws h hp =>
      have hperm : (canonicalMembers num ms).Perm (canonicalMembers num ws) := by
        rw [canonicalMembers_eq_map, canonicalMembers_eq_map]
        exact hp.map _
      have hbyKey := byKey_perm hperm (by
        rw [← ShuffledMembers.canonical h hv.2, canonicalMembers_fst]
        exact hv.1)
      simp only [Json.canonical, ShuffledMembers.canonical h hv.2, hbyKey]

theorem ShuffledItems.canonical {p : ν → Prop} {num : ν → Except ε Text} {vs ws : List (Json ν)}
    (h : ShuffledItems vs ws) (hv : HoldsItems p vs) :
    canonicalItems num vs = canonicalItems num ws := by
  cases h with
  | nil => rfl
  | cons h hs =>
      simp only [canonicalItems, Json.Shuffled.canonical h hv.1,
        ShuffledItems.canonical hs hv.2]

theorem ShuffledMembers.canonical {p : ν → Prop} {num : ν → Except ε Text}
    {vs ws : List (Text × Json ν)} (h : ShuffledMembers vs ws) (hv : HoldsMembers p vs) :
    canonicalMembers num vs = canonicalMembers num ws := by
  cases h with
  | nil => rfl
  | cons k h hs =>
      simp only [canonicalMembers, Json.Shuffled.canonical h hv.1,
        ShuffledMembers.canonical hs hv.2]

end

mutual

theorem Json.Shuffled.depth_eq {v w : Json ν} (h : Json.Shuffled v w) : v.depth = w.depth := by
  cases h with
  | null => rfl
  | bool b => rfl
  | num n => rfl
  | str s => rfl
  | arr h => simp only [Json.depth, ShuffledItems.depth_eq h]
  | obj h hp => simp only [Json.depth, ShuffledMembers.depth_eq h, depthMembers_perm hp]

theorem ShuffledItems.depth_eq {vs ws : List (Json ν)} (h : ShuffledItems vs ws) :
    depthItems vs = depthItems ws := by
  cases h with
  | nil => rfl
  | cons h hs => simp only [depthItems, Json.Shuffled.depth_eq h, ShuffledItems.depth_eq hs]

theorem ShuffledMembers.depth_eq {vs ws : List (Text × Json ν)} (h : ShuffledMembers vs ws) :
    depthMembers vs = depthMembers ws := by
  cases h with
  | nil => rfl
  | cons k h hs =>
      simp only [depthMembers, Json.Shuffled.depth_eq h, ShuffledMembers.depth_eq hs]

end

theorem HoldsMembers.perm {p : ν → Prop} {ms ws : List (Text × Json ν)} (hp : ms.Perm ws)
    (h : HoldsMembers p ms) : HoldsMembers p ws := by
  induction hp with
  | nil => exact h
  | cons m _ ih => exact ⟨h.1, ih h.2⟩
  | swap m n ms => exact ⟨h.2.1, h.1, h.2.2⟩
  | trans _ _ ih ih' => exact ih' (ih h)

mutual

theorem Json.Shuffled.holds {p : ν → Prop} {v w : Json ν} (h : Json.Shuffled v w)
    (hv : v.Holds p) : w.Holds p := by
  cases h with
  | null => exact hv
  | bool b => exact hv
  | num n => exact hv
  | str s => exact hv
  | arr h => exact ShuffledItems.holds h hv
  | @obj vs ms ws h hp =>
      obtain ⟨hnodup, hvs⟩ := hv
      obtain ⟨hkeys, hms⟩ := ShuffledMembers.holds h hvs
      rw [← hkeys] at hnodup
      exact ⟨(hp.map Prod.fst).nodup_iff.mp hnodup, hms.perm hp⟩

theorem ShuffledItems.holds {p : ν → Prop} {vs ws : List (Json ν)} (h : ShuffledItems vs ws)
    (hv : HoldsItems p vs) : HoldsItems p ws := by
  cases h with
  | nil => exact hv
  | cons h hs => exact ⟨Json.Shuffled.holds h hv.1, ShuffledItems.holds hs hv.2⟩

theorem ShuffledMembers.holds {p : ν → Prop} {vs ws : List (Text × Json ν)}
    (h : ShuffledMembers vs ws) (hv : HoldsMembers p vs) :
    ws.map Prod.fst = vs.map Prod.fst ∧ HoldsMembers p ws := by
  cases h with
  | nil => exact ⟨rfl, hv⟩
  | cons k h hs =>
      obtain ⟨hkeys, hms⟩ := ShuffledMembers.holds hs hv.2
      exact ⟨by rw [List.map_cons, List.map_cons, hkeys], Json.Shuffled.holds h hv.1, hms⟩

end

/-! ### Values that can be written -/

theorem allOk_isOk {l : List (Except ε α)} (h : ∀ r ∈ l, ∃ a, r = .ok a) :
    ∃ as, allOk l = .ok as := by
  induction l with
  | nil => exact ⟨[], rfl⟩
  | cons r l ih =>
      obtain ⟨a, rfl⟩ := h r List.mem_cons_self
      obtain ⟨as, has⟩ := ih fun r hr => h r (List.mem_cons_of_mem _ hr)
      exact ⟨a :: as, by simp only [allOk, has]⟩

theorem mem_insertKey {e : Text × α} {k : Text} {a : α} {l : List (Text × α)}
    (h : e ∈ insertKey k a l) : e = (k, a) ∨ e ∈ l := by
  induction l with
  | nil => simpa [insertKey] using h
  | cons d l ih =>
      unfold insertKey at h
      split_ifs at h with hk hlt
      · rcases List.mem_cons.mp h with rfl | h
        · exact .inl rfl
        · exact .inr (List.mem_cons_of_mem _ h)
      · exact List.mem_cons.mp h
      · rcases List.mem_cons.mp h with rfl | h
        · exact .inr List.mem_cons_self
        · exact (ih h).imp_right (List.mem_cons_of_mem _)

theorem mem_byKey {e : Text × α} {l : List (Text × α)} (h : e ∈ byKey l) : e ∈ l := by
  have hgen : ∀ m : List (Text × α), e ∈ l.foldl (fun m e => insertKey e.1 e.2 m) m →
      e ∈ m ∨ e ∈ l := by
    clear h
    induction l with
    | nil => exact fun m hm => .inl hm
    | cons d l ih =>
        intro m hm
        rcases ih _ hm with hm | hl
        · rcases mem_insertKey hm with rfl | hm
          · exact .inr List.mem_cons_self
          · exact .inl hm
        · exact .inr (List.mem_cons_of_mem _ hl)
  rcases hgen [] h with h | h
  · cases h
  · exact h

mutual

/-- A value whose numbers can be written can be written. -/
theorem Json.Holds.canonical {p : ν → Prop} {num : ν → Except ε Text}
    (hnum : ∀ n, p n → ∃ t, num n = .ok t) :
    (v : Json ν) → v.Holds p → ∃ t, v.canonical num = .ok t
  | .null, _ => ⟨_, rfl⟩
  | .bool _, _ => ⟨_, rfl⟩
  | .num n, h => hnum n h
  | .str _, _ => ⟨_, rfl⟩
  | .arr items, h => by
      obtain ⟨parts, hparts⟩ := allOk_isOk (HoldsItems.canonical hnum items h)
      exact ⟨_, by rw [Json.canonical, hparts]; rfl⟩
  | .obj members, h => by
      have hall : ∀ r ∈ (byKey (canonicalMembers num members)).map (fun (k, r) =>
          r.map fun t => quoted k ++ ':' :: t), ∃ t, r = .ok t := by
        intro r hr
        obtain ⟨e, he, rfl⟩ := List.mem_map.mp hr
        obtain ⟨k, r⟩ := e
        obtain ⟨t, rfl⟩ := HoldsMembers.canonical hnum members h.2 _ (mem_byKey he)
        exact ⟨_, rfl⟩
      obtain ⟨parts, hparts⟩ := allOk_isOk hall
      exact ⟨_, by rw [Json.canonical, hparts]; rfl⟩

theorem HoldsItems.canonical {p : ν → Prop} {num : ν → Except ε Text}
    (hnum : ∀ n, p n → ∃ t, num n = .ok t) :
    (vs : List (Json ν)) → HoldsItems p vs → ∀ r ∈ canonicalItems num vs, ∃ t, r = .ok t
  | [], _, _, hr => nomatch hr
  | v :: vs, h, r, hr => by
      rcases List.mem_cons.mp hr with rfl | hr
      · exact Json.Holds.canonical hnum v h.1
      · exact HoldsItems.canonical hnum vs h.2 r hr

theorem HoldsMembers.canonical {p : ν → Prop} {num : ν → Except ε Text}
    (hnum : ∀ n, p n → ∃ t, num n = .ok t) :
    (ms : List (Text × Json ν)) → HoldsMembers p ms →
      ∀ e ∈ canonicalMembers num ms, ∃ t, e.2 = .ok t
  | [], _, _, he => nomatch he
  | (_, v) :: ms, h, e, he => by
      rcases List.mem_cons.mp he with rfl | he
      · exact Json.Holds.canonical hnum v h.1
      · exact HoldsMembers.canonical hnum ms h.2 e he

end

end

theorem writeNumber_finite (F : FloatText) {n : Number} (h : n.finite) :
    ∃ t, writeNumber F n = .ok t := by
  cases n with
  | int z => exact ⟨_, rfl⟩
  | float d => exact ⟨_, if_pos h⟩

theorem writeNodeNumber_reads {F : FloatText} {n : NodeNumber} {l : Text} (h : n.Reads F l) :
    ∃ t, writeNodeNumber F n = .ok t := by
  cases n with
  | integer digits => exact ⟨_, rfl⟩
  | float d => exact ⟨_, if_pos h.2.2.2⟩

/-! ### Serialisations -/

section

variable {F : FloatText}

mutual

/-- The tree the parser reads from the literals of a value. -/
theorem Json.Rel.node {v : Json Number} {w : Json Text} (h : Json.Rel (Number.Denotes F) v w)
    (hv : v.Holds Number.finite) : Json.Rel (NodeNumber.Reads F) (v.map Number.node) w := by
  cases h with
  | null => exact .null
  | bool b => exact .bool b
  | num h => exact .num (h.reads hv)
  | str s => exact .str s
  | arr h => exact .arr (RelItems.node h hv)
  | obj h => exact .obj (RelMembers.node h hv.2)

theorem RelItems.node {vs : List (Json Number)} {ws : List (Json Text)}
    (h : RelItems (Number.Denotes F) vs ws) (hv : HoldsItems Number.finite vs) :
    RelItems (NodeNumber.Reads F) (mapItems Number.node vs) ws := by
  cases h with
  | nil => exact .nil
  | cons h hs => exact .cons (Json.Rel.node h hv.1) (RelItems.node hs hv.2)

theorem RelMembers.node {vs : List (Text × Json Number)} {ws : List (Text × Json Text)}
    (h : RelMembers (Number.Denotes F) vs ws) (hv : HoldsMembers Number.finite vs) :
    RelMembers (NodeNumber.Reads F) (mapMembers Number.node vs) ws := by
  cases h with
  | nil => exact .nil
  | cons k h hs => exact .cons k (Json.Rel.node h hv.1) (RelMembers.node hs hv.2)

end

/-- The JSON texts of a value: any order of members, whitespace, escapes and number literals. -/
def Serialises (F : FloatText) (v : Json Number) (t : Text) : Prop :=
  ∃ v' w, Json.Shuffled v v' ∧ Json.Rel (Number.Denotes F) v' w ∧ SpellsText w t

/-- The end of a text stops a number, and whitespace does. -/
theorem stops_blank {b : Text} (hb : Blank b) : Stops b := by
  intro c hc
  cases b with
  | nil => cases hc
  | cons d b => exact stops_append [] ',' hb (by decide) c hc

theorem whitespace_blank {b : Text} (hb : Blank b) : Reader.whitespace b = [] := by
  have h : Reader.whitespace (b ++ []) = [] := whitespace_append hb nofun
  rwa [List.append_nil] at h

/-- A text the parser reads to its end is a text of the grammar. -/
theorem canonicalJsonText_sound {t c : Text} (h : canonicalJsonText F t = .ok c) :
    ∃ node w, SpellsText w t ∧ Json.Rel (NodeNumber.Reads F) node w ∧ w.depth ≤ maxDepth ∧
      writeNode F node = .ok c := by
  unfold canonicalJsonText at h
  rcases hv : (parser F t).value maxDepth t with e | ⟨node, rest⟩
  · rw [hv] at h
    cases h
  · rw [hv] at h
    obtain ⟨a, w, u, ha, hw, hrel, hdepth, rfl⟩ := (parser_sound F t).value maxDepth hv
    dsimp only at h
    by_cases hrest : Reader.whitespace rest = []
    · rw [if_pos hrest] at h
      obtain ⟨b, hb, hsplit⟩ := whitespace_split rest
      rw [hrest, List.append_nil] at hsplit
      rw [hsplit]
      exact ⟨node, w, ⟨a, b, u, ha, hb, hw, rfl⟩, hrel, hdepth, h⟩
    · rw [if_neg hrest] at h
      cases h

/-- The firmware decodes every text of the grammar, with its literals. -/
theorem decodeGeneric_complete {w : Json Text} {t : Text} (h : SpellsText w t)
    (hdepth : w.depth ≤ maxNestingDepth) : decodeGeneric t = .ok w := by
  obtain ⟨a, b, u, ha, hb, hw, rfl⟩ := h
  have hrel : Json.Rel (fun n l => n = l) w w := Json.Rel.refl (fun _ => rfl) w
  have hvalue := decoder_complete.value hw hrel _ hdepth ha (stops_blank hb)
  simp only [decodeGeneric, hvalue, whitespace_blank hb, if_true]

/-- The controller reads every text of the grammar whose numbers it can keep. -/
theorem canonicalJsonText_complete {node : Json NodeNumber} {w : Json Text} {t : Text}
    (h : SpellsText w t) (hrel : Json.Rel (NodeNumber.Reads F) node w)
    (hdepth : w.depth ≤ maxDepth) : canonicalJsonText F t = writeNode F node := by
  obtain ⟨a, b, u, ha, hb, hw, rfl⟩ := h
  have hvalue := (parser_complete F (a ++ (u ++ b))).value hw hrel _ hdepth ha (stops_blank hb)
  simp only [canonicalJsonText, hvalue, whitespace_blank hb, if_true]

/-! ### The three encoders -/

/-- Whatever the controller re-encodes the firmware decodes and writes alike. -/
theorem appendCanonical_of_text {t c : Text} (h : canonicalJsonText F t = .ok c) :
    ∃ w, decodeGeneric t = .ok w ∧ appendCanonical F w = .ok c := by
  obtain ⟨node, w, hspell, hrel, hdepth, hc⟩ := canonicalJsonText_sound h
  refine ⟨w, decodeGeneric_complete hspell (hdepth.trans (by decide)), ?_⟩
  exact hrel.canonical (fun _ _ h => appendPyNumber_reads h) c hc

/-- Every serialisation of a value has the canonical form of the value. -/
theorem canonicalJsonText_serialises {v : Json Number} {t : Text} (hv : v.Holds Number.finite)
    (hdepth : v.depth ≤ maxDepth) (h : Serialises F v t) :
    ∃ c, writeValue F v = .ok c ∧ canonicalJsonText F t = .ok c := by
  obtain ⟨v', w, hshuffled, hdenotes, hspell⟩ := h
  have hv' := hshuffled.holds hv
  have hnode := hdenotes.node hv'
  rw [hshuffled.depth_eq, hdenotes.depth_eq] at hdepth
  obtain ⟨c, hc⟩ := Json.Holds.canonical (fun n hn => writeNumber_finite F hn) v' hv'
  refine ⟨c, ?_, ?_⟩
  · rw [writeValue, hshuffled.canonical hv, hc]
  · rw [canonicalJsonText_complete hspell hnode hdepth]
    refine (Json.Rel.map Number.node v').canonical (fun n m hm => ?_) c hc
    rw [hm, writeNodeNumber_node]
    exact fun _ h => h

end

/-! ### A sample -/

/-- The bits of one half. -/
def half : Double := 0x3fe0000000000000#64

/-- One half in decimal, other doubles as their bits. -/
def halfText : FloatText where
  print d := if d = half then "0.5".toList else bitText.print d
  parse s := if s = "0.5".toList then some half else bitText.parse s
  scientific d := if d = half then (['5'], -1) else bitText.scientific d
  parse_print := by
    intro d hd
    by_cases hhalf : d = half
    · rw [if_pos hhalf, if_pos rfl, hhalf]
    · rw [if_neg hhalf, if_neg, bitText.parse_print d hd]
      exact fun h => absurd (List.cons.inj h).1 (by decide)
  print_float := by
    intro d hd
    by_cases hhalf : d = half
    · rw [if_pos hhalf]
      decide
    · rw [if_neg hhalf, bitText.print_float d hd]

/-- A value, and a text of it with its members in the other order and an escape. -/
def sampleValue : Json Number := .obj [(['b'], .num (.float half)), (['a'], .str ['A', '/'])]

def sampleText : Text := "\x7b \"a\":\"\\u0041\\/\",\n\"b\" : 0.5\x7d ".toList

theorem sampleText_serialises : Serialises halfText sampleValue sampleText := by
  refine ⟨.obj [(['a'], .str ['A', '/']), (['b'], .num (.float half))],
    .obj [(['a'], .str ['A', '/']), (['b'], .num "0.5".toList)], ?_, ?_, ?_⟩
  · exact .obj (.cons _ (.num _) (.cons _ (.str _) .nil)) (.swap _ _ _)
  · refine .obj (.cons _ (.str _) (.cons _ (.num ⟨?_, by decide, by decide⟩) .nil))
    exact ⟨[], ['0'], ['.', '5'], [], .inl rfl, ⟨⟨by decide, by decide⟩, fun _ => rfl⟩,
      .inr ⟨['5'], ⟨by decide, by decide⟩, rfl⟩, .inl rfl, by decide⟩
  · have hhex : IsHex4 "0041".toList := ⟨by decide, by decide⟩
    have hescape : SpellsChar 'A' ('\\' :: 'u' :: "0041".toList) :=
      .unit hhex (by decide) (by decide)
    have hslash : SpellsChar '/' ['\\', '/'] := .short rfl
    have hstring := SpellsChars.cons hescape (.cons hslash .nil)
    have hkey : ∀ c : Char, c ≠ '"' → c ≠ '\\' → 0x20 ≤ c.toNat → SpellsChars [c] [c] :=
      fun c hq hs hc => .cons (.plain c hq hs hc) .nil
    have hlast := SpellsMembers.last (a := ['\n']) (b := [' ']) (c := [' ']) (d := [])
      rfl rfl rfl rfl (hkey 'b' (by decide) (by decide) (by decide))
      (.num ⟨[], ['0'], ['.', '5'], [], .inl rfl, ⟨⟨by decide, by decide⟩, fun _ => rfl⟩,
        .inr ⟨['5'], ⟨by decide, by decide⟩, rfl⟩, .inl rfl, rfl⟩)
    have hmembers := SpellsMembers.cons (a := [' ']) (b := []) (c := []) (d := []) rfl rfl rfl rfl
      (hkey 'a' (by decide) (by decide) (by decide)) (.str hstring) hlast
    exact ⟨[], [' '], _, rfl, rfl, .obj hmembers, by decide +kernel⟩

end EchoMuse.Alerts
