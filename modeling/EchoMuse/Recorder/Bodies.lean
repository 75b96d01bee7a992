import EchoMuse.Grammar.Stable
import EchoMuse.Recorder.Redaction

/-!
# Redacted Bodies

The redaction of a whole JSON value: what a key names is replaced with all that is under it, and
every other string is redacted as a text.

## Main results

* `redact_redact`, `cleaned_redact`: redaction is stable and keeps everything else;
* `redacts_iff`: it is complete, and hides the credentials, just where every text has them in its
  first query.
-/

namespace EchoMuse.Recorder

open Alerts (Json Text)

variable {ν : Type}

/-! ### Values that differ in some places -/

section

variable (key : Text → Bool) (text : Text → Text → Prop) (secret : Json ν → Json ν → Prop)

mutual

/-- The values are alike but for their texts and for what is under some keys. -/
inductive Related : Json ν → Json ν → Prop
  | null : Related .null .null
  | bool (b : Bool) : Related (.bool b) (.bool b)
  | num (n : ν) : Related (.num n) (.num n)
  | str {s t : Text} (h : text s t) : Related (.str s) (.str t)
  | arr {vs ws : List (Json ν)} (h : RelatedItems vs ws) : Related (.arr vs) (.arr ws)
  | obj {vs ws : List (Text × Json ν)} (h : RelatedMembers vs ws) : Related (.obj vs) (.obj ws)

inductive RelatedItems : List (Json ν) → List (Json ν) → Prop
  | nil : RelatedItems [] []
  | cons {v w : Json ν} {vs ws : List (Json ν)} (h : Related v w) (hs : RelatedItems vs ws) :
      RelatedItems (v :: vs) (w :: ws)

inductive RelatedMembers : List (Text × Json ν) → List (Text × Json ν) → Prop
  | nil : RelatedMembers [] []
  | secret {k : Text} {v w : Json ν} {vs ws : List (Text × Json ν)} (hk : key k = true)
      (h : secret v w) (hs : RelatedMembers vs ws) : RelatedMembers ((k, v) :: vs) ((k, w) :: ws)
  | other {k : Text} {v w : Json ν} {vs ws : List (Text × Json ν)} (hk : key k = false)
      (h : Related v w) (hs : RelatedMembers vs ws) : RelatedMembers ((k, v) :: vs) ((k, w) :: ws)

end

variable {key text secret}

mutual

theorem Related.refl (htext : ∀ s, text s s) (hsecret : ∀ v, secret v v) :
    (v : Json ν) → Related key text secret v v
  | .null => .null
  | .bool b => .bool b
  | .num n => .num n
  | .str s => .str (htext s)
  | .arr items => .arr (RelatedItems.refl htext hsecret items)
  | .obj members => .obj (RelatedMembers.refl htext hsecret members)

theorem RelatedItems.refl (htext : ∀ s, text s s) (hsecret : ∀ v, secret v v) :
    (vs : List (Json ν)) → RelatedItems key text secret vs vs
  | [] => .nil
  | v :: vs => .cons (Related.refl htext hsecret v) (RelatedItems.refl htext hsecret vs)

theorem RelatedMembers.refl (htext : ∀ s, text s s) (hsecret : ∀ v, secret v v) :
    (vs : List (Text × Json ν)) → RelatedMembers key text secret vs vs
  | [] => .nil
  | (k, v) :: vs => by
      cases hk : key k with
      | true => exact .secret hk (hsecret v) (RelatedMembers.refl htext hsecret vs)
      | false =>
          exact .other hk (Related.refl htext hsecret v) (RelatedMembers.refl htext hsecret vs)

end

end

variable (u : Grammar.Unicode)

/-- The values differ in credentials only: what is under a credential key, unless it is null, and
the credentials of texts. -/
def Alike : Json ν → Json ν → Prop :=
  Related (isCredentialKey u) (AlikeText u) fun v w => v = .null ↔ w = .null

/-- Credentials are replaced, and all else is kept. -/
def Cleaned : Json ν → Json ν → Prop :=
  Related (isCredentialKey u) (CleanedText u) fun v w =>
    (v = .null ∧ w = .null) ∨ (v ≠ .null ∧ w = .str redacted)

mutual

/-- The value holds no credential. -/
def Clean : Json ν → Prop
  | .null => True
  | .bool _ => True
  | .num _ => True
  | .str s => CleanText u s
  | .arr items => CleanItems items
  | .obj members => CleanMembers members

def CleanItems : List (Json ν) → Prop
  | [] => True
  | v :: vs => Clean v ∧ CleanItems vs

def CleanMembers : List (Text × Json ν) → Prop
  | [] => True
  | (k, v) :: ms =>
    Clean v ∧ (isCredentialKey u k = true → v = .null ∨ v = .str redacted) ∧ CleanMembers ms

end

mutual

/-- The texts that are not under a credential key have credentials in their first query only. -/
def FirstQueries : Json ν → Prop
  | .null => True
  | .bool _ => True
  | .num _ => True
  | .str s => FirstOnly u s
  | .arr items => FirstQueriesItems items
  | .obj members => FirstQueriesMembers members

def FirstQueriesItems : List (Json ν) → Prop
  | [] => True
  | v :: vs => FirstQueries v ∧ FirstQueriesItems vs

def FirstQueriesMembers : List (Text × Json ν) → Prop
  | [] => True
  | (k, v) :: ms => (isCredentialKey u k = false → FirstQueries v) ∧ FirstQueriesMembers ms

end

/-- Redaction of the value is complete and stable. -/
structure Redacts (v : Json ν) : Prop where
  clean : Clean u (redact u v).1
  cleaned : Cleaned u v (redact u v).1
  alike : ∀ w, Alike u v w → (redact u w).1 = (redact u v).1
  stable : (redact u (redact u v).1).1 = (redact u v).1

/-! ### Redaction by cases -/

@[simp] theorem redact_null : redact u (.null : Json ν) = (.null, 0) := by rw [redact]

@[simp] theorem redact_str (s : Text) :
    (redact u (.str s : Json ν)).1 = .str (clean u s) := by
  rw [redact, clean]
  rcases redactStr u s with ⟨_ | t, n⟩ <;> rfl

@[simp] theorem redact_arr (items : List (Json ν)) :
    (redact u (.arr items)).1 = .arr (redactItems u items).1 := by rw [redact]

@[simp] theorem redact_obj (members : List (Text × Json ν)) :
    (redact u (.obj members)).1 = .obj (redactMembers u members).1 := by rw [redact]

theorem redactMembers_null {k : Text} (hk : isCredentialKey u k = true)
    (ms : List (Text × Json ν)) :
    (redactMembers u ((k, .null) :: ms)).1 = (k, .null) :: (redactMembers u ms).1 := by
  rw [redactMembers]
  simp only [if_pos hk]

theorem redactMembers_secret {k : Text} {v : Json ν} (hk : isCredentialKey u k = true)
    (hv : v ≠ .null) (ms : List (Text × Json ν)) :
    (redactMembers u ((k, v) :: ms)).1 = (k, .str redacted) :: (redactMembers u ms).1 := by
  rw [redactMembers]
  · simp only [if_pos hk]
  · exact hv

theorem redactMembers_other {k : Text} (v : Json ν) (hk : isCredentialKey u k = false)
    (ms : List (Text × Json ν)) :
    (redactMembers u ((k, v) :: ms)).1 = (k, (redact u v).1) :: (redactMembers u ms).1 := by
  rw [redactMembers.eq_def]
  simp only [hk, Bool.false_eq_true, if_false]

/-! ### Stability -/

mutual

/-- **Redacting a redacted value changes nothing.** -/
theorem redact_redact : (v : Json ν) → (redact u (redact u v).1).1 = (redact u v).1
  | .null => by rw [redact_null, redact_null]
  | .bool b => by rw [redact, redact]
  | .num n => by rw [redact, redact]
  | .str s => by rw [redact_str, redact_str, clean_clean]
  | .arr items => by rw [redact_arr, redact_arr, redactItems_redactItems items]
  | .obj members => by rw [redact_obj, redact_obj, redactMembers_redactMembers members]

theorem redactItems_redactItems :
    (vs : List (Json ν)) → (redactItems u (redactItems u vs).1).1 = (redactItems u vs).1
  | [] => by rw [redactItems, redactItems]
  | v :: vs => by
      rw [redactItems, redactItems, redact_redact v, redactItems_redactItems vs]

theorem redactMembers_redactMembers : (ms : List (Text × Json ν)) →
    (redactMembers u (redactMembers u ms).1).1 = (redactMembers u ms).1
  | [] => by rw [redactMembers, redactMembers]
  | (k, v) :: ms => by
      have hrest := redactMembers_redactMembers ms
      cases hk : isCredentialKey u k with
      | true =>
          by_cases hv : v = .null
          · rw [hv, redactMembers_null u hk, redactMembers_null u hk, hrest]
          · rw [redactMembers_secret u hk hv,
              redactMembers_secret u (v := .str redacted) hk nofun, hrest]
      | false =>
          rw [redactMembers_other u v hk, redactMembers_other u _ hk, redact_redact v, hrest]

end

mutual

/-- **Everything else is kept.** -/
theorem cleaned_redact : (v : Json ν) → Cleaned u v (redact u v).1
  | .null => by
      rw [redact_null]
      exact .null
  | .bool b => by
      rw [redact]
      exact .bool b
  | .num n => by
      rw [redact]
      exact .num n
  | .str s => by
      rw [redact_str]
      exact .str (cleanedText_clean u s)
  | .arr items => by
      rw [redact_arr]
      exact .arr (cleaned_redactItems items)
  | .obj members => by
      rw [redact_obj]
      exact .obj (cleaned_redactMembers members)

theorem cleaned_redactItems : (vs : List (Json ν)) →
    RelatedItems (isCredentialKey u) (CleanedText u)
      (fun v w => (v = .null ∧ w = .null) ∨ (v ≠ .null ∧ w = .str redacted)) vs (redactItems u vs).1
  | [] => by
      rw [redactItems]
      exact .nil
  | v :: vs => by
      rw [redactItems]
      exact .cons (cleaned_redact v) (cleaned_redactItems vs)

theorem cleaned_redactMembers : (ms : List (Text × Json ν)) →
    RelatedMembers (isCredentialKey u) (CleanedText u)
      (fun v w => (v = .null ∧ w = .null) ∨ (v ≠ .null ∧ w = .str redacted)) ms
      (redactMembers u ms).1
  | [] => by
      rw [redactMembers]
      exact .nil
  | (k, v) :: ms => by
      have hrest := cleaned_redactMembers ms
      cases hk : isCredentialKey u k with
      | true =>
          by_cases hv : v = .null
          · subst hv
            rw [redactMembers_null u hk]
            exact .secret hk (.inl ⟨rfl, rfl⟩) hrest
          · rw [redactMembers_secret u hk hv]
            exact .secret hk (.inr ⟨hv, rfl⟩) hrest
      | false =>
          rw [redactMembers_other u v hk]
          exact .other hk (cleaned_redact v) hrest

end

/-! ### Completeness -/

/-- What replaces a credential holds none. -/
theorem cleanText_redacted : CleanText u redacted := by
  have hfirst : FirstOnly u redacted := .inr (.inl (by decide))
  have h := cleanText_clean u hfirst
  rwa [clean_of_no_query u (isCredential_redacted u) (by decide)] at h

mutual

/-- **Redaction is complete where texts have credentials in their first query only.** -/
theorem clean_redact : (v : Json ν) → FirstQueries u v → Clean u (redact u v).1
  | .null, _ => by
      rw [redact_null, Clean]
      trivial
  | .bool b, _ => by
      rw [redact, Clean]
      trivial
  | .num n, _ => by
      rw [redact, Clean]
      trivial
  | .str s, h => by
      rw [FirstQueries] at h
      rw [redact_str, Clean]
      exact cleanText_clean u h
  | .arr items, h => by
      rw [FirstQueries] at h
      rw [redact_arr, Clean]
      exact clean_redactItems items h
  | .obj members, h => by
      rw [FirstQueries] at h
      rw [redact_obj, Clean]
      exact clean_redactMembers members h

theorem clean_redactItems :
    (vs : List (Json ν)) → FirstQueriesItems u vs → CleanItems u (redactItems u vs).1
  | [], _ => by
      rw [redactItems, CleanItems]
      trivial
  | v :: vs, h => by
      rw [FirstQueriesItems] at h
      rw [redactItems, CleanItems]
      exact ⟨clean_redact v h.1, clean_redactItems vs h.2⟩

theorem clean_redactMembers : (ms : List (Text × Json ν)) → FirstQueriesMembers u ms →
    CleanMembers u (redactMembers u ms).1
  | [], _ => by
      rw [redactMembers, CleanMembers]
      trivial
  | (k, v) :: ms, h => by
      rw [FirstQueriesMembers] at h
      have hrest := clean_redactMembers ms h.2
      cases hk : isCredentialKey u k with
      | true =>
          by_cases hv : v = .null
          · rw [hv, redactMembers_null u hk, CleanMembers, Clean]
            exact ⟨trivial, fun _ => .inl rfl, hrest⟩
          · rw [redactMembers_secret u hk hv, CleanMembers, Clean]
            exact ⟨cleanText_redacted u, fun _ => .inr rfl, hrest⟩
      | false =>
          rw [redactMembers_other u v hk, CleanMembers, hk]
          exact ⟨clean_redact v (h.1 hk), nofun, hrest⟩

end

/-! ### Two values -/

mutual

/-- **Values that differ in credentials only are redacted alike**, where texts have them in their
first query only. -/
theorem redact_alike : (v w : Json ν) → FirstQueries u v → Alike u v w →
    (redact u w).1 = (redact u v).1
  | _, _, _, .null => rfl
  | _, _, _, .bool b => rfl
  | _, _, _, .num n => rfl
  | .str s, .str t, h, .str hst => by
      rw [FirstQueries] at h
      rw [redact_str, redact_str, clean_alike u h hst]
  | .arr vs, .arr ws, h, .arr hs => by
      rw [FirstQueries] at h
      rw [redact_arr, redact_arr, redactItems_alike vs ws h hs]
  | .obj vs, .obj ws, h, .obj hs => by
      rw [FirstQueries] at h
      rw [redact_obj, redact_obj, redactMembers_alike vs ws h hs]

theorem redactItems_alike : (vs ws : List (Json ν)) → FirstQueriesItems u vs →
    RelatedItems (isCredentialKey u) (AlikeText u) (fun v w => v = .null ↔ w = .null) vs ws →
    (redactItems u ws).1 = (redactItems u vs).1
  | _, _, _, .nil => rfl
  | v :: vs, w :: ws, h, .cons hv hs => by
      rw [FirstQueriesItems] at h
      rw [redactItems, redactItems, redact_alike v w h.1 hv, redactItems_alike vs ws h.2 hs]

theorem redactMembers_alike : (vs ws : List (Text × Json ν)) → FirstQueriesMembers u vs →
    RelatedMembers (isCredentialKey u) (AlikeText u) (fun v w => v = .null ↔ w = .null) vs ws →
    (redactMembers u ws).1 = (redactMembers u vs).1
  | _, _, _, .nil => rfl
  | (k, v) :: vs, (_, w) :: ws, h, .secret hk hnull hs => by
      rw [FirstQueriesMembers] at h
      have hrest := redactMembers_alike vs ws h.2 hs
      by_cases hv : v = .null
      · rw [hv, hnull.mp hv, redactMembers_null u hk, redactMembers_null u hk, hrest]
      · rw [redactMembers_secret u hk hv, redactMembers_secret u hk (fun hw => hv (hnull.mpr hw)),
          hrest]
  | (k, v) :: vs, (_, w) :: ws, h, .other hk hv hs => by
      rw [FirstQueriesMembers] at h
      rw [redactMembers_other u v hk, redactMembers_other u w hk, redact_alike v w (h.1 hk) hv,
        redactMembers_alike vs ws h.2 hs]

end

theorem Alike.refl (v : Json ν) : Alike u v v :=
  Related.refl (fun _ => .refl) (fun _ => Iff.rfl) v

mutual

/-- **Elsewhere a credential stays**: with another value in its place it can be seen. -/
theorem exists_unclean : (v : Json ν) → ¬ FirstQueries u v →
    ∃ w, Alike u v w ∧ ¬ Clean u (redact u w).1
  | .null, h => absurd (by rw [FirstQueries]; trivial) h
  | .bool b, h => absurd (by rw [FirstQueries]; trivial) h
  | .num n, h => absurd (by rw [FirstQueries]; trivial) h
  | .str s, h => by
      rw [FirstQueries] at h
      obtain ⟨t, hst, ht⟩ := exists_leak u h
      refine ⟨.str t, .str hst, ?_⟩
      rwa [redact_str, Clean]
  | .arr items, h => by
      rw [FirstQueries] at h
      obtain ⟨ws, hs, hws⟩ := exists_unclean_items items h
      refine ⟨.arr ws, .arr hs, ?_⟩
      rwa [redact_arr, Clean]
  | .obj members, h => by
      rw [FirstQueries] at h
      obtain ⟨ws, hs, hws⟩ := exists_unclean_members members h
      refine ⟨.obj ws, .obj hs, ?_⟩
      rwa [redact_obj, Clean]

theorem exists_unclean_items : (vs : List (Json ν)) → ¬ FirstQueriesItems u vs →
    ∃ ws, RelatedItems (isCredentialKey u) (AlikeText u) (fun v w => v = .null ↔ w = .null) vs ws ∧
      ¬ CleanItems u (redactItems u ws).1
  | [], h => absurd (by rw [FirstQueriesItems]; trivial) h
  | v :: vs, h => by
      rw [FirstQueriesItems, not_and_or] at h
      rcases h with h | h
      · obtain ⟨w, hvw, hw⟩ := exists_unclean v h
        refine ⟨w :: vs, .cons hvw (RelatedItems.refl (fun _ => .refl) (fun _ => Iff.rfl) vs), ?_⟩
        rw [redactItems, CleanItems]
        exact fun hclean => hw hclean.1
      · obtain ⟨ws, hs, hws⟩ := exists_unclean_items vs h
        refine ⟨v :: ws, .cons (Alike.refl u v) hs, ?_⟩
        rw [redactItems, CleanItems]
        exact fun hclean => hws hclean.2

theorem exists_unclean_members : (vs : List (Text × Json ν)) → ¬ FirstQueriesMembers u vs →
    ∃ ws, RelatedMembers (isCredentialKey u) (AlikeText u) (fun v w => v = .null ↔ w = .null) vs ws ∧
      ¬ CleanMembers u (redactMembers u ws).1
  | [], h => absurd (by rw [FirstQueriesMembers]; trivial) h
  | (k, v) :: vs, h => by
      rw [FirstQueriesMembers, not_and_or] at h
      rcases h with h | h
      · rw [Classical.not_imp] at h
        obtain ⟨hk, h⟩ := h
        obtain ⟨w, hvw, hw⟩ := exists_unclean v h
        refine ⟨(k, w) :: vs,
          .other hk hvw (RelatedMembers.refl (fun _ => .refl) (fun _ => Iff.rfl) vs), ?_⟩
        rw [redactMembers_other u w hk, CleanMembers]
        exact fun hclean => hw hclean.1
      · obtain ⟨ws, hs, hws⟩ := exists_unclean_members vs h
        cases hk : isCredentialKey u k with
        | true =>
            refine ⟨(k, v) :: ws, .secret hk Iff.rfl hs, ?_⟩
            by_cases hv : v = .null
            · rw [hv, redactMembers_null u hk, CleanMembers]
              exact fun hclean => hws hclean.2.2
            · rw [redactMembers_secret u hk hv, CleanMembers]
              exact fun hclean => hws hclean.2.2
        | false =>
            refine ⟨(k, v) :: ws, .other hk (Alike.refl u v) hs, ?_⟩
            rw [redactMembers_other u v hk, CleanMembers]
            exact fun hclean => hws hclean.2.2

end

/-- **Redaction is complete and stable just where texts have credentials in their first query
only.** -/
theorem redacts_iff (v : Json ν) : Redacts u v ↔ FirstQueries u v := by
  constructor
  · intro h
    by_contra hfirst
    obtain ⟨w, hvw, hw⟩ := exists_unclean u v hfirst
    rw [h.alike w hvw] at hw
    exact hw h.clean
  · exact fun h => ⟨clean_redact u v h, cleaned_redact u v, fun w => redact_alike u v w h,
      redact_redact u v⟩

theorem text_of_redacts {s : Text} (h : Redacts u (.str s : Json ν)) : CleanText u (clean u s) := by
  have hclean := h.clean
  rwa [redact_str, Clean] at hclean

/-- A text with two addresses: the second keeps its token. -/
theorem second_query_kept :
    ¬ Redacts Grammar.ascii (.str "http://a?x=1 http://b?token=abc".toList : Json ℕ) := by
  intro h
  have hclean := text_of_redacts _ h
  have hkept : clean Grammar.ascii "http://a?x=1 http://b?token=abc".toList =
      "http://a?x=1 http://b".toList ++ ('?' :: ("token".toList ++ ['='])) ++
        ("abc".toList ++ []) := by decide +kernel
  have hslot : Queries.Slot false "token".toList
      ("http://a?x=1 http://b".toList ++ ('?' :: ("token".toList ++ ['=']))) :=
    .append _ (.here (.inl rfl) (by decide) (by decide))
  have hvalue := hclean.params _ "abc".toList ⟨_, [], hkept, hslot, by decide, Queries.ends_nil⟩
    (by decide +kernel)
  revert hvalue
  decide +kernel

end EchoMuse.Recorder
