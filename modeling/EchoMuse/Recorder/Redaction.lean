import EchoMuse.Queries
import EchoMuse.Recorder.Redact
import Mathlib.Logic.Relation

/-!
# What Redaction Leaves

What the recorder's redaction takes out of a JSON value and what it leaves. A text's credentials
are the whole text, when it is an authorization value or a JSON Web Token, and the values of the
query parameters whose names are credential keys; redaction reaches the parameters of the first
query only.

## Main results

* `clean_clean`: redacting a redacted text changes nothing;
* `redacts_iff`: when redaction is complete.
-/

namespace EchoMuse.Recorder

open Alerts (Json Text)
open Fields (join splitOnce trim)
open Queries

/-! ### Whole strings -/

section

variable (u : Grammar.Unicode)

theorem not_whitespace_of_ascii {c : Char} (hc : c.val < 128)
    (hne : (c = ' ' || 9 ≤ c.val && c.val ≤ 13) = false) : u.isWhitespace c = false := by
  rw [u.whitespace_ascii c hc, hne]

theorem isJwt_eq_false {s : Text} (h : '?' ∈ s) : isJwt s = false := by
  have hjoin : join '.' (s.splitOn '.') = s := List.intercalate_splitOn '.'
  rw [← hjoin] at h
  obtain hdot | ⟨p, hp, hmem⟩ := Fields.mem_join h
  · cases hdot
  · rw [isJwt, Bool.and_eq_false_iff]
    right
    rw [List.all_eq_false]
    refine ⟨p, hp, ?_⟩
    have hall : p.all isTokenChar = false := by
      rw [List.all_eq_false]
      exact ⟨'?', hmem, by decide⟩
    rw [hall, Bool.and_false]
    exact Bool.false_ne_true

theorem isPrefixOf_question {p : Text} (hp : '?' ∉ p) (x y : Text) :
    p.isPrefixOf (x ++ '?' :: y) = p.isPrefixOf x := by
  induction p generalizing x with
  | nil => cases x <;> rfl
  | cons c p ih =>
      rw [List.mem_cons, not_or] at hp
      cases x with
      | nil =>
          have hc : (c == '?') = false := beq_false_of_ne (Ne.symm hp.1)
          rw [List.nil_append, List.isPrefixOf_cons_cons, hc]
          rfl
      | cons d x => rw [List.cons_append, List.isPrefixOf_cons_cons, List.isPrefixOf_cons_cons, ih hp.2]

/-- Whether a text with a question mark is a credential is settled before it. -/
theorem isCredential_question (base q : Text) :
    isCredential u (base ++ '?' :: q) =
      ("bearer ".toList.isPrefixOf ((base.dropWhile u.isWhitespace).map Char.toLower) ||
        "basic ".toList.isPrefixOf ((base.dropWhile u.isWhitespace).map Char.toLower)) := by
  have hmark : u.isWhitespace '?' = false := not_whitespace_of_ascii u (by decide) (by decide)
  have hdrop : (trim u.isWhitespace (base ++ '?' :: q)).dropWhile u.isWhitespace =
      base.dropWhile u.isWhitespace ++ '?' :: q.rdropWhile u.isWhitespace := by
    rw [Fields.trim_append_cons hmark, List.dropWhile_append,
      List.dropWhile_cons_of_neg (by simpa using hmark), List.dropWhile_idempotent]
    split_ifs with hx
    · rw [List.isEmpty_iff.mp hx]
      rfl
    · rfl
  have hjwt : isJwt (trim u.isWhitespace (base ++ '?' :: q)) = false := by
    refine isJwt_eq_false ?_
    rw [Fields.trim_append_cons hmark]
    exact List.mem_append_right _ List.mem_cons_self
  have hlower : Char.toLower '?' = '?' := rfl
  rw [isCredential, hjwt, Bool.or_false, isAuthorizationValue, hdrop, List.map_append,
    List.map_cons, hlower, isPrefixOf_question (by decide), isPrefixOf_question (by decide)]

/-- What replaces a credential is none. -/
theorem isCredential_redacted : isCredential u redacted = false := by
  have hopen : u.isWhitespace '[' = false := not_whitespace_of_ascii u (by decide) (by decide)
  have hclose : u.isWhitespace ']' = false := not_whitespace_of_ascii u (by decide) (by decide)
  have htrim : trim u.isWhitespace redacted = redacted := by
    refine Fields.trim_eq_self (fun c hc => ?_) fun c hc => ?_
    · cases hc
      exact hopen
    · cases hc
      exact hclose
  have hcons : redacted = '[' :: "redacted]".toList := by decide
  have hdrop : redacted.dropWhile u.isWhitespace = redacted := by
    rw [hcons, List.dropWhile_cons_of_neg (by simpa using hopen)]
  rw [isCredential, htrim, isAuthorizationValue, hdrop]
  decide

/-! ### Query parameters -/

/-- A parameter of the first query with its value removed, if it is a credential. -/
def cleanParam (p : Text) : Text := (redactParam u p).1

/-- The text a string becomes. -/
def clean (s : Text) : Text := (redactStr u s).1.getD s

theorem exists_isQuery {s : Text} (h : '?' ∈ s) : ∃ base parts tail, IsQuery s base parts tail := by
  obtain ⟨base, q, rfl, hbase⟩ := Fields.exists_splitOnce h
  by_cases hq : '#' ∈ q
  · obtain ⟨q, f, rfl, hhash⟩ := Fields.exists_splitOnce hq
    exact ⟨base, q.splitOn '&', '#' :: f, isQuery_splitOn hbase hhash (.inr ⟨f, rfl⟩)⟩
  · refine ⟨base, q.splitOn '&', [], ?_⟩
    have hs := isQuery_splitOn hbase hq (.inl rfl)
    rwa [List.append_nil] at hs

theorem inner_redacted : Inner redacted := by decide

theorem clean_credential {s : Text} (h : isCredential u s = true) : clean u s = redacted := by
  rw [clean, redactStr, if_pos h]
  rfl

theorem clean_of_no_query {s : Text} (h : isCredential u s = false) (hs : '?' ∉ s) :
    clean u s = s := by
  rw [clean, redactStr, if_neg (Bool.eq_false_iff.mp h), Fields.splitOnce_eq_none_iff.mpr hs]
  rfl

/-- A parameter keeps its name, and its value unless it is a credential. -/
theorem redactParam_cases (p : Text) :
    (∃ k v, p = k ++ '=' :: v ∧ '=' ∉ k ∧ (isCredentialKey u k || isJwt v) = true ∧
        redactParam u p = (k ++ '=' :: redacted, true)) ∨
      (redactParam u p = (p, false) ∧
        ∀ k v, p = k ++ '=' :: v → '=' ∉ k → (isCredentialKey u k || isJwt v) = false) := by
  by_cases hp : '=' ∈ p
  · obtain ⟨k, v, rfl, hk⟩ := Fields.exists_splitOnce hp
    have hsplit : splitOnce '=' (k ++ '=' :: v) = some (k, v) :=
      Fields.splitOnce_eq_some_iff.mpr ⟨rfl, hk⟩
    cases hcred : isCredentialKey u k || isJwt v with
    | true =>
        refine .inl ⟨k, v, rfl, hk, hcred, ?_⟩
        rw [redactParam, hsplit]
        exact if_pos hcred
    | false =>
        refine .inr ⟨?_, fun k' v' heq hk' => ?_⟩
        · rw [redactParam, hsplit]
          exact if_neg (Bool.eq_false_iff.mp hcred)
        · obtain ⟨rfl, rfl⟩ := Fields.splitOnce_unique hk hk' heq
          exact hcred
  · refine .inr ⟨?_, fun k v heq => ?_⟩
    · rw [redactParam, Fields.splitOnce_eq_none_iff.mpr hp]
    · rw [heq] at hp
      exact absurd (List.mem_append_right _ List.mem_cons_self) hp

theorem cleanParam_of_false {p : Text} (h : (redactParam u p).2 = false) : cleanParam u p = p := by
  rw [cleanParam]
  rcases redactParam_cases u p with ⟨k, v, -, -, -, hp⟩ | ⟨hp, -⟩
  · rw [hp] at h
    cases h
  · rw [hp]

/-- **The first query is cleaned parameter by parameter.** -/
theorem clean_query {s base tail : Text} {parts : List Text} (hs : IsQuery s base parts tail)
    (hc : isCredential u s = false) :
    clean u s = base ++ '?' :: (join '&' (parts.map (cleanParam u)) ++ tail) := by
  have hquery : splitOnce '?' s = some (base, join '&' parts ++ tail) :=
    Fields.splitOnce_eq_some_iff.mpr ⟨hs.eq, hs.base⟩
  have hhash : '#' ∉ join '&' parts := by
    intro h
    obtain hamp | ⟨p, hp, hmem⟩ := Fields.mem_join h
    · cases hamp
    · exact (hs.parts p hp '#' hmem).2 rfl
  have hsplit : (join '&' parts).splitOn '&' = parts :=
    List.splitOn_intercalate '&' (fun p hp h => (hs.parts p hp '&' h).1 rfl) hs.nonempty
  have hmap : (parts.map (redactParam u)).map (·.1) = parts.map (cleanParam u) := List.map_map
  have hnone : (parts.map (redactParam u)).countP (·.2) = 0 → parts.map (cleanParam u) = parts := by
    intro hcount
    rw [List.countP_eq_zero] at hcount
    refine (List.map_congr_left fun p hp => cleanParam_of_false u ?_).trans (List.map_id parts)
    simpa using hcount _ (List.mem_map_of_mem hp)
  rw [clean, redactStr, if_neg (Bool.eq_false_iff.mp hc), hquery]
  dsimp only
  rcases hs.tail with rfl | ⟨f, rfl⟩
  · rw [List.append_nil, Fields.splitOnce_eq_none_iff.mpr hhash]
    dsimp only
    rw [hsplit, hmap]
    split_ifs with hcount
    · rw [hnone hcount, hs.eq]
      simp
    · rw [List.append_nil]
      rfl
  · rw [Fields.splitOnce_eq_some_iff.mpr ⟨rfl, hhash⟩]
    dsimp only
    rw [hsplit, hmap]
    split_ifs with hcount
    · rw [hnone hcount, hs.eq]
      rfl
    · simp

theorem inner_cleanParam {p : Text} (hp : Inner p) : Inner (cleanParam u p) := by
  rw [cleanParam]
  rcases redactParam_cases u p with ⟨k, v, rfl, -, -, heq⟩ | ⟨heq, -⟩
  · rw [heq]
    obtain ⟨hk, hv⟩ := inner_append.mp hp
    exact inner_append.mpr ⟨hk, inner_cons.mpr ⟨by decide, inner_redacted⟩⟩
  · rwa [heq]

/-- The redacted text has the same query. -/
theorem isQuery_clean {s base tail : Text} {parts : List Text} (hs : IsQuery s base parts tail)
    (hc : isCredential u s = false) :
    IsQuery (clean u s) base (parts.map (cleanParam u)) tail ∧
      isCredential u (clean u s) = false := by
  rw [clean_query u hs hc]
  constructor
  · refine hs.with _ (fun h => hs.nonempty (List.map_eq_nil_iff.mp h)) fun p hp => ?_
    obtain ⟨q, hq, rfl⟩ := List.mem_map.mp hp
    exact inner_cleanParam u (hs.parts q hq)
  · rw [hs.eq, isCredential_question] at hc
    rw [isCredential_question, hc]

theorem cleanParam_cleanParam (p : Text) : cleanParam u (cleanParam u p) = cleanParam u p := by
  rcases redactParam_cases u p with ⟨k, v, rfl, hk, -, heq⟩ | ⟨heq, -⟩
  · have hclean : cleanParam u (k ++ '=' :: v) = k ++ '=' :: redacted := by rw [cleanParam, heq]
    rw [hclean, cleanParam]
    rcases redactParam_cases u (k ++ '=' :: redacted) with ⟨k', v', hsplit, hk', -, hagain⟩ |
      ⟨hagain, -⟩
    · obtain ⟨rfl, -⟩ := Fields.splitOnce_unique hk hk' hsplit
      rw [hagain]
    · rw [hagain]
  · have hclean : cleanParam u p = p := by rw [cleanParam, heq]
    rw [hclean, hclean]

/-- **Redacting a redacted text changes nothing.** -/
theorem clean_clean (s : Text) : clean u (clean u s) = clean u s := by
  cases hc : isCredential u s with
  | true =>
      rw [clean_credential u hc]
      exact clean_of_no_query u (isCredential_redacted u) (by decide)
  | false =>
      by_cases hq : '?' ∈ s
      · obtain ⟨base, parts, tail, hs⟩ := exists_isQuery hq
        obtain ⟨hclean, hcred⟩ := isQuery_clean u hs hc
        rw [clean_query u hclean hcred, List.map_map, clean_query u hs hc]
        congr 4
        exact List.map_congr_left fun p _ => cleanParam_cleanParam u p
      · rw [clean_of_no_query u hc hq, clean_of_no_query u hc hq]

/-! ### Completeness -/

/-- No parameter of the text has a credential key as its name. -/
def NoSecret (t : Text) : Prop := ∀ n v, Param false t n v → isCredentialKey u n = false

/-- The parameter's own name is a credential key. -/
def SecretParam (p : Text) : Prop :=
  ∃ k v, p = k ++ '=' :: v ∧ '=' ∉ k ∧ isCredentialKey u k = true

/-- Every parameter with a credential key as its name is one of the first query, or stands within
one of these whose own name is a credential key. -/
def FirstOnly (s : Text) : Prop :=
  isCredential u s = true ∨ '?' ∉ s ∨
    ∃ base parts tail, IsQuery s base parts tail ∧
      (∀ p ∈ parts, SecretParam u p ∨ NoSecret u p) ∧ ∀ f, tail = '#' :: f → NoSecret u f

/-- The text holds no credential. -/
structure CleanText (t : Text) : Prop where
  whole : isCredential u t = false
  params : ∀ n v, Param false t n v → isCredentialKey u n = true → v = redacted

/-- What a name in a cleaned parameter is followed by. -/
theorem value_cleanParam {p n pre v : Text} (hp : Inner p)
    (hsecret : SecretParam u p ∨ NoSecret u p) (h : Slot true n ('&' :: pre))
    (hpre : cleanParam u p = pre ++ v) (hn : isCredentialKey u n = true) : v = redacted := by
  have hin : Inner pre := (inner_append.mp (hpre ▸ inner_cleanParam u hp)).1
  obtain ⟨k, y, rfl, hk, hy, hname⟩ := slot_name h hin
  rw [List.append_assoc, List.cons_append] at hpre
  rcases redactParam_cases u p with ⟨k', v', rfl, hk', -, heq⟩ | ⟨heq, hnot⟩
  · rw [cleanParam, heq] at hpre
    obtain ⟨rfl, hvalue⟩ := Fields.splitOnce_unique hk' hk hpre
    rcases hy with rfl | hy
    · exact hvalue.symm
    · have hmark : '?' ∈ redacted := by
        rw [hvalue]
        exact List.mem_append_left _ hy
      exact absurd hmark (by decide)
  · rw [cleanParam, heq] at hpre
    replace hpre : p = k ++ '=' :: (y ++ v) := hpre
    have hkey := hnot k (y ++ v) hpre hk
    rw [Bool.or_eq_false_iff] at hkey
    exfalso
    rcases hname with rfl | hslot
    · rw [hkey.1] at hn
      cases hn
    · rcases hsecret with ⟨k', v', rfl, hk', hsecret⟩ | hnone
      · obtain ⟨rfl, -⟩ := Fields.splitOnce_unique hk' hk hpre
        rw [hkey.1] at hsecret
        cases hsecret
      · have hv : Inner v := by
          rw [hpre] at hp
          exact (inner_append.mp (inner_cons.mp (inner_append.mp hp).2).2).2
        rw [hnone n v ⟨_, [], by rw [hpre]; simp, hslot, hv, ends_nil⟩] at hn
        cases hn

/-- **Redaction is complete where only the first query has credentials.** -/
theorem cleanText_clean {s : Text} (h : FirstOnly u s) : CleanText u (clean u s) := by
  cases hc : isCredential u s with
  | true =>
      rw [clean_credential u hc]
      refine ⟨isCredential_redacted u, fun n v ⟨pre, post, heq, hslot, _⟩ => ?_⟩
      have hmark : '?' ∈ redacted := by
        rw [heq]
        exact List.mem_append_left _ hslot.question
      exact absurd hmark (by decide)
  | false =>
      rcases h with h | h | ⟨base, parts, tail, hs, hparts, htail⟩
      · rw [hc] at h
        cases h
      · rw [clean_of_no_query u hc h]
        refine ⟨hc, fun n v ⟨pre, post, heq, hslot, _⟩ => absurd ?_ h⟩
        rw [heq]
        exact List.mem_append_left _ hslot.question
      · obtain ⟨hclean, hcred⟩ := isQuery_clean u hs hc
        refine ⟨hcred, fun n v ⟨pre, post, heq, hslot, hv, hpost⟩ hn => ?_⟩
        obtain ⟨l, r, pre', hmap, hname, -⟩ | ⟨f, pre', rfl, rfl, hname, -⟩ :=
          slot_query hclean hslot hv hpost heq
        · have hmem : pre' ++ v ∈ parts.map (cleanParam u) :=
            hmap ▸ List.mem_append_right l List.mem_cons_self
          obtain ⟨q, hq, hvalue⟩ := List.mem_map.mp hmem
          exact value_cleanParam u (hs.parts q hq) (hparts q hq) hname hvalue hn
        · rw [htail _ rfl n v ⟨pre', post, rfl, hname, hv, hpost⟩] at hn
          cases hn

/-! ### Two texts -/

/-- Another credential in a credential's place. -/
def AlikeStep (s t : Text) : Prop :=
  (isCredential u s = true ∧ isCredential u t = true) ∨
    Swap (fun n _ _ => isCredentialKey u n = true) false s t

/-- The texts differ in credentials only. -/
def AlikeText : Text → Text → Prop := Relation.ReflTransGen (AlikeStep u)

/-- A parameter whose value changes is a credential or stands within one. -/
theorem cleanParam_swap {n pre v w : Text} (h : Slot true n ('&' :: pre)) (hp : Inner (pre ++ v))
    (hsecret : SecretParam u (pre ++ v) ∨ NoSecret u (pre ++ v))
    (hn : isCredentialKey u n = true) :
    SecretParam u (pre ++ w) ∧ cleanParam u (pre ++ w) = cleanParam u (pre ++ v) := by
  obtain ⟨hin, hv⟩ := inner_append.mp hp
  obtain ⟨k, y, rfl, hk, hy, hname⟩ := slot_name h hin
  have hkey : isCredentialKey u k = true := by
    rcases hname with rfl | hslot
    · exact hn
    · rcases hsecret with ⟨k', v', heq, hk', hsecret⟩ | hnone
      · rw [List.append_assoc, List.cons_append] at heq
        obtain ⟨rfl, -⟩ := Fields.splitOnce_unique hk hk' heq
        exact hsecret
      · rw [hnone n v ⟨_, [], by simp, hslot, hv, ends_nil⟩] at hn
        cases hn
  have hclean : ∀ x, cleanParam u (k ++ '=' :: y ++ x) = k ++ '=' :: redacted := by
    intro x
    rw [List.append_assoc, List.cons_append, cleanParam]
    rcases redactParam_cases u (k ++ '=' :: (y ++ x)) with ⟨k', v', heq, hk', -, hparam⟩ |
      ⟨-, hnot⟩
    · obtain ⟨rfl, -⟩ := Fields.splitOnce_unique hk hk' heq
      rw [hparam]
    · have hfalse := hnot k (y ++ x) rfl hk
      rw [hkey] at hfalse
      cases hfalse
  refine ⟨⟨k, y ++ w, by simp, hk, hkey⟩, ?_⟩
  rw [hclean, hclean]

/-- A value does not settle whether the whole text is a credential. -/
theorem isCredential_append {n pre : Text} (h : Slot false n pre) (x y : Text) :
    isCredential u (pre ++ x) = isCredential u (pre ++ y) := by
  obtain ⟨a, b, rfl⟩ := List.append_of_mem h.question
  rw [List.append_assoc, List.append_assoc, List.cons_append, List.cons_append,
    isCredential_question, isCredential_question]

/-- **A credential's value does not matter where only the first query has credentials.** -/
theorem clean_step {s t : Text} (hs : FirstOnly u s) (h : AlikeStep u s t) :
    clean u t = clean u s ∧ FirstOnly u t := by
  rcases h with ⟨hcs, hct⟩ | ⟨n, pre, v, w, post, rfl, rfl, hslot, hv, hw, hpost, hn⟩
  · rw [clean_credential u hcs, clean_credential u hct]
    exact ⟨rfl, .inl hct⟩
  · have hcred := isCredential_append u hslot (w ++ post) (v ++ post)
    cases hc : isCredential u (pre ++ (v ++ post)) with
    | true =>
        rw [hc] at hcred
        rw [clean_credential u hc, clean_credential u hcred]
        exact ⟨rfl, .inl hcred⟩
    | false =>
        rw [hc] at hcred
        rcases hs with h | h | ⟨base, parts, tail, hs, hparts, htail⟩
        · rw [hc] at h
          cases h
        · exact absurd (List.mem_append_left _ hslot.question) h
        · obtain ⟨l, r, pre', rfl, hname, hswap⟩ | ⟨f, pre', rfl, rfl, hname, -⟩ :=
            slot_query hs hslot hv hpost rfl
          · have hmem : pre' ++ v ∈ l ++ (pre' ++ v) :: r :=
              List.mem_append_right l List.mem_cons_self
            have hin := hs.parts _ hmem
            obtain ⟨hsecret, hsame⟩ := cleanParam_swap u (w := w) hname hin (hparts _ hmem) hn
            have ht : IsQuery (pre ++ (w ++ post)) base (l ++ (pre' ++ w) :: r) tail := by
              rw [hswap w]
              refine hs.with _ (by simp) (List.forall_mem_append.mpr ⟨fun q hq => ?_, ?_⟩)
              · exact hs.parts q (List.mem_append_left _ hq)
              · refine List.forall_mem_cons.mpr ⟨?_, fun q hq => ?_⟩
                · exact inner_append.mpr ⟨(inner_append.mp hin).1, hw⟩
                · exact hs.parts q (List.mem_append_right l (List.mem_cons_of_mem _ hq))
            refine ⟨?_, .inr (.inr ⟨base, _, tail, ht, ?_, htail⟩)⟩
            · rw [clean_query u ht hcred, clean_query u hs hc, List.map_append, List.map_append,
                List.map_cons, List.map_cons, hsame]
            · refine List.forall_mem_append.mpr ⟨fun q hq => ?_, ?_⟩
              · exact hparts q (List.mem_append_left _ hq)
              · refine List.forall_mem_cons.mpr ⟨.inl hsecret, fun q hq => ?_⟩
                exact hparts q (List.mem_append_right l (List.mem_cons_of_mem _ hq))
          · rw [htail _ rfl n v ⟨pre', post, rfl, hname, hv, hpost⟩] at hn
            cases hn

theorem clean_alike {s t : Text} (hs : FirstOnly u s) (h : AlikeText u s t) :
    clean u t = clean u s := by
  suffices hboth : clean u t = clean u s ∧ FirstOnly u t from hboth.1
  induction h with
  | refl => exact ⟨rfl, hs⟩
  | tail _ hstep ih =>
      obtain ⟨heq, hfirst⟩ := clean_step u ih.2 hstep
      exact ⟨heq.trans ih.1, hfirst⟩

/-- Within a parameter with another name of its own a value is kept. -/
theorem cleanParam_of_own {n pre v : Text} (h : Slot true n ('&' :: pre)) (hpre : Inner pre)
    (hown : ¬ SecretParam u (pre ++ v)) : cleanParam u (pre ++ ['x']) = pre ++ ['x'] := by
  obtain ⟨k, y, rfl, hk, hy, -⟩ := slot_name h hpre
  rw [List.append_assoc, List.cons_append] at hown ⊢
  rw [cleanParam]
  rcases redactParam_cases u (k ++ '=' :: (y ++ ['x'])) with ⟨k', v', heq, hk', hcred, -⟩ | ⟨hsame, -⟩
  · obtain ⟨rfl, rfl⟩ := Fields.splitOnce_unique hk hk' heq
    exfalso
    rw [Bool.or_eq_true] at hcred
    rcases hcred with hkey | hjwt
    · exact hown ⟨k, _, rfl, hk, hkey⟩
    · rcases hy with rfl | hy
      · revert hjwt
        decide
      · rw [isJwt_eq_false (List.mem_append_left _ hy)] at hjwt
        cases hjwt
  · rw [hsame]

/-- A text in which another value is kept in a credential's place. -/
theorem leak_of_swap (pre pre' v : Text) {s n post post' : Text} (hslot : Slot false n pre)
    (hslot' : Slot false n pre') (hv : Inner v) (hpost : Ends post) (hpost' : Ends post')
    (hn : isCredentialKey u n = true) (hs : s = pre ++ (v ++ post))
    (ht : clean u (pre ++ (['x'] ++ post)) = pre' ++ (['x'] ++ post')) :
    ∃ t, AlikeText u s t ∧ ¬ CleanText u (clean u t) := by
  have hx : Inner ['x'] ∧ ['x'] ≠ redacted := by decide
  refine ⟨pre ++ (['x'] ++ post), .single (.inr ?_), fun hclean => hx.2 ?_⟩
  · exact ⟨n, pre, v, ['x'], post, hs, rfl, hslot, hv, hx.1, hpost, hn⟩
  · exact hclean.params n ['x'] ⟨pre', post', ht, hslot', hx.1, hpost'⟩ hn

/-- **Elsewhere a credential stays**: with another value in its place it can be seen. -/
theorem exists_leak {s : Text} (h : ¬ FirstOnly u s) :
    ∃ t, AlikeText u s t ∧ ¬ CleanText u (clean u t) := by
  rw [FirstOnly, not_or, not_or, not_not, Bool.not_eq_true] at h
  obtain ⟨hc, hq, hnone⟩ := h
  obtain ⟨base, parts, tail, hs⟩ := exists_isQuery hq
  by_cases hparts : ∀ p ∈ parts, SecretParam u p ∨ NoSecret u p
  · have hfragment : ¬ ∀ f, tail = '#' :: f → NoSecret u f := fun hf =>
      hnone ⟨base, parts, tail, hs, hparts, hf⟩
    simp only [NoSecret, not_forall, Bool.not_eq_false] at hfragment
    obtain ⟨f, rfl, n, v, ⟨pre, post, rfl, hslot, hv, hpost⟩, hn⟩ := hfragment
    have ht : IsQuery (base ++ '?' :: (join '&' parts ++ '#' :: (pre ++ (['x'] ++ post)))) base parts
        ('#' :: (pre ++ (['x'] ++ post))) := ⟨rfl, hs.base, hs.nonempty, hs.parts, .inr ⟨_, rfl⟩⟩
    refine leak_of_swap u ((base ++ '?' :: join '&' parts) ++ '#' :: pre)
      ((base ++ '?' :: join '&' (parts.map (cleanParam u))) ++ '#' :: pre) v
      (param_of_fragment _ hslot) (param_of_fragment _ hslot) hv hpost hpost hn ?_ ?_
    · rw [hs.eq]
      simp
    · have hct : isCredential u (base ++ '?' :: (join '&' parts ++ '#' :: (pre ++ (['x'] ++ post)))) =
          false := by
        rw [isCredential_question, ← isCredential_question u base, ← hs.eq, hc]
      have hclean := clean_query u ht hct
      simpa using hclean
  · simp only [not_forall, not_or, NoSecret, Bool.not_eq_false] at hparts
    obtain ⟨p, hp, hown, n, v, ⟨pre, post, rfl, hslot, hv, hpost⟩, hn⟩ := hparts
    obtain ⟨hpre, hvpost⟩ := inner_append.mp (hs.parts _ hp)
    obtain rfl := hpost.eq_nil (inner_append.mp hvpost).2
    rw [List.append_nil] at hown hp
    obtain ⟨l, r, rfl⟩ := List.append_of_mem hp
    have hname : Slot true n ('&' :: pre) := .later hslot.open
    have hx : Inner (pre ++ ['x']) := inner_append.mpr ⟨hpre, by decide⟩
    have hinner : ∀ q ∈ l ++ (pre ++ ['x']) :: r, Inner q := by
      refine List.forall_mem_append.mpr ⟨fun q hq => ?_, List.forall_mem_cons.mpr ⟨hx, fun q hq => ?_⟩⟩
      · exact hs.parts q (List.mem_append_left _ hq)
      · exact hs.parts q (List.mem_append_right l (List.mem_cons_of_mem _ hq))
    have ht := hs.with _ (by simp) hinner
    have hct : isCredential u (base ++ '?' :: (join '&' (l ++ (pre ++ ['x']) :: r) ++ tail)) =
        false := by
      rw [isCredential_question, ← isCredential_question u base, ← hs.eq, hc]
    have hclean := clean_query u ht hct
    rw [List.map_append, List.map_cons, cleanParam_of_own u hname hpre hown] at hclean
    obtain ⟨pre', post', hslot', hpost', hswap⟩ := param_of_part hs hname
    have hs' := isQuery_clean u ht hct
    rw [List.map_append, List.map_cons, cleanParam_of_own u hname hpre hown] at hs'
    obtain ⟨pre'', post'', hslot'', hpost'', hswap'⟩ := param_of_part hs'.1 hname
    rw [hswap'] at hclean
    refine leak_of_swap u _ _ _ hslot' hslot'' hv hpost' hpost'' hn (hs.eq.trans (hswap v)) ?_
    rw [← hswap, hclean]

/-! ### What is kept -/

/-- A credential's place is filled. -/
def Fills (n v w : Text) : Prop := (isCredentialKey u n = true ∨ isJwt v = true) ∧ w = redacted

/-- The text is a credential and replaced, or has values of query parameters replaced. -/
def CleanedText (s t : Text) : Prop :=
  (isCredential u s = true ∧ t = redacted) ∨
    (isCredential u s = false ∧ Relation.ReflTransGen (Swap (Fills u) false) s t)

theorem fill_param {s base tail p : Text} {l r : List Text}
    (hs : IsQuery s base (l ++ p :: r) tail) :
    Relation.ReflTransGen (Swap (Fills u) false) s
      (base ++ '?' :: (join '&' (l ++ cleanParam u p :: r) ++ tail)) := by
  rw [cleanParam]
  rcases redactParam_cases u p with ⟨k, v, rfl, hk, hcred, heq⟩ | ⟨heq, -⟩
  · obtain ⟨hkin, hv⟩ := inner_append.mp (hs.parts _ (List.mem_append_right l List.mem_cons_self))
    have hname : Slot true k ('&' :: (k ++ ['='])) := .here (.inr ⟨rfl, rfl⟩) hkin hk
    have hparts : ∀ x : Text, k ++ '=' :: x = k ++ ['='] ++ x := fun x => by simp
    rw [hparts] at hs
    obtain ⟨pre, post, hslot, hpost, hswap⟩ := param_of_part hs hname
    rw [heq]
    refine .single ⟨k, pre, v, redacted, post, hs.eq.trans (hswap v), ?_, hslot,
      (inner_cons.mp hv).2, inner_redacted, hpost, ?_, rfl⟩
    · rw [hparts, hswap]
    · rwa [Bool.or_eq_true] at hcred
  · rw [heq]
    exact hs.eq ▸ .refl

theorem fill_params {s base tail : Text} (l r : List Text) (hs : IsQuery s base (l ++ r) tail) :
    Relation.ReflTransGen (Swap (Fills u) false) s
      (base ++ '?' :: (join '&' (l ++ r.map (cleanParam u)) ++ tail)) := by
  induction r generalizing s l with
  | nil =>
      rw [List.map_nil, ← hs.eq]
  | cons p r ih =>
      have hmem : p ∈ l ++ p :: r := List.mem_append_right l List.mem_cons_self
      have hnext := hs.with (l ++ [cleanParam u p] ++ r) (by simp) fun q hq => by
        simp only [List.mem_append, List.mem_singleton] at hq
        rcases hq with (hq | rfl) | hq
        · exact hs.parts q (List.mem_append_left _ hq)
        · exact inner_cleanParam u (hs.parts p hmem)
        · exact hs.parts q (List.mem_append_right l (List.mem_cons_of_mem _ hq))
      have hrest := ih (l ++ [cleanParam u p]) hnext
      rw [List.append_assoc, List.singleton_append, List.append_assoc, List.singleton_append] at hrest
      exact (fill_param u hs).trans hrest

/-- **Everything else in a text is kept.** -/
theorem cleanedText_clean (s : Text) : CleanedText u s (clean u s) := by
  cases hc : isCredential u s with
  | true => exact .inl ⟨hc, clean_credential u hc⟩
  | false =>
      refine .inr ⟨hc, ?_⟩
      by_cases hq : '?' ∈ s
      · obtain ⟨base, parts, tail, hs⟩ := exists_isQuery hq
        rw [clean_query u hs hc]
        exact fill_params u [] parts hs
      · rw [clean_of_no_query u hc hq]

end

end EchoMuse.Recorder
