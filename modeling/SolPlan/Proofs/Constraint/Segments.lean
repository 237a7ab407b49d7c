import Mathlib.Data.List.Basic
import SolPlan.Constraint.Token

/-!
# Constraints are cut into longest tokens

The tokens that can be written are the operators, `||`, and versions: a run of digits and then any
number of parts, each a `.` and either a run of digits or one wildcard (`Token.IsWritten`). A text
is cut into tokens (`Segments`) by passing over spaces and by taking, where no space stands, the
longest token that is written there (`Token.IsLongest`).

Results:
* `scan?_eq_some_iff`: the scanner takes the longest token;
* **`tokenize_eq_ok_iff`**: the tokens of a text are those into which it can be cut.
-/

namespace SolPlan

/-- A run of digits, at least one. -/
def IsDigits (t : Text) : Prop := t ≠ [] ∧ ∀ c ∈ t, c.isDigit = true

/-- A part behind a `.`: a run of digits or a wildcard. -/
def IsPart (t : Text) : Prop := IsDigits t ∨ ∃ c, t = [c] ∧ Token.isWildcard c = true

/-- A version as a token: digits, then parts. -/
def IsVersionToken (t : Text) : Prop :=
  ∃ number parts, IsDigits number ∧ (∀ p ∈ parts, IsPart p) ∧ t = Text.join '.' (number :: parts)

namespace Token

/-- Can the token be written? All can but versions of other texts. -/
def IsWritten : Token → Prop
  | .version t => IsVersionToken t
  | .operator _ => True
  | .or => True

/-- The token stands at the front of the text, and no longer one does. -/
structure IsLongest (token : Token) (t : Text) : Prop where
  written : token.IsWritten
  front : token.text <+: t
  longest : ∀ other : Token, other.IsWritten → other.text <+: t →
    other.text.length ≤ token.text.length

end Token

/-- The text is cut into tokens and a rest. -/
inductive Segments : Text → List Token → Text → Prop
  | done {rest : Text} : Segments rest [] rest
  | space {c : Char} {t rest : Text} {tokens : List Token} : Token.isSpace c = true →
      Segments t tokens rest → Segments (c :: t) tokens rest
  | token {token : Token} {t rest : Text} {tokens : List Token} :
      token.IsLongest (token.text ++ t) → Segments t tokens rest →
      Segments (token.text ++ t) (token :: tokens) rest

/-! ## Versions -/

/-- The parts behind the first number, each with its `.`. -/
def dotted (parts : List Text) : Text := parts.flatMap ('.' :: ·)

theorem join_dot (number : Text) (parts : List Text) :
    Text.join '.' (number :: parts) = number ++ dotted parts := by
  induction parts generalizing number with
  | nil => simp [Text.join, dotted]
  | cons p parts ih =>
    rw [Text.join, List.intercalate_cons_cons, ← Text.join, ih]
    simp [dotted]

theorem dotted_cons (p : Text) (parts : List Text) :
    dotted (p :: parts) = '.' :: (p ++ dotted parts) := by
  simp [dotted]

theorem dotted_eq_nil_or (parts : List Text) :
    dotted parts = [] ∨ ∃ more, dotted parts = '.' :: more := by
  cases parts with
  | nil => exact .inl rfl
  | cons p parts => exact .inr ⟨_, rfl⟩

theorem digits_cons {c : Char} (hc : c.isDigit = true) (t : Text) :
    Token.digits (c :: t) = c :: Token.digits t := by
  simp [Token.digits, hc]

theorem afterDigits_cons {c : Char} (hc : c.isDigit = true) (t : Text) :
    Token.afterDigits (c :: t) = Token.afterDigits t := by
  simp [Token.afterDigits, hc]

/-- Behind a run of digits there may be a `.`, so a run that goes on is not followed by one. -/
theorem run_of_prefix {number more t : Text} (hdigits : ∀ c ∈ number, c.isDigit = true)
    (hmore : more = [] ∨ ∃ behind, more = '.' :: behind) (h : number ++ more <+: t) :
    number.length ≤ (Token.digits t).length ∧
      (more = [] ∨ number = Token.digits t ∧ more <+: Token.afterDigits t) := by
  obtain ⟨behind, rfl⟩ := h
  unfold Token.digits Token.afterDigits
  rw [List.append_assoc, List.takeWhile_append_of_pos hdigits, List.dropWhile_append_of_pos hdigits]
  refine ⟨by simp, ?_⟩
  rcases hmore with rfl | ⟨more, rfl⟩
  · exact .inl rfl
  · have hdot : Char.isDigit '.' = false := by decide
    simp [hdot]

theorem isDigits_digits {c : Char} (hc : c.isDigit = true) (t : Text) :
    IsDigits (c :: Token.digits t) := by
  refine ⟨by simp, List.forall_mem_cons.mpr ⟨hc, fun d hd => ?_⟩⟩
  exact (List.all_eq_true.mp List.all_takeWhile) d hd

/-- The parts that are taken. -/
theorem exists_parts (t : Text) :
    ∃ parts, (∀ p ∈ parts, IsPart p) ∧ (Token.scanParts t).1 = dotted parts := by
  fun_induction Token.scanParts t with
  | case1 c rest hc taken after h ih =>
    obtain ⟨parts, hparts, htaken⟩ := ih
    refine ⟨(c :: Token.digits rest) :: parts,
      List.forall_mem_cons.mpr ⟨.inl (isDigits_digits hc rest), hparts⟩, ?_⟩
    rw [h] at htaken
    simp only at htaken
    simp [dotted, htaken]
  | case2 c rest hc hw taken after h ih =>
    obtain ⟨parts, hparts, htaken⟩ := ih
    refine ⟨[c] :: parts, List.forall_mem_cons.mpr ⟨.inr ⟨c, rfl, hw⟩, hparts⟩, ?_⟩
    rw [h] at htaken
    simp only at htaken
    simp [dotted, htaken]
  | case3 => exact ⟨[], by simp, rfl⟩
  | case4 => exact ⟨[], by simp, rfl⟩

theorem IsPart.exists_cons {p : Text} (h : IsPart p) :
    ∃ c more, p = c :: more ∧ (c.isDigit = true ∨ Token.isWildcard c = true) := by
  rcases h with ⟨hne, hdigits⟩ | ⟨c, rfl, hc⟩
  · obtain ⟨c, more, rfl⟩ := List.exists_cons_of_ne_nil hne
    exact ⟨c, more, rfl, .inl (hdigits c List.mem_cons_self)⟩
  · exact ⟨c, [], rfl, .inr hc⟩

theorem not_isDigit_of_isWildcard {c : Char} (h : Token.isWildcard c = true) :
    c.isDigit = false := by
  unfold Token.isWildcard at h
  simp only [List.mem_cons, List.not_mem_nil, or_false, decide_eq_true_eq] at h
  rcases h with rfl | rfl | rfl <;> decide

/-- No more parts can be taken. -/
theorem length_dotted_le {parts : List Text} {t : Text} (hall : ∀ p ∈ parts, IsPart p)
    (h : dotted parts <+: t) : (dotted parts).length ≤ (Token.scanParts t).1.length := by
  fun_induction Token.scanParts t generalizing parts with
  | case1 c rest hc taken after hscan ih =>
    cases parts with
    | nil => simp [dotted]
    | cons p parts =>
      obtain ⟨hp, hparts⟩ := List.forall_mem_cons.mp hall
      rw [dotted_cons] at h ⊢
      have hfront : p ++ dotted parts <+: c :: rest := (List.cons_prefix_cons.mp h).2
      rw [hscan] at ih
      rcases hp with ⟨-, hdigits⟩ | ⟨d, rfl, hd⟩
      · obtain ⟨hlength, hmore⟩ := run_of_prefix hdigits (dotted_eq_nil_or parts) hfront
        rw [digits_cons hc, List.length_cons] at hlength
        rcases hmore with hnil | ⟨hrun, hmore⟩
        · simp [hnil]
          omega
        · rw [afterDigits_cons hc] at hmore
          have htaken := ih hparts hmore
          simp only [List.cons_append, List.length_cons, List.length_append] at htaken ⊢
          omega
      · -- a wildcard is no digit
        obtain rfl := (List.cons_prefix_cons.mp hfront).1
        rw [not_isDigit_of_isWildcard hd] at hc
        cases hc
  | case2 c rest hc hw taken after hscan ih =>
    cases parts with
    | nil => simp [dotted]
    | cons p parts =>
      obtain ⟨hp, hparts⟩ := List.forall_mem_cons.mp hall
      rw [dotted_cons] at h ⊢
      have hfront : p ++ dotted parts <+: c :: rest := (List.cons_prefix_cons.mp h).2
      rw [hscan] at ih
      rcases hp with hdigits | ⟨d, rfl, hd⟩
      · obtain ⟨d, more, rfl⟩ := List.exists_cons_of_ne_nil hdigits.1
        obtain rfl := (List.cons_prefix_cons.mp hfront).1
        exact absurd (hdigits.2 d List.mem_cons_self) hc
      · have htaken := ih hparts (List.cons_prefix_cons.mp hfront).2
        simp only [List.cons_append, List.nil_append, List.length_cons] at htaken ⊢
        omega
  | case3 c rest hc hw =>
    cases parts with
    | nil => simp [dotted]
    | cons p parts =>
      obtain ⟨d, more, rfl, hd⟩ := (hall p List.mem_cons_self).exists_cons
      rw [dotted_cons, List.cons_append] at h
      obtain rfl := (List.cons_prefix_cons.mp (List.cons_prefix_cons.mp h).2).1
      exact absurd hd (by simp [hc, hw])
  | case4 t hother =>
    cases parts with
    | nil => simp [dotted]
    | cons p parts =>
      obtain ⟨d, more, rfl, -⟩ := (hall p List.mem_cons_self).exists_cons
      rw [dotted_cons] at h
      obtain ⟨behind, rfl⟩ := h
      exact absurd rfl (hother d (more ++ dotted parts ++ behind))

/-! ## The scanner -/

namespace Token

theorem isWritten_scanVersion? {t rest : Text} {token : Token}
    (h : scanVersion? t = some (token, rest)) : token.IsWritten := by
  unfold scanVersion? at h
  split at h
  · cases h
  · rename_i c t
    split at h
    · rename_i hc
      cases h
      obtain ⟨parts, hparts, htaken⟩ := exists_parts (afterDigits t)
      refine ⟨c :: digits t, parts, isDigits_digits hc t, hparts, ?_⟩
      rw [join_dot, htaken]
    · cases h

/-- A version at the front is not longer than the one that is taken. -/
theorem length_le_scanVersion? {t v : Text} (hv : IsVersionToken v) (h : v <+: t) :
    ∃ token rest, scanVersion? t = some (token, rest) ∧ v.length ≤ token.text.length := by
  obtain ⟨number, parts, ⟨hne, hdigits⟩, hparts, rfl⟩ := hv
  rw [join_dot] at h ⊢
  obtain ⟨c, number, rfl⟩ := List.exists_cons_of_ne_nil hne
  have hc := hdigits c List.mem_cons_self
  cases t with
  | nil => simp at h
  | cons d t =>
    obtain rfl := (List.cons_prefix_cons.mp h).1
    refine ⟨_, _, by rw [scanVersion?, if_pos hc], ?_⟩
    obtain ⟨hlength, hmore⟩ := run_of_prefix hdigits (dotted_eq_nil_or parts) h
    rw [digits_cons hc] at hlength hmore
    simp only [text, List.length_append]
    rcases hmore with hnil | ⟨-, hmore⟩
    · rw [hnil, List.length_nil]
      omega
    · rw [afterDigits_cons hc] at hmore
      have htaken := length_dotted_le hparts hmore
      omega

/-- A token is one of fixed spelling or a version. -/
theorem mem_marks_or (token : Token) : token ∈ marks ∨ ∃ t, token = .version t := by
  cases token with
  | operator op => exact .inl (by cases op <;> decide)
  | or => exact .inl (by decide)
  | version t => exact .inr ⟨t, rfl⟩

theorem isWritten_of_mem_marks {token : Token} (h : token ∈ marks) : token.IsWritten := by
  cases token with
  | operator op => exact trivial
  | or => exact trivial
  | version t => simp [marks] at h

/-- A token of fixed spelling begins with a character that is neither a digit nor a space. -/
theorem head_of_mem_marks {token : Token} (h : token ∈ marks) :
    ∃ c more, token.text = c :: more ∧ c.isDigit = false ∧ isSpace c = false := by
  cases token with
  | operator op => cases op <;> exact ⟨_, _, rfl, rfl, rfl⟩
  | or => exact ⟨_, _, rfl, rfl, rfl⟩
  | version t => simp [marks] at h

theorem head_of_isVersionToken {v : Text} (h : IsVersionToken v) :
    ∃ c more, v = c :: more ∧ c.isDigit = true := by
  obtain ⟨number, parts, ⟨hne, hdigits⟩, -, rfl⟩ := h
  obtain ⟨c, number, rfl⟩ := List.exists_cons_of_ne_nil hne
  exact ⟨c, number ++ dotted parts, join_dot _ _, hdigits c List.mem_cons_self⟩

theorem not_isSpace_of_isDigit {c : Char} (h : c.isDigit = true) : isSpace c = false := by
  cases hspace : isSpace c with
  | false => rfl
  | true =>
    unfold isSpace at hspace
    simp only [List.mem_cons, List.not_mem_nil, or_false, decide_eq_true_eq] at hspace
    rcases hspace with rfl | rfl | rfl | rfl | rfl <;> exact absurd h (by decide)

/-- A token is known by its text. -/
theorem IsWritten.eq_of_text {a b : Token} (ha : a.IsWritten) (hb : b.IsWritten)
    (h : a.text = b.text) : a = b := by
  have hmarks : ∀ a ∈ marks, ∀ b ∈ marks, a.text = b.text → a = b := by decide
  have hapart : ∀ {m : Token} {v : Text}, m ∈ marks → IsVersionToken v → m.text ≠ v := by
    intro m v hm hv heq
    obtain ⟨c, more, htext, hc, -⟩ := head_of_mem_marks hm
    obtain ⟨d, behind, rfl, hd⟩ := head_of_isVersionToken hv
    rw [htext, List.cons.injEq] at heq
    rw [heq.1, hd] at hc
    cases hc
  rcases mem_marks_or a with hma | ⟨v, rfl⟩ <;> rcases mem_marks_or b with hmb | ⟨w, rfl⟩
  · exact hmarks a hma b hmb h
  · exact absurd h (hapart hma hb)
  · exact absurd h.symm (hapart hmb ha)
  · exact congrArg _ h

/-- There is one longest token. -/
theorem IsLongest.unique {a b : Token} {t : Text} (ha : a.IsLongest t) (hb : b.IsLongest t) :
    a = b := by
  have hlength : a.text.length = b.text.length :=
    Nat.le_antisymm (hb.longest a ha.written ha.front) (ha.longest b hb.written hb.front)
  have hsame := List.prefix_of_prefix_length_le ha.front hb.front (Nat.le_of_eq hlength)
  exact ha.written.eq_of_text hb.written (hsame.eq_of_length hlength)

/-- The first of the tokens of fixed spelling that stands at the front is the longest one. -/
theorem isLongest_of_marks {t rest : Text} {token : Token}
    (h : (marks.findSome? fun mark => (Text.after? mark.text t).map (mark, ·)) =
      some (token, rest)) : token.IsLongest t := by
  obtain ⟨before, mark, behind, hmarks, hmark, hbefore⟩ := List.findSome?_eq_some_iff.mp h
  obtain ⟨after, hafter, heq⟩ := Option.map_eq_some_iff.mp hmark
  cases heq
  have hmem : token ∈ marks := by rw [hmarks]; simp
  have hfront : token.text <+: t := ⟨rest, (Text.after?_eq_some_iff.mp hafter).symm⟩
  refine ⟨isWritten_of_mem_marks hmem, hfront, fun other hother hotherFront => ?_⟩
  rcases mem_marks_or other with hmo | ⟨v, rfl⟩
  · have hsorted : marks.Pairwise fun a b => b.text.length ≤ a.text.length := by decide
    rw [hmarks, List.mem_append, List.mem_cons] at hmo
    rcases hmo with hmo | rfl | hmo
    · obtain ⟨more, rfl⟩ := hotherFront
      have hnone := hbefore other hmo
      rw [Text.after?_eq_some_iff.mpr rfl] at hnone
      cases hnone
    · exact Nat.le_refl _
    · rw [hmarks, List.pairwise_append, List.pairwise_cons] at hsorted
      exact hsorted.2.1.1 other hmo
  · obtain ⟨c, more, htext, hc, -⟩ := head_of_mem_marks hmem
    obtain ⟨d, behind', rfl, hd⟩ := head_of_isVersionToken hother
    obtain ⟨behind'', rfl⟩ := hfront
    rw [htext] at hotherFront
    rw [(List.cons_prefix_cons.mp hotherFront).1, hc] at hd
    cases hd

/-- Where a token stands, the scanner takes one. -/
theorem isSome_scan? {t : Text} {token : Token} (h : token.IsWritten) (hfront : token.text <+: t) :
    (scan? t).isSome = true := by
  rw [scan?, Option.isSome_or, Bool.or_eq_true]
  rcases mem_marks_or token with hmark | ⟨v, rfl⟩
  · refine .inl (List.findSome?_isSome_iff.mpr ⟨token, hmark, ?_⟩)
    rw [Option.isSome_map]
    exact Text.after?_isSome_iff.mpr hfront
  · obtain ⟨_, _, hversion, -⟩ := length_le_scanVersion? h hfront
    rw [hversion]
    exact .inr rfl

/-- **The scanner takes the longest token.** -/
theorem scan?_eq_some_iff {t rest : Text} {token : Token} :
    scan? t = some (token, rest) ↔ t = token.text ++ rest ∧ token.IsLongest t := by
  have hsound : ∀ {token rest}, scan? t = some (token, rest) → token.IsLongest t := by
    intro token rest h
    have hfront : token.text <+: t := ⟨rest, (scan?_eq_some h).1.symm⟩
    rw [scan?, Option.or_eq_some_iff] at h
    rcases h with h | ⟨hnone, h⟩
    · exact isLongest_of_marks h
    · refine ⟨isWritten_scanVersion? h, hfront, fun other hother hotherFront => ?_⟩
      rcases mem_marks_or other with hmo | ⟨v, rfl⟩
      · obtain ⟨more, rfl⟩ := hotherFront
        have hmark := List.findSome?_eq_none_iff.mp hnone other hmo
        rw [Text.after?_eq_some_iff.mpr rfl] at hmark
        cases hmark
      · obtain ⟨token', rest', h', hlength⟩ := length_le_scanVersion? hother hotherFront
        cases h.symm.trans h'
        exact hlength
  constructor
  · intro h
    exact ⟨(scan?_eq_some h).1, hsound h⟩
  · rintro ⟨heq, hlongest⟩
    obtain ⟨⟨token', rest'⟩, h⟩ :=
      Option.isSome_iff_exists.mp (isSome_scan? hlongest.written hlongest.front)
    obtain rfl := (hsound h).unique hlongest
    rw [h, Option.some.injEq, Prod.mk.injEq]
    exact ⟨rfl, List.append_cancel_left ((scan?_eq_some h).1.symm.trans heq)⟩

/-- The scanner takes nothing where no token stands. -/
theorem scan?_eq_none_iff {t : Text} :
    scan? t = none ↔ ∀ token : Token, token.IsWritten → ¬ token.text <+: t := by
  constructor
  · intro h token hwritten hfront
    have hsome := isSome_scan? hwritten hfront
    rw [h] at hsome
    cases hsome
  · intro h
    rw [Option.eq_none_iff_forall_ne_some]
    rintro ⟨token, rest⟩ hscan
    obtain ⟨-, hlongest⟩ := scan?_eq_some_iff.mp hscan
    exact h token hlongest.written hlongest.front

/-- No token begins with a space. -/
theorem IsWritten.exists_cons {token : Token} (h : token.IsWritten) :
    ∃ c more, token.text = c :: more ∧ isSpace c = false := by
  rcases mem_marks_or token with hmark | ⟨v, rfl⟩
  · obtain ⟨c, more, htext, -, hc⟩ := head_of_mem_marks hmark
    exact ⟨c, more, htext, hc⟩
  · obtain ⟨c, more, rfl, hc⟩ := head_of_isVersionToken h
    exact ⟨c, more, rfl, not_isSpace_of_isDigit hc⟩

end Token

/-! ## Tokens one after the other -/

theorem tokenizeFrom_space {c : Char} (hc : Token.isSpace c = true) (offset : Nat) (t : Text) :
    tokenizeFrom offset (c :: t) = tokenizeFrom (offset + c.utf8Size) t := by
  rw [tokenizeFrom, if_pos hc]

theorem tokenizeFrom_token {token : Token} {t : Text} (h : token.IsLongest (token.text ++ t))
    (offset : Nat) : tokenizeFrom offset (token.text ++ t) =
      (tokenizeFrom (offset + token.text.size) t).map (token :: ·) := by
  obtain ⟨c, more, htext, hc⟩ := h.written.exists_cons
  have hscan : Token.scan? (c :: (more ++ t)) = some (token, t) := by
    rw [← List.cons_append, ← htext]
    exact Token.scan?_eq_some_iff.mpr ⟨rfl, h⟩
  conv_lhs => rw [htext, List.cons_append]
  rw [tokenizeFrom, if_neg (by simp [hc])]
  split <;> rename_i heq <;> rw [hscan] at heq <;> cases heq
  rfl

theorem tokenizeFrom_of_segments {t rest : Text} {tokens : List Token}
    (h : Segments t tokens rest) (hrest : rest = []) (offset : Nat) :
    tokenizeFrom offset t = .ok tokens := by
  induction h generalizing offset with
  | done =>
    rw [hrest, tokenizeFrom]
  | space hc _ ih => rw [tokenizeFrom_space hc, ih hrest]
  | token hlongest _ ih =>
    rw [tokenizeFrom_token hlongest, ih hrest]
    rfl

theorem segments_of_tokenizeFrom {t : Text} {tokens : List Token} {offset : Nat}
    (h : tokenizeFrom offset t = .ok tokens) : Segments t tokens [] := by
  fun_induction tokenizeFrom offset t generalizing tokens with
  | case1 =>
    cases h
    exact .done
  | case2 offset c rest hc ih => exact .space hc (ih h)
  | case3 offset c rest hc hnone => cases h
  | case4 offset c rest hc token after hscan ih =>
    obtain ⟨heq, hlongest⟩ := Token.scan?_eq_some_iff.mp hscan
    cases hafter : tokenizeFrom (offset + token.text.size) after with
    | error o =>
      rw [hafter] at h
      cases h
    | ok more =>
      rw [hafter] at h
      cases h
      rw [heq] at hlongest ⊢
      exact .token hlongest (ih hafter)

/-- **The tokens of a text** are those into which it can be cut, each as long as possible. -/
theorem tokenize_eq_ok_iff {t : Text} {tokens : List Token} :
    tokenize t = .ok tokens ↔ Segments t tokens [] :=
  ⟨segments_of_tokenizeFrom, fun h => tokenizeFrom_of_segments h rfl 0⟩

theorem Segments.isWritten {t rest : Text} {tokens : List Token} (h : Segments t tokens rest) :
    ∀ token ∈ tokens, token.IsWritten := by
  induction h with
  | done => simp
  | space _ _ ih => exact ih
  | token hlongest _ ih => exact List.forall_mem_cons.mpr ⟨hlongest.written, ih⟩

end SolPlan
