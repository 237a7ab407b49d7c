import SolPlan.Proofs.Constraint.Connectives

/-!
# How constraints are laid out

A text is laid out as tokens with a gap before them and one behind each (`Layout`). The tokens of a
text are those of its one layout in which each token is as long as it can be where it stands. If
there is none, a first part of the text is laid out so, and what follows begins with neither a space
nor a token: there the tokens are refused (`IsStuck`).

Tokens that are written with a space between any two are read as they were written.

Results:
* `segments_iff_layout`: cutting a text into tokens is laying it out;
* `tokenize_eq_error_iff`: where the tokens of a text are refused;
* `Layout.IsSpaced.isCut`: spaces between tokens keep them apart;
* **`tokenize_layout`**: which tokens a text has, and where it has none.
-/

namespace SolPlan

theorem Text.size_append (a b : Text) : size (a ++ b) = size a + size b := by
  induction a with
  | nil => simp [size]
  | cons c a ih =>
    change c.utf8Size + size (a ++ b) = c.utf8Size + size a + size b
    rw [ih, Nat.add_assoc]

/-! ## Where tokens are refused -/

/-- Something stands at the front of the text that is neither a space nor a token. -/
structure IsStuck (t : Text) : Prop where
  ne_nil : t ≠ []
  no_space : ∀ c, t.head? = some c → Token.isSpace c = false
  no_token : ∀ token : Token, token.IsWritten → ¬ token.text <+: t

variable {t rest : Text}

theorem tokenizeFrom_of_isStuck (h : IsStuck t) (offset : Nat) :
    tokenizeFrom offset t = .error offset := by
  obtain ⟨c, t, rfl⟩ := List.exists_cons_of_ne_nil h.ne_nil
  rw [tokenizeFrom, if_neg (by simp [h.no_space c rfl])]
  have hscan := Token.scan?_eq_none_iff.mpr h.no_token
  split <;> rename_i heq
  · rfl
  · rw [hscan] at heq
    cases heq

/-- After tokens that can be cut off, the first byte of what is refused is reported. -/
theorem Segments.tokenizeFrom_eq_error {tokens : List Token} (h : Segments t tokens rest)
    (hstuck : IsStuck rest) (offset : Nat) :
    ∃ front, t = front ++ rest ∧ tokenizeFrom offset t = .error (offset + front.size) := by
  induction h generalizing offset with
  | done => exact ⟨[], rfl, tokenizeFrom_of_isStuck hstuck offset⟩
  | space hc _ ih =>
    obtain ⟨front, rfl, hfront⟩ := ih hstuck (offset + _)
    refine ⟨_ :: front, rfl, ?_⟩
    rw [tokenizeFrom_space hc, hfront, Nat.add_assoc]
    rfl
  | token hlongest _ ih =>
    obtain ⟨front, rfl, hfront⟩ := ih hstuck (offset + _)
    refine ⟨_ ++ front, (List.append_assoc _ _ _).symm, ?_⟩
    rw [tokenizeFrom_token hlongest, hfront, Text.size_append, Nat.add_assoc]
    rfl

theorem segments_of_tokenizeFrom_error {offset o : Nat} (h : tokenizeFrom offset t = .error o) :
    ∃ tokens front rest, t = front ++ rest ∧ Segments t tokens rest ∧ IsStuck rest ∧
      o = offset + front.size := by
  fun_induction tokenizeFrom offset t with
  | case1 => cases h
  | case2 offset c t hc ih =>
    obtain ⟨tokens, front, rest, rfl, hsegments, hstuck, rfl⟩ := ih h
    refine ⟨tokens, c :: front, rest, rfl, .space hc hsegments, hstuck, ?_⟩
    rw [Nat.add_assoc]
    rfl
  | case3 offset c t hc hnone =>
    cases h
    refine ⟨[], [], c :: t, rfl, .done, ⟨by simp, ?_, Token.scan?_eq_none_iff.mp hnone⟩, rfl⟩
    intro d hd
    obtain rfl : c = d := by simpa using hd
    exact Bool.eq_false_iff.mpr hc
  | case4 offset c t hc token after hscan ih =>
    obtain ⟨heq, hlongest⟩ := Token.scan?_eq_some_iff.mp hscan
    cases hafter : tokenizeFrom (offset + token.text.size) after with
    | ok more =>
      rw [hafter] at h
      cases h
    | error o' =>
      rw [hafter] at h
      cases h
      obtain ⟨tokens, front, rest, rfl, hsegments, hstuck, ho⟩ := ih hafter
      rw [heq] at hlongest ⊢
      refine ⟨token :: tokens, token.text ++ front, rest, (List.append_assoc _ _ _).symm,
        .token hlongest hsegments, hstuck, ?_⟩
      rw [ho, Text.size_append, Nat.add_assoc]

/-- **The tokens of a text are refused** at the first byte of what cannot be cut. -/
theorem tokenize_eq_error_iff {o : Nat} : tokenize t = .error o ↔
    ∃ tokens front rest, t = front ++ rest ∧ Segments t tokens rest ∧ IsStuck rest ∧
      o = front.size := by
  constructor
  · intro h
    simpa using segments_of_tokenizeFrom_error h
  · rintro ⟨tokens, front, rest, rfl, hsegments, hstuck, rfl⟩
    obtain ⟨front', hfront, h⟩ := hsegments.tokenizeFrom_eq_error hstuck 0
    obtain rfl := List.append_cancel_right hfront
    rw [Nat.zero_add] at h
    exact h

/-! ## Layouts -/

/-- Tokens, with a gap before them and one behind each. -/
structure Layout where
  lead : Text
  pieces : List (Token × Text)

namespace Layout

/-- Tokens with their gaps, as a text. -/
def spelled (pieces : List (Token × Text)) : Text :=
  pieces.flatMap fun piece => piece.1.text ++ piece.2

/-- The layout as a text. -/
def text (l : Layout) : Text := l.lead ++ spelled l.pieces

/-- The tokens that are laid out. -/
def tokens (l : Layout) : List Token := l.pieces.map Prod.fst

/-- The gaps are made of spaces, and each token is the longest that stands there, seen together with
all that follows it. -/
structure IsCut (l : Layout) (rest : Text) : Prop where
  lead : IsGap l.lead
  gaps : ∀ piece ∈ l.pieces, IsGap piece.2
  longest : ∀ before piece behind, l.pieces = before ++ piece :: behind →
    piece.1.IsLongest (spelled (piece :: behind) ++ rest)

/-- The gaps are made of spaces, and there is at least one between two tokens. -/
structure IsSpaced (l : Layout) : Prop where
  lead : IsGap l.lead
  written : ∀ piece ∈ l.pieces, piece.1.IsWritten
  gaps : ∀ piece ∈ l.pieces, IsGap piece.2
  apart : ∀ piece ∈ l.pieces.dropLast, piece.2 ≠ []

theorem spelled_cons (piece : Token × Text) (pieces : List (Token × Text)) :
    spelled (piece :: pieces) = piece.1.text ++ (piece.2 ++ spelled pieces) := by
  rw [spelled, List.flatMap_cons, List.append_assoc]
  rfl

variable {pieces : List (Token × Text)} {lead gap : Text} {token : Token}

theorem isCut_nil (h : IsGap lead) (rest : Text) : IsCut ⟨lead, []⟩ rest :=
  ⟨h, by simp, fun before piece behind h => by simp at h⟩

/-- One more token in front: what was the first gap stands behind it. -/
theorem isCut_cons_iff : IsCut ⟨lead, (token, gap) :: pieces⟩ rest ↔
    IsGap lead ∧ token.IsLongest (token.text ++ (gap ++ spelled pieces) ++ rest) ∧
      IsCut ⟨gap, pieces⟩ rest := by
  constructor
  · rintro ⟨hlead, hgaps, hlongest⟩
    obtain ⟨hgap, hgaps⟩ := List.forall_mem_cons.mp hgaps
    refine ⟨hlead, ?_, hgap, hgaps, fun before piece behind h => ?_⟩
    · rw [← spelled_cons (token, gap)]
      exact hlongest [] _ _ rfl
    · exact hlongest ((token, gap) :: before) piece behind (congrArg _ h)
  · rintro ⟨hlead, htoken, hgap, hgaps, hlongest⟩
    refine ⟨hlead, List.forall_mem_cons.mpr ⟨hgap, hgaps⟩, fun before piece behind h => ?_⟩
    cases before with
    | nil =>
      obtain ⟨rfl, rfl⟩ := List.cons.inj h
      rwa [spelled_cons]
    | cons first before => exact hlongest before piece behind (List.cons.inj h).2

theorem IsCut.segments {l : Layout} (h : l.IsCut rest) : Segments (l.text ++ rest) l.tokens rest := by
  obtain ⟨lead, pieces⟩ := l
  induction pieces generalizing lead with
  | nil =>
    have hnil : Segments rest [] rest := .done
    simpa [text, spelled, tokens] using hnil.gap h.lead
  | cons piece pieces ih =>
    obtain ⟨token, gap⟩ := piece
    obtain ⟨hlead, htoken, hcut⟩ := isCut_cons_iff.mp h
    rw [List.append_assoc] at htoken
    have hsegments := (Segments.token htoken (ih gap hcut)).gap hlead
    change Segments (lead ++ spelled ((token, gap) :: pieces) ++ rest) _ rest
    rw [spelled_cons, List.append_assoc, List.append_assoc]
    exact hsegments

end Layout

/-- **Cutting a text into tokens is laying it out.** -/
theorem segments_iff_layout {tokens : List Token} : Segments t tokens rest ↔
    ∃ l : Layout, t = l.text ++ rest ∧ l.tokens = tokens ∧ l.IsCut rest := by
  constructor
  · intro h
    induction h with
    | done => exact ⟨⟨[], []⟩, rfl, rfl, Layout.isCut_nil (by simp [IsGap]) _⟩
    | space hc _ ih =>
      obtain ⟨⟨lead, pieces⟩, rfl, rfl, hcut⟩ := ih
      exact ⟨⟨_ :: lead, pieces⟩, rfl, rfl,
        List.forall_mem_cons.mpr ⟨hc, hcut.lead⟩, hcut.gaps, hcut.longest⟩
    | token hlongest _ ih =>
      obtain ⟨⟨lead, pieces⟩, rfl, rfl, hcut⟩ := ih
      refine ⟨⟨[], (_, lead) :: pieces⟩, ?_, rfl, Layout.isCut_cons_iff.mpr ⟨?_, ?_, hcut⟩⟩
      · simp [Layout.text, Layout.spelled]
      · simp [IsGap]
      · rwa [List.append_assoc]
  · rintro ⟨l, rfl, rfl, hcut⟩
    exact hcut.segments

/-! ## Spaces between tokens -/

namespace Layout

theorem isLongest_text {token : Token} (h : token.IsWritten) : token.IsLongest token.text :=
  ⟨h, List.prefix_rfl, fun _ _ hfront => hfront.length_le⟩

/-- **Spaces between tokens keep them apart.** -/
theorem IsSpaced.isCut {l : Layout} (h : l.IsSpaced) : l.IsCut [] := by
  obtain ⟨lead, pieces⟩ := l
  induction pieces generalizing lead with
  | nil => exact isCut_nil h.lead []
  | cons piece pieces ih =>
    obtain ⟨token, gap⟩ := piece
    obtain ⟨hlead, hwritten, hgaps, hapart⟩ := h
    obtain ⟨htoken, hwritten⟩ := List.forall_mem_cons.mp hwritten
    obtain ⟨hgap, hgaps⟩ := List.forall_mem_cons.mp hgaps
    refine isCut_cons_iff.mpr ⟨hlead, ?_, ih gap ⟨hgap, hwritten, hgaps, ?_⟩⟩
    · rw [List.append_nil]
      refine (isLongest_text htoken).append ?_
      cases pieces with
      | nil =>
        -- nothing but spaces follows the last token
        exact hgap.breaks fun c hc => by cases hc
      | cons next pieces =>
        obtain ⟨c, more, rfl⟩ := List.exists_cons_of_ne_nil (hapart (token, gap) (by simp))
        intro d hd
        obtain rfl : c = d := by simpa using hd
        exact .inl (hgap c List.mem_cons_self)
    · cases pieces with
      | nil => simp
      | cons next pieces => exact fun piece hpiece => hapart piece (List.mem_cons_of_mem _ hpiece)

end Layout

/-- **The tokens of a text are those of its layout**, each as long as possible where it stands. They
are refused at the byte up to which the text is laid out so, and where neither a space nor a token
follows. What is laid out with spaces between tokens is read as it was written. -/
theorem tokenize_layout (t : Text) :
    (∀ tokens, tokenize t = .ok tokens ↔
      ∃ l : Layout, t = l.text ∧ l.tokens = tokens ∧ l.IsCut []) ∧
    (∀ o, tokenize t = .error o ↔ ∃ (l : Layout) (rest : Text),
      t = l.text ++ rest ∧ l.IsCut rest ∧ IsStuck rest ∧ o = l.text.size ∧ o < t.size) ∧
    ∀ l : Layout, l.IsSpaced → tokenize l.text = .ok l.tokens := by
  refine ⟨fun tokens => ?_, fun o => ?_, fun l hl => ?_⟩
  · rw [tokenize_eq_ok_iff, segments_iff_layout]
    simp only [List.append_nil]
  · rw [tokenize_eq_error_iff]
    constructor
    · rintro ⟨tokens, front, rest, rfl, hsegments, hstuck, rfl⟩
      obtain ⟨l, hl, -, hcut⟩ := segments_iff_layout.mp hsegments
      obtain rfl := List.append_cancel_right hl
      refine ⟨l, rest, rfl, hcut, hstuck, rfl, ?_⟩
      obtain ⟨c, rest, rfl⟩ := List.exists_cons_of_ne_nil hstuck.ne_nil
      have hpos : 0 < c.utf8Size := Char.utf8Size_pos c
      rw [Text.size_append]
      change _ < _ + (c.utf8Size + Text.size rest)
      omega
    · rintro ⟨l, rest, rfl, hcut, hstuck, rfl, -⟩
      exact ⟨l.tokens, l.text, rest, rfl, hcut.segments, hstuck, rfl⟩
  · have hsegments := hl.isCut.segments
    rw [List.append_nil] at hsegments
    exact tokenize_eq_ok_iff.mpr hsegments

/-- A dot at the end belongs to no version, and a part ends before what it cannot take. -/
example : tokenize "0.8.".toList = .error 3 ∧ tokenize "0.8.x0".toList =
    .ok [.version "0.8.x".toList, .version ['0']] := by cbv

/-- Two ranges, with gaps of all kinds. -/
def spacedRanges : Layout where
  lead := [' ']
  pieces := [(.operator .greaterEq, [' ']), (.version "0.8.x".toList, ['\t', '\r']), (.or, ['\n']),
    (.operator .caret, ['\x0c']), (.version ['1'], [])]

theorem tokenize_layout_spacedRanges : spacedRanges.IsSpaced ∧
    tokenize " >= 0.8.x\t\r||\n^\x0c1".toList = .ok [.operator .greaterEq, .version "0.8.x".toList,
      .or, .operator .caret, .version ['1']] := by
  have hnumber : ∀ t : Text, t ≠ [] → t.all Char.isDigit = true → IsDigits t := fun t hne hall =>
    ⟨hne, List.all_eq_true.mp hall⟩
  have hpart : IsVersionToken "0.8.x".toList :=
    ⟨['0'], [['8'], ['x']], hnumber _ (by decide) (by decide),
      List.forall_mem_cons.mpr ⟨.inl (hnumber _ (by decide) (by decide)),
        List.forall_mem_singleton.mpr (.inr ⟨'x', rfl, by decide⟩)⟩, by decide⟩
  have hone : IsVersionToken ['1'] :=
    ⟨['1'], [], hnumber _ (by decide) (by decide), by simp, by decide⟩
  have hspaced : spacedRanges.IsSpaced := by
    refine ⟨by simp [spacedRanges, IsGap, Token.isSpace], ?_,
      by simp [spacedRanges, IsGap, Token.isSpace], by decide⟩
    simp only [spacedRanges, List.forall_mem_cons]
    exact ⟨trivial, hpart, trivial, trivial, hone, by simp⟩
  exact ⟨hspaced, (tokenize_layout []).2.2 spacedRanges hspaced⟩

end SolPlan
