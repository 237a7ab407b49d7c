import Mathlib.Data.List.Forall2
import SolPlan.Proofs.Constraint.Grammar

/-!
# Constraints put together

Two constraints that are written one after the other, with `||` or a gap between them, are again a
constraint. A token does not go on over the seam: a space stands in none, and `|` goes on in none
but `||`, whose first half is no token (`Token.IsLongest.append`). So the tokens of the whole are
those of the parts (`Segments.append`). What is read of tokens is told by the written alternatives
that they make up (`IsReadAs`), each of which is read comparator by comparator.

Results:
* `ofText_eq_ok_iff`: which constraint a text is read as;
* `IsReadAs.disjunction`, `IsReadAs.conjunction`: what the two ways to put constraints together
  are read as;
* **`ofText_connected`**: `||` between two constraints is "or", a gap between them is "and".
-/

namespace SolPlan

/-! ## Trimmed texts -/

namespace Text

theorem head?_trim {t : Text} {c : Char} (h : t.trim.head? = some c) : isBlank c = false := by
  have hfront : t.trim <+: t.dropWhile isBlank := by
    unfold trim trimEnd dropEndWhile trimStart
    have hsuffix := List.dropWhile_suffix (l := (t.dropWhile isBlank).reverse) isBlank
    simpa using List.reverse_prefix.mpr hsuffix
  obtain ⟨more, hmore⟩ := hfront
  have hhead : (t.dropWhile isBlank).head? = some c := by
    rw [← hmore, List.head?_append, h]
    rfl
  simpa [hhead] using List.head?_dropWhile_not isBlank t

theorem getLast?_trim {t : Text} {c : Char} (h : t.trim.getLast? = some c) :
    isBlank c = false := by
  unfold trim trimEnd dropEndWhile at h
  rw [List.getLast?_reverse] at h
  simpa [h] using List.head?_dropWhile_not isBlank t.trimStart.reverse

/-- A text without outer blanks is trimmed. -/
theorem trim_eq_self {t : Text} (hhead : ∀ c, t.head? = some c → isBlank c = false)
    (hlast : ∀ c, t.getLast? = some c → isBlank c = false) : t.trim = t := by
  have hkeep : ∀ u : Text, (∀ c, u.head? = some c → isBlank c = false) →
      u.dropWhile isBlank = u := by
    intro u hu
    cases u with
    | nil => rfl
    | cons c u => exact List.dropWhile_cons_of_neg (by simp [hu c rfl])
  unfold trim trimEnd dropEndWhile trimStart
  rw [hkeep t hhead, hkeep t.reverse (by simpa using hlast), List.reverse_reverse]

/-- What stands between trimmed texts has no part in trimming. -/
theorem trim_append {s t : Text} (hs : s.trim ≠ []) (ht : t.trim ≠ []) (between : Text) :
    (s.trim ++ between ++ t.trim).trim = s.trim ++ between ++ t.trim := by
  refine trim_eq_self (fun c hc => head?_trim (t := s) ?_) fun c hc => getLast?_trim (t := t) ?_
  · rwa [List.append_assoc, List.head?_append_of_ne_nil _ hs] at hc
  · rwa [List.getLast?_append_of_ne_nil _ ht] at hc

end Text

/-! ## Characters of tokens -/

namespace Token

/-- The characters of which tokens are made. -/
def isTokenChar (c : Char) : Bool :=
  c.isDigit || c ∈ ['>', '<', '=', '^', '~', '|', '.', 'x', 'X', '*']

theorem not_isTokenChar_of_isSpace {c : Char} (h : isSpace c = true) : isTokenChar c = false := by
  unfold isSpace at h
  simp only [List.mem_cons, List.not_mem_nil, or_false, decide_eq_true_eq] at h
  rcases h with rfl | rfl | rfl | rfl | rfl <;> decide

end Token

theorem mem_isVersionToken {v : Text} (h : IsVersionToken v) {c : Char} (hc : c ∈ v) :
    c.isDigit = true ∨ Token.isWildcard c = true ∨ c = '.' := by
  obtain ⟨number, parts, hnumber, hparts, rfl⟩ := h
  rcases Text.mem_join hc with rfl | ⟨p, hp, hcp⟩
  · exact .inr (.inr rfl)
  · rcases List.mem_cons.mp hp with rfl | hp
    · exact .inl (hnumber.2 c hcp)
    · rcases hparts p hp with hdigits | ⟨d, rfl, hd⟩
      · exact .inl (hdigits.2 c hcp)
      · exact .inr (.inl (List.mem_singleton.mp hcp ▸ hd))

namespace Token

variable {token : Token} {t rest : Text}

theorem IsWritten.isTokenChar (h : token.IsWritten) {c : Char} (hc : c ∈ token.text) :
    isTokenChar c = true := by
  have hmarks : ∀ mark ∈ marks, mark.text.all Token.isTokenChar = true := by decide
  rcases mem_marks_or token with hmark | ⟨v, rfl⟩
  · exact List.all_eq_true.mp (hmarks token hmark) c hc
  · rcases mem_isVersionToken h hc with hdigit | hwildcard | rfl
    · simp [Token.isTokenChar, hdigit]
    · unfold isWildcard at hwildcard
      simp only [List.mem_cons, List.not_mem_nil, or_false, decide_eq_true_eq] at hwildcard
      rcases hwildcard with rfl | rfl | rfl <;> decide
    · decide

theorem IsWritten.not_isSpace (h : token.IsWritten) {c : Char} (hc : c ∈ token.text) :
    isSpace c = false := by
  cases hspace : isSpace c with
  | false => rfl
  | true => exact absurd (h.isTokenChar hc) (by simp [not_isTokenChar_of_isSpace hspace])

/-- A `|` stands in no token but `||`. -/
theorem IsWritten.eq_or_of_bar (h : token.IsWritten) (hbar : '|' ∈ token.text) : token = .or := by
  have hmarks : ∀ mark ∈ marks, '|' ∈ mark.text → mark = .or := by decide
  rcases mem_marks_or token with hmark | ⟨v, rfl⟩
  · exact hmarks token hmark hbar
  · rcases mem_isVersionToken h hbar with hdigit | hwildcard | hdot
    · exact absurd hdigit (by decide)
    · exact absurd hwildcard (by decide)
    · exact absurd hdot (by decide)

/-! ## Tokens at a seam -/

/-- The text is empty, or begins with a space or with `|`. -/
def Breaks (t : Text) : Prop := ∀ c, t.head? = some c → isSpace c = true ∨ c = '|'

/-- No token begins in the first half of `||`. -/
theorem IsLongest.append_cons_ne_or (h : token.IsLongest t) (c : Char) (beyond : Text) :
    t ++ c :: beyond ≠ Token.or.text := by
  intro hor
  obtain ⟨d, behind, htext, -⟩ := h.written.exists_cons
  obtain ⟨front, rfl⟩ := h.front
  rw [htext] at hor
  simp only [text, List.cons_append, List.cons.injEq] at hor
  obtain ⟨rfl, hor⟩ := hor
  have hnil : behind = [] := by
    cases behind with
    | nil => rfl
    | cons e behind =>
      have hlength := congrArg List.length hor
      simp at hlength
  subst hnil
  obtain rfl := h.written.eq_or_of_bar (by simp [htext])
  cases htext

/-- **No token goes on over a seam.** -/
theorem IsLongest.append (h : token.IsLongest t) (hrest : Breaks rest) :
    token.IsLongest (t ++ rest) := by
  have hwhole : t <+: t ++ rest := List.prefix_append t rest
  refine ⟨h.written, h.front.trans hwhole, fun other hother hfront => ?_⟩
  rcases List.prefix_or_prefix_of_prefix hfront hwhole with hin | ⟨beyond, hbeyond⟩
  · exact h.longest other hother hin
  · rw [← hbeyond, List.prefix_append_right_inj] at hfront
    cases beyond with
    | nil =>
      have hsame : t = other.text := by simpa using hbeyond
      exact h.longest other hother (hsame ▸ List.prefix_rfl)
    | cons c beyond =>
      obtain ⟨more, rfl⟩ := hfront
      have hc : c ∈ other.text := by simp [← hbeyond]
      rcases hrest c rfl with hspace | rfl
      · exact absurd hspace (by simp [hother.not_isSpace hc])
      · obtain rfl := hother.eq_or_of_bar hc
        exact absurd hbeyond (h.append_cons_ne_or '|' beyond)

theorem isLongest_or (t : Text) : Token.or.IsLongest (Token.or.text ++ t) :=
  (scan?_eq_some_iff.mp (rfl : scan? ('|' :: '|' :: t) = some (.or, t))).2

end Token

open Token (Breaks)

/-- What may stand between tokens. -/
def IsGap (t : Text) : Prop := ∀ c ∈ t, Token.isSpace c = true

theorem IsGap.breaks {gap t : Text} (h : IsGap gap) (ht : Breaks t) : Breaks (gap ++ t) := by
  cases gap with
  | nil => exact ht
  | cons c gap =>
    intro d hd
    obtain rfl : c = d := by simpa using hd
    exact .inl (h c List.mem_cons_self)

theorem Segments.gap {gap t rest : Text} {tokens : List Token} (h : Segments t tokens rest)
    (hgap : IsGap gap) : Segments (gap ++ t) tokens rest := by
  induction gap with
  | nil => exact h
  | cons c gap ih =>
    exact .space (hgap c List.mem_cons_self) (ih fun d hd => hgap d (List.mem_cons_of_mem c hd))

/-- **The tokens of two texts** are those of one and then of the other, if no token can go on over
the seam. -/
theorem Segments.append {s t rest : Text} {a b : List Token} (hs : Segments s a [])
    (ht : Segments t b rest) (hseam : Breaks t) : Segments (s ++ t) (a ++ b) rest := by
  generalize hnil : ([] : Text) = ended at hs
  induction hs with
  | done => exact hnil ▸ ht
  | space hc _ ih => exact .space hc (ih hnil)
  | token hlongest _ ih =>
    rw [List.append_assoc]
    refine .token ?_ (ih hnil)
    rw [← List.append_assoc]
    exact hlongest.append hseam

/-- Every token stands in the text. -/
theorem Segments.infix_of_mem {t rest : Text} {tokens : List Token} (h : Segments t tokens rest)
    {token : Token} (hmem : token ∈ tokens) : token.text <:+: t := by
  induction h with
  | done => cases hmem
  | space _ _ ih => exact (ih hmem).trans (List.suffix_cons _ _).isInfix
  | token _ _ ih =>
    rcases List.mem_cons.mp hmem with rfl | hmem
    · exact (List.prefix_append _ _).isInfix
    · exact (ih hmem).trans (List.suffix_append _ _).isInfix

/-- A text that is cut into tokens is made of spaces and of the characters of tokens. -/
theorem Segments.not_mem {t : Text} {tokens : List Token} {c : Char} (h : Segments t tokens [])
    (hspace : Token.isSpace c = false) (htoken : Token.isTokenChar c = false) : c ∉ t := by
  generalize hnil : ([] : Text) = ended at h
  induction h with
  | done => exact hnil ▸ List.not_mem_nil
  | space hc _ ih =>
    rw [List.mem_cons, not_or]
    refine ⟨?_, ih hnil⟩
    rintro rfl
    rw [hspace] at hc
    cases hc
  | token hlongest _ ih =>
    rw [List.mem_append, not_or]
    refine ⟨fun hmem => ?_, ih hnil⟩
    rw [hlongest.written.isTokenChar hmem] at htoken
    cases htoken

/-! ## What is read -/

/-- The comparator that is read of a written one. -/
def Term.Reads (x : Term) (c : Comparator) : Prop :=
  Comparator.read x.resolved.1 x.resolved.2 = .ok c

theorem written_append {a b : List (List Term)} (ha : a ≠ []) (hb : b ≠ []) :
    written (a ++ b) = written a ++ Token.or :: written b := by
  induction a with
  | nil => exact absurd rfl ha
  | cons terms a ih =>
    cases a with
    | nil =>
      obtain ⟨more, rest, rfl⟩ := List.exists_cons_of_ne_nil hb
      rw [List.singleton_append, written_cons_cons, written_singleton]
    | cons more a =>
      rw [List.cons_append, List.cons_append, written_cons_cons, ← List.cons_append,
        ih (List.cons_ne_nil more a), written_cons_cons, List.append_assoc]
      rfl

namespace Constraint

variable {terms more : List Term} {rest : List (List Term)}

/-- An alternative is read comparator by comparator, if there is room for it. -/
theorem readAlternative_eq_ok_iff {room : Nat} {cs : List Comparator} :
    readAlternative room (terms.map Term.resolved) = .ok cs ↔
      terms.length ≤ room ∧ List.Forall₂ Term.Reads terms cs := by
  induction terms generalizing room cs with
  | nil =>
    have hnil : readAlternative room (([] : List Term).map Term.resolved) = .ok [] := by
      cases room <;> rfl
    rw [hnil, Except.ok.injEq, List.forall₂_nil_left_iff, eq_comm]
    simp
  | cons x terms ih =>
    cases room with
    | zero => exact ⟨fun h => (by cases h), fun h => absurd h.1 (by simp)⟩
    | succ room =>
      have hread : readAlternative (room + 1) ((x :: terms).map Term.resolved) =
          (Comparator.read x.resolved.1 x.resolved.2 >>= fun c =>
            readAlternative room (terms.map Term.resolved) >>= fun more => pure (c :: more)) := rfl
      rw [hread, List.length_cons, Nat.succ_le_succ_iff]
      constructor
      · intro h
        obtain ⟨c, hc, h⟩ := bind_eq_ok.mp h
        obtain ⟨more, hmore, h⟩ := bind_eq_ok.mp h
        obtain ⟨hlength, hreads⟩ := ih.mp hmore
        cases h
        exact ⟨hlength, .cons hc hreads⟩
      · rintro ⟨hlength, _ | ⟨hc, hreads⟩⟩
        exact bind_eq_ok.mpr ⟨_, hc, bind_eq_ok.mpr ⟨_, ih.mpr ⟨hlength, hreads⟩, rfl⟩⟩

theorem readAlternatives_singleton (h : terms ≠ []) :
    readAlternatives [] none (written [terms]) =
      readAlternative maxComparators (terms.map Term.resolved) >>= fun cs => pure [cs] := by
  have hread := readAlternatives_flatMap [] terms []
  rw [List.append_nil, List.map_nil, List.nil_append] at hread
  rw [written_singleton, hread, readAlternatives, if_neg (by simpa using h)]

theorem readAlternatives_cons_cons (h : terms ≠ []) :
    readAlternatives [] none (written (terms :: more :: rest)) =
      readAlternative maxComparators (terms.map Term.resolved) >>= fun cs =>
        readAlternatives [] none (written (more :: rest)) >>= fun read => pure (cs :: read) := by
  have hread := readAlternatives_flatMap [] terms (Token.or :: written (more :: rest))
  rw [List.map_nil, List.nil_append] at hread
  rw [written_cons_cons, hread, readAlternatives, if_neg (by simpa using h)]

/-- Alternatives are read one by one. -/
theorem readAlternatives_eq_ok_iff {alternatives : List (List Term)} (hne : alternatives ≠ [])
    (hall : ∀ terms ∈ alternatives, IsAlternative terms) {read : List (List Comparator)} :
    readAlternatives [] none (written alternatives) = .ok read ↔
      List.Forall₂ (List.Forall₂ Term.Reads) alternatives read := by
  induction alternatives generalizing read with
  | nil => exact absurd rfl hne
  | cons terms rest ih =>
    obtain ⟨hterms, hrest⟩ := List.forall_mem_cons.mp hall
    have hone : ∀ {cs}, readAlternative maxComparators (terms.map Term.resolved) = .ok cs ↔
        List.Forall₂ Term.Reads terms cs := by
      intro cs
      rw [readAlternative_eq_ok_iff]
      exact and_iff_right hterms.length
    cases rest with
    | nil =>
      rw [readAlternatives_singleton hterms.nonempty, bind_eq_ok]
      constructor
      · rintro ⟨cs, hcs, h⟩
        cases h
        exact .cons (hone.mp hcs) .nil
      · rintro (_ | ⟨hcs, _ | _⟩)
        exact ⟨_, hone.mpr hcs, rfl⟩
    | cons more rest =>
      rw [readAlternatives_cons_cons hterms.nonempty, bind_eq_ok]
      constructor
      · rintro ⟨cs, hcs, h⟩
        obtain ⟨read, hread, h⟩ := bind_eq_ok.mp h
        cases h
        exact .cons (hone.mp hcs) ((ih (by simp) hrest).mp hread)
      · rintro (_ | ⟨hcs, hreads⟩)
        exact ⟨_, hone.mpr hcs, bind_eq_ok.mpr ⟨_, (ih (by simp) hrest).mpr hreads, rfl⟩⟩

/-- The expression writes the alternatives, and what is read of them are those of the constraint. -/
structure IsReadAs (c : Constraint) (alternatives : List (List Term)) : Prop where
  segments : Segments c.expression (written alternatives) []
  nonempty : alternatives ≠ []
  isAlternative : ∀ terms ∈ alternatives, IsAlternative terms
  reads : List.Forall₂ (List.Forall₂ Term.Reads) alternatives c.alternatives

/-- **The constraint that a text is read as.** -/
theorem ofText_eq_ok_iff {t : Text} {c : Constraint} :
    ofText t = .ok c ↔ c.expression = t.trim ∧ ∃ alternatives, c.IsReadAs alternatives := by
  have halternatives : ofText t = .ok c ↔
      c.expression = t.trim ∧ alternativesOf t.trim = .ok c.alternatives := by
    unfold ofText
    cases alternativesOf t.trim with
    | error fault => simp
    | ok read =>
      obtain ⟨expression, alternatives⟩ := c
      simp only [Except.ok.injEq, mk.injEq]
      exact and_congr_left' eq_comm
  rw [halternatives]
  refine and_congr_right fun hexpression => ?_
  rw [← hexpression]
  constructor
  · intro h
    obtain ⟨tokens, htokens, h⟩ := bind_eq_ok.mp h
    have hsegments := tokenize_eq_ok_iff.mp (mapError_eq_ok.mp htokens)
    obtain ⟨alternatives, hne, hall, rfl⟩ :=
      (exists_readAlternatives_iff hsegments.isWritten).mp ⟨_, h⟩
    exact ⟨alternatives, hsegments, hne, hall, (readAlternatives_eq_ok_iff hne hall).mp h⟩
  · rintro ⟨alternatives, hsegments, hne, hall, hreads⟩
    have htokens := tokenize_eq_ok_iff.mpr hsegments
    exact bind_eq_ok.mpr ⟨_, mapError_eq_ok.mpr htokens,
      (readAlternatives_eq_ok_iff hne hall).mpr hreads⟩

/-! ## Two constraints -/

/-- How many comparators the constraint has. -/
def size (c : Constraint) : Nat := c.alternatives.flatten.length

variable {a b : Constraint} {alternatives : List (List Term)}

theorem IsReadAs.written_ne_nil (h : a.IsReadAs alternatives) : written alternatives ≠ [] := by
  intro hnil
  have hread := (readAlternatives_eq_ok_iff h.nonempty h.isAlternative).mpr h.reads
  rw [hnil] at hread
  cases hread

theorem IsReadAs.expression_ne_nil (h : a.IsReadAs alternatives) : a.expression ≠ [] := by
  intro hnil
  obtain ⟨token, tokens, htokens⟩ := List.exists_cons_of_ne_nil h.written_ne_nil
  have hmem : token ∈ written alternatives := htokens ▸ List.mem_cons_self
  obtain ⟨c, more, htext, -⟩ := (h.segments.isWritten token hmem).exists_cons
  have hinfix := h.segments.infix_of_mem hmem
  rw [hnil, htext] at hinfix
  cases List.infix_nil.mp hinfix

/-- In whose expression no `||` stands has one alternative. -/
theorem IsReadAs.eq_singleton (h : a.IsReadAs alternatives)
    (hbars : ¬ Token.or.text <:+: a.expression) : ∃ terms, alternatives = [terms] := by
  obtain ⟨terms, rest, rfl⟩ := List.exists_cons_of_ne_nil h.nonempty
  cases rest with
  | nil => exact ⟨terms, rfl⟩
  | cons more rest =>
    refine absurd (h.segments.infix_of_mem ?_) hbars
    rw [written_cons_cons]
    simp

theorem IsReadAs.of_singleton {terms : List Term} (h : a.IsReadAs [terms]) :
    ∃ cs, a.alternatives = [cs] ∧ List.Forall₂ Term.Reads terms cs := by
  obtain ⟨cs, read, hcs, hread, halternatives⟩ := List.forall₂_cons_left_iff.mp h.reads
  obtain rfl := List.forall₂_nil_left_iff.mp hread
  exact ⟨cs, halternatives, hcs⟩

theorem size_of_singleton {cs : List Comparator} (h : a.alternatives = [cs]) :
    a.size = cs.length := by
  simp [size, h]

/-- The one or the other: `||` between the expressions. -/
def disjunction (a b : Constraint) (gap gap' : Text) : Constraint where
  expression := a.expression ++ (gap ++ Token.or.text ++ gap') ++ b.expression
  alternatives := a.alternatives ++ b.alternatives

/-- The one and the other: a gap between the expressions. -/
def conjunction (a b : Constraint) (gap : Text) : Constraint where
  expression := a.expression ++ gap ++ b.expression
  alternatives := [a.alternatives.flatten ++ b.alternatives.flatten]

theorem admits_disjunction (a b : Constraint) (gap gap' : Text) (v : Version) :
    (disjunction a b gap gap').admits v = (a.admits v || b.admits v) := by
  unfold admits disjunction
  rw [List.any_append, Bool.and_or_distrib_left]

theorem admits_conjunction {cs ds : List Comparator} (ha : a.alternatives = [cs])
    (hb : b.alternatives = [ds]) (gap : Text) (v : Version) :
    (conjunction a b gap).admits v = (a.admits v && b.admits v) := by
  unfold admits conjunction
  simp only [ha, hb, List.flatten_cons, List.flatten_nil, List.append_nil, List.any_cons,
    List.any_nil, Bool.or_false, List.all_append]
  cases v.isRelease <;> simp

variable {more : List (List Term)} {gap gap' : Text}

theorem IsReadAs.disjunction (ha : a.IsReadAs alternatives) (hb : b.IsReadAs more)
    (hgap : IsGap gap) (hgap' : IsGap gap') :
    (disjunction a b gap gap').IsReadAs (alternatives ++ more) where
  segments := by
    have hor : Segments (Token.or.text ++ (gap' ++ b.expression)) (Token.or :: written more) [] :=
      .token (Token.isLongest_or _) (hb.segments.gap hgap')
    have hseam : Breaks (gap ++ (Token.or.text ++ (gap' ++ b.expression))) :=
      hgap.breaks fun c hc => .inr (by simpa [Token.text, eq_comm] using hc)
    have hwhole := ha.segments.append (hor.gap hgap) hseam
    rw [written_append ha.nonempty hb.nonempty]
    simpa [Constraint.disjunction] using hwhole
  nonempty := List.append_ne_nil_of_left_ne_nil ha.nonempty more
  isAlternative := List.forall_mem_append.mpr ⟨ha.isAlternative, hb.isAlternative⟩
  reads := List.rel_append ha.reads hb.reads

theorem IsReadAs.conjunction {terms more : List Term} (ha : a.IsReadAs [terms])
    (hb : b.IsReadAs [more]) (hlength : terms.length + more.length ≤ 32) (hgap : IsGap gap)
    (hne : gap ≠ []) : (conjunction a b gap).IsReadAs [terms ++ more] where
  segments := by
    have hseam : Breaks (gap ++ b.expression) := by
      obtain ⟨c, gap, rfl⟩ := List.exists_cons_of_ne_nil hne
      intro d hd
      obtain rfl : c = d := by simpa using hd
      exact .inl (hgap c List.mem_cons_self)
    have hwhole := ha.segments.append (hb.segments.gap hgap) hseam
    rw [written_singleton, written_singleton, ← List.flatMap_append, ← written_singleton] at hwhole
    simpa [Constraint.conjunction] using hwhole
  nonempty := List.cons_ne_nil _ _
  isAlternative := by
    have hterms := ha.isAlternative terms List.mem_cons_self
    have hmore := hb.isAlternative more List.mem_cons_self
    refine List.forall_mem_singleton.mpr ⟨?_, ?_, ?_⟩
    · exact List.append_ne_nil_of_left_ne_nil hterms.nonempty more
    · rwa [List.length_append]
    · exact List.forall_mem_append.mpr ⟨hterms.versions, hmore.versions⟩
  reads := by
    obtain ⟨cs, hcs, hterms⟩ := ha.of_singleton
    obtain ⟨ds, hds, hmore⟩ := hb.of_singleton
    have hboth : (Constraint.conjunction a b gap).alternatives = [cs ++ ds] := by
      simp [Constraint.conjunction, hcs, hds]
    rw [hboth]
    exact .cons (List.rel_append hterms hmore) .nil

/-- Read expressions with something between them are trimmed. -/
theorem trim_between {s t : Text} (ha : ofText s = .ok a) (hb : ofText t = .ok b)
    (between : Text) :
    (a.expression ++ between ++ b.expression).trim = a.expression ++ between ++ b.expression := by
  obtain ⟨hs, _, ha⟩ := ofText_eq_ok_iff.mp ha
  obtain ⟨ht, _, hb⟩ := ofText_eq_ok_iff.mp hb
  have hane := ha.expression_ne_nil
  have hbne := hb.expression_ne_nil
  rw [hs] at hane ⊢
  rw [ht] at hbne ⊢
  exact Text.trim_append hane hbne between

/-- **Constraints compose as they are written.** Between two constraints `||` is "or": the whole is
a constraint, and a version meets it exactly if it meets one of the two. A gap is "and", between
constraints without `||` that do not have too many comparators together. -/
theorem ofText_connected {s t : Text} (ha : ofText s = .ok a) (hb : ofText t = .ok b) :
    (∀ gap gap', IsGap gap → IsGap gap' →
      ∃ c, ofText (a.expression ++ (gap ++ "||".toList ++ gap') ++ b.expression) = .ok c ∧
        ∀ v, c.admits v = (a.admits v || b.admits v)) ∧
      (¬ "||".toList <:+: a.expression → ¬ "||".toList <:+: b.expression →
        a.size + b.size ≤ 32 → ∀ gap, IsGap gap → gap ≠ [] →
          ∃ c, ofText (a.expression ++ gap ++ b.expression) = .ok c ∧
            ∀ v, c.admits v = (a.admits v && b.admits v)) := by
  obtain ⟨-, alternatives, hareads⟩ := ofText_eq_ok_iff.mp ha
  obtain ⟨-, more, hbreads⟩ := ofText_eq_ok_iff.mp hb
  constructor
  · intro gap gap' hgap hgap'
    exact ⟨disjunction a b gap gap', ofText_eq_ok_iff.mpr ⟨(trim_between ha hb _).symm,
      alternatives ++ more, hareads.disjunction hbreads hgap hgap'⟩, admits_disjunction a b gap gap'⟩
  · intro habars hbbars hsize gap hgap hne
    obtain ⟨terms, rfl⟩ := hareads.eq_singleton habars
    obtain ⟨more, rfl⟩ := hbreads.eq_singleton hbbars
    obtain ⟨cs, hcs, hterms⟩ := hareads.of_singleton
    obtain ⟨ds, hds, hmore⟩ := hbreads.of_singleton
    rw [size_of_singleton hcs, size_of_singleton hds, ← hterms.length_eq, ← hmore.length_eq] at hsize
    exact ⟨conjunction a b gap, ofText_eq_ok_iff.mpr ⟨(trim_between ha hb gap).symm,
      [terms ++ more], hareads.conjunction hbreads hsize hgap hne⟩, admits_conjunction hcs hds gap⟩

/-- From 0.4.19 to 0.7.0. -/
def belowSeven : Constraint :=
  ⟨">=0.4.19 <0.7.0".toList, [[⟨.greaterEq, .patch 0 4 19⟩, ⟨.less, .patch 0 7 0⟩]]⟩

/-- All of 0.6. -/
def allSix : Constraint := ⟨"0.6.x".toList, [[⟨.exact, .minor 0 6⟩]]⟩

/-- A range and a wildcard, with `||` between them, without a space before it, and with a space. -/
theorem ofText_connected_ranges :
    ofText ">=0.4.19 <0.7.0".toList = .ok belowSeven ∧ ofText " 0.6.x".toList = .ok allSix ∧
      (∃ c, ofText ">=0.4.19 <0.7.0|| 0.6.x".toList = .ok c ∧
        ∀ v, c.admits v = (belowSeven.admits v || allSix.admits v)) ∧
      ∃ c, ofText ">=0.4.19 <0.7.0 0.6.x".toList = .ok c ∧
        ∀ v, c.admits v = (belowSeven.admits v && allSix.admits v) := by
  have hrange : ofText ">=0.4.19 <0.7.0".toList = .ok belowSeven := by decide +kernel
  have hwildcard : ofText " 0.6.x".toList = .ok allSix := by decide +kernel
  have hspace : IsGap [' '] := List.forall_mem_singleton.mpr rfl
  obtain ⟨hor, hand⟩ := ofText_connected hrange hwildcard
  have hbars : ¬ "||".toList <:+: belowSeven.expression ∧ ¬ "||".toList <:+: allSix.expression := by
    decide +kernel
  refine ⟨hrange, hwildcard, ?_, ?_⟩
  · exact hor [] [' '] (by simp [IsGap]) hspace
  · exact hand hbars.1 hbars.2 (by decide) [' '] hspace (by simp)

end Constraint

end SolPlan
