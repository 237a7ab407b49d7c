import SolPlan.Proofs.Import.Resolve

/-!
# The literal of a statement

A statement should name its target by the first quoted string in it (`FirstQuoted`), and have no
target if its first quote is not closed (`Unclosed`). What follows the literal is arbitrary: a
statement runs to the end of its last line, so a comment with quotes may come behind it.

The kind of quote is taken from the statement as a whole, so a `"` anywhere behind a literal in
single quotes counts in place of it.

Results:
* **`firstQuoted_iff`**: the first quoted string is read exactly if it stands in double quotes, or
  the statement holds none; an unclosed quote is noticed exactly if there are less than two double
  quotes;
* `not_firstQuoted`: a string in a comment takes the place of the literal.
-/

namespace SolPlan

namespace Import

variable {importing : Path} {raw literal : Text} {quote : Char}

/-- The characters that enclose a literal. -/
def IsQuote (c : Char) : Prop := c = '"' ∨ c = '\''

/-- The literal is enclosed by the first quote of the statement and the next one of its kind. -/
def FirstQuoted (raw : Text) (quote : Char) (literal : Text) : Prop :=
  IsQuote quote ∧ quote ∉ literal ∧ ∃ front back,
    raw = front ++ quote :: (literal ++ quote :: back) ∧ ∀ c ∈ front, ¬ IsQuote c

/-- The first quote of the statement comes only once. -/
def Unclosed (raw : Text) : Prop :=
  ∃ quote front back, IsQuote quote ∧ quote ∉ back ∧
    raw = front ++ quote :: back ∧ ∀ c ∈ front, ¬ IsQuote c

/-- The quote for which a statement is searched. -/
def quoteOf (raw : Text) : Char := if '"' ∈ raw then '"' else '\''

/-- A statement without a literal is refused, and no other. -/
theorem ofStatement_eq_error_iff :
    ofStatement importing raw = .error (.unreadableImport importing raw) ↔ Malformed raw := by
  unfold Malformed
  rw [← cut?_twice_eq_none_iff]
  unfold ofStatement
  dsimp only
  constructor
  · intro h
    split at h
    · cases h
    · assumption
  · intro h
    rw [h]

/-- Before a quote that is the first one of both kinds, a search for it passes everything. -/
theorem not_mem_front {front : Text} (hquote : IsQuote quote) (hfront : ∀ c ∈ front, ¬ IsQuote c) :
    quote ∉ front :=
  fun hmem => hfront quote hmem hquote

/-- A statement whose first quote is `"` is searched for it, and others only if they hold none. -/
theorem quoteOf_eq_iff {front back : Text} (hquote : IsQuote quote)
    (hraw : raw = front ++ quote :: back) : quoteOf raw = quote ↔ quote = '"' ∨ '"' ∉ raw := by
  unfold quoteOf
  rcases hquote with rfl | rfl
  · simp [hraw]
  · by_cases hdouble : '"' ∈ raw <;> simp [hdouble]

/-- **The first quoted string** is the literal exactly if it stands in double quotes, or if there
are no double quotes in the statement. A first quote that is not closed makes the statement
unreadable exactly if there are less than two double quotes. -/
theorem firstQuoted_iff (importing : Path) (raw : Text) :
    (∀ quote literal, FirstQuoted raw quote literal →
      ((∃ i, ofStatement importing raw = .ok i ∧ i.quote = quote ∧ i.literal = literal) ↔
        quote = '"' ∨ '"' ∉ raw)) ∧
    (Unclosed raw →
      (ofStatement importing raw = .error (.unreadableImport importing raw) ↔
        raw.count '"' < 2)) := by
  constructor
  · rintro quote literal ⟨hquote, hliteral, front, back, hraw, hfront⟩
    rw [← quoteOf_eq_iff hquote hraw]
    constructor
    · rintro ⟨i, hi, rfl, -⟩
      obtain ⟨-, -, -, -, -, heq⟩ := ofStatement_eq_ok_iff.mp hi
      exact (congrArg Import.quote heq).symm
    · intro hsearched
      refine ⟨⟨quote, if '\\' ∈ raw then '\\' else '/', literal, none, none, none⟩,
        ofStatement_eq_ok_iff.mpr ?_, rfl, rfl⟩
      exact ⟨front, back, hraw, not_mem_front hquote hfront, hliteral, by rw [← hsearched]; rfl⟩
  · rintro ⟨quote, front, back, hquote, hback, hraw, hfront⟩
    have honce : raw.count quote = 1 := by
      rw [hraw, List.count_append, List.count_cons_self,
        List.count_eq_zero.mpr (not_mem_front hquote hfront), List.count_eq_zero.mpr hback]
    rw [ofStatement_eq_error_iff]
    unfold Malformed
    by_cases hdouble : '"' ∈ raw
    · rw [if_pos hdouble]
    · have hsingle : quote = '\'' := by
        rcases hquote with rfl | rfl
        · exact absurd (by simp [hraw]) hdouble
        · rfl
      rw [if_neg hdouble, List.count_eq_zero.mpr hdouble, ← hsingle, honce]
      decide

/-- An apostrophe in a literal, one behind it, and one that is alone. -/
theorem firstQuoted_apostrophe :
    (∃ i, ofStatement ⟨['A']⟩ "import \"a'b\"; // it's".toList = .ok i ∧ i.quote = '"' ∧
      i.literal = "a'b".toList) ∧
    ofStatement ⟨['A']⟩ "import 'a;".toList =
      .error (.unreadableImport ⟨['A']⟩ "import 'a;".toList) :=
  ⟨((firstQuoted_iff ⟨['A']⟩ "import \"a'b\"; // it's".toList).1 '"' "a'b".toList
      ⟨.inl rfl, by decide, "import ".toList, "; // it's".toList, by decide,
        by simp [IsQuote]⟩).mpr (.inl rfl),
    ((firstQuoted_iff ⟨['A']⟩ "import 'a;".toList).2
      ⟨'\'', "import ".toList, "a;".toList, .inr rfl, by decide, by decide,
        by simp [IsQuote]⟩).mpr (by decide)⟩

/-- A string in a comment takes the place of the first quoted string. -/
theorem not_firstQuoted :
    ¬ ∀ (importing : Path) (raw : Text),
      (∀ quote literal, FirstQuoted raw quote literal →
        ∃ i, ofStatement importing raw = .ok i ∧ i.quote = quote ∧ i.literal = literal) ∧
      (Unclosed raw → ofStatement importing raw = .error (.unreadableImport importing raw)) := by
  intro hall
  obtain ⟨i, hi, hquote, -⟩ := (hall ⟨['A']⟩ "import './A.sol'; // \"x\"".toList).1 '\''
    "./A.sol".toList ⟨.inr rfl, by decide, "import ".toList, "; // \"x\"".toList, by decide,
      by simp [IsQuote]⟩
  have hread : ofStatement ⟨['A']⟩ "import './A.sol'; // \"x\"".toList =
      .ok ⟨'"', '/', ['x'], none, none, none⟩ := by decide
  cases hi.symm.trans hread
  cases hquote

end Import

end SolPlan
