import SolPlan.FileTree

/-!
# The import statements of a text

A statement begins with a line whose trimmed text is `import`, alone or before a blank, a quote, a
brace or a star. It takes further lines, trimmed and joined with single spaces, until it holds a
`;`; what stands behind that stays. A statement that was seen before is not repeated. `ofText` is
`extract_import_lines`, and `ofFile` is `extract_import_lines_from_path`.
-/

namespace SolPlan

namespace ImportLines

/-- Can the character follow the word `import`? -/
def isBoundary (c : Char) : Bool := Text.isBlank c || c ∈ ['"', '\'', '\x7b', '*']

/-- Does a trimmed line begin a statement? -/
def begins (line : Text) : Bool :=
  match Text.after? "import".toList line with
  | some [] => true
  | some (c :: _) => isBoundary c
  | none => false

/-- A statement with one more trimmed line. -/
def extend (statement line : Text) : Text :=
  if line = [] then statement else statement ++ ' ' :: line

/-- Complete an unfinished statement with trimmed lines: the statement, and the lines that
remain. -/
def complete (statement : Text) : List Text → Option (Text × List Text)
  | [] => if ';' ∈ statement then some (statement, []) else none
  | line :: lines =>
    if ';' ∈ statement then some (statement, line :: lines)
    else complete (extend statement line) lines

theorem length_of_complete {statement done : Text} {lines rest : List Text}
    (h : complete statement lines = some (done, rest)) : rest.length ≤ lines.length := by
  induction lines generalizing statement with
  | nil =>
    simp only [complete] at h
    split at h
    · simp only [Option.some.injEq, Prod.mk.injEq] at h
      simp [← h.2]
    · cases h
  | cons line lines ih =>
    simp only [complete] at h
    split at h
    · simp only [Option.some.injEq, Prod.mk.injEq] at h
      simp [← h.2]
    · exact Nat.le_succ_of_le (ih h)

/-- All statements in trimmed lines, or nothing if one is never finished. -/
def statements (lines : List Text) : Option (List Text) :=
  match lines with
  | [] => some []
  | line :: lines =>
    if begins line then
      match _h : complete line lines with
      | none => none
      | some (statement, rest) => (statements rest).map (statement :: ·)
    else statements lines
termination_by lines.length
decreasing_by
  · have := length_of_complete ‹_›
    simp only [List.length_cons]; omega
  · simp

/-- The distinct texts, in the order in which they first come. -/
def distinct (texts : List Text) : List Text :=
  texts.foldl (fun seen t => if t ∈ seen then seen else seen ++ [t]) []

/-- The import statements of a text; `path` is the file that an error cites. -/
def ofText (path : Path) (text : Text) : Except Error (List Text) :=
  match statements (text.lines.map Text.trim) with
  | some found => .ok (distinct found)
  | none => .error (.unterminatedImport path)

/-- The import statements of a file. -/
def ofFile (t : FileTree) (path : Path) : Except Error (List Text) := do
  ofText path (← t.readText path)

end ImportLines

end SolPlan
