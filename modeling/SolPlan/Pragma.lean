import SolPlan.Constraint
import SolPlan.Table

/-!
# Version pragmas

The constraint of a source stands in its first line that begins with `pragma solidity`, up to the
first `;` or the end of the line (`expression?`, for `extract_pragma`). A source without such a line
is unconstrained, and so is one whose constraint cannot be read (`ofText?`, for `pragma_from_str`).
-/

namespace SolPlan

namespace Pragma

/-- What follows `pragma solidity` on a line that begins with it. -/
def body? (line : Text) : Option Text := do
  let rest ← Text.after? "pragma".toList line.trimStart
  Text.after? "solidity".toList rest.trimStart

/-- The expression of the first version pragma of a text. -/
def expression? (text : Text) : Option Text :=
  (text.lines.findSome? body?).map fun body => Text.trim (body.takeWhile (· ≠ ';'))

/-- The constraint of a text: none without a pragma, and none for one that cannot be read. -/
def ofText? (text : Text) : Option Constraint := do
  let expression ← expression? text
  (Constraint.ofText expression).toOption

end Pragma

/-- The constraints of sources, `none` for an unconstrained one. -/
abbrev PragmaTable := Table SourceId (Option Constraint)

namespace PragmaTable

/-- The constraint of a source, if the table has one. -/
def constraint? (t : PragmaTable) (id : SourceId) : Option Constraint := (t.get? id).join

/-- Is the source pinned to a version? -/
def isExactPin (t : PragmaTable) (id : SourceId) : Bool :=
  (constraint? t id).any Constraint.isExactPin

end PragmaTable

end SolPlan
