import Std.Data.ExtTreeSet
import SolPlan.Error

/-!
# Version constraints

What a `pragma solidity` line asks for (`PragmaSpec`): alternatives separated by `||`, each a list
of comparators that must all be met. A version without operator stands for itself, `0.8.12` for
`=0.8.12`, and with a wildcard for its range.

* `Constraint.ofText` (`parse`) reads one. The tokens are looked at from the left; an alternative is
  read as a whole when its end is reached, so a fault inside it comes after a misplaced operator.
* **A pre-release meets no constraint,** and build metadata does not count (`Constraint.admits`,
  for `matches`).
* `exactPin?` (`exact_pin`) is the version of a constraint that only one version without build
  metadata meets.
-/

namespace SolPlan

/-- A set of compiler versions, in their order. -/
abbrev Versions := Std.ExtTreeSet Version

/-- A version constraint, as written and as read. -/
structure Constraint where
  expression : Text
  alternatives : List (List Comparator)
deriving DecidableEq, Repr

namespace Constraint

/-- How many comparators an alternative may have. -/
def maxComparators : Nat := 32

/-- Read the comparators of one alternative while there is room for them. -/
def readAlternative : Nat → List (Operator × Text) → Except ConstraintFault (List Comparator)
  | _, [] => .ok []
  | 0, _ :: _ => .error .tooManyComparators
  | room + 1, (op, version) :: terms => do
    let c ← Comparator.read op version
    let more ← readAlternative room terms
    return c :: more

/-- Read the alternatives, after the terms of an unfinished one and maybe an operator. -/
def readAlternatives (terms : List (Operator × Text)) (pending : Option Operator) :
    List Token → Except ConstraintFault (List (List Comparator))
  | [] =>
    if pending.isSome ∨ terms = [] then throw .missingVersion
    else return [← readAlternative maxComparators terms]
  | .version t :: tokens => readAlternatives (terms ++ [(pending.getD .exact, t)]) none tokens
  | .or :: tokens =>
    if pending.isSome ∨ terms = [] then throw .emptyAlternative
    else do
      let alternative ← readAlternative maxComparators terms
      let more ← readAlternatives [] none tokens
      return alternative :: more
  | .operator op :: tokens =>
    if pending.isSome then throw (.doubleOperator op)
    else readAlternatives terms (some op) tokens

/-- The alternatives that a text without outer blanks writes. -/
def alternativesOf (expression : Text) : Except ConstraintFault (List (List Comparator)) := do
  let tokens ← (tokenize expression).mapError .unexpectedCharacter
  readAlternatives [] none tokens

/-- The constraint that a text writes; outer blanks do not belong to it. -/
def ofText (t : Text) : Except Error Constraint :=
  match alternativesOf t.trim with
  | .ok alternatives => .ok ⟨t.trim, alternatives⟩
  | .error fault => .error (.invalidPragma t.trim fault)

/-- Does a version meet the constraint? -/
def admits (c : Constraint) (v : Version) : Bool :=
  v.isRelease && c.alternatives.any fun alternative => alternative.all (·.admits v)

/-- The version that the constraint pins: a single `=` with all three numbers. -/
def exactPin? (c : Constraint) : Option Version :=
  match c.alternatives with
  | [[⟨.exact, .patch a b c⟩]] => some (.release a b c)
  | _ => none

/-- Does the constraint pin a version? -/
def isExactPin (c : Constraint) : Bool := c.exactPin?.isSome

/-- The greatest of the versions that meet the constraint. -/
def select (c : Constraint) (options : Versions) : Option Version :=
  (options.filter c.admits).max?

end Constraint

end SolPlan
