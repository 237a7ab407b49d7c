import SolPlan.Constraint.Token
import SolPlan.Version

/-!
# Comparators

A comparator sets an operator against a version of which a tail of parts may be **open**: left out,
or a wildcard. It looks at the three numbers of a version only. An alternative of a constraint is a
list of comparators (`VersionReq`).

* `=`, `>`, `>=`, `<` and `<=` compare the parts that are given (`OpenVersion.against`).
* `~` fixes all given parts but the patch, which may grow.
* `^` fixes the parts up to the first that is not zero, and what follows may grow. When the
  patch is open, a zero major part fixes the minor one too.

`Comparator.read` gives the faults of a written version in the order in which a reader meets them.
-/

namespace SolPlan

/-- A version of which a tail of parts may be open. -/
inductive OpenVersion where
  | major (a : Nat)
  | minor (a b : Nat)
  | patch (a b c : Nat)
deriving DecidableEq, Repr

/-- How the numbers of a version compare to the parts that are given. -/
def OpenVersion.against (v : Version) : OpenVersion → Ordering
  | .major a => compare v.major a
  | .minor a b => (compare v.major a).then (compare v.minor b)
  | .patch a b c => ((compare v.major a).then (compare v.minor b)).then (compare v.patch c)

/-- An operator and the version that it is set against. -/
structure Comparator where
  op : Operator
  target : OpenVersion
deriving DecidableEq, Repr

namespace Comparator

/-- `~`: the given parts, and a patch that may grow. -/
def tildeAdmits (v : Version) : OpenVersion → Bool
  | .major a => v.major == a
  | .minor a b => v.major == a && v.minor == b
  | .patch a b c => v.major == a && v.minor == b && c ≤ v.patch

/-- `^`: the parts up to the first that is not zero, and the others may grow. -/
def caretAdmits (v : Version) : OpenVersion → Bool
  | .major a => v.major == a
  | .minor a b => v.major == a && (if a = 0 then v.minor == b else b ≤ v.minor)
  | .patch a b c =>
    v.major == a &&
      if a ≠ 0 then b < v.minor || v.minor == b && c ≤ v.patch
      else if b ≠ 0 then v.minor == b && c ≤ v.patch
      else v.minor == b && v.patch == c

/-- Do the numbers of a version meet the comparator? -/
def admits (c : Comparator) (v : Version) : Bool :=
  match c.op with
  | .exact => c.target.against v == .eq
  | .greater => c.target.against v == .gt
  | .greaterEq => c.target.against v != .lt
  | .less => c.target.against v == .lt
  | .lessEq => c.target.against v != .gt
  | .tilde => tildeAdmits v c.target
  | .caret => caretAdmits v c.target

end Comparator

/-! ## Reading -/

/-- One of the three parts of a version. -/
inductive VersionPart where
  | major
  | minor
  | patch
deriving DecidableEq, Repr

/-- The name of a part. -/
def VersionPart.text : VersionPart → Text
  | .major => "major version number".toList
  | .minor => "minor version number".toList
  | .patch => "patch version number".toList

/-- Why a text is no version constraint. -/
inductive ConstraintFault where
  /-- No token starts at this byte. -/
  | unexpectedCharacter (offset : Nat)
  /-- Nothing, or an operator alone, before `||`. -/
  | emptyAlternative
  | doubleOperator (op : Operator)
  /-- Nothing, or an operator alone, at the end. -/
  | missingVersion
  | number (part : VersionPart) (fault : Number.Fault)
  | numberAfterWildcard
  /-- A part after the patch. -/
  | extraPart
  | tooManyComparators
deriving DecidableEq, Repr

/-- The wording of a fault. -/
def ConstraintFault.message : ConstraintFault → Text
  | .unexpectedCharacter offset => "unexpected character at offset ".toList ++ Text.ofNat offset
  | .emptyAlternative => "empty alternative".toList
  | .doubleOperator op =>
    "operator '".toList ++ op.text ++ "' follows another operator".toList
  | .missingVersion => "missing version".toList
  | .number part .leadingZero => "invalid leading zero in ".toList ++ part.text
  | .number part .overflow => "value of ".toList ++ part.text ++ " exceeds u64::MAX".toList
  | .numberAfterWildcard =>
    "unexpected character after wildcard in version req".toList
  | .extraPart =>
    "expected comma after ".toList ++ VersionPart.patch.text ++ ", found '.'".toList
  | .tooManyComparators => "excessive number of version comparators".toList

namespace Comparator

/-- The number that a part writes. -/
def readPart (part : VersionPart) (t : Text) : Except ConstraintFault Nat :=
  (Number.read t).mapError (.number part)

/-- Is the part a wildcard? -/
def isOpen (t : Text) : Bool := t.any Token.isWildcard

/-- Nothing may follow the patch. -/
def finish (o : OpenVersion) : List Text → Except ConstraintFault OpenVersion
  | [] => .ok o
  | _ :: _ => .error .extraPart

/-- The open version that dotted parts write. -/
def readParts : List Text → Except ConstraintFault OpenVersion
  | [] => .error .missingVersion
  | major :: parts => do
    let a ← readPart .major major
    match parts with
    | [] => return .major a
    | minor :: parts =>
      if isOpen minor then
        match parts with
        | [] => return .major a
        | patch :: parts => if isOpen patch then finish (.major a) parts else throw .numberAfterWildcard
      else
        let b ← readPart .minor minor
        match parts with
        | [] => return .minor a b
        | patch :: parts =>
          if isOpen patch then finish (.minor a b) parts
          else
            let c ← readPart .patch patch
            finish (.patch a b c) parts

/-- The comparator of an operator and a written version. -/
def read (op : Operator) (version : Text) : Except ConstraintFault Comparator :=
  (readParts (version.splitOn '.')).map (⟨op, ·⟩)

end Comparator

end SolPlan
