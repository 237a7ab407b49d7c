import SolPlan.CacheLocation
import SolPlan.SourceId
import SolPlan.Error

/-!
# Imports

An import (`ImportStatement`) names its target by a quoted literal. The quote is `"` if the
statement holds one anywhere, and `'` otherwise; the separator is `\` if the statement holds one
anywhere, and `/` otherwise.

Two imports are the **same** if they lead to the same path, or if both lead nowhere and have the
same literal (`Import.SameAs`).
-/

namespace SolPlan

/-- The file that an import leads to. -/
structure Target where
  id : SourceId
  path : Path
deriving DecidableEq

/-- An import of a source file. -/
structure Import where
  quote : Char
  separator : Char
  /-- What stands between the quotes. -/
  literal : Text
  /-- The remapping with which the literal is expanded. -/
  remapping : Option (Text × Text)
  target : Option Target
  /-- The package in whose cache folder the target lies. -/
  package : Option PackageId
deriving DecidableEq

namespace Import

/-- The import that a statement writes; `path` is the file that an error cites. -/
def ofStatement (path : Path) (raw : Text) : Except Error Import :=
  let quote := if '"' ∈ raw then '"' else '\''
  let separator := if '\\' ∈ raw then '\\' else '/'
  match (Text.cut? quote raw).bind fun (_, rest) => Text.cut? quote rest with
  | some (literal, _) => .ok ⟨quote, separator, literal, none, none, none⟩
  | none => .error (.unreadableImport path raw)

/-- The literal with the first occurrence of the remapped key replaced. -/
def expanded (i : Import) : Text :=
  match i.remapping with
  | some (key, value) => Text.replaceFirst key value i.literal
  | none => i.literal

/-- The expanded literal, with `/` as separator. -/
def value (i : Import) : Text :=
  if i.separator = '\\' then Text.replaceChar '\\' '/' i.expanded else i.expanded

/-- Is the literal seen from the directory of the importing file? -/
def isRelative (i : Import) : Bool := i.literal.head? == some '.'

/-- Was the target found? -/
def isResolved (i : Import) : Bool := i.target.isSome

/-- The same path, or the same literal without a path. -/
def SameAs (i j : Import) : Prop :=
  match i.target, j.target with
  | some a, some b => a.path.SameAs b.path
  | none, none => i.literal = j.literal
  | _, _ => False

instance (i j : Import) : Decidable (i.SameAs j) := by
  unfold SameAs
  split <;> infer_instance

/-- Add an import to distinct ones. -/
def addTo (imports : List Import) (i : Import) : List Import :=
  if imports.any (fun j => j.SameAs i) then imports else imports ++ [i]

end Import

end SolPlan
