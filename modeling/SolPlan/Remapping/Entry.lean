import SolPlan.Package

/-!
# Remapping entries

A configured entry `key=value` (`RemapEntry`) redirects imports that hold the key. A value of two
segments is a package, `name/version`; a single segment is the name of one, and means its installed
version if there is exactly one. Any other value is a path, taken as it is. `target?` and
`strictTarget` are the two forms of `dependency_target`, which a flag tells apart.
-/

namespace SolPlan

/-- A configured entry, with `/` as separator. -/
structure RemapEntry where
  key : Text
  value : Text
deriving DecidableEq

namespace RemapEntry

/-- The entry that a text writes: one `=`, and a key before it. -/
def ofText (t : Text) : Except Error RemapEntry :=
  match t.splitOn '=' with
  | [key, value] =>
    if Text.trim key = [] then .error (.malformedEntry t)
    else .ok ⟨Text.replaceChar '\\' '/' (Text.trim key), Text.replaceChar '\\' '/' (Text.trim value)⟩
  | _ => .error (.malformedEntry t)

/-- The written form. -/
def toText (e : RemapEntry) : Text := e.key ++ '=' :: e.value

/-- The segments of the value that are not empty. -/
def segments (e : RemapEntry) : List Text := (e.value.splitOn '/').filter (· ≠ [])

/-- The versions in which a package is installed. -/
def versionsOf (name : Text) (installed : List Dependency) : List Text :=
  (installed.filter fun d => d.id.name = name).map fun d => d.id.version

/-- The package that the value means. -/
def target? (e : RemapEntry) (installed : List Dependency) : Option PackageId :=
  match e.segments with
  | [name, version] => some ⟨name, version⟩
  | [name] =>
    match versionsOf name installed with
    | [version] => some ⟨name, version⟩
    | _ => none
  | _ => none

/-- The package that the value means; a name that is installed at several versions is refused. -/
def strictTarget (e : RemapEntry) (installed : List Dependency) :
    Except Error (Option PackageId) :=
  match e.segments with
  | [name] =>
    match versionsOf name installed with
    | version :: other :: more => .error (.ambiguousDependency name (version :: other :: more))
    | _ => .ok (e.target? installed)
  | _ => .ok (e.target? installed)

end RemapEntry

end SolPlan
