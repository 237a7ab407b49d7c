import SolPlan.Import
import SolPlan.Project
import SolPlan.Remapping.Table

/-!
# Resolving imports

An import is first expanded with the longest remapped key that occurs in its literal, unless it is
relative. Then the first of these gives its target.

1. A relative import leads to its place seen from the directory of the importing file, whether a
   file is there or not.
2. The file at the value below the root, or below the source folder.
3. If the key is `@name` and a dependency of that name lives in another project: the file at the
   value, or at the literal without the key, below that project.
4. If the value points into the cache folder of a known package: the file at the value with the
   package's own source folder put after its version, below the root or the source folder. If this
   shows that the remapping left that folder out, the corrected remapping is given back.

An import whose target is not found stays unresolved, which is no error. `findPath?` is `find_file`
and `repair?` is `repair`, of the `ImportResolver`.
-/

namespace SolPlan

/-- A resolved import, and a correction of the remapping that was used. -/
structure Resolution where
  statement : Import
  correction : Option Correction
deriving DecidableEq

namespace Import

variable (t : FileTree) (p : Project) (r : Registry)

/-- The import with the longest remapped key in its literal, unless it is relative. -/
def remap (table : RemappingTable) (i : Import) : Import :=
  if i.isRelative then i else { i with remapping := table.longestMatch i.literal }

/-- The directories that imports are seen from: the root and the source folder. -/
def bases (p : Project) : List Path := [p.rootPath, p.contracts]

/-- The literal without the key and the separators after it, if it starts with the key. -/
def withoutKey? (literal key : Text) : Option Text :=
  (Text.after? key literal).map fun rest => rest.dropWhile fun c => c == '/' || c == '\\'

/-- The candidates in the other project that the import's key names. -/
def externalCandidates (i : Import) : List Path :=
  match i.remapping with
  | some ('@' :: name, _) =>
    match (p.config.dependency? name).bind NamedDependency.project with
    | some other =>
      let base := p.rootPath.join other
      base.join ⟨i.value⟩ :: ((withoutKey? i.literal ('@' :: name)).map fun v => base.join ⟨v⟩).toList
    | none => []
  | _ => []

/-- Where the import leads without a repair. -/
def findPath? (importing : Path) (i : Import) : Option Path :=
  if i.isRelative then importing.parent?.map fun folder => folder.join ⟨i.value⟩
  else
    ((bases p).map (·.join ⟨i.value⟩) ++ externalCandidates p i).find? t.isFile

/-- The place of a package's own source folder. -/
def repairedPrefix (place : CacheLocation) (folder : Text) : Text :=
  joinSlash place.packagePath folder

/-- The correction of a remapping to the folder of a package, if the import was expanded with one. -/
def correction? (i : Import) (place : CacheLocation) (folder : Text) : Option Correction :=
  match i.remapping with
  | some (key, old) =>
    if Text.dropEndWhile (· == '/') old = place.packagePath then
      some ⟨key, repairedPrefix place folder⟩
    else none
  | none => none

/-- Look again with the package's own source folder put after its version. -/
def repair? (i : Import) : Option (Path × Option Correction) := do
  let place ← CacheLocation.ofText? i.value
  let dependency ← r.find? place.package
  let folder := dependency.package.contractsName
  if folder = [] ∨ place.rest.head? = some folder then none
  else
    let candidate : Path := ⟨joinSlash (repairedPrefix place folder) place.suffix⟩
    let path ← ((bases p).map (·.join candidate)).find? t.isFile
    return (path, i.correction? place folder)

/-- The import with its target at a path. -/
def locate (i : Import) (path : Path) : Import :=
  let path := t.resolve path
  let id := SourceId.ofPath path p.rootPath
  { i with target := some ⟨id, path⟩, package := Project.packageOf? id }

/-- The import with the corrected remapping. -/
def corrected (i : Import) : Option Correction → Import
  | some c => { i with remapping := some (c.key, c.value) }
  | none => i

/-- Resolve an import that was expanded. -/
def findTarget (importing : Path) (i : Import) : Resolution :=
  match i.findPath? t p importing with
  | some path => ⟨i.locate t p path, none⟩
  | none =>
    match i.repair? t p r with
    | some (path, correction) => ⟨(i.corrected correction).locate t p path, correction⟩
    | none => ⟨i, none⟩

/-- Resolve the import that a statement of a file writes. -/
def resolve (table : RemappingTable) (importing : Path) (raw : Text) :
    Except Error Resolution := do
  let i ← ofStatement importing raw
  return (i.remap table).findTarget t p r importing

end Import

end SolPlan
