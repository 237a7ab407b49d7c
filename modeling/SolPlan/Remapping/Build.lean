import SolPlan.Project
import SolPlan.Remapping.Entry
import SolPlan.Remapping.Table

/-!
# Building remapping tables

The table of a project comes from its configured entries, in their order, and then from what it
declares. An entry that means a known package has it unpacked, and its key stands for the package's
place in the cache; any other entry stands for its value. Each unpacked package that no configured
key claims is reached by `@name` and `name`, unless these are taken.

The table for the sources of a package is built from its own configuration and dependencies; all
places are those of the project that unpacked it.

`build` is `build_remapping`, and `ofDependency` is `build_dependency_remapping`.
-/

namespace SolPlan

/-- What building a table changes: the file tree, and how often `install` was called. -/
structure Depot where
  tree : FileTree
  requests : Nat

namespace Depot

/-- Ask a registry to install what is declared. -/
def install (d : Depot) (r : Registry) : Depot × Except Error (List Dependency) :=
  ({ d with requests := d.requests + 1 }, r.install)

end Depot

/-- A table under construction. -/
structure Draft where
  tree : FileTree
  table : RemappingTable
  /-- The configured keys that claim packages, by the package's name. -/
  claims : Table Text Text

namespace Draft

/-- Let keys lead to an unpacked package: the key that claims it, or its own names. -/
def register (p : Project) (claims : Table Text Text) (table : RemappingTable) (u : Unpacked) :
    RemappingTable :=
  let place := p.cacheId u.id
  match claims.get? u.id.name with
  | some key => table.insertIfAbsent key place
  | none => (table.insertIfAbsent ('@' :: u.id.name) place).insertIfAbsent u.id.name place

/-- Unpack a dependency and let keys lead to it and to what it depends on. -/
def addDependency (p : Project) (dependency : Dependency) (d : Draft) : Draft × Except Error Unit :=
  match dependency.unpack p.cacheFolder d.tree with
  | (tree, .error e) => ({ d with tree }, .error e)
  | (tree, .ok unpacked) =>
    ({ d with tree, table := unpacked.foldl (register p d.claims) d.table }, .ok ())

/-- Unpack several dependencies. -/
def addDependencies (p : Project) : List Dependency → Draft → Draft × Except Error Unit
  | [], d => (d, .ok ())
  | dependency :: more, d =>
    match d.addDependency p dependency with
    | (d, .error e) => (d, .error e)
    | (d, .ok ()) => addDependencies p more d

/-- Add a configured entry. -/
def addEntry (p : Project) (r : Registry) (e : RemapEntry) (d : Draft) :
    Draft × Except Error Unit :=
  match (e.target? r.installed).bind r.find? with
  | none => ({ d with table := d.table.insert e.key e.value }, .ok ())
  | some dependency =>
    { d with claims := d.claims.insert dependency.id.name e.key }.addDependency p dependency

/-- Add configured entries as they are written. -/
def addEntries (p : Project) (r : Registry) : List Text → Draft → Draft × Except Error Unit
  | [], d => (d, .ok ())
  | raw :: more, d =>
    match RemapEntry.ofText raw with
    | .error e => (d, .error e)
    | .ok entry =>
      match d.addEntry p r entry with
      | (d, .error e) => (d, .error e)
      | (d, .ok ()) => addEntries p r more d

/-- Add the configured entries, and then what is declared. -/
def addAll (p : Project) (r : Registry) (declared : List Dependency) (d : Draft) :
    Draft × Except Error Unit :=
  match d.addEntries p r p.config.remappings with
  | (d, .error e) => (d, .error e)
  | (d, .ok ()) => d.addDependencies p declared

end Draft

namespace RemappingTable

/-- Build the table of a project, and unpack what it leads to. -/
def build (p : Project) (r : Registry) (depot : Depot) : Depot × Except Error RemappingTable :=
  match depot.install r with
  | (depot, .error e) => (depot, .error e)
  | (depot, .ok declared) =>
    match depot.tree.makeDirectories p.cacheFolder with
    | (tree, .error fault) => ({ depot with tree }, .error (.file p.cacheFolder fault))
    | (tree, .ok ()) =>
      match Draft.addAll p r declared ⟨tree, .empty, .empty⟩ with
      | (draft, .error e) => ({ depot with tree := draft.tree }, .error e)
      | (draft, .ok ()) => ({ depot with tree := draft.tree }, .ok draft.table)

section

variable (place : PackageId → Text)

/-- The configured entries of a package, with the names that they claim. -/
def addPackageEntries (dependencies : List Dependency) :
    List Text → RemappingTable → List Text → Except Error (RemappingTable × List Text)
  | [], table, claimed => .ok (table, claimed)
  | raw :: more, table, claimed => do
    let entry ← RemapEntry.ofText raw
    match entry.target? dependencies with
    | some id =>
      addPackageEntries dependencies more (table.insert entry.key (place id)) (id.name :: claimed)
    | none =>
      addPackageEntries dependencies more (table.insert entry.key entry.value) claimed

/-- Let the names of a dependency that is not claimed lead to it. -/
def registerDependency (claimed : List Text) (table : RemappingTable) (d : Dependency) :
    RemappingTable :=
  if claimed.any (· = d.id.name) then table
  else (table.insertIfAbsent ('@' :: d.id.name) (place d.id)).insertIfAbsent d.id.name (place d.id)

/-- The table for imports in the sources of a package, where each package has its place. -/
def ofPlaces (d : Dependency) : Except Error RemappingTable := do
  let (table, claimed) ←
    addPackageEntries place d.dependencies d.package.config.remappings .empty []
  return d.dependencies.foldl (registerDependency place claimed) table

end

/-- The table for imports in the sources of a package. -/
def ofDependency (p : Project) (d : Dependency) : Except Error RemappingTable :=
  ofPlaces p.cacheId d

end RemappingTable

end SolPlan
