import SolPlan.CacheLocation
import SolPlan.FileTree.Edit

/-!
# Packages and their dependencies

A package is a version of a project that others depend on, installed somewhere on disk. A
`Dependency` is a package with the dependencies of its own, so dependencies form a tree.

A `Registry` is what a project asks for its dependencies (`StaticDependencies`, the manager at hand
of the interface `DependencyManager`): it knows those that are declared and those that are merely
present. `find?` is `get`; `install` gives the declared ones, or fails while there is an outage.
-/

namespace SolPlan

/-- A dependency that the configuration names; it may live in another project on disk. -/
structure NamedDependency where
  name : Text
  version : Option Text
  project : Option Path
deriving DecidableEq

/-- The configuration of a project or package. -/
structure Config where
  /-- Remapping entries, `key=value`. -/
  remappings : List Text
  named : List NamedDependency
deriving DecidableEq, Inhabited

/-- The first named dependency with this name. -/
def Config.dependency? (c : Config) (name : Text) : Option NamedDependency :=
  c.named.find? (·.name = name)

/-- An installed package. -/
structure Package where
  id : PackageId
  /-- Where the package is installed. -/
  root : Path
  /-- Its source folder, seen from there. -/
  contracts : Path
  config : Config
deriving DecidableEq

namespace Package

/-- The source folder as a slash path. -/
def contractsName (p : Package) : Text := p.contracts.slashed

/-- The installed source folder. -/
def sources (p : Package) : Path := p.root.join p.contracts

end Package

/-- A package with the dependencies of its own. -/
inductive Dependency where
  | mk (package : Package) (dependencies : List Dependency)

namespace Dependency

/-- The package itself. -/
def package : Dependency → Package
  | mk package _ => package

/-- What the package depends on. -/
def dependencies : Dependency → List Dependency
  | mk _ dependencies => dependencies

/-- The package's name and version. -/
def id (d : Dependency) : PackageId := d.package.id

mutual

/-- The first in a dependency and its subtree with this name and version. -/
def find? (id : PackageId) : Dependency → Option Dependency
  | mk package dependencies =>
    if package.id = id then some (mk package dependencies) else findIn? id dependencies

/-- The first in a list of dependencies and their subtrees with this name and version. -/
def findIn? (id : PackageId) : List Dependency → Option Dependency
  | [] => none
  | d :: ds =>
    match find? id d with
    | some found => some found
    | none => findIn? id ds

end

end Dependency

/-- The dependencies that a project can use. -/
structure Registry where
  /-- What the project declares. -/
  declared : List Dependency
  /-- What is present, but not declared. -/
  extra : List Dependency
  /-- Why nothing can be installed now. -/
  outage : Option Text

namespace Registry

/-- Everything that is present. -/
def installed (r : Registry) : List Dependency := r.declared ++ r.extra

/-- The first dependency, anywhere in the trees, with this name and version. -/
def find? (r : Registry) (id : PackageId) : Option Dependency :=
  Dependency.findIn? id r.installed

/-- Install what the project declares. -/
def install (r : Registry) : Except Error (List Dependency) :=
  match r.outage with
  | some reason => .error (.toolchain reason)
  | none => .ok r.declared

end Registry

end SolPlan
