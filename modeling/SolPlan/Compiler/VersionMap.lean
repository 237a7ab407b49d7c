import SolPlan.Compiler.Toolchain
import SolPlan.ImportGraph

/-!
# Version maps

A version map groups sources by the compiler that builds them. Each file has a version of its own
(`resolve`):

* a pinned file keeps its pin;
* otherwise the first pinned source among its transitive imports, in the order of ids, decides;
* otherwise it is the least of the best versions of the file and of its transitive imports.

A file and all its transitive imports are in the group of the file's version, so a source can be in
several groups. `consolidate` leaves each in one. `compute` is `compute_version_map`.
-/

namespace SolPlan

/-- Sources by version. -/
structure VersionMap where
  groups : Std.ExtTreeMap Version SourceSet
  /-- The version of each file, before grouping. -/
  resolved : Std.ExtTreeMap SourceId Version

namespace VersionMap

/-- The map without files. -/
def empty : VersionMap := ⟨∅, ∅⟩

/-- The sources of a version. -/
def group (m : VersionMap) (v : Version) : SourceSet := m.groups[v]?.getD ∅

/-- The versions in whose groups a source is. -/
def versionsOf (m : VersionMap) (id : SourceId) : List Version :=
  (m.groups.toList.filter fun (_, files) => files.contains id).map Prod.fst

/-- Put sources into the group of a version. -/
def add (m : VersionMap) (v : Version) (files : List SourceId) : VersionMap :=
  { m with groups := m.groups.insert v (files.foldl (fun group id => group.insert id) (m.group v)) }

/-! ## Computing a map -/

/-- Files with everything that they import. -/
def closure (g : ImportGraph) (files : List SourceId) : SourceSet :=
  .ofList (files.flatMap fun file => file :: (g.transitiveImports file).toList)

/-- Lower a version to the best ones of imports, up to the first that is pinned. -/
def lower (pragmas : PragmaTable) (best : Std.ExtTreeMap SourceId Version) :
    Version → List SourceId → Version
  | v, [] => v
  | v, id :: imports =>
    match best[id]? with
    | none => lower pragmas best v imports
    | some b =>
      if pragmas.isExactPin id then b
      else lower pragmas best (if compare b v = .lt then b else v) imports

/-- The version of a file, from the best versions of all. -/
def resolve (g : ImportGraph) (pragmas : PragmaTable) (best : Std.ExtTreeMap SourceId Version)
    (file : SourceId) (own : Version) : Version :=
  if pragmas.isExactPin file then own
  else lower pragmas best own (g.transitiveImports file).toList

/-- Add a file with its version and its imports. -/
def addFile (g : ImportGraph) (pragmas : PragmaTable) (best : Std.ExtTreeMap SourceId Version)
    (m : VersionMap) (file : SourceId) (own : Version) : VersionMap :=
  let v := resolve g pragmas best file own
  let m := m.add v (file :: (g.transitiveImports file).toList)
  { m with resolved := m.resolved.insert file v }

/-- Group some files and everything they import. -/
def compute (tools : Toolchain) (g : ImportGraph) (pragmas : PragmaTable) (files : List SourceId)
    (s : Selector) : Selector × Except Error VersionMap :=
  match s.selectAll tools pragmas (closure g files).toList with
  | (s, .error e) => (s, .error e)
  | (s, .ok best) => (s, .ok (best.foldl (addFile g pragmas best) empty))

/-! ## One group for each source -/

/-- Take a source out of a group. -/
def drop (m : VersionMap) (v : Version) (id : SourceId) : VersionMap :=
  match m.groups[v]? with
  | some files => { m with groups := m.groups.insert v (files.erase id) }
  | none => m

/-- Does another source of the group import this one? -/
def isNeeded (g : ImportGraph) (files : SourceSet) (id : SourceId) : Bool :=
  files.toList.any fun other => other ≠ id && (g.transitiveImports other).contains id

/-- Take a source out of a group that it shares with others, unless the group is that of its own
version or needs it. -/
def dropUnneeded (g : ImportGraph) (v : Version) (m : VersionMap) (id : SourceId) : VersionMap :=
  if (m.versionsOf id).length < 2 ∨ m.resolved[id]? = some v then m
  else if isNeeded g (m.group v) id then m
  else m.drop v id

/-- Take sources out of the groups that do not need them. -/
def trim (g : ImportGraph) (m : VersionMap) : VersionMap :=
  m.groups.keys.foldl (fun m v => (m.group v).toList.foldl (dropUnneeded g v) m) m

/-- The group that a shared source stays in: that of its own version, or the highest. -/
def home? (m : VersionMap) (id : SourceId) : Option Version :=
  let holders := m.versionsOf id
  match m.resolved[id]? with
  | some own => if own ∈ holders then some own else holders.getLast?
  | none => holders.getLast?

/-- Leave a source in one group. -/
def settle (m : VersionMap) (id : SourceId) : VersionMap :=
  match m.home? id with
  | none => m
  | some home => ((m.versionsOf id).filter (· ≠ home)).foldl (fun m v => m.drop v id) m

/-- The sources that are in several groups. -/
def shared (m : VersionMap) : SourceSet :=
  .ofList ((m.groups.toList.flatMap fun (_, files) => files.toList).filter fun id =>
    1 < (m.versionsOf id).length)

/-- Leave each source in one group. First sources leave the groups that do not need them; what is
shared after that stays in the group of its own version, or in the highest. -/
def consolidate (g : ImportGraph) (m : VersionMap) : VersionMap :=
  let m := m.trim g
  let m := m.shared.toList.foldl settle m
  { m with groups := m.groups.filter fun _ files => !files.isEmpty }

end VersionMap

end SolPlan
