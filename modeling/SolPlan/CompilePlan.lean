import SolPlan.Compiler.VersionMap
import SolPlan.ImportGraph.Walk
import SolPlan.Remapping.Cache

/-!
# Compile plans

A plan divides sources and everything they import into jobs, one for each compiler version. Making
one needs a project, its registry and a toolchain; it changes the file tree, the cache of remapping
tables and the log of the toolchain, also when it fails (`Workshop`).

Planning fails if a path is no source, if a source that was reached cannot be read or parsed, if
some import stays unresolved, or if no compiler will do for some source. Corrections of remappings
are kept in the cache in any case.

`make` is `plan` of the `CompilePlanner`, and `makeAll` is `plan_all`. A planner holds on to a
project, a registry, a toolchain and a cache: the first three are parameters here, and the cache is
in the workshop, with the file tree and with what the toolchain was asked.
-/

namespace SolPlan

/-- One run of a compiler. -/
structure CompileJob where
  version : Version
  /-- The sources to compile, in order. -/
  sources : List SourceId
  /-- The remappings that the sources use. -/
  remappings : RemappingTable
  /-- The source folder, for compilers that accept it. -/
  basePath : Option Path

/-- A division of sources into jobs, and what it was made from. -/
structure CompilePlan where
  jobs : List CompileJob
  graph : ImportGraph
  versions : VersionMap

/-- What planning changes: the file tree with the number of calls to `install`, the cache of the
planner, and the log of the toolchain. -/
structure Workshop where
  depot : Depot
  cache : RemappingCache
  log : ToolchainLog

/-- The constraints of some sources. -/
def PragmaTable.load (t : FileTree) (p : Project) (ids : List SourceId) :
    Except Error PragmaTable := do
  let pairs ← ids.mapM fun id => do
    let text ← t.readText (p.pathOf id)
    return (id, Pragma.ofText? text)
  return .ofList pairs

namespace CompilePlan

/-- The first release that accepts a base path. -/
def basePathSince : Version := .release 0 6 9

/-- Does the value occur in the id of a source? -/
def occursInSource (value : Text) (sources : List SourceId) : Bool :=
  sources.any fun id => RemappingTable.Occurs value id.text

/-- The remappings for some sources: those that their imports use, and those that lead to one of
them. -/
def remappingsFor (g : ImportGraph) (sources : List SourceId) : RemappingTable :=
  (g.remapping.pairs.filter fun entry => occursInSource entry.2 sources).foldl
    (fun table entry => table.insertIfAbsent entry.1 entry.2) (g.remappingsUsed sources)

/-- The job of a group. -/
def job (p : Project) (g : ImportGraph) (v : Version) (sources : SourceSet) : CompileJob where
  version := v
  sources := sources.toList
  remappings := remappingsFor g sources.toList
  basePath := if (compare basePathSince v).isLE then some p.contracts else none

/-- The job that compiles a source. -/
def jobFor? (plan : CompilePlan) (id : SourceId) : Option CompileJob :=
  plan.jobs.find? fun job => job.sources.contains id

/-- The plan for a graph whose sources can be grouped. -/
def ofVersions (p : Project) (g : ImportGraph) (m : VersionMap) : CompilePlan where
  jobs := m.groups.toList.map fun (v, sources) => job p g v sources
  graph := g
  versions := m

/-- The constraints of the sources of a graph in which nothing is wrong. -/
def pragmasOf (t : FileTree) (p : Project) (g : ImportGraph) : Except Error PragmaTable :=
  match g.firstError?, g.unresolved.head? with
  | some e, _ => .error e
  | none, some (importer, i) => .error (.missingSource i.literal (some importer.text))
  | none, none => PragmaTable.load t p g.sources

/-- Group the sources of a graph by version. -/
def versionsOf (tools : Toolchain) (g : ImportGraph) (pragmas : PragmaTable)
    (entries : List SourceId) (log : ToolchainLog) : ToolchainLog × Except Error VersionMap :=
  match Selector.start tools log with
  | .error e => (log, .error e)
  | .ok selector =>
    match VersionMap.compute tools g pragmas entries selector with
    | (selector, .error e) => (selector.log, .error e)
    | (selector, .ok m) => (selector.log, .ok (m.consolidate g))

/-- The entries of some paths: their ids in order, each once. -/
def entriesOf (t : FileTree) (p : Project) (paths : List Path) : List SourceId :=
  (Std.ExtTreeSet.ofList (paths.map (p.sourceId t)) : SourceSet).toList

/-- Plan the compilation of entries whose imports were walked. -/
def ofGraph (p : Project) (tools : Toolchain) (g : ImportGraph) (entries : List SourceId)
    (w : Workshop) : Workshop × Except Error CompilePlan :=
  match pragmasOf w.depot.tree p g with
  | .error e => (w, .error e)
  | .ok pragmas =>
    match versionsOf tools g pragmas entries w.log with
    | (log, .error e) => ({ w with log }, .error e)
    | (log, .ok m) => ({ w with log }, .ok (ofVersions p g m))

/-- Plan the compilation of some paths and of everything they import. -/
def make (p : Project) (r : Registry) (tools : Toolchain) (paths : List Path) (w : Workshop) :
    Workshop × Except Error CompilePlan :=
  match Project.verifySources paths with
  | .error e => (w, .error e)
  | .ok () =>
    let entries := entriesOf w.depot.tree p paths
    match w.cache.get p r w.depot with
    | (cache, depot, .error e) => ({ w with cache, depot }, .error e)
    | (cache, depot, .ok table) =>
      let g := ImportGraph.walk depot.tree p r table entries
      ofGraph p tools g entries { w with cache := cache.correct p g.corrections, depot }

/-- Plan the compilation of all source files of the project. -/
def makeAll (p : Project) (r : Registry) (tools : Toolchain) (w : Workshop) :
    Workshop × Except Error CompilePlan :=
  match p.sourceFiles w.depot.tree with
  | .error e => (w, .error e)
  | .ok ids => make p r tools (ids.map p.pathOf) w

end CompilePlan

end SolPlan
