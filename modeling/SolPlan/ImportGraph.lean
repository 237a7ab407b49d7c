import Std.Data.ExtTreeSet
import SolPlan.Import
import SolPlan.Remapping.Table

/-!
# Import graphs

What a walk over imports has found (`SourceTree`): for each source that was reached its direct
imports, its import statements and what was wrong with it; then the remapping table with the
corrections that were made to it, and the number of import cycles that were met.

* `transitiveImports` closes the direct imports of a source, leaving out the source itself. It
  takes sources off a list of `unseen` ones, so it ends on every graph.
-/

namespace SolPlan

/-- A set of sources, in the order of their ids. -/
abbrev SourceSet := Std.ExtTreeSet SourceId

theorem SourceSet.size_erase_lt {s : SourceSet} {id : SourceId} (h : id ∈ s) :
    (s.erase id).size < s.size := by
  have hs : s.size ≠ 0 := fun h0 => by
    rw [← Std.ExtTreeSet.eq_empty_iff_size_eq_zero] at h0
    simp [h0] at h
  simp only [Std.ExtTreeSet.size_erase, Std.ExtTreeSet.contains_iff_mem, h, if_true]
  omega

/-- The imports of the sources that were reached. -/
structure ImportGraph where
  imports : Std.ExtTreeMap SourceId SourceSet
  statements : Std.ExtTreeMap SourceId (List Import)
  errors : Std.ExtTreeMap SourceId (List Error)
  remapping : RemappingTable
  corrections : List Correction
  cycles : Nat

namespace ImportGraph

/-- The graph of a walk that has reached nothing. -/
def start (table : RemappingTable) : ImportGraph := ⟨∅, ∅, ∅, table, [], 0⟩

/-- Was the source reached? -/
def contains (g : ImportGraph) (id : SourceId) : Bool := g.imports.contains id

/-- The sources that were reached, in order. -/
def sources (g : ImportGraph) : List SourceId := g.imports.keys

/-- The direct imports of a source. -/
def directImports (g : ImportGraph) (id : SourceId) : SourceSet := g.imports[id]?.getD ∅

/-- The import statements of a source. -/
def statementsOf (g : ImportGraph) (id : SourceId) : List Import := g.statements[id]?.getD []

/-- The statements without a target, with the sources that hold them. -/
def unresolved (g : ImportGraph) : List (SourceId × Import) :=
  g.sources.flatMap fun id =>
    ((g.statementsOf id).filter fun i => !i.isResolved).map fun i => (id, i)

/-- Note what is wrong with a source. -/
def record (g : ImportGraph) (id : SourceId) (e : Error) : ImportGraph :=
  { g with errors := g.errors.insert id (g.errors[id]?.getD [] ++ [e]) }

/-- The first error of the first source that has one. -/
def firstError? (g : ImportGraph) : Option Error := (g.errors.toList.flatMap Prod.snd).head?

/-! ## Transitive imports -/

/-- Everything that some source imports. -/
def imported (g : ImportGraph) : SourceSet :=
  g.imports.foldl (fun all _ imports => imports.foldl (fun all id => all.insert id) all) ∅

/-- Take from `unseen` what is on the list, and what it imports. What remains unseen cannot be
reached. -/
def dropReached (g : ImportGraph) (unseen : SourceSet) (todo : List SourceId) : SourceSet :=
  match todo with
  | [] => unseen
  | id :: todo =>
    if id ∈ unseen then
      g.dropReached (unseen.erase id) ((g.directImports id).toList ++ todo)
    else g.dropReached unseen todo
termination_by (unseen.size, todo.length)
decreasing_by
  · exact Prod.Lex.left _ _ (SourceSet.size_erase_lt ‹_›)
  · apply Prod.Lex.right
    simp

/-- Everything that a source imports, directly or not, apart from itself. -/
def transitiveImports (g : ImportGraph) (id : SourceId) : SourceSet :=
  let others := g.imported.erase id
  let unseen := g.dropReached others (g.directImports id).toList
  others.filter fun other => !unseen.contains other

/-! ## Remappings in use -/

/-- The table with the remapping that an import was expanded with. -/
def noteRemapping (table : RemappingTable) (i : Import) : RemappingTable :=
  match i.remapping with
  | some (key, value) => table.insert key value
  | none => table

/-- The remappings with which the imports of some sources were expanded. -/
def remappingsUsed (g : ImportGraph) (ids : List SourceId) : RemappingTable :=
  (ids.flatMap g.statementsOf).foldl noteRemapping .empty

end ImportGraph

end SolPlan
