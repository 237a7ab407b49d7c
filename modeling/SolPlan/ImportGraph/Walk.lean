import SolPlan.Import.Lines
import SolPlan.Import.Resolve
import SolPlan.ImportGraph
import SolPlan.Remapping.Build

/-!
# Walking imports

From entry files the walk (`build_import_graph`) follows imports depth first, and **enters each
source once**. A source is on the `stack` while its imports are followed. Reaching one on the stack
again closes an import cycle, which is counted; any other source that was entered before is passed
by.

The imports of a source in the cache folder of a known package are resolved with the package's own
table, which is built when the first source of the package is entered. All others are resolved with
the table of the project. A correction is written to the table that gave rise to it, at once, so
later imports see it.

What is wrong with one source is recorded for it, and the walk goes on.

The walk ends because only files have imports to follow, and few ids lead to files: `unread` holds
those under which files can still be entered (`enterable`), and shrinks with every file.
-/

namespace SolPlan

/-- A walk that is under way. -/
structure Walk where
  graph : ImportGraph
  /-- The tables of packages whose sources were entered. -/
  tables : Std.ExtTreeMap PackageId RemappingTable
  /-- The ids under which files can still be entered. -/
  unread : SourceSet

/-- A source on the stack, with the imports that are still to be followed. -/
structure Frame where
  id : SourceId
  pending : List SourceId

namespace Walk

variable (t : FileTree) (p : Project) (r : Registry)

/-- Note what is wrong with a source. -/
def record (w : Walk) (id : SourceId) (e : Error) : Walk :=
  { w with graph := w.graph.record id e }

/-! ## The imports of one file -/

/-- Build the table of the package in whose cache folder a source lies, if it is known and has
none yet. -/
def ensureTable (w : Walk) (id : SourceId) (package : PackageId) : Walk :=
  if w.tables.contains package then w
  else
    match r.find? package with
    | none => w
    | some dependency =>
      match RemappingTable.ofDependency p dependency with
      | .ok table => { w with tables := w.tables.insert package table }
      | .error e => w.record id e

/-- The package whose table counts for the sources of another, if it has one. -/
def context? (w : Walk) (package : Option PackageId) : Option (PackageId × RemappingTable) :=
  package.bind fun id => w.tables[id]?.map (id, ·)

/-- The table that counts for the sources of a package, or of the project. -/
def tableFor (w : Walk) (package : Option PackageId) : RemappingTable :=
  match w.context? package with
  | some (_, table) => table
  | none => w.graph.remapping

/-- Write a correction to the table that counts. -/
def correct (w : Walk) (package : Option PackageId) (c : Correction) : Walk :=
  match w.context? package with
  | some (id, table) => { w with tables := w.tables.insert id (table.correct c) }
  | none =>
    { w with graph := { w.graph with
        remapping := w.graph.remapping.correct c
        corrections := w.graph.corrections ++ [c] } }

/-- Write a correction, if there is one. -/
def correctMaybe (w : Walk) (package : Option PackageId) : Option Correction → Walk
  | some c => w.correct package c
  | none => w

/-- Resolve statements one after the other, after those that are `done`. -/
def resolveAll (id : SourceId) (path : Path) (package : Option PackageId) :
    List Text → Walk → List Import → Walk × List Import
  | [], w, done => (w, done)
  | raw :: more, w, done =>
    match Import.resolve t p r (w.tableFor package) path raw with
    | .error e => resolveAll id path package more (w.record id e) done
    | .ok resolution =>
      resolveAll id path package more (w.correctMaybe package resolution.correction)
        (resolution.statement.addTo done)

/-- The targets of imports. -/
def targets (imports : List Import) : SourceSet :=
  .ofList (imports.filterMap fun i => i.target.map Target.id)

/-- Read the imports of a file: the walk after that, and the file's direct imports. -/
def visit (w : Walk) (id : SourceId) : Walk × SourceSet :=
  let path := p.pathOf id
  match ImportLines.ofFile t path with
  | .error e => (w.record id e, ∅)
  | .ok statements =>
    let package := Project.packageOf? id
    let w := match package with
      | some package => w.ensureTable p r id package
      | none => w
    let (w, imports) := resolveAll t p r id path package statements w []
    ({ w with graph := { w.graph with statements := w.graph.statements.insert id imports } },
      targets imports)

/-! ## Following imports -/

/-- Note the direct imports of a source, which is entered thereby. -/
def enterWith (w : Walk) (id : SourceId) (imports : SourceSet) : Walk :=
  { w with graph := { w.graph with imports := w.graph.imports.insert id imports } }

/-- Enter a source. A file has its imports to be followed; a source that is missing has none. -/
def enter (w : Walk) (id : SourceId) (importer : Option SourceId) : Frame × Walk :=
  if t.isFile (p.pathOf id) ∧ id ∈ w.unread then
    let (w', imports) := w.visit t p r id
    (⟨id, imports.toList⟩, { w'.enterWith id imports with unread := w.unread.erase id })
  else
    (⟨id, []⟩,
      (w.record id (.missingSource id.text (importer.map SourceId.text))).enterWith id ∅)

/-- How many steps the frames of a stack still take, if no file is entered. -/
def weight (stack : List Frame) : Nat :=
  stack.foldr (fun f n => 2 * f.pending.length + 1 + n) 0

theorem enter_unread (w : Walk) (id : SourceId) (importer : Option SourceId) :
    (w.enter t p r id importer).2.unread.size < w.unread.size ∨
      ((w.enter t p r id importer).2.unread = w.unread ∧
        (w.enter t p r id importer).1.pending = []) := by
  unfold enter
  split
  · exact .inl (SourceSet.size_erase_lt (And.right ‹_›))
  · exact .inr ⟨rfl, rfl⟩

/-- Count an import cycle. -/
def countCycle (w : Walk) : Walk :=
  { w with graph := { w.graph with cycles := w.graph.cycles + 1 } }

/-- Follow the imports of the sources on the stack until it is empty. -/
def follow (w : Walk) (stack : List Frame) : Walk :=
  match stack with
  | [] => w
  | ⟨_, []⟩ :: stack => w.follow stack
  | ⟨id, next :: pending⟩ :: stack =>
    let stack := ⟨id, pending⟩ :: stack
    if stack.any (·.id = next) then w.countCycle.follow stack
    else if w.graph.contains next then w.follow stack
    else
      let entered := w.enter t p r next (some id)
      entered.2.follow (entered.1 :: stack)
termination_by (w.unread.size, weight stack)
decreasing_by
  · apply Prod.Lex.right
    simp [weight]
  · apply Prod.Lex.right
    simp [weight]
  · apply Prod.Lex.right
    simp [weight]
  · rcases w.enter_unread t p r next (some id) with h | ⟨h, hp⟩
    · exact Prod.Lex.left _ _ h
    · simp only [h]
      apply Prod.Lex.right
      simp [weight, hp]
      omega

/-- Walk from an entry, unless it was entered before. -/
def walkFrom (w : Walk) (entry : SourceId) : Walk :=
  if w.graph.contains entry then w
  else
    let (frame, w) := w.enter t p r entry none
    w.follow t p r [frame]

/-- The ids under which files of a tree can be entered: the entries, and the ways from the project
root to everything in the tree. A relative import can climb above the root directory, which leads
back into it. Directories count too: a name that holds a backslash has an id that leads elsewhere,
maybe to a file. -/
def enterable (entries : List SourceId) : SourceSet :=
  let places := ([] :: t.entries.keys).map Location.path
  let ways := places.flatMap fun place =>
    [SourceId.ofPath place p.rootPath, SourceId.ofPath ⟨['/', '.', '.'] ++ place.text⟩ p.rootPath]
  .ofList (entries ++ ways)

end Walk

/-- Walk the imports of some entries and of everything they reach. -/
def ImportGraph.walk (t : FileTree) (p : Project) (r : Registry) (table : RemappingTable)
    (entries : List SourceId) : ImportGraph :=
  (entries.foldl (Walk.walkFrom t p r)
    ⟨.start table, ∅, Walk.enterable t p entries⟩).graph

end SolPlan
