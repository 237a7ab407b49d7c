import SolPlan.Proofs.FileTree.Shape
import SolPlan.Proofs.ImportGraph.Composition

/-!
# What the imports of a source depend on

As long as nothing is corrected, what is found when a source is entered is a function of its own
text, of which files there are, and of the table that counts for it (`Findings.of`). Other sources
have no part in that: neither what their files hold, nor whether they can be read, nor when they are
entered. The table of the project plays no part either where a package has a table of its own
(`HasOwnTable`).

Results:
* `resolve_of_sameShape`: imports are resolved alike in trees of one shape;
* `of_sameText`: what is to be found of a source that has the same text in both;
* **`walk_local`**: two walks find the same imports of such a source.
-/

namespace SolPlan

/-- The source lies in the cache folder of a known package whose own table can be built. -/
def HasOwnTable (p : Project) (r : Registry) (id : SourceId) : Prop :=
  ∃ package dependency own, Project.packageOf? id = some package ∧
    r.find? package = some dependency ∧ RemappingTable.ofDependency p dependency = .ok own

variable {t t' : FileTree} {p : Project} {r : Registry} {table table' : RemappingTable}
  {id : SourceId}

/-- The table of the project does not count for a source whose package has its own. -/
theorem HasOwnTable.home_eq (h : HasOwnTable p r id) (table table' : RemappingTable) :
    home p r table id = home p r table' id := by
  obtain ⟨package, dependency, own, hpackage, hfind, hown⟩ := h
  unfold home
  rw [hpackage, Option.bind_some, hfind]
  dsimp only
  rw [hown]

/-- Imports are resolved alike in trees of one shape. -/
theorem Import.resolve_of_sameShape (h : t.SameShape t') :
    Import.resolve t p r = Import.resolve t' p r := by
  have hfile : t.isFile = t'.isFile := funext h.isFile_eq
  have hresolve : t.resolve = t'.resolve := funext h.resolve_eq
  funext table importing raw
  unfold Import.resolve findTarget findPath? repair? locate
  rw [hfile, hresolve]

/-- What is to be found of a source that has the same text in trees of one shape, if the same table
counts for it. -/
theorem Findings.of_sameText {text : Text} (hshape : t.SameShape t')
    (hhome : home p r table id = home p r table' id)
    (htext : t.readText (p.pathOf id) = .ok text) (htext' : t'.readText (p.pathOf id) = .ok text) :
    Findings.of t p r table id = Findings.of t' p r table' id := by
  have hlines : ImportLines.ofFile t (p.pathOf id) = ImportLines.ofFile t' (p.pathOf id) := by
    unfold ImportLines.ofFile
    rw [htext, htext']
  unfold Findings.of resolvedWith unreadable
  rw [hshape.isFile_eq, hlines, hhome, Import.resolve_of_sameShape hshape]

namespace ImportGraph

open Walk

/-- **What a source imports is its own affair.** Two walks, from any entries, over trees with the
same files and directories: if neither corrects anything, they find the same imports and statements
of each source that both enter and that has the same text in both. The tables of the project may
differ for a source whose package has a table of its own. -/
theorem walk_local {entries entries' : List SourceId} {text : Text} (hshape : t.SameShape t')
    (hquiet : CorrectsNothing t p r table entries)
    (hquiet' : CorrectsNothing t' p r table' entries')
    (hid : id ∈ (walk t p r table entries).imports)
    (hid' : id ∈ (walk t' p r table' entries').imports)
    (htext : t.readText (p.pathOf id) = .ok text) (htext' : t'.readText (p.pathOf id) = .ok text)
    (htable : table = table' ∨ HasOwnTable p r id) :
    (walk t p r table entries).directImports id =
        (walk t' p r table' entries').directImports id ∧
      (walk t p r table entries).statementsOf id =
        (walk t' p r table' entries').statementsOf id := by
  have hhome : home p r table id = home p r table' id := by
    rcases htable with rfl | hown
    · rfl
    · exact hown.home_eq table table'
  have hsame : (walk t p r table entries).findings id = (walk t' p r table' entries').findings id :=
    calc (walk t p r table entries).findings id
      _ = Findings.of t p r table id := (steady_walk hquiet (List.Subset.refl _) id).1 hid
      _ = Findings.of t' p r table' id := Findings.of_sameText hshape hhome htext htext'
      _ = (walk t' p r table' entries').findings id :=
        ((steady_walk hquiet' (List.Subset.refl _) id).1 hid').symm
  have himports := congrArg Findings.imports hsame
  have hstatements := congrArg Findings.statements hsame
  unfold findings at himports hstatements
  dsimp only at himports hstatements
  unfold directImports statementsOf
  rw [himports, hstatements]
  exact ⟨rfl, rfl⟩

/-- A project in the root directory. -/
def rootProject : Project := ⟨[], ⟨[]⟩, ⟨[], []⟩⟩

/-- A package that has its sources at its top, and a remapping of its own. -/
def plainPackage : Registry :=
  ⟨[.mk ⟨⟨['v'], ['1']⟩, ⟨"/p".toList⟩, ⟨[]⟩, ⟨["x=l".toList], []⟩⟩ []], [], none⟩

/-- The package is unpacked, and its file has an import that is remapped. The file of the project
cannot be read. -/
def packagedTree : FileTree :=
  ((FileTree.empty.place ⟨"/.cache/v/1/A".toList⟩ (some (.text "import 'x/B';".toList))).place
    ⟨"/l/B".toList⟩ (some (.text []))).place ⟨['/', 'b']⟩ (some (.text "import".toList))

/-- The file of the package. -/
def packagedFile : SourceId := .ofText ".cache/v/1/A".toList

/-- The walk from both files. -/
def firstWalk : ImportGraph :=
  walk packagedTree rootProject plainPackage .empty [.ofText ['b'], packagedFile]

/-- The walk from the file of the package, after the other was emptied, with another table. -/
def secondWalk : ImportGraph :=
  walk (packagedTree.put [⟨['b'], rfl⟩] (.file (.text []))) rootProject plainPackage
    (.ofList [(['x'], ['d'])]) [packagedFile]

/-- What the file of the package imports changes neither with the file of the project nor with its
table. -/
theorem walk_local_packaged :
    HasOwnTable rootProject plainPackage packagedFile ∧ packagedFile ∈ firstWalk.imports ∧
      packagedFile ∈ secondWalk.imports ∧
      firstWalk.directImports packagedFile = secondWalk.directImports packagedFile ∧
      firstWalk.statementsOf packagedFile = secondWalk.statementsOf packagedFile := by
  have hquiet : ∀ t table entries,
      CorrectsNothing t rootProject plainPackage table entries := fun t table entries =>
    correctsNothing_of_contractsName fun package d hfind => by
      unfold Registry.find? plainPackage Registry.installed at hfind
      simp only [List.append_nil, Dependency.findIn?, Dependency.find?] at hfind
      by_cases hpackage : (⟨['v'], ['1']⟩ : PackageId) = package
      · rw [if_pos hpackage] at hfind
        cases hfind
        rfl
      · rw [if_neg hpackage] at hfind
        cases hfind
  have hown : HasOwnTable rootProject plainPackage packagedFile :=
    ⟨⟨['v'], ['1']⟩, _, _, rfl, rfl, rfl⟩
  have hid : packagedFile ∈ firstWalk.imports :=
    mem_walk_iff.mpr ⟨packagedFile, by simp, Relation.ReflTransGen.refl⟩
  have hid' : packagedFile ∈ secondWalk.imports :=
    mem_walk_iff.mpr ⟨packagedFile, by simp, Relation.ReflTransGen.refl⟩
  have hbefore : packagedTree.entry? [⟨['b'], rfl⟩] = some (.file (.text "import".toList)) := by
    cbv
  have htext : packagedTree.readText (rootProject.pathOf packagedFile) =
      .ok "import 'x/B';".toList := by
    cbv
  have htext' : (packagedTree.put [⟨['b'], rfl⟩] (.file (.text []))).readText
      (rootProject.pathOf packagedFile) = .ok "import 'x/B';".toList := by
    cbv
  have hshape : packagedTree.SameShape (packagedTree.put [⟨['b'], rfl⟩] (.file (.text []))) :=
    FileTree.sameShape_put hbefore
  exact ⟨hown, hid, hid', walk_local hshape (hquiet _ _ _) (hquiet _ _ _) hid hid' htext htext'
    (Or.inr hown)⟩

end ImportGraph

end SolPlan
