import Mathlib.Data.List.Basic
import SolPlan.Proofs.Package.Order
import SolPlan.Remapping.Build

/-!
# What a table is built from

Building unpacks packages, and fails if that fails. What it writes to the table does not depend on
the tree: the project and its registry alone say which keys are to lead where, and in which order
(`recipe`). Of the project that takes the source folder and the entries in their order; of the
registry, what the entries mean, and what is declared, each with the packages below it.

Results:
* `build_ok`: what has happened in a build that succeeds;
* **`table_of_build`**: a table that was built is the one of its recipe;
* `build_table`: the table that is built does not depend on the tree.
-/

namespace SolPlan

/-! ## Recipes -/

/-- One thing that building does to a table. -/
inductive BuildStep where
  /-- An entry is taken as it is. -/
  | write (key value : Text)
  /-- A configured key claims the packages of this name. -/
  | claim (name key : Text)
  /-- Keys are to lead to a package at its place. -/
  | reach (id : PackageId) (place : Text)
deriving DecidableEq

/-- A table with the keys that claim packages, by the package's name. -/
structure Sheet where
  table : RemappingTable
  claims : Table Text Text

namespace Sheet

/-- Take one step. -/
def take (s : Sheet) : BuildStep → Sheet
  | .write key value => { s with table := s.table.insert key value }
  | .claim name key => { s with claims := s.claims.insert name key }
  | .reach id place =>
    { s with
      table := match s.claims.get? id.name with
        | some key => s.table.insertIfAbsent key place
        | none => (s.table.insertIfAbsent ('@' :: id.name) place).insertIfAbsent id.name place }

end Sheet

/-- The steps that lead to some packages. -/
def reachSteps (p : Project) (packages : List PackageId) : List BuildStep :=
  packages.map fun id => .reach id (p.cacheId id)

/-- What an entry means: the name of a known package, and the packages that it brings. -/
def RemapEntry.meaning (e : RemapEntry) (r : Registry) : Option (Text × List PackageId) :=
  ((e.target? r.installed).bind r.find?).map fun d => (d.id.name, d.packages)

/-- The steps of an entry. -/
def entrySteps (p : Project) (r : Registry) (e : RemapEntry) : List BuildStep :=
  match e.meaning r with
  | none => [.write e.key e.value]
  | some (name, packages) => .claim name e.key :: reachSteps p packages

/-- The entries that texts write. No table is built unless all can be read. -/
def readEntries (raws : List Text) : List RemapEntry :=
  raws.filterMap fun raw => (RemapEntry.ofText raw).toOption

theorem readEntries_cons {raw : Text} {raws : List Text} {e : RemapEntry}
    (h : RemapEntry.ofText raw = .ok e) : readEntries (raw :: raws) = e :: readEntries raws := by
  unfold readEntries
  rw [List.filterMap_cons, h]
  rfl

/-- All steps that build the table of a project. -/
def recipe (p : Project) (r : Registry) : List BuildStep :=
  (readEntries p.config.remappings).flatMap (entrySteps p r) ++
    (r.declared.map Dependency.packages).flatMap (reachSteps p)

/-- Two projects with their registries agree on what a table is built from. -/
structure SameRecipe (p : Project) (r : Registry) (p' : Project) (r' : Registry) : Prop where
  folder : p.contractsId = p'.contractsId
  entries : p.config.remappings = p'.config.remappings
  meanings : ∀ e ∈ readEntries p.config.remappings, e.meaning r = e.meaning r'
  declared : r.declared.map Dependency.packages = r'.declared.map Dependency.packages

theorem SameRecipe.recipe_eq {p p' : Project} {r r' : Registry} (h : SameRecipe p r p' r') :
    recipe p r = recipe p' r' := by
  have hplace : p.cacheId = p'.cacheId := funext fun id => by
    unfold Project.cacheId Project.cacheIdBelow
    rw [h.folder]
  have hreach : reachSteps p = reachSteps p' := by
    unfold reachSteps
    rw [hplace]
  unfold recipe
  rw [← h.entries, ← h.declared, hreach]
  congr 1
  refine List.flatMap_congr fun e he => ?_
  unfold entrySteps
  rw [h.meanings e he, hreach]

/-- The table that some steps build. -/
def RemappingTable.ofSteps (steps : List BuildStep) : RemappingTable :=
  (steps.foldl Sheet.take ⟨.empty, .empty⟩).table

namespace Draft

variable {p : Project} {r : Registry} {d e : Draft}

/-- The draft without its tree. -/
def sheet (d : Draft) : Sheet := ⟨d.table, d.claims⟩

theorem foldl_register (claims : Table Text Text) (table : RemappingTable) (l : List Unpacked) :
    (⟨l.foldl (register p claims) table, claims⟩ : Sheet) =
      ((l.map Unpacked.id).map fun id => BuildStep.reach id (p.cacheId id)).foldl Sheet.take
        ⟨table, claims⟩ := by
  induction l generalizing table with
  | nil => rfl
  | cons u l ih => exact ih _

theorem sheet_addDependency {dependency : Dependency}
    (h : d.addDependency p dependency = (e, .ok ())) :
    e.sheet = (reachSteps p dependency.packages).foldl Sheet.take d.sheet := by
  unfold addDependency at h
  split at h
  · cases h
  · rename_i t unpacked hunpack
    cases h
    have hids : unpacked.map Unpacked.id = dependency.packages :=
      Dependency.unpackAfter_ids dependency hunpack
    unfold reachSteps
    rw [← hids]
    exact foldl_register d.claims d.table unpacked

theorem sheet_addDependencies {dependencies : List Dependency}
    (h : addDependencies p dependencies d = (e, .ok ())) :
    e.sheet = ((dependencies.map Dependency.packages).flatMap (reachSteps p)).foldl Sheet.take
      d.sheet := by
  induction dependencies generalizing d with
  | nil =>
    cases h
    rfl
  | cons dependency dependencies ih =>
    unfold addDependencies at h
    split at h
    · cases h
    · rename_i hfirst
      rw [ih h, sheet_addDependency hfirst, List.map_cons, List.flatMap_cons, List.foldl_append]

theorem sheet_addEntry {entry : RemapEntry} (h : d.addEntry p r entry = (e, .ok ())) :
    e.sheet = (entrySteps p r entry).foldl Sheet.take d.sheet := by
  unfold addEntry at h
  unfold entrySteps RemapEntry.meaning
  split at h
  · rename_i hnone
    rw [hnone]
    cases h
    rfl
  · rename_i dependency hsome
    rw [hsome]
    exact sheet_addDependency h

theorem sheet_addEntries {raws : List Text} (h : addEntries p r raws d = (e, .ok ())) :
    e.sheet = ((readEntries raws).flatMap (entrySteps p r)).foldl Sheet.take d.sheet := by
  induction raws generalizing d with
  | nil =>
    cases h
    rfl
  | cons raw raws ih =>
    unfold addEntries at h
    split at h
    · cases h
    · rename_i entry hentry
      split at h
      · cases h
      · rename_i hfirst
        rw [ih h, sheet_addEntry hfirst, readEntries_cons hentry, List.flatMap_cons,
          List.foldl_append]

/-- First the entries are added, and then what is declared. -/
theorem addAll_ok {declared : List Dependency} (h : d.addAll p r declared = (e, .ok ())) :
    ∃ d₁, d.addEntries p r p.config.remappings = (d₁, .ok ()) ∧
      d₁.addDependencies p declared = (e, .ok ()) := by
  unfold addAll at h
  split at h
  · cases h
  · exact ⟨_, ‹_›, h⟩

theorem sheet_addAll (h : d.addAll p r r.declared = (e, .ok ())) :
    e.sheet = (recipe p r).foldl Sheet.take d.sheet := by
  obtain ⟨d₁, hentries, hdeclared⟩ := addAll_ok h
  unfold recipe
  rw [sheet_addDependencies hdeclared, sheet_addEntries hentries, List.foldl_append]

end Draft

/-- What is installed is what is declared. -/
theorem Registry.declared_of_install {r : Registry} {declared : List Dependency}
    (h : r.install = .ok declared) : declared = r.declared := by
  unfold install at h
  split at h
  · cases h
  · exact (Except.ok.inj h).symm

namespace RemappingTable

variable {p : Project} {r : Registry} {a b a' b' : Depot} {table table' : RemappingTable}

theorem exists_of_isOk (h : (build p r a).2.isOk = true) :
    ∃ b table, build p r a = (b, .ok table) := by
  cases hbuild : build p r a with
  | mk b answer =>
    cases answer with
    | error e => rw [hbuild] at h; cases h
    | ok table => exact ⟨b, table, rfl⟩

/-- **A build that succeeds**: the cache folder is created, and then all is added. -/
theorem build_ok (h : build p r a = (b, .ok table)) :
    ∃ tree draft, r.install = .ok r.declared ∧
      a.tree.makeDirectories p.cacheFolder = (tree, .ok ()) ∧
      Draft.addAll p r r.declared ⟨tree, .empty, .empty⟩ = (draft, .ok ()) ∧
      b = ⟨draft.tree, a.requests + 1⟩ ∧ table = draft.table := by
  unfold build at h
  split at h
  · cases h
  · rename_i depot declared hinstall
    obtain rfl : declared = r.declared := r.declared_of_install (congrArg Prod.snd hinstall)
    obtain ⟨rfl, hok⟩ := Prod.mk.inj hinstall
    split at h
    · cases h
    · rename_i tree hmake
      split at h
      · cases h
      · rename_i draft hall
        cases h
        exact ⟨tree, draft, hok, hmake, hall, rfl, rfl⟩

/-- **A table that was built is the one of its recipe.** -/
theorem table_of_build (h : build p r a = (b, .ok table)) : table = ofSteps (recipe p r) := by
  obtain ⟨tree, draft, -, -, hall, -, rfl⟩ := build_ok h
  exact congrArg Sheet.table (Draft.sheet_addAll hall)

/-- The table that is built does not depend on the tree. -/
theorem build_table (h : build p r a = (b, .ok table)) (h' : build p r a' = (b', .ok table')) :
    table = table' :=
  (table_of_build h).trans (table_of_build h').symm

end RemappingTable

end SolPlan
