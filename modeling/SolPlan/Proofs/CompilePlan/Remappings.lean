import SolPlan.Proofs.CompilePlan.Jobs
import SolPlan.Proofs.Import.Resolve
import SolPlan.Proofs.ImportGraph.Rewalk
import SolPlan.Proofs.ImportGraph.Statements

/-!
# The remappings of a job

A job has one table for the imports of all its sources, with one value for each key. So it can be
faithful to the plan (`CompileJob.Faithful`) only if no two imports of its sources were expanded
with one key and different values; of several values the last counts (`lastUse`). Imports of the
project agree as long as nothing is corrected, since they are all expanded with the same table. A
package has a table of its own, in which a key of the project can stand for something else.

Results:
* `get?_remappingsFor`: what the table of a job holds for a key that its imports use;
* **`remappings_of_make`**: for which imports the jobs of a plan are faithful;
* `not_faithful`: a job that is not.
-/

namespace SolPlan

namespace Table

variable {κ ν : Type} [DecidableEq κ] {t : Table κ ν} {k : κ} {v : ν}

/-- The value of the last pair with a key. -/
def lastValue (l : List (κ × ν)) (k : κ) : Option ν :=
  l.reverse.lookup k

/-- A key that occurs has a last value. -/
theorem exists_lastValue {l : List (κ × ν)} (h : (k, v) ∈ l) :
    ∃ v', lastValue l k = some v' ∧ (k, v') ∈ l := by
  have hsome : (lastValue l k).isSome = true :=
    List.lookup_isSome_iff.mpr ⟨(k, v), List.mem_reverse.mpr h, beq_self_eq_true k⟩
  obtain ⟨v', hv'⟩ := Option.isSome_iff_exists.mp hsome
  obtain ⟨front, back, hsplit, -⟩ := List.lookup_eq_some_iff.mp hv'
  refine ⟨v', hv', List.mem_reverse.mp ?_⟩
  rw [hsplit]
  exact List.mem_append_right _ List.mem_cons_self

/-- The last write to a key counts. -/
theorem get?_foldl_insert (l : List (κ × ν)) (t : Table κ ν) (k : κ) :
    (l.foldl (fun t e => t.insert e.1 e.2) t).get? k = (lastValue l k).or (t.get? k) := by
  unfold lastValue
  induction l generalizing t with
  | nil => rfl
  | cons e l ih =>
    have he : [e].lookup k = if k = e.1 then some e.2 else none := lookup_cons e.1 e.2 [] k
    rw [List.foldl_cons, ih, get?_insert, List.reverse_cons, List.lookup_append, he,
      Option.or_assoc]
    split <;> rfl

theorem get?_foldl_insertIfAbsent (l : List (κ × ν)) (h : t.get? k = some v) :
    (l.foldl (fun t e => t.insertIfAbsent e.1 e.2) t).get? k = some v := by
  induction l generalizing t with
  | nil => exact h
  | cons e l ih =>
    refine ih ?_
    rw [get?_insertIfAbsent, if_neg]
    · exact h
    · rintro ⟨hnew, rfl⟩
      exact hnew (mem_keys_of_get? h)

end Table

/-! ## The remappings that are used -/

namespace ImportGraph

variable {g : ImportGraph} {ids : List SourceId} {k v : Text}

/-- The remappings with which the imports of some sources were expanded, in the order of the sources
and their imports. -/
def uses (g : ImportGraph) (ids : List SourceId) : List (Text × Text) :=
  (ids.flatMap g.statementsOf).filterMap Import.remapping

/-- The value of the last use of a key. -/
def lastUse (g : ImportGraph) (ids : List SourceId) (k : Text) : Option Text :=
  Table.lastValue (g.uses ids) k

theorem mem_uses {e : Text × Text} :
    e ∈ g.uses ids ↔ ∃ id ∈ ids, ∃ i ∈ g.statementsOf id, i.remapping = some e := by
  unfold uses
  simp only [List.mem_filterMap, List.mem_flatMap]
  constructor
  · rintro ⟨i, ⟨id, hid, hi⟩, he⟩
    exact ⟨id, hid, i, hi, he⟩
  · rintro ⟨id, hid, i, hi, he⟩
    exact ⟨i, ⟨id, hid, hi⟩, he⟩

theorem get?_remappingsUsed (g : ImportGraph) (ids : List SourceId) (k : Text) :
    (g.remappingsUsed ids).get? k = g.lastUse ids k := by
  have hfold : g.remappingsUsed ids = (g.uses ids).foldl (fun t e => t.insert e.1 e.2) .empty := by
    unfold remappingsUsed uses
    rw [List.foldl_filterMap]
    congr 1
    funext table i
    unfold noteRemapping
    cases i.remapping <;> rfl
  have hempty : (Table.empty : RemappingTable).get? k = none := rfl
  rw [hfold, Table.get?_foldl_insert, hempty, Option.or_none]
  rfl

end ImportGraph

/-! ## Imports of the project -/

section

variable {t : FileTree} {p : Project} {r : Registry} {table : RemappingTable} {path : Path}

/-- The imports of a file are what its statements resolve to. -/
theorem mem_resolvedWith {lines : List Text} {done : List Import} {i : Import}
    (h : i ∈ resolvedWith t p r table path lines done) :
    i ∈ done ∨ ∃ raw ∈ lines, ∃ res, Import.resolve t p r table path raw = .ok res ∧
      res.statement = i := by
  unfold resolvedWith at h
  induction lines generalizing done with
  | nil => exact Or.inl h
  | cons raw lines ih =>
    rw [List.foldl_cons] at h
    rcases ih h with h | ⟨raw', hraw, res, hres, hi⟩
    · cases hres : Import.resolve t p r table path raw with
      | error e =>
        rw [hres] at h
        exact Or.inl h
      | ok res =>
        rw [hres] at h
        rcases Import.mem_addTo h with h | rfl
        · exact Or.inl h
        · exact Or.inr ⟨raw, List.mem_cons_self, res, hres, rfl⟩
    · exact Or.inr ⟨raw', List.mem_cons_of_mem _ hraw, res, hres, hi⟩

/-- If nothing is corrected, imports of the project are expanded with entries of its table. -/
theorem ImportGraph.mem_remapping_of_ofProject {entries : List SourceId}
    (hclean : (walk t p r table entries).Clean)
    (hnil : (walk t p r table entries).corrections = []) {id : SourceId}
    (hid : id ∈ (walk t p r table entries).imports) (hproject : OfProject r id) {i : Import}
    (hi : i ∈ (walk t p r table entries).statementsOf id) {e : Text × Text}
    (he : i.remapping = some e) : e ∈ (walk t p r table entries).remapping.pairs := by
  obtain ⟨lines, hlines⟩ := exists_lines_of_clean hclean hid
  obtain ⟨hquiet, hstatements⟩ :=
    settled_of_corrections_nil hclean hnil id hid hproject lines hlines
  rw [← hstatements] at hi
  rcases mem_resolvedWith hi with hi | ⟨raw, hraw, res, hres, rfl⟩
  · exact absurd hi List.not_mem_nil
  · exact Import.mem_of_resolve hres (hquiet raw hraw res hres) he

end

/-! ## The table of a job -/

/-- The table of a job holds everything with which the imports of its sources were expanded. -/
def CompileJob.Faithful (job : CompileJob) (g : ImportGraph) : Prop :=
  ∀ id ∈ job.sources, ∀ i ∈ g.statementsOf id, ∀ e ∈ i.remapping,
    job.remappings.get? e.1 = some e.2

instance (job : CompileJob) (g : ImportGraph) : Decidable (job.Faithful g) := by
  unfold CompileJob.Faithful
  infer_instance

namespace CompilePlan

variable {p : Project} {r : Registry} {tools : Toolchain} {paths : List Path} {w w' : Workshop}
  {plan : CompilePlan} {job : CompileJob} {g : ImportGraph}

theorem get?_remappingsFor {ids : List SourceId} {k v : Text} (h : g.lastUse ids k = some v) :
    (remappingsFor g ids).get? k = some v := by
  refine Table.get?_foldl_insertIfAbsent _ ?_
  rw [g.get?_remappingsUsed, h]

theorem Made.remappings_eq {table : RemappingTable} {pragmas : PragmaTable}
    (h : Made p r tools paths w table pragmas w' plan) (hjob : job ∈ plan.jobs) :
    job.remappings = remappingsFor plan.graph job.sources := by
  rw [h.planned, mem_jobs_ofVersions] at hjob
  obtain ⟨v, -, rfl⟩ := hjob
  rfl

theorem Made.mem_imports {table : RemappingTable} {pragmas : PragmaTable}
    (h : Made p r tools paths w table pragmas w' plan) (hjob : job ∈ plan.jobs) {id : SourceId}
    (hid : id ∈ job.sources) : id ∈ plan.graph.imports := by
  refine h.mem_resolved.mp ?_
  rw [Std.ExtTreeMap.mem_iff_isSome_getElem?, (h.mem_sources hjob).mp hid]
  rfl

/-- If nothing was corrected, the table of the project tells how its imports were expanded. -/
theorem Made.get?_remapping {table : RemappingTable} {pragmas : PragmaTable}
    (h : Made p r tools paths w table pragmas w' plan) (hnil : plan.graph.corrections = [])
    {id : SourceId} (hid : id ∈ plan.graph.imports) (hproject : OfProject r id) {i : Import}
    (hi : i ∈ plan.graph.statementsOf id) {k v : Text} (he : i.remapping = some (k, v)) :
    plan.graph.remapping.get? k = some v := by
  have hclean := (pragmasOf_ok h.loaded).1
  rw [h.walked] at hclean hnil hid hi ⊢
  exact Table.get?_of_mem (ImportGraph.mem_remapping_of_ofProject hclean hnil hid hproject hi he)

/-- **For which imports a job is faithful**: for a key that an import was expanded with it holds the
last value of all, which is the import's own unless another import of the job has used a different
one. If nothing was corrected, that other import is not one of the project. -/
theorem remappings_of_make (h : make p r tools paths w = (w', .ok plan)) (hjob : job ∈ plan.jobs)
    {id : SourceId} (hid : id ∈ job.sources) {i : Import} (hi : i ∈ plan.graph.statementsOf id)
    {k v : Text} (he : i.remapping = some (k, v)) :
    (∃ v', plan.graph.lastUse job.sources k = some v' ∧ job.remappings.get? k = some v') ∧
    ((∀ id' ∈ job.sources, ∀ j ∈ plan.graph.statementsOf id', ∀ v',
        j.remapping = some (k, v') → v' = v) → job.remappings.get? k = some v) ∧
    (plan.graph.corrections = [] → OfProject r id →
      (∀ id' ∈ job.sources, ¬ OfProject r id' → ∀ j ∈ plan.graph.statementsOf id', ∀ v',
        j.remapping = some (k, v') → v' = v) → job.remappings.get? k = some v) := by
  obtain ⟨table, pragmas, hmade⟩ := make_ok h
  obtain ⟨v', hlast, hmem⟩ := Table.exists_lastValue
    (ImportGraph.mem_uses.mpr ⟨id, hid, i, hi, he⟩)
  have hget : job.remappings.get? k = some v' := by
    rw [hmade.remappings_eq hjob]
    exact get?_remappingsFor hlast
  have hagree : (∀ id' ∈ job.sources, ∀ j ∈ plan.graph.statementsOf id', ∀ v',
      j.remapping = some (k, v') → v' = v) → job.remappings.get? k = some v := fun h => by
    obtain ⟨id', hid', j, hj, hv'⟩ := ImportGraph.mem_uses.mp hmem
    rw [hget, h id' hid' j hj v' hv']
  refine ⟨⟨v', hlast, hget⟩, hagree, fun hnil hproject h => hagree fun id' hid' j hj v'' hv'' => ?_⟩
  by_cases hproject' : OfProject r id'
  · -- Both imports were expanded with entries of one table, so with the same value.
    have hv := hmade.get?_remapping hnil (hmade.mem_imports hjob hid) hproject hi he
    have hv' := hmade.get?_remapping hnil (hmade.mem_imports hjob hid') hproject' hj hv''
    exact Option.some.inj (hv'.symm.trans hv)
  · exact h id' hid' hproject' j hj v'' hv''

/-- A package with the source folder `s`. -/
def leaf (name version : Char) (dependencies : List Dependency) : Dependency :=
  .mk ⟨⟨[name], [version]⟩, ⟨['/', 'p']⟩, ⟨['s']⟩, ⟨[], []⟩⟩ dependencies

/-- The project in the root directory depends on a package `l`, and on a package `d` that depends on
another version of it. -/
def twoVersions : Project × Registry :=
  (⟨[], ⟨[]⟩, ⟨["l=l/1".toList, "d=d/1".toList], []⟩⟩,
    ⟨[leaf 'l' '1' [], leaf 'd' '1' [leaf 'l' '2' []]], [], none⟩)

/-- The packages are unpacked, and the table of the project is kept. A file of the project and the
file of `d` both import `l/L`. -/
def twoReadings : Workshop where
  depot := ⟨(((FileTree.empty.place ⟨"/.cache/l/1/L".toList⟩ (some (.text []))).place
    ⟨"/.cache/l/2/L".toList⟩ (some (.text []))).place
    ⟨"/.cache/d/1/D".toList⟩ (some (.text "import 'l/L';".toList))).place
    ⟨"/A.sol".toList⟩ (some (.text "import 'd/D';\nimport 'l/L';".toList)), 0⟩
  cache := RemappingCache.empty.keep [] ⟨CacheKey.digest (.of twoVersions.1 twoVersions.2),
    .ofList [(['l'], ".cache/l/1".toList), (['d'], ".cache/d/1".toList)]⟩
  log := ⟨[], 0⟩

/-- Plan the file of the project, with one compiler. -/
def planReadings : Workshop × Except Error CompilePlan :=
  make twoVersions.1 twoVersions.2 (.ofLists (some [.release 0 8 26]) none [])
    [⟨"/A.sol".toList⟩] twoReadings

/-- What the imports of each job are expanded with, and those of its sources of the project. -/
def usesByJob (r : Registry) (plan : CompilePlan) :
    List (List (Text × Text) × List (Text × Text)) :=
  plan.jobs.map fun job => (plan.graph.uses job.sources,
    plan.graph.uses (job.sources.filter fun id => ((Project.packageOf? id).bind r.find?).isNone))

theorem usesByJob_planReadings :
    (planReadings.2.toOption.map fun plan =>
      (plan.graph.corrections, usesByJob twoVersions.2 plan)) =
    some ([], [
      ([(['l'], ".cache/l/2".toList), (['d'], ".cache/d/1".toList), (['l'], ".cache/l/1".toList)],
        [(['d'], ".cache/d/1".toList), (['l'], ".cache/l/1".toList)])]) := by
  cbv

theorem planReadings_ok : ∃ w' plan, planReadings = (w', .ok plan) ∧ plan.graph.corrections = [] ∧
    ∃ job ∈ plan.jobs,
      plan.graph.uses job.sources = [(['l'], ".cache/l/2".toList), (['d'], ".cache/d/1".toList),
        (['l'], ".cache/l/1".toList)] ∧
      ∃ id ∈ job.sources, OfProject twoVersions.2 id ∧
        ∃ i ∈ plan.graph.statementsOf id, i.remapping = some (['d'], ".cache/d/1".toList) := by
  have huses := usesByJob_planReadings
  cases hplan : planReadings.2 with
  | error e => rw [hplan] at huses; cases huses
  | ok plan =>
    rw [hplan] at huses
    obtain ⟨hnil, hjobs⟩ := Prod.mk.inj (Option.some.inj huses)
    obtain ⟨job, hjob, heq⟩ := List.mem_map.mp (hjobs ▸ List.mem_cons_self)
    obtain ⟨hall, hproject⟩ := Prod.mk.inj heq
    obtain ⟨id, hid, i, hi, he⟩ := ImportGraph.mem_uses.mp (hproject ▸ List.mem_cons_self)
    obtain ⟨hid, hnone⟩ := List.mem_filter.mp hid
    exact ⟨_, plan, Prod.ext rfl hplan, hnil, job, hjob, hall, id, hid,
      Option.isNone_iff_eq_none.mp hnone, i, hi, he⟩

/-- No other value is used with `d`. -/
theorem remappings_of_planReadings :
    ∃ w' plan, planReadings = (w', .ok plan) ∧
      ∃ job ∈ plan.jobs, job.remappings.get? ['d'] = some ".cache/d/1".toList := by
  obtain ⟨w', plan, hplan, hnil, job, hjob, huses, id, hid, hproject, i, hi, he⟩ := planReadings_ok
  refine ⟨w', plan, hplan, job, hjob, ?_⟩
  obtain ⟨-, -, hclean⟩ := remappings_of_make hplan hjob hid hi he
  refine hclean hnil hproject fun id' hid' _ j hj v' hv' => ?_
  have hmem : (['d'], v') ∈ plan.graph.uses job.sources :=
    ImportGraph.mem_uses.mpr ⟨id', hid', j, hj, hv'⟩
  rw [huses] at hmem
  simpa using hmem

/-- A job need not be faithful to the plan: `l` is used with two values. -/
theorem not_faithful :
    ∃ w' plan, planReadings = (w', .ok plan) ∧ ∃ job ∈ plan.jobs, ¬ job.Faithful plan.graph := by
  obtain ⟨w', plan, hplan, -, job, hjob, huses, -⟩ := planReadings_ok
  refine ⟨w', plan, hplan, job, hjob, fun hfaithful => ?_⟩
  have hvalue : ∀ v, (['l'], v) ∈ plan.graph.uses job.sources →
      job.remappings.get? ['l'] = some v := fun v hv => by
    obtain ⟨id, hid, i, hi, he⟩ := ImportGraph.mem_uses.mp hv
    exact hfaithful id hid i hi _ he
  rw [huses] at hvalue
  have hfirst := hvalue ".cache/l/2".toList (by simp)
  have hlast := hvalue ".cache/l/1".toList (by simp)
  exact absurd (Option.some.inj (hfirst.symm.trans hlast)) (by decide)

end CompilePlan

end SolPlan
