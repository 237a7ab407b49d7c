import SolPlan.Proofs.CompilePlan.Replan

/-!
# Corrections of a plan

A plan writes the corrections of its walk to the table that the cache keeps for the project, so the
cache and the graph of the plan hold the same table. This is so even if the plan fails after its
walk.

Results:
* `kept_of_make`: what the cache keeps after a plan has walked;
* **`corrections_written`**: how a walk changes its table, and that a plan keeps the changed table.
-/

namespace SolPlan

namespace CompilePlan

open ImportGraph

variable {p : Project} {r : Registry} {tools : Toolchain} {paths : List Path} {w : Workshop}

/-- Grouping and planning leave the cache as it is, whether they fail or not. -/
theorem cache_ofGraph (g : ImportGraph) (entries : List SourceId) (w : Workshop) :
    (ofGraph p tools g entries w).1.cache = w.cache := by
  unfold ofGraph
  split
  · rfl
  · split <;> rfl

/-- The cache keeps the table of the walk, and a plan that succeeds has the graph of the walk. -/
theorem kept_of_make {cache : RemappingCache} {depot : Depot} {table : RemappingTable}
    (hverified : Project.verifySources paths = .ok ())
    (hget : w.cache.get p r w.depot = (cache, depot, .ok table)) :
    (make p r tools paths w).1.cache.kept[p.root]? = some ⟨w.cache.digest (.of p r),
        (walk depot.tree p r table (entriesOf w.depot.tree p paths)).remapping⟩ ∧
      ∀ plan, (make p r tools paths w).2 = .ok plan →
        plan.graph = walk depot.tree p r table (entriesOf w.depot.tree p paths) := by
  rw [make_of_get hverified hget]
  dsimp only
  refine ⟨?_, fun plan hplan => ?_⟩
  · rw [cache_ofGraph, RemappingCache.kept_correct (RemappingCache.kept_of_get hget),
      ← remapping_walk]
  · obtain ⟨-, -, m, -, -, -, rfl⟩ := ofGraph_ok_iff.mp (Prod.ext rfl hplan)
    rfl

/-- **Corrections are made once, and written where the table is kept.** If source folders are
relative paths, a walk corrects distinct keys of its table, each to the old value followed by the
source folder of the package that it points to, and changes nothing else. After a plan has walked,
the cache keeps the table of the walk. -/
theorem corrections_written :
    (r.FoldersRelative → ∀ t table entries,
      CorrectedOnce table (walk t p r table entries).remapping
          (walk t p r table entries).corrections ∧
        (walk t p r table entries).remapping =
          (walk t p r table entries).corrections.foldl RemappingTable.correct table ∧
        ∀ c ∈ (walk t p r table entries).corrections, ∃ old,
          table.get? c.key = some old ∧ GoesOn r old c.value) ∧
    ∀ tools paths w cache depot table, Project.verifySources paths = .ok () →
      w.cache.get p r w.depot = (cache, depot, .ok table) →
        (make p r tools paths w).1.cache.kept[p.root]? = some ⟨w.cache.digest (.of p r),
            (walk depot.tree p r table (entriesOf w.depot.tree p paths)).remapping⟩ ∧
          ∀ plan, (make p r tools paths w).2 = .ok plan →
            plan.graph = walk depot.tree p r table (entriesOf w.depot.tree p paths) := by
  refine ⟨fun hrelative t table entries => ?_, fun _ _ _ _ _ _ hverified hget =>
    kept_of_make hverified hget⟩
  obtain ⟨honce, hvalues⟩ := correctedOnce_walk (t := t) (p := p) hrelative table entries
  refine ⟨honce, remapping_walk, fun c hc => ?_⟩
  obtain ⟨old, hold, hmends⟩ := hvalues c hc
  exact ⟨old, hold, hmends.goesOn hrelative⟩

theorem foldersRelative_vendored : vendored.2.FoldersRelative := fun id d h => by
  unfold Registry.find? vendored Registry.installed at h
  simp only [List.append_nil, Dependency.findIn?, Dependency.find?] at h
  split at h
  · rename_i found hfound
    split at hfound
    · rw [← Option.some.inj h, ← Option.some.inj hfound]
      rfl
    · cases hfound
  · cases h

/-- The table that is kept for the package. -/
def vendoredTable : RemappingTable := .ofList [(['v'], ".cache/v/1".toList)]

theorem corrections_twoSpellings :
    (walk twoSpellings.depot.tree vendored.1 vendored.2 vendoredTable
      [.ofText "A.sol".toList]).corrections = [⟨['v'], ".cache/v/1/s".toList⟩] := by
  cbv

theorem get_twoSpellings : twoSpellings.cache.get vendored.1 vendored.2 twoSpellings.depot =
    (twoSpellings.cache, twoSpellings.depot, .ok vendoredTable) :=
  RemappingCache.get_of_reusable (by cbv)

theorem entriesOf_twoSpellings :
    entriesOf twoSpellings.depot.tree vendored.1 [⟨"/A.sol".toList⟩] =
      [.ofText "A.sol".toList] := by
  cbv

/-- The key of the package is corrected for its second import, and the cache keeps the corrected
table. -/
theorem corrections_written_twoSpellings :
    (∃ old, vendoredTable.get? ['v'] = some old ∧
      GoesOn vendored.2 old ".cache/v/1/s".toList) ∧
    (planSpellings twoSpellings).1.cache.kept[vendored.1.root]? =
      some ⟨twoSpellings.cache.digest (.of vendored.1 vendored.2),
        (walk twoSpellings.depot.tree vendored.1 vendored.2 vendoredTable
          [.ofText "A.sol".toList]).remapping⟩ := by
  obtain ⟨hwalk, hmake⟩ := corrections_written (p := vendored.1) (r := vendored.2)
  obtain ⟨-, -, hvalues⟩ := hwalk foldersRelative_vendored twoSpellings.depot.tree
    vendoredTable [.ofText "A.sol".toList]
  have hmem : (⟨['v'], ".cache/v/1/s".toList⟩ : Correction) ∈
      (walk twoSpellings.depot.tree vendored.1 vendored.2 vendoredTable
        [.ofText "A.sol".toList]).corrections := by
    rw [corrections_twoSpellings]
    exact List.mem_cons_self
  have hverified : Project.verifySources [⟨"/A.sol".toList⟩] = .ok () := by cbv
  obtain ⟨hkept, -⟩ := hmake (.ofLists (some [.release 0 8 26]) none []) _ _ _ _ _ hverified
    get_twoSpellings
  rw [entriesOf_twoSpellings] at hkept
  exact ⟨hvalues _ hmem, hkept⟩

end CompilePlan

end SolPlan
