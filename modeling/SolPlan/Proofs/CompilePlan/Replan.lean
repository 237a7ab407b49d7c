import Mathlib
import SolPlan.Proofs.CompilePlan.Jobs
import SolPlan.Proofs.ImportGraph.Rewalk
import SolPlan.Proofs.Remapping.Correction
import SolPlan.Proofs.Remapping.Transparency

/-!
# Planning again

A plan leaves the table of its graph in the cache, corrections included (`Made.kept`). The next
plan starts from that table if it can be reused (`Resumes`), and from the table of a new build
otherwise. A plan that has reused a table is always resumed (`resumes_of_reused`).

It is not always repeated: a correction is made for one import, but holds for all that match its
key. An import that was resolved before can lead nowhere after it.

Results:
* **`make_again`**: the next plan has the same jobs iff the graph that is walked then leads to them
  (`Repeats`); a plan that is resumed is the same, up to the corrections, iff its walk is settled;
* `make_again_of_rebuilt`: if the table has to be built again, the next plan is the same.
-/

namespace SolPlan

namespace CompilePlan

variable {p : Project} {r : Registry} {tools : Toolchain} {paths : List Path} {w w' : Workshop}
  {plan : CompilePlan} {t : FileTree} {g g' : ImportGraph} {entries : List SourceId}

/-! ## Jobs of the same sources -/

/-- Jobs are the same if they have the same groups, and these use the same remappings. -/
theorem jobs_ofVersions_eq_iff {m m' : VersionMap} :
    (ofVersions p g' m').jobs = (ofVersions p g m).jobs ↔
      m'.groups = m.groups ∧
        ∀ job ∈ (ofVersions p g m).jobs, remappingsFor g' job.sources = job.remappings := by
  constructor
  · intro h
    refine ⟨?_, fun job hjob => ?_⟩
    · have hpairs : ∀ (g : ImportGraph) (m : VersionMap),
          (ofVersions p g m).jobs.map (fun job => (job.version, job.sources)) =
            m.groups.toList.map fun e => (e.1, e.2.toList) := fun g m => by
        unfold ofVersions
        rw [List.map_map]
        rfl
      have hmap := congrArg (List.map fun job : CompileJob => (job.version, job.sources)) h
      rw [hpairs, hpairs] at hmap
      refine Std.ExtTreeMap.toList_inj.mp ((List.map_inj_right fun e e' he => ?_).mp hmap)
      simp only [Prod.mk.injEq, Std.ExtTreeSet.toList_inj] at he
      exact Prod.ext he.1 he.2
    · rw [← h, mem_jobs_ofVersions] at hjob
      obtain ⟨v, -, rfl⟩ := hjob
      rfl
  · rintro ⟨hgroups, hremappings⟩
    unfold ofVersions
    rw [hgroups]
    refine List.map_congr_left fun ⟨v, files⟩ hfiles => ?_
    have hjob : CompilePlan.job p g v files ∈ (ofVersions p g m).jobs :=
      List.mem_map.mpr ⟨(v, files), hfiles, rfl⟩
    have := hremappings _ hjob
    unfold CompilePlan.job at this ⊢
    dsimp only at this ⊢
    rw [this]

/-- The graph leads to the jobs of the plan: nothing is wrong with it, its sources fall into the
same groups, and these use the same remappings. -/
structure Repeats (p : Project) (tools : Toolchain) (t : FileTree) (entries : List SourceId)
    (log : ToolchainLog) (plan : CompilePlan) (g : ImportGraph) : Prop where
  clean : g.Clean
  resolved : g.unresolved = []
  grouped : ∃ pragmas log' m, PragmaTable.load t p g.sources = .ok pragmas ∧
    versionsOf tools g pragmas entries log = (log', .ok m) ∧ m.groups = plan.versions.groups
  remappings : ∀ job ∈ plan.jobs, remappingsFor g job.sources = job.remappings

theorem pragmasOf_of_clean (hclean : g.Clean) (hresolved : g.unresolved = []) :
    pragmasOf t p g = PragmaTable.load t p g.sources := by
  unfold pragmasOf
  rw [ImportGraph.firstError?_eq_none_iff.mpr hclean, hresolved]
  rfl

theorem ofGraph_ok_iff :
    ofGraph p tools g entries w = (w', .ok plan) ↔
      ∃ pragmas log m, pragmasOf w.depot.tree p g = .ok pragmas ∧
        versionsOf tools g pragmas entries w.log = (log, .ok m) ∧
        w' = { w with log } ∧ plan = ofVersions p g m := by
  constructor
  · intro h
    unfold ofGraph at h
    split at h
    · simp at h
    · rename_i pragmas hpragmas
      split at h
      · simp at h
      · rename_i log m hm
        simp only [Prod.mk.injEq, Except.ok.injEq] at h
        exact ⟨pragmas, log, m, hpragmas, hm, h.1.symm, h.2.symm⟩
  · rintro ⟨pragmas, log, m, hpragmas, hm, rfl, rfl⟩
    unfold ofGraph
    rw [hpragmas]
    dsimp only
    rw [hm]

/-- A graph gives the jobs of a plan iff it repeats the plan. -/
theorem repeats_iff {m : VersionMap} (hplan : plan = ofVersions p g m) :
    (∃ w' plan', ofGraph p tools g' entries w = (w', .ok plan') ∧ plan'.jobs = plan.jobs) ↔
      Repeats p tools w.depot.tree entries w.log plan g' := by
  constructor
  · rintro ⟨w', plan', hok, hjobs⟩
    obtain ⟨pragmas, log, m', hpragmas, hm', -, rfl⟩ := ofGraph_ok_iff.mp hok
    obtain ⟨hclean, hresolved, hload⟩ := pragmasOf_ok hpragmas
    subst hplan
    obtain ⟨hgroups, hremappings⟩ := jobs_ofVersions_eq_iff.mp hjobs
    exact ⟨hclean, hresolved, ⟨pragmas, log, m', hload, hm', hgroups⟩, hremappings⟩
  · rintro ⟨hclean, hresolved, ⟨pragmas, log, m', hload, hm', hgroups⟩, hremappings⟩
    have hpragmas := (pragmasOf_of_clean hclean hresolved).trans hload
    refine ⟨_, _, ofGraph_ok_iff.mpr ⟨pragmas, log, m', hpragmas, hm', rfl, rfl⟩, ?_⟩
    subst hplan
    exact jobs_ofVersions_eq_iff.mpr ⟨hgroups, hremappings⟩

/-! ## Corrections do not matter -/

/-- The version map of a graph depends on its imports, and on nothing that the toolchain has
logged. -/
theorem versionsOf_congr (tools : Toolchain) (h : g.imports = g'.imports) (pragmas : PragmaTable)
    (entries : List SourceId) (log log' : ToolchainLog) :
    (versionsOf tools g pragmas entries log).2 = (versionsOf tools g' pragmas entries log').2 := by
  unfold versionsOf Selector.start
  cases tools.installed with
  | error e => rfl
  | ok versions =>
    have hsame : (VersionMap.compute tools g' pragmas entries
        ⟨stripBuilds versions, ∅, false, log⟩).2 = (VersionMap.compute tools g' pragmas entries
        ⟨stripBuilds versions, ∅, false, log'⟩).2 := VersionMap.compute_agree ⟨rfl, rfl, rfl⟩
    dsimp only [Except.map]
    rw [VersionMap.compute_congr h]
    generalize VersionMap.compute tools g' pragmas entries _ = a at hsame
    generalize VersionMap.compute tools g' pragmas entries _ = b at hsame
    obtain ⟨a, x⟩ := a
    obtain ⟨b, y⟩ := b
    dsimp only at hsame
    subst hsame
    cases x with
    | error e => rfl
    | ok m =>
      dsimp only
      rw [VersionMap.consolidate_congr h]

/-- The plan without the corrections that were made for it. -/
def withoutCorrections (plan : CompilePlan) : CompilePlan :=
  { plan with graph := { plan.graph with corrections := [] } }

/-- A graph with the same imports, and constraints that can be read, has the same versions. -/
theorem Made.ofGraph_same {table : RemappingTable} {pragmas : PragmaTable}
    (h : Made p r tools paths w table pragmas w' plan) {v : Workshop}
    (himports : g.imports = plan.graph.imports)
    (hpragmas : pragmasOf v.depot.tree p g = .ok pragmas) :
    (ofGraph p tools g (entriesOf w.depot.tree p paths) v).2 =
      .ok (ofVersions p g plan.versions) := by
  have hversions := versionsOf_congr tools himports pragmas (entriesOf w.depot.tree p paths)
    v.log w.log
  rw [h.grouped] at hversions
  have hgrouped : versionsOf tools g pragmas (entriesOf w.depot.tree p paths) v.log =
      (_, .ok plan.versions) := Prod.ext rfl hversions
  rw [ofGraph_ok_iff.mpr ⟨pragmas, _, plan.versions, hpragmas, hgrouped, rfl, rfl⟩]

theorem Made.withoutCorrections {table : RemappingTable} {pragmas : PragmaTable}
    (h : Made p r tools paths w table pragmas w' plan) :
    ofVersions p plan.withoutCorrections.graph plan.versions = plan.withoutCorrections := by
  unfold CompilePlan.withoutCorrections
  rw [h.planned]
  rfl

/-! ## The next plan -/

/-- The table that a plan leaves is that of its graph. -/
theorem Made.kept {table : RemappingTable} {pragmas : PragmaTable}
    (h : Made p r tools paths w table pragmas w' plan) :
    w'.cache.kept[p.root]? = some ⟨w'.cache.digest (.of p r), plan.graph.remapping⟩ := by
  obtain ⟨cache, hget, hcache⟩ := h.got
  rw [hcache, RemappingCache.kept_correct (RemappingCache.kept_of_get hget), h.walked,
    ← ImportGraph.remapping_walk, RemappingCache.digest_correct, RemappingCache.digest_of_get hget]

/-- The next plan is for the same entries, and starts from the table that this one leaves. -/
structure Resumes (p : Project) (r : Registry) (paths : List Path) (w w' : Workshop)
    (plan : CompilePlan) : Prop where
  entries : entriesOf w'.depot.tree p paths = entriesOf w.depot.tree p paths
  reused : w'.cache.reusable? p r w'.depot.tree = some plan.graph.remapping

/-- A plan that has reused a table unpacks nothing, and its table can be reused again. -/
theorem Made.resumes_of_reused {table : RemappingTable} {pragmas : PragmaTable}
    (h : Made p r tools paths w table pragmas w' plan)
    (hreused : (w.cache.reusable? p r w.depot.tree).isSome = true) :
    Resumes p r paths w w' plan := by
  obtain ⟨table₁, htable₁⟩ := Option.isSome_iff_exists.mp hreused
  obtain ⟨cache, hget, -⟩ := h.got
  rw [RemappingCache.get_of_reusable htable₁] at hget
  simp only [Prod.mk.injEq, Except.ok.injEq] at hget
  obtain ⟨-, hdepot, rfl⟩ := hget
  refine ⟨by rw [hdepot], RemappingCache.reusable?_eq_some_iff.mpr ⟨h.kept, ?_⟩⟩
  rw [h.walked, ← hdepot]
  exact RemappingCache.foldersPresent_walk _ (RemappingCache.reusable?_eq_some_iff.mp htable₁).2

theorem make_of_get {cache : RemappingCache} {depot : Depot} {table : RemappingTable}
    (hverified : Project.verifySources paths = .ok ())
    (hget : w.cache.get p r w.depot = (cache, depot, .ok table)) :
    make p r tools paths w =
      let g := ImportGraph.walk depot.tree p r table (entriesOf w.depot.tree p paths)
      ofGraph p tools g (entriesOf w.depot.tree p paths)
        { w with cache := cache.correct p g.corrections, depot } := by
  unfold make
  rw [hverified]
  dsimp only
  rw [hget]

/-- A plan that is resumed is the same, up to the corrections, iff its walk is settled. -/
theorem Made.resumed_iff {table : RemappingTable} {pragmas : PragmaTable}
    (h : Made p r tools paths w table pragmas w' plan) (hresumes : Resumes p r paths w w' plan) :
    (make p r tools paths w').2 = .ok plan.withoutCorrections ↔
      plan.graph.Settled w'.depot.tree p r := by
  have hclean := (pragmasOf_ok h.loaded).1
  rw [h.walked] at hclean
  have hrewalk := ImportGraph.rewalk_iff hclean
  rw [← h.walked] at hrewalk
  rw [← hrewalk, make_of_get h.verified (RemappingCache.get_of_reusable hresumes.reused),
    hresumes.entries]
  dsimp only
  constructor
  · intro hok
    obtain ⟨-, -, m, -, -, -, hplan⟩ := ofGraph_ok_iff.mp (Prod.ext rfl hok)
    exact (congrArg CompilePlan.graph hplan).symm
  · intro hwalk
    have hloaded : pragmasOf w'.depot.tree p plan.withoutCorrections.graph = .ok pragmas := h.loaded
    rw [hwalk, ← h.withoutCorrections]
    exact h.ofGraph_same rfl hloaded

/-- If the table has to be built again, and the build leaves the tree, the next plan is the same. -/
theorem make_again_of_rebuilt {cache : RemappingCache} {depot : Depot} {table : RemappingTable}
    (h : make p r tools paths w = (w', .ok plan))
    (hentries : entriesOf w'.depot.tree p paths = entriesOf w.depot.tree p paths)
    (hreusable : w'.cache.reusable? p r w'.depot.tree = none)
    (hget : w'.cache.get p r w'.depot = (cache, depot, .ok table))
    (htree : depot.tree = w'.depot.tree) : (make p r tools paths w').2 = .ok plan := by
  obtain ⟨first, pragmas, hmade⟩ := make_ok h
  have hbuilt : w.cache.reusable? p r w.depot.tree = none := by
    cases hreused : w.cache.reusable? p r w.depot.tree with
    | none => rfl
    | some table₁ =>
      have := (hmade.resumes_of_reused (hreused ▸ rfl)).reused
      rw [hreusable] at this
      cases this
  obtain ⟨cache₁, hget₁, -⟩ := hmade.got
  have hsame : table = first := RemappingTable.build_table
    (RemappingCache.get_of_not_reusable hreusable hget)
    (RemappingCache.get_of_not_reusable hbuilt hget₁)
  have hloaded : pragmasOf depot.tree p plan.graph = .ok pragmas := by
    rw [htree]
    exact hmade.loaded
  rw [make_of_get hmade.verified hget, hentries, hsame]
  rw [htree, ← hmade.walked]
  refine Eq.trans ?_ (congrArg Except.ok hmade.planned.symm)
  exact hmade.ofGraph_same rfl hloaded

/-- If nothing had to be corrected, a plan that is resumed is the same. -/
theorem make_again_of_corrections_nil (h : make p r tools paths w = (w', .ok plan))
    (hresumes : Resumes p r paths w w' plan) (hnil : plan.graph.corrections = []) :
    (make p r tools paths w').2 = .ok plan := by
  obtain ⟨first, pragmas, hmade⟩ := make_ok h
  have hclean := (pragmasOf_ok hmade.loaded).1
  have hwalked := hmade.walked
  have hsame : plan.withoutCorrections = plan := by
    unfold withoutCorrections
    rw [← hnil]
  have hresumed := hmade.resumed_iff hresumes
  rw [hsame] at hresumed
  rw [hresumed]
  rw [hwalked] at hclean hnil ⊢
  exact ImportGraph.settled_of_corrections_nil hclean hnil

/-- **When a plan is repeated.** The next plan has the same jobs iff the graph that is walked from
the table it gets leads to them. If this plan has reused a table, the next one is resumed; and a
resumed plan is the same, up to the corrections, iff the walk of this one is settled. -/
theorem make_again (h : make p r tools paths w = (w', .ok plan)) :
    ((∃ w'' plan', make p r tools paths w' = (w'', .ok plan') ∧ plan'.jobs = plan.jobs) ↔
      ∃ cache depot table, w'.cache.get p r w'.depot = (cache, depot, .ok table) ∧
        Repeats p tools depot.tree (entriesOf w'.depot.tree p paths) w'.log plan
          (ImportGraph.walk depot.tree p r table (entriesOf w'.depot.tree p paths))) ∧
    ((w.cache.reusable? p r w.depot.tree).isSome = true → Resumes p r paths w w' plan) ∧
    (Resumes p r paths w w' plan →
      ((make p r tools paths w').2 = .ok plan.withoutCorrections ↔
        plan.graph.Settled w'.depot.tree p r)) := by
  obtain ⟨first, pragmas, hmade⟩ := make_ok h
  refine ⟨⟨?_, ?_⟩, hmade.resumes_of_reused, hmade.resumed_iff⟩
  · rintro ⟨w'', plan', hok, hjobs⟩
    obtain ⟨table, pragmas', hmade'⟩ := make_ok hok
    obtain ⟨cache, hget, -⟩ := hmade'.got
    rw [make_of_get hmade.verified hget] at hok
    exact ⟨cache, w''.depot, table, hget, (repeats_iff hmade.planned).mp ⟨w'', plan', hok, hjobs⟩⟩
  · rintro ⟨cache, depot, table, hget, hrepeats⟩
    rw [make_of_get hmade.verified hget]
    exact (repeats_iff hmade.planned).mpr hrepeats

/-- The project in the root directory depends on a package `v` with the source folder `s`. -/
def vendored : Project × Registry :=
  (⟨[], ⟨[]⟩, ⟨[], []⟩⟩, ⟨[.mk ⟨⟨['v'], ['1']⟩, ⟨['/', 'p']⟩, ⟨['s']⟩, ⟨[], []⟩⟩ []], [], none⟩)

/-- The package is unpacked, and a table that leads to it is kept. The first import of the only
other file names the source folder of the package, and the second leaves it out. -/
def twoSpellings : Workshop where
  depot := ⟨((FileTree.empty.place ⟨"/.cache/v/1/s/T.sol".toList⟩ (some (.text []))).place
    ⟨"/.cache/v/1/s/B.sol".toList⟩ (some (.text []))).place ⟨"/A.sol".toList⟩
      (some (.text "import 'v/s/B.sol';\nimport 'v/T.sol';".toList)), 0⟩
  cache := RemappingCache.empty.keep []
    ⟨CacheKey.digest (.of vendored.1 vendored.2), .ofList [(['v'], ".cache/v/1".toList)]⟩
  log := ⟨[], 0⟩

/-- Plan that file, with one compiler. -/
def planSpellings (w : Workshop) : Workshop × Except Error CompilePlan :=
  make vendored.1 vendored.2 (.ofLists (some [.release 0 8 26]) none []) [⟨"/A.sol".toList⟩] w

theorem isOk_planSpellings : (planSpellings twoSpellings).2.isOk = true ∧
    (planSpellings (planSpellings twoSpellings).1).2.isOk = false := by
  cbv

theorem planSpellings_ok : ∃ w' plan, planSpellings twoSpellings = (w', .ok plan) ∧
    (planSpellings w').2.isOk = false := by
  obtain ⟨hok, hagain⟩ := isOk_planSpellings
  cases hplan : (planSpellings twoSpellings).2 with
  | error e => rw [hplan] at hok; cases hok
  | ok plan => exact ⟨_, plan, Prod.ext rfl hplan, hagain⟩

/-- Its plan is resumed, but its walk is not settled. -/
theorem make_again_twoSpellings :
    ∃ w' plan, planSpellings twoSpellings = (w', .ok plan) ∧
      Resumes vendored.1 vendored.2 [⟨"/A.sol".toList⟩] twoSpellings w' plan ∧
      ¬ plan.graph.Settled w'.depot.tree vendored.1 vendored.2 := by
  obtain ⟨w', plan, hplan, hagain⟩ := planSpellings_ok
  have hreused : (twoSpellings.cache.reusable? vendored.1 vendored.2
    twoSpellings.depot.tree).isSome = true := by cbv
  obtain ⟨-, hresumes, hsettled⟩ := make_again hplan
  refine ⟨w', plan, hplan, hresumes hreused, fun h => ?_⟩
  have hok : (planSpellings w').2 = .ok plan.withoutCorrections :=
    (hsettled (hresumes hreused)).mpr h
  rw [hok] at hagain
  cases hagain

/-- A plan need not be repeated. -/
theorem not_make_again :
    ∃ w' plan, planSpellings twoSpellings = (w', .ok plan) ∧
      ¬ ∃ w'' plan', planSpellings w' = (w'', .ok plan') ∧ plan'.jobs = plan.jobs := by
  obtain ⟨w', plan, hplan, hagain⟩ := planSpellings_ok
  refine ⟨w', plan, hplan, ?_⟩
  rintro ⟨w'', plan', hok, -⟩
  rw [hok] at hagain
  cases hagain

end CompilePlan

end SolPlan
