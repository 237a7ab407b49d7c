import Mathlib
import SolPlan.CompilePlan
import SolPlan.Proofs.Compiler.Pins
import SolPlan.Proofs.ImportGraph.Run

/-!
# The jobs of a plan

Planning succeeds if every step does, and then nothing is wrong with the graph that was walked
(`make_ok`). The version map is computed for the entries with everything they import, which is all
of the graph, so its groups divide the graph.

Results:
* `mem_closure_entries`: the closure of the entries of a walk is the graph of the walk;
* `made_of_accepts`: when planning succeeds, and `Made.resolved_of_pin`: what a pin says then;
* **`jobs_of_make`**: the sources of a plan are the least set that holds what was asked for and is
  closed under imports; each is a file and is in one job, that of its version.
-/

namespace SolPlan

namespace CompilePlan

variable {p : Project} {r : Registry} {tools : Toolchain} {paths : List Path} {w w' : Workshop}
  {plan : CompilePlan} {t : FileTree} {g : ImportGraph}

/-! ## A plan that was made -/

theorem pragmasOf_ok {pragmas : PragmaTable} (h : pragmasOf t p g = .ok pragmas) :
    g.Clean ∧ g.unresolved = [] ∧ PragmaTable.load t p g.sources = .ok pragmas := by
  unfold pragmasOf at h
  split at h
  · cases h
  · cases h
  · rename_i hclean hunresolved
    exact ⟨ImportGraph.firstError?_eq_none_iff.mp hclean, List.head?_eq_none_iff.mp hunresolved, h⟩

theorem versionsOf_ok {pragmas : PragmaTable} {entries : List SourceId} {log log' : ToolchainLog}
    {m : VersionMap} (h : versionsOf tools g pragmas entries log = (log', .ok m)) :
    ∃ s s' m', VersionMap.compute tools g pragmas entries s = (s', .ok m') ∧
      Selector.start tools log = .ok s ∧ m = m'.consolidate g := by
  unfold versionsOf at h
  split at h
  · simp at h
  · rename_i s hs
    split at h
    · simp at h
    · rename_i s' m' hm
      simp only [Prod.mk.injEq, Except.ok.injEq] at h
      exact ⟨s, s', m', hm, hs, h.2.symm⟩

/-- What has succeeded when a plan was made. -/
structure Made (p : Project) (r : Registry) (tools : Toolchain) (paths : List Path)
    (w : Workshop) (table : RemappingTable) (pragmas : PragmaTable) (w' : Workshop)
    (plan : CompilePlan) : Prop where
  verified : Project.verifySources paths = .ok ()
  got : ∃ cache, w.cache.get p r w.depot = (cache, w'.depot, .ok table) ∧
    w'.cache = cache.correct p plan.graph.corrections
  walked : plan.graph = ImportGraph.walk w'.depot.tree p r table (entriesOf w.depot.tree p paths)
  loaded : pragmasOf w'.depot.tree p plan.graph = .ok pragmas
  grouped : versionsOf tools plan.graph pragmas (entriesOf w.depot.tree p paths) w.log =
    (w'.log, .ok plan.versions)
  planned : plan = ofVersions p plan.graph plan.versions

theorem make_ok (h : make p r tools paths w = (w', .ok plan)) :
    ∃ table pragmas, Made p r tools paths w table pragmas w' plan := by
  unfold make at h
  split at h
  · simp at h
  · rename_i hsources
    dsimp only at h
    split at h
    · simp at h
    · rename_i cache depot table hget
      unfold ofGraph at h
      dsimp only at h
      split at h
      · simp at h
      · rename_i pragmas hpragmas
        split at h
        · simp at h
        · rename_i log m hm
          simp only [Prod.mk.injEq, Except.ok.injEq] at h
          obtain ⟨rfl, rfl⟩ := h
          exact ⟨table, pragmas, hsources, ⟨cache, hget, rfl⟩, rfl, hpragmas, hm, rfl⟩

/-! ## What the version map covers -/

theorem mem_entriesOf {id : SourceId} :
    id ∈ entriesOf t p paths ↔ ∃ path ∈ paths, p.sourceId t path = id := by
  unfold entriesOf
  rw [Std.ExtTreeSet.mem_toList, Std.ExtTreeSet.mem_ofList, List.contains_iff_mem, List.mem_map]

/-- What the entries of a walk bring is what the walk has reached. -/
theorem mem_closure_entries {table : RemappingTable} {entries : List SourceId} {id : SourceId} :
    id ∈ VersionMap.closure (ImportGraph.walk t p r table entries) entries ↔
      id ∈ (ImportGraph.walk t p r table entries).imports := by
  rw [VersionMap.mem_closure, ImportGraph.mem_walk_iff]
  refine exists_congr fun a => and_congr_right fun _ => ?_
  rw [VersionMap.Brings, ImportGraph.mem_transitiveImports]
  constructor
  · rintro (rfl | ⟨-, hr⟩)
    · exact Relation.ReflTransGen.refl
    · exact hr
  · intro hr
    by_cases hid : id = a
    · exact Or.inl hid
    · exact Or.inr ⟨hid, hr⟩

/-- The sources of a plan are those that have a version. -/
theorem Made.mem_resolved {table : RemappingTable} {pragmas : PragmaTable}
    (h : Made p r tools paths w table pragmas w' plan) {id : SourceId} :
    id ∈ plan.versions.resolved ↔ id ∈ plan.graph.imports := by
  obtain ⟨s, s', m, hcompute, -, hm⟩ := versionsOf_ok h.grouped
  rw [hm, (VersionMap.consolidate_shrinks plan.graph m).resolved,
    VersionMap.mem_resolved_iff hcompute, h.walked]
  exact mem_closure_entries

theorem Made.mem_group {table : RemappingTable} {pragmas : PragmaTable}
    (h : Made p r tools paths w table pragmas w' plan) {v : Version} {id : SourceId} :
    id ∈ plan.versions.group v ↔ plan.versions.resolved[id]? = some v := by
  obtain ⟨s, s', m, hcompute, -, hm⟩ := versionsOf_ok h.grouped
  rw [hm, VersionMap.mem_group_consolidate hcompute,
    (VersionMap.consolidate_shrinks plan.graph m).resolved]

theorem Made.mem_groups {table : RemappingTable} {pragmas : PragmaTable}
    (h : Made p r tools paths w table pragmas w' plan) {v : Version} :
    v ∈ plan.versions.groups ↔ ∃ id, id ∈ plan.versions.group v := by
  obtain ⟨s, s', m, -, -, hm⟩ := versionsOf_ok h.grouped
  rw [hm]
  exact VersionMap.mem_groups_consolidate plan.graph m v

/-! ## A plan that can be made -/

/-- **Planning succeeds** if nothing is wrong with the graph that is walked, and each of its sources
accepts a version that is installed. -/
theorem made_of_accepts {table : RemappingTable} {pragmas : PragmaTable} {cache : RemappingCache}
    {depot : Depot} {s : Selector} (hverified : Project.verifySources paths = .ok ())
    (hget : w.cache.get p r w.depot = (cache, depot, .ok table))
    (hwalk : ImportGraph.walk depot.tree p r table (entriesOf w.depot.tree p paths) = g)
    (hpragmas : pragmasOf depot.tree p g = .ok pragmas)
    (hstart : Selector.start tools w.log = .ok s)
    (haccepts : ∀ id ∈ g.imports, ∃ v ∈ s.installed, Accepts (pragmas.constraint? id) v) :
    ∃ w' plan, make p r tools paths w = (w', .ok plan) ∧ plan.graph = g ∧
      Made p r tools paths w table pragmas w' plan := by
  obtain ⟨best, hbest⟩ : ∃ best, s.selectAll tools pragmas
      (VersionMap.closure g (entriesOf w.depot.tree p paths)).toList = (s, .ok best) := by
    refine Selector.selectAll_of_accepts fun id hid => haccepts id ?_
    rw [← hwalk] at hid ⊢
    exact mem_closure_entries.mp (Std.ExtTreeSet.mem_toList.mp hid)
  obtain ⟨m, hgrouped⟩ : ∃ m,
      versionsOf tools g pragmas (entriesOf w.depot.tree p paths) w.log = (s.log, .ok m) := by
    unfold versionsOf VersionMap.compute
    rw [hstart]
    dsimp only
    rw [hbest]
    exact ⟨_, rfl⟩
  refine ⟨⟨depot, cache.correct p g.corrections, s.log⟩, ofVersions p g m, ?_, rfl,
    ⟨hverified, ⟨cache, hget, rfl⟩, hwalk.symm, hpragmas, hgrouped, rfl⟩⟩
  unfold make
  rw [hverified]
  dsimp only
  rw [hget]
  dsimp only
  rw [hwalk]
  unfold ofGraph
  dsimp only
  rw [hpragmas]
  dsimp only
  rw [hgrouped]

/-- A pinned source has the version of its pin. -/
theorem Made.resolved_of_pin {table : RemappingTable} {pragmas : PragmaTable} {id : SourceId}
    {pin : Version} (h : Made p r tools paths w table pragmas w' plan)
    (hid : id ∈ plan.graph.imports) (hpin : pragmas.pin? id = some pin) :
    plan.versions.resolved[id]? = some pin := by
  obtain ⟨s, s', m, hcompute, hstart, hm⟩ := versionsOf_ok h.grouped
  have hresolved := (VersionMap.consolidate_shrinks plan.graph m).resolved
  rw [← hm] at hresolved
  rw [hresolved]
  have hmem := hresolved ▸ h.mem_resolved.mpr hid
  exact VersionMap.resolved_of_pin (.start hstart) hcompute hmem hpin

/-! ## The jobs -/

/-- Each group makes one job. -/
theorem mem_jobs_ofVersions {m : VersionMap} {job : CompileJob} :
    job ∈ (ofVersions p g m).jobs ↔
      ∃ v ∈ m.groups, job = CompilePlan.job p g v (m.group v) := by
  unfold ofVersions VersionMap.group
  rw [List.mem_map]
  constructor
  · rintro ⟨⟨v, files⟩, he, rfl⟩
    rw [Std.ExtTreeMap.mem_toList_iff_getElem?_eq_some] at he
    refine ⟨v, ?_, by rw [he]; rfl⟩
    rw [Std.ExtTreeMap.mem_iff_isSome_getElem?, he]
    rfl
  · rintro ⟨v, hv, rfl⟩
    rw [Std.ExtTreeMap.mem_iff_isSome_getElem?] at hv
    obtain ⟨files, hfiles⟩ := Option.isSome_iff_exists.mp hv
    refine ⟨(v, files), Std.ExtTreeMap.mem_toList_iff_getElem?_eq_some.mpr hfiles, ?_⟩
    rw [hfiles]
    rfl

theorem map_version_ofVersions (m : VersionMap) :
    (ofVersions p g m).jobs.map CompileJob.version = m.groups.keys := by
  rw [← Std.ExtTreeMap.map_fst_toList_eq_keys]
  unfold ofVersions
  rw [List.map_map]
  rfl

section

variable {table : RemappingTable} {pragmas : PragmaTable}

/-- The sources of a plan are what is asked for and what that needs. -/
theorem Made.isLeast (h : Made p r tools paths w table pragmas w' plan) :
    IsLeast {S : Set SourceId | (∀ path ∈ paths, p.sourceId w.depot.tree path ∈ S) ∧
      ∀ a ∈ S, ∀ b ∈ plan.graph.directImports a, b ∈ S} {id | id ∈ plan.graph.imports} := by
  refine ⟨⟨fun path hpath => ?_, fun a _ b hab => ?_⟩, fun S hS id hid => ?_⟩
  · rw [Set.mem_ofPred_eq, h.walked, ImportGraph.mem_walk_iff]
    exact ⟨_, mem_entriesOf.mpr ⟨path, hpath, rfl⟩, Relation.ReflTransGen.refl⟩
  · rw [h.walked] at hab
    rw [Set.mem_ofPred_eq, h.walked]
    exact ImportGraph.imports_closed hab
  · rw [Set.mem_ofPred_eq, h.walked, ImportGraph.mem_walk_iff] at hid
    obtain ⟨a, ha, hr⟩ := hid
    obtain ⟨path, hpath, rfl⟩ := mem_entriesOf.mp ha
    induction hr with
    | refl => exact hS.1 path hpath
    | tail _ hbc ih => exact hS.2 _ ih _ (h.walked ▸ hbc)

/-- A job holds the sources whose version it has. -/
theorem Made.mem_sources (h : Made p r tools paths w table pragmas w' plan) {job : CompileJob}
    (hjob : job ∈ plan.jobs) {id : SourceId} :
    id ∈ job.sources ↔ plan.versions.resolved[id]? = some job.version := by
  rw [h.planned, mem_jobs_ofVersions] at hjob
  obtain ⟨v, -, rfl⟩ := hjob
  exact Std.ExtTreeSet.mem_toList.trans h.mem_group

/-- There is a job for each version that a source has. -/
theorem Made.exists_job (h : Made p r tools paths w table pragmas w' plan) {v : Version}
    {id : SourceId} (hv : plan.versions.resolved[id]? = some v) :
    ∃ job ∈ plan.jobs, job.version = v := by
  rw [h.planned]
  exact ⟨_, mem_jobs_ofVersions.mpr ⟨v, h.mem_groups.mpr ⟨id, h.mem_group.mpr hv⟩, rfl⟩, rfl⟩

theorem Made.ordered (h : Made p r tools paths w table pragmas w' plan) :
    (plan.jobs.map CompileJob.version).Pairwise fun a b => compare a b = .lt := by
  rw [h.planned, map_version_ofVersions]
  exact Std.ExtTreeMap.ordered_keys

/-- Jobs of one version are one job. -/
theorem Made.version_inj (h : Made p r tools paths w table pragmas w' plan) {a b : CompileJob}
    (ha : a ∈ plan.jobs) (hb : b ∈ plan.jobs) (hv : a.version = b.version) : a = b := by
  rw [h.planned, mem_jobs_ofVersions] at ha hb
  obtain ⟨u, -, rfl⟩ := ha
  obtain ⟨v, -, rfl⟩ := hb
  have huv : u = v := hv
  rw [huv]

end

/-- **The jobs divide what was asked for, with everything it imports, by version.** -/
theorem jobs_of_make (h : make p r tools paths w = (w', .ok plan)) :
    (IsLeast {S : Set SourceId | (∀ path ∈ paths, p.sourceId w.depot.tree path ∈ S) ∧
        ∀ a ∈ S, ∀ b ∈ plan.graph.directImports a, b ∈ S} {id | id ∈ plan.graph.imports} ∧
      ∀ id ∈ plan.graph.imports, w'.depot.tree.isFile (p.pathOf id)) ∧
    ((∀ id ∈ plan.graph.imports, ∃! job, job ∈ plan.jobs ∧ id ∈ job.sources) ∧
      ∀ job ∈ plan.jobs, job.sources ≠ [] ∧ ∀ id ∈ job.sources, id ∈ plan.graph.imports) ∧
    (∀ job ∈ plan.jobs, ∀ id ∈ job.sources,
      plan.versions.resolved[id]? = some job.version) ∧
    (plan.jobs.map CompileJob.version).Pairwise (fun a b => compare a b = .lt) ∧
      ∀ job ∈ plan.jobs, job.sources.Pairwise fun a b => compare a b = .lt := by
  obtain ⟨table, pragmas, hmade⟩ := make_ok h
  refine ⟨⟨hmade.isLeast, fun id hid => ?_⟩,
    ⟨fun id hid => ?_, fun job hjob => ⟨?_, fun id hid => ?_⟩⟩,
    fun job hjob id hid => (hmade.mem_sources hjob).mp hid, hmade.ordered, fun job hjob => ?_⟩
  · have hclean := (pragmasOf_ok hmade.loaded).1
    rw [hmade.walked] at hclean hid
    exact ImportGraph.isFile_of_mem_walk hclean hid
  · have hversion := hmade.mem_resolved.mpr hid
    rw [Std.ExtTreeMap.mem_iff_isSome_getElem?] at hversion
    obtain ⟨v, hv⟩ := Option.isSome_iff_exists.mp hversion
    obtain ⟨job, hjob, rfl⟩ := hmade.exists_job hv
    refine ⟨job, ⟨hjob, (hmade.mem_sources hjob).mpr hv⟩, fun other hother => ?_⟩
    have hv' := (hmade.mem_sources hother.1).mp hother.2
    exact hmade.version_inj hother.1 hjob (Option.some.inj (hv'.symm.trans hv))
  · have hjob' := hjob
    rw [hmade.planned, mem_jobs_ofVersions] at hjob'
    obtain ⟨v, hv, rfl⟩ := hjob'
    obtain ⟨id, hid⟩ := hmade.mem_groups.mp hv
    exact List.ne_nil_of_mem (Std.ExtTreeSet.mem_toList.mpr hid)
  · refine hmade.mem_resolved.mp ?_
    rw [Std.ExtTreeMap.mem_iff_isSome_getElem?, (hmade.mem_sources hjob).mp hid]
    rfl
  · rw [hmade.planned, mem_jobs_ofVersions] at hjob
    obtain ⟨v, -, rfl⟩ := hjob
    exact Std.ExtTreeSet.ordered_toList

/-- Two files are pinned to different versions and import a third. -/
def sharing : Workshop where
  depot := ⟨((FileTree.empty.place ⟨"/A.sol".toList⟩
      (some (.text "pragma solidity 0.8.26;\nimport './C.sol';".toList))).place ⟨"/B.sol".toList⟩
      (some (.text "pragma solidity 0.8.12;\nimport './C.sol';".toList))).place ⟨"/C.sol".toList⟩
      (some (.text [])), 0⟩
  cache := .empty
  log := ⟨[], 0⟩

/-- The project in whose root directory they are. -/
def sharingProject : Project := ⟨[], ⟨[]⟩, ⟨[], []⟩⟩

/-- Both versions are installed. -/
def sharingTools : Toolchain := .ofLists (some [.release 0 8 12, .release 0 8 26]) none []

/-- The plan for the two files. -/
def sharingPlan : Workshop × Except Error CompilePlan :=
  make sharingProject ⟨[], [], none⟩ sharingTools [⟨"/A.sol".toList⟩, ⟨"/B.sol".toList⟩] sharing

/-- The file tree in which their imports are walked. -/
def sharingTree : FileTree :=
  (sharing.cache.get sharingProject ⟨[], [], none⟩ sharing.depot).2.1.tree

/-- What is found there, by the turns of the loop. -/
def sharingGraph : ImportGraph :=
  (Walk.Loop.turns sharingTree sharingProject ⟨[], [], none⟩ 8
    (.start sharingTree sharingProject .empty
      [.ofText "A.sol".toList, .ofText "B.sol".toList])).walk.graph

theorem walk_sharingTree : ImportGraph.walk sharingTree sharingProject ⟨[], [], none⟩ .empty
    [.ofText "A.sol".toList, .ofText "B.sol".toList] = sharingGraph :=
  (Walk.Loop.graph_turns (Option.isNone_iff_eq_none.mp (by decide +kernel))).symm

theorem mem_sharingGraph {id : SourceId} : id ∈ sharingGraph.imports ↔
    id = .ofText "A.sol".toList ∨ id = .ofText "B.sol".toList ∨ id = .ofText "C.sol".toList := by
  have hsources : sharingGraph.sources =
      [.ofText "A.sol".toList, .ofText "B.sol".toList, .ofText "C.sol".toList] := by
    decide +kernel
  rw [← Std.ExtTreeMap.mem_keys]
  change id ∈ sharingGraph.sources ↔ _
  rw [hsources]
  simp only [List.mem_cons, List.not_mem_nil, or_false]

theorem pragmasOf_sharingGraph :
    ∃ pragmas, pragmasOf sharingTree sharingProject sharingGraph = .ok pragmas ∧
      pragmas.constraint? (.ofText "A.sol".toList) =
        some ⟨"0.8.26".toList, [[⟨.exact, .patch 0 8 26⟩]]⟩ ∧
      pragmas.constraint? (.ofText "B.sol".toList) =
        some ⟨"0.8.12".toList, [[⟨.exact, .patch 0 8 12⟩]]⟩ ∧
      pragmas.constraint? (.ofText "C.sol".toList) = none := by
  have hload : ((pragmasOf sharingTree sharingProject sharingGraph).toOption.map fun pragmas =>
      (pragmas.constraint? (.ofText "A.sol".toList), pragmas.constraint? (.ofText "B.sol".toList),
        pragmas.constraint? (.ofText "C.sol".toList))) =
      some (some ⟨"0.8.26".toList, [[⟨.exact, .patch 0 8 26⟩]]⟩,
        some ⟨"0.8.12".toList, [[⟨.exact, .patch 0 8 12⟩]]⟩, none) := by
    decide +kernel
  cases hpragmas : pragmasOf sharingTree sharingProject sharingGraph with
  | error e =>
    rw [hpragmas] at hload
    cases hload
  | ok pragmas =>
    rw [hpragmas] at hload
    simp only [Except.toOption, Option.map_some, Option.some.injEq, Prod.mk.injEq] at hload
    exact ⟨pragmas, rfl, hload⟩

/-- The two files can be planned, and their pins decide. -/
theorem make_sharing : ∃ w' plan, sharingPlan = (w', .ok plan) ∧ plan.graph = sharingGraph ∧
    plan.versions.resolved[SourceId.ofText "A.sol".toList]? = some (.release 0 8 26) ∧
    plan.versions.resolved[SourceId.ofText "B.sol".toList]? = some (.release 0 8 12) := by
  have hverified : Project.verifySources [⟨"/A.sol".toList⟩, ⟨"/B.sol".toList⟩] = .ok () := rfl
  have hget : (sharing.cache.get sharingProject ⟨[], [], none⟩ sharing.depot).2.2 = .ok .empty := by
    decide +kernel
  have hentries : entriesOf sharing.depot.tree sharingProject
      [⟨"/A.sol".toList⟩, ⟨"/B.sol".toList⟩] =
        [.ofText "A.sol".toList, .ofText "B.sol".toList] := by
    decide +kernel
  have hstart : Selector.start sharingTools sharing.log =
      .ok ⟨stripBuilds (.ofList [Version.release 0 8 12, .release 0 8 26]), ∅, false, ⟨[], 0⟩⟩ :=
    rfl
  obtain ⟨pragmas, hpragmas, hA, hB, hC⟩ := pragmasOf_sharingGraph
  obtain ⟨w', plan, hplan, hgraph, hmade⟩ := made_of_accepts hverified
    (Prod.ext rfl (Prod.ext rfl hget)) (hentries ▸ walk_sharingTree) hpragmas hstart
    fun id hid => by
      have hlow : .release 0 8 12 ∈
          stripBuilds (.ofList [Version.release 0 8 12, .release 0 8 26]) :=
        Std.ExtTreeSet.contains_iff_mem.mp (by decide +kernel)
      have hhigh : .release 0 8 26 ∈
          stripBuilds (.ofList [Version.release 0 8 12, .release 0 8 26]) :=
        Std.ExtTreeSet.contains_iff_mem.mp (by decide +kernel)
      rcases mem_sharingGraph.mp hid with rfl | rfl | rfl
      · exact ⟨_, hhigh, hA ▸ by decide⟩
      · exact ⟨_, hlow, hB ▸ by decide⟩
      · exact ⟨_, hlow, hC ▸ by decide⟩
  refine ⟨w', plan, hplan, hgraph, hmade.resolved_of_pin ?_ ?_, hmade.resolved_of_pin ?_ ?_⟩
  · exact hgraph ▸ mem_sharingGraph.mpr (.inl rfl)
  · rw [PragmaTable.pin?, hA]
    decide +kernel
  · exact hgraph ▸ mem_sharingGraph.mpr (.inr (.inl rfl))
  · rw [PragmaTable.pin?, hB]
    decide +kernel

/-- The two files are in different jobs, and what both import is in one of them. -/
theorem jobs_of_sharingPlan :
    ∃ w' plan, sharingPlan = (w', .ok plan) ∧
      plan.versions.resolved[SourceId.ofText "A.sol".toList]? = some (.release 0 8 26) ∧
      plan.versions.resolved[SourceId.ofText "B.sol".toList]? = some (.release 0 8 12) ∧
      ((plan.graph.directImports (.ofText "A.sol".toList)).toList = [.ofText "C.sol".toList] ∧
        (plan.graph.directImports (.ofText "B.sol".toList)).toList = [.ofText "C.sol".toList]) ∧
      ∀ id ∈ plan.graph.imports, ∃! job, job ∈ plan.jobs ∧ id ∈ job.sources := by
  obtain ⟨w', plan, hplan, hgraph, hA, hB⟩ := make_sharing
  refine ⟨w', plan, hplan, hA, hB, ?_, (jobs_of_make hplan).2.1.1⟩
  rw [hgraph]
  decide +kernel

end CompilePlan

end SolPlan
