import Mathlib
import SolPlan.Proofs.Compiler.VersionRule

/-!
# A version map depends on the closure of its files alone

What the files of a map bring can be gathered in one table, which gives each source all that it
imports (`gather`). The files are gone through one after the other: an import that has an entry
keeps it, and the entry of the file itself is written again. Whatever the order of the files and
however often they are listed, the table holds the closure, and the same for each source
(`gathers_gather`). Selecting and grouping then look at nothing but this table.

What is gathered of more files than asked for is the same as long as the others are imported: what
an import imports is imported too, or it is the file itself, which is gathered anyway.

Results:
* `gathers_gather`: what the table holds;
* `compute_eq_computeGathered`: the map of some files is computed from the table;
* `log_selectAll`: the log of the toolchain is that of the calls of all requests, in turn;
* **`compute_of_reach`**: files that reach each other's closure have one map, one error, one
  sequence of calls and one selector in the end.
-/

namespace SolPlan

/-! ## Calls to the toolchain -/

/-- A call to the toolchain: to list what can be installed, or to install a version. -/
inductive ToolchainCall where
  | list
  | install (v : Version)
deriving DecidableEq

/-- The log with one more call. -/
def ToolchainLog.note (log : ToolchainLog) : ToolchainCall → ToolchainLog
  | .list => { log with probes := log.probes + 1 }
  | .install v => { log with installs := log.installs ++ [v] }

/-- The calls of a request: what can be installed is listed before anything is installed. -/
def Service.calls (x : Service) : List ToolchainCall :=
  List.replicate (x.after.log.probes - x.before.log.probes) .list ++ x.installCalls.map .install

theorem foldl_note_replicate (n : Nat) (log : ToolchainLog) :
    (List.replicate n ToolchainCall.list).foldl ToolchainLog.note log =
      ⟨log.installs, log.probes + n⟩ := by
  induction n generalizing log with
  | zero => rfl
  | succ n ih =>
    rw [List.replicate_succ, List.foldl_cons, ih]
    simp only [ToolchainLog.note, ToolchainLog.mk.injEq, true_and]
    omega

theorem foldl_note_install (versions : List Version) (log : ToolchainLog) :
    (versions.map ToolchainCall.install).foldl ToolchainLog.note log =
      ⟨log.installs ++ versions, log.probes⟩ := by
  induction versions generalizing log with
  | nil => rw [List.map_nil, List.foldl_nil, List.append_nil]
  | cons v versions ih =>
    rw [List.map_cons, List.foldl_cons, ih]
    simp only [ToolchainLog.note, List.append_assoc, List.singleton_append]

namespace Selector

variable {tools : Toolchain} {pragmas : PragmaTable}

theorem probes_le_probe (s : Selector) : s.log.probes ≤ (s.probe tools).log.probes := by
  unfold probe
  split
  · exact Nat.le_refl _
  · exact Nat.le_succ _

/-- The log of a request is that of its calls. -/
theorem log_serve (s : Selector) (q : Request) :
    (s.serve tools q).after.log = (s.serve tools q).calls.foldl ToolchainLog.note s.log := by
  have hle : s.log.probes ≤ (s.serve tools q).after.log.probes := by
    have houtcome := outcome_serve tools s q
    generalize (s.serve tools q).after = s', (s.serve tools q).answer = answer at houtcome
    cases houtcome with
    | found => exact Nat.le_refl _
    | installed => exact probes_le_probe s
    | refused => exact probes_le_probe s
    | none => exact probes_le_probe s
  have hinstalls : (s.serve tools q).after.log.installs =
      s.log.installs ++ (s.serve tools q).installCalls := (regular_serve tools s q).installs_eq
  have hbefore : (s.serve tools q).before = s := rfl
  rw [Service.calls, List.foldl_append, foldl_note_replicate, foldl_note_install, ← hinstalls,
    hbefore, Nat.add_sub_cancel' hle]

/-- The log of many requests is that of their calls, in turn. -/
theorem log_selectAll (s : Selector) (files : List SourceId) :
    (s.selectAll tools pragmas files).1.log =
      ((s.serveFiles tools pragmas files).flatMap Service.calls).foldl ToolchainLog.note s.log := by
  induction files generalizing s with
  | nil => rfl
  | cons file files ih =>
    have hlog : (s.serve tools (requestFor tools pragmas file)).after.log =
        (s.serve tools (requestFor tools pragmas file)).calls.foldl ToolchainLog.note s.log :=
      log_serve s _
    unfold selectAll serveFiles
    rw [serve_requestFor] at hlog ⊢
    dsimp only at hlog ⊢
    generalize hselect : s.select tools pragmas file = selected at hlog
    obtain ⟨s₁, e | v⟩ := selected
    · rw [List.flatMap_singleton]
      exact hlog
    · have hrest := ih s₁
      dsimp only at hlog ⊢
      rw [List.flatMap_cons, List.foldl_append, ← hlog, ← hrest]
      generalize s₁.selectAll tools pragmas files = rest
      obtain ⟨s₂, _ | best⟩ := rest <;> rfl

end Selector

namespace VersionMap

variable {g : ImportGraph} {tools : Toolchain} {pragmas : PragmaTable} {files : List SourceId}

/-! ## The table of what files bring -/

/-- Give a source an entry, unless it has one. -/
def gatherImport (g : ImportGraph) (gathered : Std.ExtTreeMap SourceId SourceSet) (id : SourceId) :
    Std.ExtTreeMap SourceId SourceSet :=
  if id ∈ gathered then gathered else gathered.insert id (g.transitiveImports id)

/-- Give entries to what a file imports, and write that of the file. -/
def gatherFile (g : ImportGraph) (gathered : Std.ExtTreeMap SourceId SourceSet)
    (file : SourceId) : Std.ExtTreeMap SourceId SourceSet :=
  ((g.transitiveImports file).toList.foldl (gatherImport g) gathered).insert file
    (g.transitiveImports file)

/-- Gather files, one after the other. -/
def gather (g : ImportGraph) (files : List SourceId) : Std.ExtTreeMap SourceId SourceSet :=
  files.foldl (gatherFile g) ∅

/-- The table has entries for these sources, and each is right. -/
def Gathers (g : ImportGraph) (held : SourceId → Prop)
    (gathered : Std.ExtTreeMap SourceId SourceSet) : Prop :=
  ∀ id imports, gathered[id]? = some imports ↔ held id ∧ imports = g.transitiveImports id

variable {held held' : SourceId → Prop} {gathered gathered' : Std.ExtTreeMap SourceId SourceSet}

theorem Gathers.congr (h : Gathers g held gathered) (hheld : ∀ id, held id ↔ held' id) :
    Gathers g held' gathered :=
  fun id imports => by rw [h, hheld]

theorem Gathers.mem_iff (h : Gathers g held gathered) {id : SourceId} :
    id ∈ gathered ↔ held id := by
  rw [Std.ExtTreeMap.mem_iff_isSome_getElem?, Option.isSome_iff_exists]
  constructor
  · rintro ⟨imports, himports⟩
    exact ((h id imports).mp himports).1
  · intro hid
    exact ⟨_, (h id _).mpr ⟨hid, rfl⟩⟩

/-- Two tables with entries for the same sources are the same. -/
theorem Gathers.unique (h : Gathers g held gathered) (h' : Gathers g held gathered') :
    gathered = gathered' :=
  Std.ExtTreeMap.ext_getElem? fun id => Option.ext fun imports => by rw [h, h']

theorem Gathers.insert (h : Gathers g held gathered) (id : SourceId) :
    Gathers g (fun x => x = id ∨ held x) (gathered.insert id (g.transitiveImports id)) := by
  intro x imports
  rw [getElem?_insert_ite]
  split
  · rename_i hx
    subst hx
    rw [Option.some.injEq, eq_comm]
    simp only [true_or, true_and]
  · rename_i hx
    simp only [h x imports, hx, false_or]

theorem Gathers.gatherImport (h : Gathers g held gathered) (id : SourceId) :
    Gathers g (fun x => x = id ∨ held x) (gatherImport g gathered id) := by
  unfold VersionMap.gatherImport
  split
  · rename_i hid
    refine h.congr fun x => ⟨Or.inr, ?_⟩
    rintro (rfl | hx)
    · exact h.mem_iff.mp hid
    · exact hx
  · exact h.insert id

theorem Gathers.foldl (h : Gathers g held gathered) (ids : List SourceId) :
    Gathers g (fun x => x ∈ ids ∨ held x) (ids.foldl (VersionMap.gatherImport g) gathered) := by
  induction ids generalizing held gathered with
  | nil => exact h.congr fun x => by simp
  | cons id ids ih =>
    refine (ih (h.gatherImport id)).congr fun x => ?_
    rw [List.mem_cons, or_left_comm, or_assoc]

theorem Gathers.gatherFile (h : Gathers g held gathered) (file : SourceId) :
    Gathers g (fun x => Brings g file x ∨ held x) (gatherFile g gathered file) := by
  refine ((h.foldl (g.transitiveImports file).toList).insert file).congr fun x => ?_
  rw [Brings, Std.ExtTreeSet.mem_toList, or_assoc]

/-- **The table has the entries of all that the files bring.** -/
theorem gathers_gather (g : ImportGraph) (files : List SourceId) :
    Gathers g (fun x => ∃ file ∈ files, Brings g file x) (gather g files) := by
  have hrun : ∀ (held : SourceId → Prop) (gathered : Std.ExtTreeMap SourceId SourceSet),
      Gathers g held gathered → Gathers g (fun x => (∃ file ∈ files, Brings g file x) ∨ held x)
        (files.foldl (VersionMap.gatherFile g) gathered) := by
    induction files with
    | nil => exact fun held gathered h => h.congr fun x => by simp
    | cons file files ih =>
      intro held gathered h
      refine (ih _ _ (h.gatherFile file)).congr fun x => ?_
      simp only [List.mem_cons, exists_eq_or_imp]
      rw [or_left_comm, or_assoc]
  have hempty : Gathers g (fun _ => False) ∅ := fun id imports => by simp
  exact (hrun _ _ hempty).congr fun x => or_iff_left id

/-! ## Computing from the table -/

/-- Add a gathered source with what it imports, if it has a best version. -/
def addGathered (pragmas : PragmaTable) (best : Std.ExtTreeMap SourceId Version) (m : VersionMap)
    (file : SourceId) (imports : SourceSet) : VersionMap :=
  match best[file]? with
  | none => m
  | some own =>
    let v := if pragmas.isExactPin file then own else lower pragmas best own imports.toList
    let m := m.add v (file :: imports.toList)
    { m with resolved := m.resolved.insert file v }

/-- Select versions for the sources of a table, and group them. -/
def computeGathered (tools : Toolchain) (pragmas : PragmaTable)
    (gathered : Std.ExtTreeMap SourceId SourceSet) (s : Selector) :
    Selector × Except Error VersionMap :=
  match s.selectAll tools pragmas gathered.keys with
  | (s, .error e) => (s, .error e)
  | (s, .ok best) => (s, .ok (gathered.foldl (addGathered pragmas best) empty))

/-- Lists in the order of ids with the same members are equal. -/
theorem eq_of_ordered {l l' : List SourceId} (h : l.Pairwise fun a b => compare a b = .lt)
    (h' : l'.Pairwise fun a b => compare a b = .lt) (hmem : ∀ a, a ∈ l ↔ a ∈ l') : l = l' := by
  refine List.Perm.eq_of_pairwise (fun a b _ _ hab hba => ?_) h h'
    ((List.perm_ext_iff_of_nodup (nodup_of_ordered h) (nodup_of_ordered h')).mpr hmem)
  exact absurd hba (Std.OrientedCmp.not_lt_of_lt hab)

/-- The sources of the table are those of the closure. -/
theorem keys_gather (g : ImportGraph) (files : List SourceId) :
    (gather g files).keys = (closure g files).toList := by
  refine eq_of_ordered Std.ExtTreeMap.ordered_keys Std.ExtTreeSet.ordered_toList fun id => ?_
  rw [Std.ExtTreeMap.mem_keys, (gathers_gather g files).mem_iff, Std.ExtTreeSet.mem_toList,
    mem_closure]

/-- A fold over a map whose step needs only the keys is a fold over the keys. -/
theorem foldl_eq_foldl_keys {ν β : Type} {m : Std.ExtTreeMap SourceId ν}
    {step : β → SourceId → ν → β} {step' : β → SourceId → β}
    (h : ∀ b id v, m[id]? = some v → step b id v = step' b id) (b : β) :
    m.foldl step b = m.keys.foldl step' b := by
  rw [Std.ExtTreeMap.foldl_eq_foldl_toList, ← Std.ExtTreeMap.map_fst_toList_eq_keys,
    List.foldl_map]
  exact List.foldl_ext _ _ _ fun b e he =>
    h b e.1 e.2 (Std.ExtTreeMap.mem_toList_iff_getElem?_eq_some.mp he)

/-- **The map of some files is computed from the table of what they bring.** -/
theorem compute_eq_computeGathered (tools : Toolchain) (g : ImportGraph) (pragmas : PragmaTable)
    (files : List SourceId) (s : Selector) :
    compute tools g pragmas files s = computeGathered tools pragmas (gather g files) s := by
  unfold compute computeGathered
  rw [keys_gather]
  cases hselect : s.selectAll tools pragmas (closure g files).toList with
  | mk s' result =>
    cases result with
    | error e => rfl
    | ok best =>
      have hkeys : best.keys = (gather g files).keys := by
        rw [keys_gather]
        refine eq_of_ordered Std.ExtTreeMap.ordered_keys Std.ExtTreeSet.ordered_toList fun id => ?_
        rw [Std.ExtTreeMap.mem_keys, (Selector.selectAll_best hselect).1]
      have hbest : best.foldl (addFile g pragmas best) empty = best.keys.foldl
          (fun m id => addGathered pragmas best m id (g.transitiveImports id)) empty :=
        foldl_eq_foldl_keys (fun m id own hown => by
          simp only [addGathered, hown]
          rfl) empty
      have hgathered : (gather g files).foldl (addGathered pragmas best) empty =
          (gather g files).keys.foldl
            (fun m id => addGathered pragmas best m id (g.transitiveImports id)) empty :=
        foldl_eq_foldl_keys (fun m id imports himports => by
          rw [((gathers_gather g files id imports).mp himports).2]) empty
      dsimp only
      rw [hbest, hgathered, hkeys]

/-- The calls to the toolchain while the map of some files is computed. -/
def calls (tools : Toolchain) (g : ImportGraph) (pragmas : PragmaTable) (files : List SourceId)
    (s : Selector) : List ToolchainCall :=
  (s.serveFiles tools pragmas (closure g files).toList).flatMap Service.calls

theorem log_compute (tools : Toolchain) (g : ImportGraph) (pragmas : PragmaTable)
    (files : List SourceId) (s : Selector) :
    (compute tools g pragmas files s).1.log =
      (calls tools g pragmas files s).foldl ToolchainLog.note s.log := by
  rw [calls, ← Selector.log_selectAll]
  unfold compute
  generalize s.selectAll tools pragmas (closure g files).toList = result
  obtain ⟨s', _ | best⟩ := result <;> rfl

/-! ## The same closure -/

/-- Files that are listed or imported by listed ones bring nothing new. -/
theorem gather_of_reach {F F' : List SourceId} (hsub : ∀ f ∈ F, f ∈ F')
    (hreach : ∀ f ∈ F', f ∈ F ∨ ∃ a ∈ F, f ∈ g.transitiveImports a) :
    gather g F = gather g F' := by
  refine (gathers_gather g F).unique ((gathers_gather g F').congr fun x => ⟨?_, ?_⟩)
  · rintro ⟨f, hf, hx⟩
    rcases hreach f hf with hf | ⟨a, ha, hf⟩
    · exact ⟨f, hf, hx⟩
    · exact ⟨a, ha, Brings.trans (Or.inr hf) hx⟩
  · rintro ⟨f, hf, hx⟩
    exact ⟨f, hsub f hf, hx⟩

/-- **A map depends on the closure of its files alone.** If a list of files holds another one, and
otherwise only files that the other one imports, in any order and any number of times, then for both
the same is gathered, the toolchain gets the same calls, which are the ones it logs, and the result
is the same: the map or the error, and the selector. -/
theorem compute_of_reach {F F' : List SourceId} (hsub : ∀ f ∈ F, f ∈ F')
    (hreach : ∀ f ∈ F', f ∈ F ∨ ∃ a ∈ F, f ∈ g.transitiveImports a) (tools : Toolchain)
    (pragmas : PragmaTable) (s : Selector) :
    compute tools g pragmas F s = compute tools g pragmas F' s ∧
      gather g F = gather g F' ∧
      calls tools g pragmas F s = calls tools g pragmas F' s ∧
      (compute tools g pragmas F s).1.log =
        (calls tools g pragmas F s).foldl ToolchainLog.note s.log := by
  have hgather := gather_of_reach hsub hreach
  refine ⟨?_, hgather, ?_, log_compute tools g pragmas F s⟩
  · rw [compute_eq_computeGathered, hgather, compute_eq_computeGathered]
  · rw [calls, ← keys_gather, hgather, keys_gather, calls]

/-- A toolchain with three versions to install, and a selector that has nothing yet. -/
def threeToInstall : Toolchain × Selector :=
  (.ofLists none (some [.release 0 8 12, .release 0 8 24, .release 0 8 26]) [],
    ⟨∅, ∅, false, ⟨[], 0⟩⟩)

/-- The first source of `pinInCycle` alone, and with what it imports, some of it twice: either way
the same versions are installed in the same order. -/
theorem compute_of_reach_pinInCycle :
    compute threeToInstall.1 pinInCycle pinInCyclePragmas [.ofText ['A']] threeToInstall.2 =
      compute threeToInstall.1 pinInCycle pinInCyclePragmas
        [.ofText ['D'], .ofText ['C'], .ofText ['A'], .ofText ['C']] threeToInstall.2 ∧
    calls threeToInstall.1 pinInCycle pinInCyclePragmas
        [.ofText ['D'], .ofText ['C'], .ofText ['A'], .ofText ['C']] threeToInstall.2 =
      [.list, .install (.release 0 8 26), .install (.release 0 8 12),
        .install (.release 0 8 24)] := by
  have hlist : (pinInCycle.transitiveImports (.ofText ['A'])).toList =
      [.ofText ['B'], .ofText ['C'], .ofText ['D']] := by cbv
  have hsub : ∀ f ∈ [SourceId.ofText ['A']], f ∈
      [SourceId.ofText ['D'], .ofText ['C'], .ofText ['A'], .ofText ['C']] := by simp
  have hreach : ∀ f ∈ [SourceId.ofText ['D'], .ofText ['C'], .ofText ['A'], .ofText ['C']],
      f ∈ [SourceId.ofText ['A']] ∨
        ∃ a ∈ [SourceId.ofText ['A']], f ∈ pinInCycle.transitiveImports a := fun f hf => by
    by_cases hA : f = .ofText ['A']
    · exact Or.inl (List.mem_singleton.mpr hA)
    · refine Or.inr ⟨.ofText ['A'], List.mem_singleton_self _, ?_⟩
      rw [← Std.ExtTreeSet.mem_toList, hlist]
      simp only [List.mem_cons, List.not_mem_nil, or_false] at hf ⊢
      tauto
  obtain ⟨hcompute, -, hcalls, -⟩ :=
    compute_of_reach hsub hreach threeToInstall.1 pinInCyclePragmas threeToInstall.2
  refine ⟨hcompute, hcalls.symm.trans ?_⟩
  cbv

end VersionMap

end SolPlan
