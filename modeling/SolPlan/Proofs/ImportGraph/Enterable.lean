import SolPlan.ImportGraph.Walk
import SolPlan.Proofs.FileTree.Lookup
import SolPlan.Proofs.Import.Resolve
import SolPlan.Proofs.SourceId

/-!
# Files that can be entered

A walk takes the ids of files off a list. An import leads to a place of the tree, to which its id
is the way from the root; or it is relative and leads nowhere. The id of the latter can still be
that of a file, since it is made of the path without its `..`. Such a path was reached from the
importing file by plain names and steps upwards (`Path.Reached`), so its id leads back to it, and
to the file's place.

Results:
* **`mem_enterable_of_resolve`**: if the id of an import's target leads to a file, then it is on the
  list.
-/

namespace SolPlan

open SolPlan.Path (IsName IsPlain Reached upPiece ofSteps)

/-! ## Ids -/

namespace SourceId

theorem isAbsolute_path (id : SourceId) : id.path.isAbsolute = false := by
  have htext : id.path = ofSteps false (segmentsOf id.text) :=
    congrArg Path.mk id.canonical_text.symm
  rw [htext]
  exact Path.isAbsolute_ofSteps_false fun _ hs => isSegment_of_mem hs

end SourceId

namespace Project

variable (p : Project)

theorem steps_rootPath : p.rootPath.steps = p.root.texts := Location.steps_path p.root

theorem isName_rootPath : ∀ s ∈ p.rootPath.steps, IsName s := by
  rw [steps_rootPath]
  exact Location.isName

theorem pathOf_eq (id : SourceId) :
    p.pathOf id = ofSteps true (p.rootPath.join id.path).steps := by
  unfold pathOf Path.normalize
  rw [Path.isAbsolute_join rfl]

/-- The path of an id is reached from the root. -/
theorem reached_pathOf (id : SourceId) :
    Reached p.rootPath.steps (p.rootPath.join id.path).steps := by
  have hroot : Reached p.rootPath.steps p.rootPath.steps.reverse.reverse := by
    rw [List.reverse_reverse]
    exact Path.reached_root _
  rw [← List.reverse_reverse (p.rootPath.join id.path).steps,
    Path.reverse_steps_join id.isAbsolute_path]
  exact hroot.resolvePieces (fun s hs => Text.not_mem_of_mem_splitOn hs)
    fun s hs hback => id.backslash_not_mem (Text.subset_of_mem_splitOn hs hback)

/-- The id of a path that is reached from the root leads back to it. -/
theorem pathOf_ofPath {steps : List Text} (h : Reached p.rootPath.steps steps) :
    p.pathOf (SourceId.ofPath (ofSteps true steps) p.rootPath) = ofSteps true steps := by
  have hsteps : (ofSteps true steps).steps = steps := h.steps_ofSteps p.isName_rootPath
  refine (Path.normalize_ofPath rfl rfl ?_).trans ?_
  · rw [hsteps]
    exact h.isSegment_wayPieces
  · change ofSteps true (ofSteps true steps).steps = _
    rw [hsteps]

/-- A relative path in a file of an id leads to what is reached from the root. -/
theorem reached_join_parent {id : SourceId} {folder : Path} {value : Text}
    (hfolder : (p.pathOf id).parent? = some folder) (hrelative : value.head? ≠ some '/')
    (hback : '\\' ∉ value) :
    (folder.join ⟨value⟩).isAbsolute = true ∧
      Reached p.rootPath.steps (folder.join ⟨value⟩).steps := by
  have hreached := p.reached_pathOf id
  rw [pathOf_eq] at hfolder
  rcases List.eq_nil_or_concat (p.rootPath.join id.path).steps with hnil | ⟨steps, s, hsteps⟩
  · rw [hnil, Path.parent?_ofSteps_nil] at hfolder
    cases hfolder
  · rw [List.concat_eq_append] at hsteps
    rw [hsteps] at hfolder hreached
    rw [Path.parent?_ofSteps (hreached.grounded p.isName_rootPath).solid] at hfolder
    cases hfolder
    have hfolder := hreached.dropLast
    rw [List.dropLast_concat] at hfolder
    have hvalue : Path.isAbsolute ⟨value⟩ = false := by
      unfold Path.isAbsolute
      simpa using hrelative
    refine ⟨Path.isAbsolute_join rfl _, ?_⟩
    rw [← List.reverse_reverse (Path.join _ _).steps, Path.reverse_steps_join hvalue,
      hfolder.steps_ofSteps p.isName_rootPath]
    refine Reached.resolvePieces (by rwa [List.reverse_reverse])
      (fun s hs => Text.not_mem_of_mem_splitOn hs)
      fun s hs hmem => hback (Text.subset_of_mem_splitOn hs hmem)

end Project

namespace Import

theorem mem_addTo {imports : List Import} {i j : Import} (h : i ∈ j.addTo imports) :
    i ∈ imports ∨ i = j := by
  unfold addTo at h
  split at h
  · exact Or.inl h
  · rwa [List.mem_append, List.mem_singleton] at h

end Import

/-! ## The list -/

namespace Walk

variable {t : FileTree} {p : Project} {r : Registry} {entries : List SourceId}

/-- The list holds the entries, and the ways to every place of the tree. -/
theorem mem_enterable {id : SourceId} :
    id ∈ enterable t p entries ↔ id ∈ entries ∨ ∃ l : Location, (l = [] ∨ l ∈ t.entries) ∧
      (id = SourceId.ofPath l.path p.rootPath ∨
        id = SourceId.ofPath ⟨['/', '.', '.'] ++ l.path.text⟩ p.rootPath) := by
  unfold enterable
  simp only [Std.ExtTreeSet.mem_ofList, List.contains_iff_mem, List.mem_append, List.mem_flatMap,
    List.mem_map, List.mem_cons, List.not_mem_nil, or_false, Std.ExtTreeMap.mem_keys]
  refine or_congr_right ⟨?_, ?_⟩
  · rintro ⟨_, ⟨l, hl, rfl⟩, hid⟩
    exact ⟨l, hl, hid⟩
  · rintro ⟨l, hl, hid⟩
    exact ⟨_, ⟨l, hl, rfl⟩, hid⟩

/-- What is reached from the root and leads to a file is the way to the file's place, or leaves the
root directory first. -/
theorem mem_enterable_of_reached {steps : List Text} (hreached : Reached p.rootPath.steps steps)
    (hfile : t.isFile (p.pathOf (SourceId.ofPath (ofSteps true steps) p.rootPath)) = true) :
    SourceId.ofPath (ofSteps true steps) p.rootPath ∈ enterable t p entries := by
  rw [p.pathOf_ofPath hreached] at hfile
  obtain ⟨l, hl, hfind⟩ := FileTree.mem_entries_of_isFile hfile
  refine mem_enterable.mpr (Or.inr ⟨l, Or.inr hl, ?_⟩)
  obtain ⟨base, names, rfl, hbase | rfl, hplain⟩ := hreached
  · refine Or.inl ?_
    rw [Location.path_eq, FileTree.find_ofSteps hfind]
    intro s hs
    rcases List.mem_append.mp hs with hs | hs
    · exact p.isName_rootPath s (hbase.subset hs)
    · exact (hplain s hs).toIsName
  · refine Or.inr ?_
    have htexts : l.texts = names :=
      FileTree.find_ofSteps_up hfind fun s hs => (hplain s hs).toIsName
    have hnil : names ≠ [] := by
      rintro rfl
      exact t.root_not_mem (List.map_eq_nil_iff.mp htexts ▸ hl)
    rw [Location.path_eq, htexts]
    congr 1
    exact Path.ofSteps_up hnil

/-- **If the id that an import leads to is that of a file, it can be entered.** -/
theorem mem_enterable_of_resolve {table : RemappingTable} {a : SourceId} {raw : Text}
    {res : Resolution} {target : Target}
    (h : Import.resolve t p r table (p.pathOf a) raw = .ok res)
    (htarget : res.statement.target = some target) (hfile : t.isFile (p.pathOf target.id) = true) :
    target.id ∈ enterable t p entries := by
  obtain ⟨path, rfl, hplace⟩ := Import.target_of_resolve h htarget
  cases hfind : t.find path with
  | ok l =>
    have hl := FileTree.mem_entries_of_entry?
      (Option.some_get (FileTree.isSome_entry?_find hfind)).symm
    refine mem_enterable.mpr (Or.inr ⟨l, hl, Or.inl ?_⟩)
    simp only [FileTree.resolve, hfind]
  | error e =>
    have hresolve : t.resolve path = path.normalize := by
      simp only [FileTree.resolve, hfind]
    -- Nothing is at the path as it stands, but a file is at the path without its `..`.
    rcases hplace with hplace | ⟨folder, value, hfolder, rfl, hrelative, hback⟩
    · obtain ⟨l, -, hl⟩ := FileTree.mem_entries_of_isFile hplace
      rw [hl] at hfind
      cases hfind
    · obtain ⟨habsolute, hreached⟩ := p.reached_join_parent hfolder hrelative hback
      have hnormalize :
          (folder.join ⟨value⟩).normalize = ofSteps true (folder.join ⟨value⟩).steps := by
        unfold Path.normalize
        rw [habsolute]
      simp only [hresolve, hnormalize] at hfile ⊢
      exact mem_enterable_of_reached hreached hfile

/-! ## The imports of a file -/

/-- The imports of a file are those that it had before, and what its statements resolve to. -/
theorem forall_mem_resolveAll {P : Import → Prop} {id : SourceId} {path : Path}
    {package : Option PackageId} {lines : List Text} {w : Walk} {done : List Import}
    (hres : ∀ raw ∈ lines, ∀ table res, Import.resolve t p r table path raw = .ok res →
      P res.statement) (hdone : ∀ i ∈ done, P i) :
    ∀ i ∈ (resolveAll t p r id path package lines w done).2, P i := by
  induction lines generalizing w done with
  | nil => exact hdone
  | cons raw lines ih =>
    have hrest : ∀ raw ∈ lines, ∀ table res, Import.resolve t p r table path raw = .ok res →
        P res.statement := fun raw hraw => hres raw (List.mem_cons_of_mem _ hraw)
    unfold resolveAll
    split
    · exact ih hrest hdone
    · rename_i res h
      refine ih hrest fun i hi => ?_
      rcases Import.mem_addTo hi with hi | rfl
      · exact hdone i hi
      · exact hres raw List.mem_cons_self _ res h

theorem mem_targets {imports : List Import} {id : SourceId} :
    id ∈ targets imports ↔ ∃ i ∈ imports, ∃ target, i.target = some target ∧ target.id = id := by
  unfold targets
  simp only [Std.ExtTreeSet.mem_ofList, List.contains_iff_mem, List.mem_filterMap,
    Option.map_eq_some_iff]

/-- **What a file imports can be entered if it is a file.** -/
theorem mem_enterable_of_mem_visit {w : Walk} {a id : SourceId} (h : id ∈ (w.visit t p r a).2)
    (hfile : t.isFile (p.pathOf id) = true) : id ∈ enterable t p entries := by
  unfold visit at h
  dsimp only at h
  split at h
  · simp at h
  · rename_i lines _
    obtain ⟨i, hi, target, htarget, rfl⟩ := mem_targets.mp h
    exact forall_mem_resolveAll
      (P := fun i => ∀ target, i.target = some target → t.isFile (p.pathOf target.id) = true →
        target.id ∈ enterable t p entries)
      (fun raw _ table res hres target htarget hfile =>
        mem_enterable_of_resolve hres htarget hfile)
      (fun _ h => absurd h List.not_mem_nil) i hi target htarget hfile

end Walk

end SolPlan
