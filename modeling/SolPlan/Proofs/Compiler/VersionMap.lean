import SolPlan.Compiler.VersionMap
import SolPlan.Proofs.Compiler.Selection

/-!
# What a computed version map holds

A map is computed by adding the files of a closed set one by one. Each adds its version, and puts
itself and its transitive imports into the group of that version (`addFile`). No step depends on
what others have added, so the map can be read off the best versions.

Results:
* **`computed_of_compute`**: the version of each file and the members of each group
  (`ComputedFrom`);
* `ComputedFrom.own` and `ComputedFrom.resolved_of_mem`: a file is in the group of its own version,
  and whatever is in some group has a version of its own.
-/

namespace SolPlan

namespace VersionMap

variable {g : ImportGraph} {pragmas : PragmaTable} {best : Std.ExtTreeMap SourceId Version}

theorem mem_group_add {m : VersionMap} {u v : Version} {files : List SourceId} {id : SourceId} :
    id ∈ (m.add u files).group v ↔ (v = u ∧ id ∈ files) ∨ id ∈ m.group v := by
  simp only [group, add, getElem?_insert_ite]
  by_cases h : v = u
  · subst h
    rw [if_pos rfl, Option.getD_some, SourceSet.mem_foldl_insert]
    simp
  · rw [if_neg h]
    simp [h]

/-- What a file puts into the group of its version. -/
def Brings (g : ImportGraph) (file id : SourceId) : Prop :=
  id = file ∨ id ∈ g.transitiveImports file

theorem mem_brought {file id : SourceId} :
    id ∈ file :: (g.transitiveImports file).toList ↔ Brings g file id := by
  rw [List.mem_cons, Std.ExtTreeSet.mem_toList, Brings]

theorem mem_closure {files : List SourceId} {id : SourceId} :
    id ∈ closure g files ↔ ∃ file ∈ files, Brings g file id := by
  unfold closure
  rw [Std.ExtTreeSet.mem_ofList, List.contains_iff_mem, List.mem_flatMap]
  simp only [mem_brought]

/-- What a file brings, whatever brings the file brings too. -/
theorem Brings.trans {a b c : SourceId} (hab : Brings g a b) (hbc : Brings g b c) :
    Brings g a c := by
  rcases hbc with rfl | hbc
  · exact hab
  · rcases hab with rfl | hab
    · exact Or.inr hbc
    · exact ImportGraph.mem_transitiveImports_of_mem hab hbc

/-- What is imported by something of the closure is in the closure. -/
theorem mem_closure_of_brings {files : List SourceId} {a b : SourceId} (ha : a ∈ closure g files)
    (hab : Brings g a b) : b ∈ closure g files := by
  obtain ⟨file, hfile, hbrings⟩ := mem_closure.mp ha
  exact mem_closure.mpr ⟨file, hfile, hbrings.trans hab⟩

theorem closed_of_mem_iff {files : List SourceId} (h : ∀ id, id ∈ best ↔ id ∈ closure g files)
    (a b : SourceId) (ha : a ∈ best) (hab : Brings g a b) : b ∈ best :=
  (h b).mpr (mem_closure_of_brings ((h a).mp ha) hab)

/-! ## The map of some best versions -/

/-- The map that the best versions of files give. -/
structure ComputedFrom (g : ImportGraph) (pragmas : PragmaTable)
    (best : Std.ExtTreeMap SourceId Version) (m : VersionMap) : Prop where
  resolved : ∀ id, m.resolved[id]? = best[id]?.map (resolve g pragmas best id)
  group : ∀ v id, id ∈ m.group v ↔ ∃ file, m.resolved[file]? = some v ∧ Brings g file id

theorem resolved_foldl {l : List (SourceId × Version)} (h : ∀ e ∈ l, best[e.1]? = some e.2)
    (m : VersionMap) (id : SourceId) :
    (l.foldl (fun m e => addFile g pragmas best m e.1 e.2) m).resolved[id]? =
      if id ∈ l.map Prod.fst then best[id]?.map (resolve g pragmas best id)
      else m.resolved[id]? := by
  induction l generalizing m with
  | nil => simp
  | cons e l ih =>
    rw [List.foldl_cons, ih (fun e' he' => h e' (List.mem_cons_of_mem _ he')), List.map_cons]
    by_cases hl : id ∈ l.map Prod.fst
    · rw [if_pos hl, if_pos (List.mem_cons_of_mem _ hl)]
    · rw [if_neg hl]
      simp only [addFile, add, getElem?_insert_ite, List.mem_cons, hl, or_false]
      split
      · rename_i hid
        rw [hid, h e List.mem_cons_self, Option.map_some]
      · rfl

theorem mem_group_foldl {l : List (SourceId × Version)} (m : VersionMap) (v : Version)
    (id : SourceId) :
    id ∈ (l.foldl (fun m e => addFile g pragmas best m e.1 e.2) m).group v ↔
      (∃ e ∈ l, resolve g pragmas best e.1 e.2 = v ∧ Brings g e.1 id) ∨ id ∈ m.group v := by
  induction l generalizing m with
  | nil => simp
  | cons e l ih =>
    have hadd : id ∈ (addFile g pragmas best m e.1 e.2).group v ↔
        (v = resolve g pragmas best e.1 e.2 ∧ Brings g e.1 id) ∨ id ∈ m.group v := by
      rw [← mem_brought]
      exact mem_group_add
    rw [List.foldl_cons, ih, hadd, eq_comm (a := v)]
    simp only [List.mem_cons, exists_eq_or_imp]
    rw [or_left_comm, or_assoc]

theorem computedFrom_foldl :
    ComputedFrom g pragmas best (best.foldl (addFile g pragmas best) empty) := by
  rw [Std.ExtTreeMap.foldl_eq_foldl_toList]
  have hlist : ∀ e ∈ best.toList, best[e.1]? = some e.2 := fun e he =>
    Std.ExtTreeMap.mem_toList_iff_getElem?_eq_some.mp he
  have hresolved : ∀ id,
      (best.toList.foldl (fun m e => addFile g pragmas best m e.1 e.2) empty).resolved[id]? =
        best[id]?.map (resolve g pragmas best id) := fun id => by
    rw [resolved_foldl hlist]
    split
    · rfl
    · rename_i hid
      rw [Std.ExtTreeMap.map_fst_toList_eq_keys, Std.ExtTreeMap.mem_keys,
        Std.ExtTreeMap.mem_iff_isSome_getElem?, Option.not_isSome_iff_eq_none] at hid
      rw [hid]
      rfl
  refine ⟨hresolved, fun v id => ?_⟩
  rw [mem_group_foldl]
  constructor
  · rintro (⟨e, he, hv, hbrings⟩ | hid)
    · exact ⟨e.1, by rw [hresolved, hlist e he, Option.map_some, hv], hbrings⟩
    · simp [group, empty] at hid
  · rintro ⟨file, hfile, hbrings⟩
    rw [hresolved, Option.map_eq_some_iff] at hfile
    obtain ⟨own, hown, hv⟩ := hfile
    exact Or.inl ⟨(file, own), Std.ExtTreeMap.mem_toList_iff_getElem?_eq_some.mpr hown, hv,
      hbrings⟩

/-- **A computed map comes from the best versions of a closed set of files.** -/
theorem computed_of_compute {tools : Toolchain} {files : List SourceId} {s s' : Selector}
    {m : VersionMap} (h : compute tools g pragmas files s = (s', .ok m)) :
    ∃ best, s.selectAll tools pragmas (closure g files).toList = (s', .ok best) ∧
      (∀ id, id ∈ best ↔ id ∈ closure g files) ∧ ComputedFrom g pragmas best m := by
  unfold compute at h
  split at h
  · simp at h
  · rename_i s₁ best hselect
    simp only [Prod.mk.injEq, Except.ok.injEq] at h
    obtain ⟨rfl, rfl⟩ := h
    refine ⟨best, hselect, fun id => ?_, computedFrom_foldl⟩
    rw [(Selector.selectAll_best hselect).1, Std.ExtTreeSet.mem_toList]

/-- A map depends on nothing in the graph but the imports. -/
theorem compute_congr {g' : ImportGraph} (h : g.imports = g'.imports) (tools : Toolchain)
    (pragmas : PragmaTable) (files : List SourceId) (s : Selector) :
    compute tools g pragmas files s = compute tools g' pragmas files s := by
  have hclosure : closure g files = closure g' files := by
    unfold closure
    simp only [ImportGraph.transitiveImports_congr h]
  have hadd : addFile g = addFile g' := by
    funext pragmas best m file own
    simp only [addFile, resolve, ImportGraph.transitiveImports_congr h]
  unfold compute
  rw [hclosure, hadd]

/-- A map does not depend on the log of the toolchain. -/
theorem compute_agree {tools : Toolchain} {files : List SourceId} {s s' : Selector}
    (h : Selector.Agree s s') :
    (compute tools g pragmas files s).2 = (compute tools g pragmas files s').2 := by
  have hsame := (Selector.selectAll_agree tools pragmas h (closure g files).toList).2
  unfold compute
  generalize s.selectAll tools pragmas (closure g files).toList = a at hsame
  generalize s'.selectAll tools pragmas (closure g files).toList = b at hsame
  obtain ⟨a, x⟩ := a
  obtain ⟨b, y⟩ := b
  dsimp only at hsame
  subst hsame
  cases x <;> rfl

namespace ComputedFrom

variable {m : VersionMap}

theorem isSome_resolved (h : ComputedFrom g pragmas best m) {id : SourceId} :
    (m.resolved[id]?).isSome ↔ id ∈ best := by
  rw [h.resolved, Option.isSome_map, Std.ExtTreeMap.mem_iff_isSome_getElem?]

/-- A file is in the group of its own version. -/
theorem own (h : ComputedFrom g pragmas best m) {id : SourceId} {v : Version}
    (hv : m.resolved[id]? = some v) : id ∈ m.group v :=
  (h.group v id).mpr ⟨id, hv, Or.inl rfl⟩

/-- Whatever is in some group has a version of its own. -/
theorem resolved_of_mem (h : ComputedFrom g pragmas best m)
    (hclosed : ∀ a b, a ∈ best → Brings g a b → b ∈ best) {id : SourceId} {v : Version}
    (hid : id ∈ m.group v) : ∃ own, m.resolved[id]? = some own := by
  obtain ⟨file, hfile, hbrings⟩ := (h.group v id).mp hid
  have hbest : file ∈ best := h.isSome_resolved.mp (hfile ▸ rfl)
  exact Option.isSome_iff_exists.mp (h.isSome_resolved.mpr (hclosed file id hbest hbrings))

end ComputedFrom

end VersionMap

end SolPlan
