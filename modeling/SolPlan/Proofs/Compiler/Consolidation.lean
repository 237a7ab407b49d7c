import Mathlib
import SolPlan.Proofs.Compiler.VersionMap

/-!
# Consolidation leaves each source in one group

Consolidation takes sources out of groups and does nothing else. Whatever it does, a source stays
in the group of its own version if it is there, and it stays in some group (`Shrinks`). Trimming
looks at a group before it takes a source out, since the groups change meanwhile; settling takes a
source out of all groups but one.

Results:
* `consolidate_shrinks`, `consolidate_single` and `mem_groups_consolidate`: on every map, each
  source ends in exactly one group that held it, and no group is empty;
* **`consolidate_compute`**: a computed map ends as the partition of its files by their versions.
-/

namespace SolPlan

namespace VersionMap

variable {g : ImportGraph} {m m' m'' : VersionMap}

/-! ## The groups of a source -/

theorem mem_versionsOf {id : SourceId} {v : Version} : v ∈ m.versionsOf id ↔ id ∈ m.group v := by
  unfold versionsOf group
  rw [List.mem_map]
  constructor
  · rintro ⟨⟨u, files⟩, he, rfl⟩
    obtain ⟨he, hid⟩ := List.mem_filter.mp he
    rw [Std.ExtTreeMap.mem_toList_iff_getElem?_eq_some] at he
    rw [he]
    exact Std.ExtTreeSet.contains_iff_mem.mp hid
  · intro hid
    cases hv : m.groups[v]? with
    | none => simp [hv] at hid
    | some files =>
      rw [hv] at hid
      exact ⟨(v, files), List.mem_filter.mpr ⟨Std.ExtTreeMap.mem_toList_iff_getElem?_eq_some.mpr hv,
        Std.ExtTreeSet.contains_iff_mem.mpr hid⟩, rfl⟩

theorem nodup_versionsOf (m : VersionMap) (id : SourceId) : (m.versionsOf id).Nodup := by
  have hkeys : m.groups.keys.Nodup := Std.ExtTreeMap.nodup_keys
  rw [← Std.ExtTreeMap.map_fst_toList_eq_keys] at hkeys
  exact hkeys.sublist (List.filter_sublist.map Prod.fst)

/-- A source with two groups has one that is not a given one. -/
theorem exists_ne_of_two_le {id : SourceId} (h : 2 ≤ (m.versionsOf id).length) (v : Version) :
    ∃ u, u ≠ v ∧ id ∈ m.group u := by
  by_contra hall
  have hsub : m.versionsOf id ⊆ [v] := fun u hu => by
    by_contra hne
    exact hall ⟨u, fun h => hne (List.mem_singleton.mpr h), mem_versionsOf.mp hu⟩
  have hle := (nodup_versionsOf m id).length_le_of_subset hsub
  rw [List.length_singleton] at hle
  omega

/-! ## Taking sources out -/

/-- Nothing enters a group. What is in the group of its own version stays there, and what is in
some group stays in some group. -/
structure Shrinks (m m' : VersionMap) : Prop where
  resolved : m'.resolved = m.resolved
  sub : ∀ v id, id ∈ m'.group v → id ∈ m.group v
  own : ∀ v id, m.resolved[id]? = some v → id ∈ m.group v → id ∈ m'.group v
  held : ∀ v id, id ∈ m.group v → ∃ u, id ∈ m'.group u

theorem Shrinks.refl (m : VersionMap) : Shrinks m m :=
  ⟨rfl, fun _ _ h => h, fun _ _ _ h => h, fun v _ h => ⟨v, h⟩⟩

theorem Shrinks.trans (h : Shrinks m m') (h' : Shrinks m' m'') : Shrinks m m'' where
  resolved := h'.resolved.trans h.resolved
  sub v id hid := h.sub v id (h'.sub v id hid)
  own v id hv hid := h'.own v id (h.resolved ▸ hv) (h.own v id hv hid)
  held v id hid := by
    obtain ⟨u, hu⟩ := h.held v id hid
    exact h'.held u id hu

theorem Shrinks.foldl {α : Type} {f : VersionMap → α → VersionMap}
    (hf : ∀ m a, Shrinks m (f m a)) (l : List α) (m : VersionMap) : Shrinks m (l.foldl f m) := by
  induction l generalizing m with
  | nil => exact Shrinks.refl m
  | cons a l ih => exact (hf m a).trans (ih (f m a))

theorem mem_group_drop {u v : Version} {a id : SourceId} :
    a ∈ (m.drop v id).group u ↔ a ∈ m.group u ∧ ¬ (a = id ∧ u = v) := by
  unfold drop
  split
  · rename_i files hv
    simp only [group, getElem?_insert_ite]
    by_cases h : u = v
    · subst h
      rw [if_pos rfl, hv, Option.getD_some, Option.getD_some, SourceSet.mem_erase]
      simp [and_comm]
    · simp [h]
  · rename_i hv
    constructor
    · intro ha
      refine ⟨ha, fun h => ?_⟩
      rw [h.2, group, hv] at ha
      simp at ha
    · exact And.left

theorem resolved_drop (m : VersionMap) (v : Version) (id : SourceId) :
    (m.drop v id).resolved = m.resolved := by
  unfold drop
  split <;> rfl

theorem shrinks_drop {v : Version} {id : SourceId} (hown : m.resolved[id]? ≠ some v)
    (helse : ∃ u, u ≠ v ∧ id ∈ m.group u) : Shrinks m (m.drop v id) where
  resolved := resolved_drop m v id
  sub _ _ h := (mem_group_drop.mp h).1
  own u a hu ha := mem_group_drop.mpr ⟨ha, fun h => hown (by rw [← h.1, ← h.2, hu])⟩
  held u a ha := by
    by_cases h : a = id ∧ u = v
    · obtain ⟨w, hne, hw⟩ := helse
      exact ⟨w, mem_group_drop.mpr ⟨h.1 ▸ hw, fun hw => hne hw.2⟩⟩
    · exact ⟨u, mem_group_drop.mpr ⟨ha, h⟩⟩

/-! ## Trimming -/

theorem shrinks_dropUnneeded (v : Version) (m : VersionMap) (id : SourceId) :
    Shrinks m (dropUnneeded g v m id) := by
  unfold dropUnneeded
  split
  · exact Shrinks.refl m
  · rename_i hshared
    obtain ⟨hlen, hown⟩ := not_or.mp hshared
    split
    · exact Shrinks.refl m
    · exact shrinks_drop hown (exists_ne_of_two_le (Nat.not_lt.mp hlen) v)

theorem shrinks_trim (m : VersionMap) : Shrinks m (m.trim g) :=
  Shrinks.foldl (fun m v => Shrinks.foldl (shrinks_dropUnneeded v) (m.group v).toList m) _ m

/-! ## Settling -/

/-- No two groups hold the source. -/
def Single (m : VersionMap) (id : SourceId) : Prop :=
  ∀ u v, id ∈ m.group u → id ∈ m.group v → u = v

theorem Shrinks.single (h : Shrinks m m') {id : SourceId} (hs : m.Single id) : m'.Single id :=
  fun u v hu hv => hs u v (h.sub u id hu) (h.sub v id hv)

/-- A source that is in some group has a home: the group of its own version, if it is there. -/
theorem home?_spec {id : SourceId} {v : Version} (h : id ∈ m.group v) :
    ∃ home, m.home? id = some home ∧ id ∈ m.group home ∧
      ∀ own, m.resolved[id]? = some own → id ∈ m.group own → home = own := by
  have hlast : ∃ last, (m.versionsOf id).getLast? = some last ∧ id ∈ m.group last := by
    have hne : m.versionsOf id ≠ [] := List.ne_nil_of_mem (mem_versionsOf.mpr h)
    exact ⟨_, List.getLast?_eq_some_getLast hne, mem_versionsOf.mp (List.getLast_mem hne)⟩
  obtain ⟨last, hlast, hmem⟩ := hlast
  unfold home?
  dsimp only
  split
  · rename_i own hown
    split
    · rename_i hheld
      refine ⟨own, rfl, mem_versionsOf.mp hheld, fun own' hown' _ => ?_⟩
      rw [hown] at hown'
      exact Option.some.inj hown'
    · rename_i hheld
      refine ⟨last, hlast, hmem, fun own' hown' hmem' => ?_⟩
      rw [hown] at hown'
      cases hown'
      exact absurd (mem_versionsOf.mpr hmem') hheld
  · rename_i hown
    refine ⟨last, hlast, hmem, fun own' hown' _ => ?_⟩
    rw [hown] at hown'
    cases hown'

theorem mem_group_foldl_drop {l : List Version} {u : Version} {a id : SourceId} :
    a ∈ (l.foldl (fun m v => m.drop v id) m).group u ↔ a ∈ m.group u ∧ ¬ (a = id ∧ u ∈ l) := by
  induction l generalizing m with
  | nil => simp
  | cons v l ih =>
    rw [List.foldl_cons, ih, mem_group_drop, List.mem_cons, and_assoc, and_or_left, not_or]

theorem resolved_foldl_drop (l : List Version) (id : SourceId) (m : VersionMap) :
    (l.foldl (fun m v => m.drop v id) m).resolved = m.resolved := by
  induction l generalizing m with
  | nil => rfl
  | cons v l ih => rw [List.foldl_cons, ih, resolved_drop]

/-- A settled source is at home only; the others are where they were. -/
theorem mem_group_settle {u : Version} {a id : SourceId} :
    a ∈ (settle m id).group u ↔ a ∈ m.group u ∧ (a = id → m.home? id = some u) := by
  unfold settle
  split
  · rename_i hnone
    refine ⟨fun ha => ⟨ha, fun h => ?_⟩, And.left⟩
    obtain ⟨home, hhome, -⟩ := home?_spec (h ▸ ha)
    rw [hnone] at hhome
    cases hhome
  · rename_i home hhome
    rw [mem_group_foldl_drop, List.mem_filter, mem_versionsOf]
    refine and_congr_right fun ha => ?_
    rw [not_and]
    refine forall_congr' fun h => ?_
    subst h
    simp only [ha, true_and, decide_eq_true_eq, not_not, hhome, Option.some.injEq]
    exact eq_comm

theorem resolved_settle (m : VersionMap) (id : SourceId) : (settle m id).resolved = m.resolved := by
  unfold settle
  split
  · rfl
  · exact resolved_foldl_drop _ id m

theorem shrinks_settle (m : VersionMap) (id : SourceId) : Shrinks m (settle m id) where
  resolved := resolved_settle m id
  sub _ _ h := (mem_group_settle.mp h).1
  own v a hv ha := by
    refine mem_group_settle.mpr ⟨ha, fun h => ?_⟩
    subst h
    obtain ⟨home, hhome, -, hown⟩ := home?_spec ha
    rw [hhome, hown v hv ha]
  held v a ha := by
    by_cases h : a = id
    · subst h
      obtain ⟨home, hhome, hmem, -⟩ := home?_spec ha
      exact ⟨home, mem_group_settle.mpr ⟨hmem, fun _ => hhome⟩⟩
    · exact ⟨v, mem_group_settle.mpr ⟨ha, fun h' => absurd h' h⟩⟩

theorem single_settle (m : VersionMap) (id : SourceId) : (settle m id).Single id := by
  intro u v hu hv
  have hu := (mem_group_settle.mp hu).2 rfl
  have hv := (mem_group_settle.mp hv).2 rfl
  exact Option.some.inj (hu.symm.trans hv)

theorem single_foldl_settle {l : List SourceId} {id : SourceId} (h : id ∈ l ∨ m.Single id) :
    (l.foldl settle m).Single id := by
  induction l generalizing m with
  | nil => exact h.resolve_left List.not_mem_nil
  | cons a l ih =>
    rw [List.foldl_cons]
    rcases h with h | h
    · rcases List.mem_cons.mp h with rfl | h
      · exact ih (Or.inr (single_settle m id))
      · exact ih (Or.inl h)
    · exact ih (Or.inr ((shrinks_settle m a).single h))

/-- A source that is not shared has at most one group. -/
theorem mem_shared_or_single (m : VersionMap) (id : SourceId) :
    id ∈ m.shared.toList ∨ m.Single id := by
  by_cases hid : id ∈ m.shared.toList
  · exact Or.inl hid
  · refine Or.inr fun u v hu hv => ?_
    by_contra hne
    refine hid (Std.ExtTreeSet.mem_toList.mpr ?_)
    unfold shared
    rw [Std.ExtTreeSet.mem_ofList, List.contains_iff_mem, List.mem_filter]
    refine ⟨?_, decide_eq_true ?_⟩
    · obtain ⟨⟨_, files⟩, he, hw⟩ := List.mem_map.mp (mem_versionsOf.mpr hu)
      obtain ⟨he, hfiles⟩ := List.mem_filter.mp he
      exact List.mem_flatMap.mpr ⟨_, he, Std.ExtTreeSet.mem_toList.mpr
        (Std.ExtTreeSet.contains_iff_mem.mp hfiles)⟩
    · have hsub : [u, v] ⊆ m.versionsOf id := by
        intro w hw
        rcases List.mem_pair.mp hw with rfl | rfl
        · exact mem_versionsOf.mpr hu
        · exact mem_versionsOf.mpr hv
      have hnodup : [u, v].Nodup := by simpa using hne
      exact hnodup.length_le_of_subset hsub

/-! ## Consolidation -/

theorem mem_group_filter {v : Version} {id : SourceId} :
    id ∈ group { m with groups := m.groups.filter fun _ files => !files.isEmpty } v ↔
      id ∈ m.group v := by
  simp only [group, Std.ExtTreeMap.getElem?_filter']
  cases m.groups[v]? with
  | none => simp
  | some files =>
    by_cases h : files.isEmpty
    · rw [Option.filter_some, if_neg (by simpa using h), Std.ExtTreeSet.isEmpty_iff.mp h]
      rfl
    · rw [Option.filter_some, if_pos (by simpa using h)]

/-- Consolidation depends on nothing in the graph but the imports. -/
theorem consolidate_congr {g g' : ImportGraph} (h : g.imports = g'.imports) (m : VersionMap) :
    m.consolidate g = m.consolidate g' := by
  have hneeded : isNeeded g = isNeeded g' := by
    funext files id
    simp only [isNeeded, ImportGraph.transitiveImports_congr h]
  have hdrop : dropUnneeded g = dropUnneeded g' := by
    funext v m id
    unfold dropUnneeded
    rw [hneeded]
  unfold consolidate trim
  rw [hdrop]

/-- Whatever a map holds, consolidation only takes sources out of groups they can do without. -/
theorem consolidate_shrinks (g : ImportGraph) (m : VersionMap) : Shrinks m (m.consolidate g) := by
  have h := (shrinks_trim (g := g) m).trans
    (Shrinks.foldl shrinks_settle (m.trim g).shared.toList (m.trim g))
  refine h.trans ⟨rfl, fun v id hid => mem_group_filter.mp hid,
    fun v id _ hid => mem_group_filter.mpr hid, fun v id hid => ⟨v, mem_group_filter.mpr hid⟩⟩

/-- After consolidation no source is in two groups. -/
theorem consolidate_single (g : ImportGraph) (m : VersionMap) (id : SourceId) :
    (m.consolidate g).Single id := by
  intro u v hu hv
  exact single_foldl_settle (mem_shared_or_single (m.trim g) id) u v (mem_group_filter.mp hu)
    (mem_group_filter.mp hv)

/-- After consolidation no group is empty. -/
theorem mem_groups_consolidate (g : ImportGraph) (m : VersionMap) (v : Version) :
    v ∈ (m.consolidate g).groups ↔ ∃ id, id ∈ (m.consolidate g).group v := by
  constructor
  · intro hv
    unfold consolidate at hv
    rw [Std.ExtTreeMap.mem_iff_isSome_getElem?, Std.ExtTreeMap.getElem?_filter'] at hv
    obtain ⟨files, hfiles⟩ := Option.isSome_iff_exists.mp hv
    obtain ⟨hfiles, hne⟩ := Option.filter_eq_some_iff.mp hfiles
    obtain ⟨id, hid⟩ : ∃ id, id ∈ files := by
      by_contra hall
      have hempty := Std.ExtTreeSet.eq_empty_iff_forall_not_mem.mpr (not_exists.mp hall)
      simp [hempty] at hne
    refine ⟨id, mem_group_filter.mpr ?_⟩
    unfold group
    rw [hfiles]
    exact hid
  · rintro ⟨id, hid⟩
    rw [Std.ExtTreeMap.mem_iff_isSome_getElem?]
    unfold group at hid
    cases h : (m.consolidate g).groups[v]? with
    | none => simp [h] at hid
    | some files => rfl

section Computed

variable {tools : Toolchain} {pragmas : PragmaTable} {files : List SourceId} {s s' : Selector}

/-- The files of a computed map are those of the closure. -/
theorem mem_resolved_iff (h : compute tools g pragmas files s = (s', .ok m)) {id : SourceId} :
    id ∈ m.resolved ↔ id ∈ closure g files := by
  obtain ⟨best, -, hmem, hcomputed⟩ := computed_of_compute h
  rw [Std.ExtTreeMap.mem_iff_isSome_getElem?, hcomputed.isSome_resolved, hmem]

/-- In a computed map the files are those that have a version. -/
theorem mem_resolved_compute (h : compute tools g pragmas files s = (s', .ok m)) {id : SourceId} :
    (∃ v, id ∈ m.group v) ↔ id ∈ m.resolved := by
  obtain ⟨best, -, hmem, hcomputed⟩ := computed_of_compute h
  rw [Std.ExtTreeMap.mem_iff_isSome_getElem?, Option.isSome_iff_exists]
  constructor
  · rintro ⟨v, hid⟩
    exact hcomputed.resolved_of_mem (closed_of_mem_iff hmem) hid
  · rintro ⟨v, hv⟩
    exact ⟨v, hcomputed.own hv⟩

/-- A computed and consolidated map holds a file in the group of its version only. -/
theorem mem_group_consolidate (h : compute tools g pragmas files s = (s', .ok m)) {v : Version}
    {id : SourceId} : id ∈ (m.consolidate g).group v ↔ m.resolved[id]? = some v := by
  obtain ⟨best, -, hmem, hcomputed⟩ := computed_of_compute h
  have hshrinks := consolidate_shrinks g m
  constructor
  · intro hid
    obtain ⟨own, hown⟩ := hcomputed.resolved_of_mem (closed_of_mem_iff hmem)
      (hshrinks.sub v id hid)
    have hkept := hshrinks.own own id hown (hcomputed.own hown)
    rw [hown, consolidate_single g m id v own hid hkept]
  · intro hv
    exact hshrinks.own v id hv (hcomputed.own hv)

/-- **A computed map ends as the partition of its files by their versions.** -/
theorem consolidate_compute (h : compute tools g pragmas files s = (s', .ok m)) :
    (m.consolidate g).resolved = m.resolved ∧
      (∀ id, (∃ v, id ∈ m.group v) ↔ id ∈ m.resolved) ∧
      (∀ v id, id ∈ (m.consolidate g).group v ↔ m.resolved[id]? = some v) ∧
      ∀ v, v ∈ (m.consolidate g).groups ↔ ∃ id : SourceId, m.resolved[id]? = some v := by
  refine ⟨(consolidate_shrinks g m).resolved, fun _ => mem_resolved_compute h,
    fun _ _ => mem_group_consolidate h, fun v => ?_⟩
  rw [mem_groups_consolidate]
  exact exists_congr fun _ => mem_group_consolidate h

end Computed

/-- Two sources that share an import. -/
def sharedImport : ImportGraph :=
  .ofImports [(.ofText "A.sol".toList, [.ofText "C.sol".toList]),
    (.ofText "B.sol".toList, [.ofText "C.sol".toList]), (.ofText "C.sol".toList, [])]

/-- One of them is pinned, to the lower of the installed versions. -/
def sharedMap : Selector × Except Error VersionMap :=
  compute (.ofLists none none []) sharedImport
    (.ofList [(.ofText "B.sol".toList, some ⟨[], [[⟨.exact, .patch 0 8 12⟩]]⟩)])
    [.ofText "A.sol".toList, .ofText "B.sol".toList]
    ⟨.ofList [Version.release 0 8 12, Version.release 0 8 26], ∅, false, ⟨[], 0⟩⟩

/-- What both import is in the groups of both at first, and in the group of its own version in the
end. -/
theorem consolidate_sharedMap :
    ∃ s' m, sharedMap = (s', .ok m) ∧
      (∀ v ∈ [Version.release 0 8 12, .release 0 8 26], .ofText "C.sol".toList ∈ m.group v) ∧
      ∀ v id, id ∈ (m.consolidate sharedImport).group v ↔ m.resolved[id]? = some v := by
  have hshared : (sharedMap.2.toOption.map fun m =>
      [Version.release 0 8 12, .release 0 8 26].all fun v =>
        (m.group v).contains (.ofText "C.sol".toList)) = some true := by cbv
  cases hm : sharedMap.2 with
  | error e => rw [hm] at hshared; cases hshared
  | ok m =>
    rw [hm] at hshared
    refine ⟨_, m, Prod.ext rfl hm, fun v hv => ?_, (consolidate_compute (Prod.ext rfl hm)).2.2.1⟩
    exact List.all_eq_true.mp (Option.some.inj hshared) v hv

end VersionMap

end SolPlan
