import Mathlib
import SolPlan.Proofs.Compiler.Consolidation

/-!
# A consolidated map stays as it is

A map is consolidated if no source is in two groups and no group is empty (`IsConsolidated`). To
such a map trimming and settling do nothing, since both look only at sources with several groups,
and there is no group to take out. Consolidation brings every map there, also one whose versions do
not belong to its groups.

Results:
* `consolidate_eq_self_iff`: consolidation leaves alone exactly the consolidated maps;
* **`consolidate_partition`**: on every map, each source ends in exactly one of its groups, the one
  of its own version if that held it, and consolidating again changes nothing.
-/

namespace SolPlan

namespace VersionMap

variable {g : ImportGraph} {m : VersionMap} {id : SourceId}

/-- No source is in two groups, and no group is empty. -/
structure IsConsolidated (m : VersionMap) : Prop where
  single : ∀ id, m.Single id
  filled : ∀ (v : Version) (files : SourceSet), m.groups[v]? = some files → ∃ id, id ∈ files

/-! ## Nothing is left to do -/

/-- A source in at most one group is not shared. -/
theorem Single.length_versionsOf_lt (h : m.Single id) : (m.versionsOf id).length < 2 := by
  by_contra hlen
  rw [Nat.not_lt] at hlen
  obtain ⟨v, hv⟩ := List.exists_mem_of_length_pos (Nat.lt_of_lt_of_le Nat.zero_lt_two hlen)
  obtain ⟨u, hne, hu⟩ := exists_ne_of_two_le hlen v
  exact hne (h u v hu (mem_versionsOf.mp hv))

theorem Single.dropUnneeded (h : m.Single id) (g : ImportGraph) (v : Version) :
    dropUnneeded g v m id = m := by
  unfold VersionMap.dropUnneeded
  rw [if_pos (Or.inl h.length_versionsOf_lt)]

/-- A source in at most one group is at home there. -/
theorem Single.settle (h : m.Single id) : settle m id = m := by
  unfold VersionMap.settle
  split
  · rfl
  · rename_i home hhome
    have hnone : (m.versionsOf id).filter (· ≠ home) = [] := by
      refine List.filter_eq_nil_iff.mpr fun v hv => ?_
      have hv := mem_versionsOf.mp hv
      obtain ⟨home', hhome', hmem, -⟩ := home?_spec hv
      obtain rfl := Option.some.inj (hhome.symm.trans hhome')
      simp [h v home hv hmem]
    rw [hnone, List.foldl_nil]

theorem IsConsolidated.trim (h : IsConsolidated m) (g : ImportGraph) : m.trim g = m := by
  have hgroup : ∀ v, (m.group v).toList.foldl (VersionMap.dropUnneeded g v) m = m := fun v =>
    List.foldl_fixed' (fun id => (h.single id).dropUnneeded g v) _
  exact List.foldl_fixed' hgroup _

theorem IsConsolidated.consolidate (h : IsConsolidated m) (g : ImportGraph) :
    m.consolidate g = m := by
  have hgroups : m.groups.filter (fun _ files => !files.isEmpty) = m.groups := by
    refine Std.ExtTreeMap.filter_eq_self_iff.mpr fun v hv => ?_
    obtain ⟨id, hid⟩ := h.filled v _ (Std.ExtTreeMap.getElem?_eq_some_getElem hv)
    rw [Bool.not_eq_true', ← Bool.not_eq_true, Std.ExtTreeSet.isEmpty_iff]
    exact fun hempty => Std.ExtTreeSet.not_mem_empty (hempty ▸ hid)
  have hsettled : m.shared.toList.foldl VersionMap.settle m = m :=
    List.foldl_fixed' (fun id => (h.single id).settle) _
  unfold VersionMap.consolidate
  dsimp only
  rw [h.trim g, hsettled, hgroups]

/-! ## Every map gets there -/

theorem isConsolidated_consolidate (g : ImportGraph) (m : VersionMap) :
    IsConsolidated (m.consolidate g) := by
  refine ⟨consolidate_single g m, fun v files hfiles => ?_⟩
  obtain ⟨id, hid⟩ := (mem_groups_consolidate g m v).mp
    (Std.ExtTreeMap.mem_iff_isSome_getElem?.mpr (hfiles ▸ rfl))
  refine ⟨id, ?_⟩
  rwa [group, hfiles, Option.getD_some] at hid

/-- Consolidation leaves alone exactly the consolidated maps. -/
theorem consolidate_eq_self_iff (g : ImportGraph) (m : VersionMap) :
    m.consolidate g = m ↔ IsConsolidated m :=
  ⟨fun h => h ▸ isConsolidated_consolidate g m, fun h => h.consolidate g⟩

/-- **Consolidation makes a partition of every map,** whatever its groups and versions are. Each
source of some group ends in exactly one group, which held it before, and in that of its own version
if this one held it. No group is empty, the versions of the files stay, and consolidating again
changes nothing. -/
theorem consolidate_partition (g : ImportGraph) (m : VersionMap) :
    (∀ id v, id ∈ m.group v → ∃! u, id ∈ (m.consolidate g).group u) ∧
      (∀ id own, m.resolved[id]? = some own → id ∈ m.group own →
        id ∈ (m.consolidate g).group own) ∧
      (∀ id v, id ∈ (m.consolidate g).group v → id ∈ m.group v) ∧
      (∀ (v : Version) (files : SourceSet), (m.consolidate g).groups[v]? = some files →
        ∃ id, id ∈ files) ∧
      (m.consolidate g).resolved = m.resolved ∧
      (m.consolidate g).consolidate g = m.consolidate g := by
  have hshrinks := consolidate_shrinks g m
  have hconsolidated := isConsolidated_consolidate g m
  refine ⟨fun id v hid => ?_, fun id own hown hid => hshrinks.own own id hown hid,
    fun id v hid => hshrinks.sub v id hid, hconsolidated.filled, hshrinks.resolved,
    hconsolidated.consolidate g⟩
  obtain ⟨u, hu⟩ := hshrinks.held v id hid
  exact ⟨u, hu, fun w hw => hconsolidated.single id w u hw hu⟩

end VersionMap

end SolPlan
