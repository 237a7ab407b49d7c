import Mathlib
import SolPlan.Proofs.Compiler.Consolidation
import SolPlan.Proofs.Compiler.SharedVersion

/-!
# Versions do not rise along imports

Without pins the version of a file is the least of the best versions of all that the file brings.
Whatever an import brings, its importer brings too (`Brings.trans`), so the version of the importer
is the least of more versions. That a file is not among its own transitive imports does not matter
here, also in a cycle: a file brings itself.

Results:
* `Resolved.isLE_of_brings`: the version of a file is at most that of what it brings;
* **`resolved_le_of_imports`**: so it is in each computed map, and files that import each other have
  one version and end in one group.
-/

namespace SolPlan

namespace VersionMap

variable {g : ImportGraph} {tools : Toolchain} {pragmas : PragmaTable} {files : List SourceId}
  {s s' : Selector} {m : VersionMap} {best : Std.ExtTreeMap SourceId Version}

theorem brings_iff_reaches {a b : SourceId} : Brings g a b ↔ g.Reaches a b := by
  rw [Brings, ImportGraph.mem_transitiveImports]
  constructor
  · rintro (rfl | ⟨-, hreaches⟩)
    · exact Relation.ReflTransGen.refl
    · exact hreaches
  · intro hreaches
    by_cases hba : b = a
    · exact Or.inl hba
    · exact Or.inr ⟨hba, hreaches⟩

/-- Nothing that the file brings is pinned. -/
def PinFree (g : ImportGraph) (pragmas : PragmaTable) (file : SourceId) : Prop :=
  ∀ x, Brings g file x → pragmas.isExactPin x = false

theorem PinFree.of_brings {a b : SourceId} (h : PinFree g pragmas a) (hab : Brings g a b) :
    PinFree g pragmas b :=
  fun x hx => h x (hab.trans hx)

theorem PinFree.find?_eq_none {file : SourceId} (h : PinFree g pragmas file) :
    (g.transitiveImports file).toList.find? pragmas.isExactPin = none := by
  rw [List.find?_eq_none]
  intro x hx
  rw [h x (Or.inr (Std.ExtTreeSet.mem_toList.mp hx))]
  exact Bool.false_ne_true

/-- The version of a file is at most that of what it brings. -/
theorem Resolved.isLE_of_brings {a b : SourceId} {v u : Version}
    (ha : Resolved g pragmas s best a v) (hb : Resolved g pragmas s best b u)
    (hab : Brings g a b) (hfree : PinFree g pragmas a) : (compare v u).isLE = true := by
  have hfree' := hfree.of_brings hab
  obtain ⟨⟨x, hx, hxu⟩, -⟩ := hb.of_find?_none (hfree' b (Or.inl rfl)) hfree'.find?_eq_none
  obtain ⟨-, hleast⟩ := ha.of_find?_none (hfree a (Or.inl rfl)) hfree.find?_eq_none
  exact hleast x (hab.trans hx) u hxu

/-- Everything that a file of a computed map brings has a version. -/
theorem exists_resolved_of_brings (h : compute tools g pragmas files s = (s', .ok m))
    {a b : SourceId} (ha : a ∈ m.resolved) (hab : Brings g a b) :
    ∃ u, m.resolved[b]? = some u :=
  Option.isSome_iff_exists.mp (Std.ExtTreeMap.mem_iff_isSome_getElem?.mp
    ((mem_resolved_iff h).mpr (mem_closure_of_brings ((mem_resolved_iff h).mp ha) hab)))

/-- **Without pins versions do not rise along imports.** So files that import each other, directly
or not, have one version, and consolidation puts them into its group and into no other. -/
theorem resolved_le_of_imports (h : compute tools g pragmas files s = (s', .ok m))
    (hfree : ∀ x ∈ closure g files, pragmas.isExactPin x = false) :
    (∀ a ∈ m.resolved, ∀ b ∈ g.transitiveImports a, ∃ v u, m.resolved[a]? = some v ∧
      m.resolved[b]? = some u ∧ (compare v u).isLE = true) ∧
    ∀ a ∈ m.resolved, ∀ b, g.Reaches a b → g.Reaches b a →
      ∃ v, m.resolved[a]? = some v ∧ m.resolved[b]? = some v ∧
        ∀ u, (a ∈ (m.consolidate g).group u ↔ u = v) ∧
          (b ∈ (m.consolidate g).group u ↔ u = v) := by
  obtain ⟨best, hresolved⟩ := exists_resolved h
  have hpins : ∀ a ∈ m.resolved, PinFree g pragmas a := fun a ha x hx =>
    hfree x (mem_closure_of_brings ((mem_resolved_iff h).mp ha) hx)
  have hle : ∀ a ∈ m.resolved, ∀ b, Brings g a b → ∃ v u, m.resolved[a]? = some v ∧
      m.resolved[b]? = some u ∧ (compare v u).isLE = true := fun a ha b hab => by
    obtain ⟨v, hv⟩ := exists_resolved_of_brings h ha (Or.inl rfl)
    obtain ⟨u, hu⟩ := exists_resolved_of_brings h ha hab
    exact ⟨v, u, hv, hu,
      (hresolved a v hv).isLE_of_brings (hresolved b u hu) hab (hpins a ha)⟩
  refine ⟨fun a ha b hb => hle a ha b (Or.inr hb), fun a ha b hab hba => ?_⟩
  obtain ⟨v, u, hv, hu, hvu⟩ := hle a ha b (brings_iff_reaches.mpr hab)
  obtain ⟨u', v', hu', hv', huv⟩ := hle b (Std.ExtTreeMap.mem_iff_isSome_getElem?.mpr (hu ▸ rfl)) a
    (brings_iff_reaches.mpr hba)
  obtain rfl := Option.some.inj (hv.symm.trans hv')
  obtain rfl := Option.some.inj (hu.symm.trans hu')
  obtain rfl : v = u := Std.LawfulEqCmp.eq_of_compare (Std.OrientedCmp.isLE_antisymm hvu huv)
  refine ⟨v, hv, hu, fun w => ⟨?_, ?_⟩⟩
  · rw [mem_group_consolidate h, hv, Option.some.injEq, eq_comm]
  · rw [mem_group_consolidate h, hu, Option.some.injEq, eq_comm]

/-- The first source imports the second, which imports the third and is imported by it. -/
def cycleBelow : ImportGraph :=
  .ofImports [(.ofText ['A'], [.ofText ['B']]), (.ofText ['B'], [.ofText ['C']]),
    (.ofText ['C'], [.ofText ['B']])]

/-- The first source needs a lower version than the cycle, in which the third sets a bound. -/
def cycleBelowPragmas : PragmaTable :=
  .ofList [(.ofText ['A'], some ⟨"<0.8.10".toList, [[⟨.less, .patch 0 8 10⟩]]⟩),
    (.ofText ['B'], some ⟨">=0.8.0".toList, [[⟨.greaterEq, .patch 0 8 0⟩]]⟩),
    (.ofText ['C'], some ⟨"<0.8.20".toList, [[⟨.less, .patch 0 8 20⟩]]⟩)]

/-- The map of all three. -/
def cycleBelowMap : Selector × Except Error VersionMap :=
  compute (.ofLists none none []) cycleBelow cycleBelowPragmas [.ofText ['A']]
    (selectorOf [.release 0 8 5, .release 0 8 12, .release 0 8 26])

/-- The version of the first is at most that of the cycle, whose sources share theirs. -/
theorem resolved_cycleBelowMap :
    ∃ s' m, cycleBelowMap = (s', .ok m) ∧
      (∃ v u, m.resolved[SourceId.ofText ['A']]? = some v ∧
        m.resolved[SourceId.ofText ['B']]? = some u ∧ (compare v u).isLE = true) ∧
      ∃ v, m.resolved[SourceId.ofText ['B']]? = some v ∧
        m.resolved[SourceId.ofText ['C']]? = some v ∧
        ∀ u, (SourceId.ofText ['B'] ∈ (m.consolidate cycleBelow).group u ↔ u = v) ∧
          (SourceId.ofText ['C'] ∈ (m.consolidate cycleBelow).group u ↔ u = v) := by
  have hok : cycleBelowMap.2.isOk = true := by cbv
  cases hm : cycleBelowMap.2 with
  | error e => rw [hm] at hok; cases hok
  | ok m =>
    have hmap : cycleBelowMap = (cycleBelowMap.1, .ok m) := Prod.ext rfl hm
    have hfiles : (closure cycleBelow [.ofText ['A']]).toList =
        [.ofText ['A'], .ofText ['B'], .ofText ['C']] := by cbv
    have hpins : [SourceId.ofText ['A'], .ofText ['B'], .ofText ['C']].all
        (fun x => !cycleBelowPragmas.isExactPin x) = true := by cbv
    have hmem : ∀ x ∈ [SourceId.ofText ['A'], .ofText ['B'], .ofText ['C']], x ∈ m.resolved :=
      fun x hx => (mem_resolved_iff hmap).mpr (Std.ExtTreeSet.mem_toList.mp (hfiles ▸ hx))
    have himports : cycleBelow.Imports (.ofText ['B']) (.ofText ['C']) ∧
        cycleBelow.Imports (.ofText ['C']) (.ofText ['B']) :=
      ⟨Std.ExtTreeSet.contains_iff_mem.mp (by cbv), Std.ExtTreeSet.contains_iff_mem.mp (by cbv)⟩
    obtain ⟨hle, hcycle⟩ := resolved_le_of_imports hmap fun x hx => by
      rw [← Std.ExtTreeSet.mem_toList, hfiles] at hx
      simpa using List.all_eq_true.mp hpins x hx
    exact ⟨_, m, hmap, hle (.ofText ['A']) (hmem _ (by simp)) (.ofText ['B'])
        (Std.ExtTreeSet.contains_iff_mem.mp (by cbv)),
      hcycle (.ofText ['B']) (hmem _ (by simp)) (.ofText ['C'])
        (Relation.ReflTransGen.single himports.1) (Relation.ReflTransGen.single himports.2)⟩

end VersionMap

end SolPlan
