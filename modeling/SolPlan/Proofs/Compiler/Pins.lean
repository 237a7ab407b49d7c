import Mathlib
import SolPlan.Proofs.Compiler.Consolidation
import SolPlan.Proofs.Compiler.SharedVersion

/-!
# Pins decide for what imports them

A selector picks versions without build metadata, and only one of these meets a pin. So the best
version of a pinned file is its pin (`best_of_pin`), and the file keeps it. What imports the file
takes over the best version of the first pinned import, wherever it stands among the imports and
whatever was looked at before it.

Results:
* `resolved_of_pin`: a pinned file of a computed map has the version of its pin;
* **`resolved_of_pins`**: so has every file without a pin whose pinned imports agree, and after
  consolidation all of them are in the group of the pin and in no other.
-/

namespace SolPlan

namespace PragmaTable

/-- The version that a source is pinned to. -/
def pin? (t : PragmaTable) (id : SourceId) : Option Version :=
  (t.constraint? id).bind Constraint.exactPin?

theorem isExactPin_eq (t : PragmaTable) (id : SourceId) : t.isExactPin id = (t.pin? id).isSome := by
  unfold isExactPin pin?
  cases t.constraint? id <;> rfl

end PragmaTable

namespace VersionMap

variable {g : ImportGraph} {tools : Toolchain} {pragmas : PragmaTable} {files : List SourceId}
  {s s' : Selector} {m : VersionMap} {best : Std.ExtTreeMap SourceId Version} {file : SourceId}
  {pin : Version}

/-- The best version of a pinned file is its pin. -/
theorem best_of_pin (hs : s.Stripped)
    (hselect : s.selectAll tools pragmas files = (s', .ok best)) {v : Version}
    (hv : best[file]? = some v) (hpin : pragmas.pin? file = some pin) : v = pin := by
  have hstripped : s'.Stripped := by
    have hall : (s.selectAll tools pragmas files).1.Stripped := hs.selectAll files
    rwa [hselect] at hall
  have hbuild : v.build = [] :=
    hstripped.installed v ((Selector.selectAll_installed hselect).2 file v hv)
  obtain ⟨c, hc, hexact⟩ := Option.bind_eq_some_iff.mp hpin
  have hadmits := ((Selector.selectAll_best hselect).2 file v hv).accepts c hc
  rw [← (Constraint.admits_iff_of_exactPin? hexact).mp hadmits, Version.stripBuild, ← hbuild]

/-- A pinned file of a computed map has the version of its pin. -/
theorem resolved_of_pin (hs : s.Serving tools)
    (h : compute tools g pragmas files s = (s', .ok m)) (hfile : file ∈ m.resolved)
    (hpin : pragmas.pin? file = some pin) : m.resolved[file]? = some pin := by
  obtain ⟨best, hselect, -, hcomputed⟩ := computed_of_compute h
  have hmem : file ∈ best :=
    hcomputed.isSome_resolved.mp (Std.ExtTreeMap.mem_iff_isSome_getElem?.mp hfile)
  obtain ⟨own, hown⟩ := Option.isSome_iff_exists.mp (Std.ExtTreeMap.mem_iff_isSome_getElem?.mp hmem)
  have hexact : pragmas.isExactPin file = true := by
    rw [PragmaTable.isExactPin_eq, hpin]
    rfl
  rw [hcomputed.resolved, hown, Option.map_some, resolve, hexact, if_pos rfl,
    best_of_pin hs.stripped hselect hown hpin]

/-- A file without a pin has the version of its pinned imports, if they agree. -/
theorem resolved_of_pinned_imports (hs : s.Serving tools)
    (h : compute tools g pragmas files s = (s', .ok m)) (hfile : file ∈ m.resolved)
    (hfree : pragmas.pin? file = none)
    (hpin : ∃ q ∈ g.transitiveImports file, pragmas.pin? q = some pin)
    (hsame : ∀ q ∈ g.transitiveImports file, ∀ v, pragmas.pin? q = some v → v = pin) :
    m.resolved[file]? = some pin := by
  obtain ⟨best, hselect, hmem, hcomputed⟩ := computed_of_compute h
  have hbest : file ∈ best :=
    hcomputed.isSome_resolved.mp (Std.ExtTreeMap.mem_iff_isSome_getElem?.mp hfile)
  obtain ⟨own, hown⟩ := Option.isSome_iff_exists.mp
    (Std.ExtTreeMap.mem_iff_isSome_getElem?.mp hbest)
  -- the first pinned import, which need not be the given one
  obtain ⟨q, hfirst⟩ : ∃ q, (g.transitiveImports file).toList.find? pragmas.isExactPin = some q := by
    obtain ⟨q, hq, hexact⟩ := hpin
    refine Option.isSome_iff_exists.mp (List.find?_isSome.mpr ⟨q, Std.ExtTreeSet.mem_toList.mpr hq, ?_⟩)
    rw [PragmaTable.isExactPin_eq, hexact]
    rfl
  have hq : q ∈ g.transitiveImports file :=
    Std.ExtTreeSet.mem_toList.mp (List.mem_of_find?_eq_some hfirst)
  obtain ⟨v, hv⟩ := Option.isSome_iff_exists.mp
    (PragmaTable.isExactPin_eq pragmas q ▸ List.find?_some hfirst)
  obtain ⟨b, hb⟩ := Option.isSome_iff_exists.mp
    (Std.ExtTreeMap.mem_iff_isSome_getElem?.mp (closed_of_mem_iff hmem file q hbest (Or.inr hq)))
  have hlower : lower pragmas best own (g.transitiveImports file).toList = pin := by
    rw [lower_of_find? hfirst hb, best_of_pin hs.stripped hselect hb hv, hsame q hq v hv]
  have hnot : pragmas.isExactPin file = false := by
    rw [PragmaTable.isExactPin_eq, hfree]
    rfl
  rw [hcomputed.resolved, hown, Option.map_some, resolve, hnot, if_neg Bool.false_ne_true, hlower]

/-- **A pin that all pinned imports of a file share is the version of the file and of them**, and
consolidation puts them into the group of the pin and into no other. -/
theorem resolved_of_pins (hs : s.Serving tools)
    (h : compute tools g pragmas files s = (s', .ok m)) (hfile : file ∈ m.resolved)
    (hfree : pragmas.pin? file = none)
    (hpin : ∃ q ∈ g.transitiveImports file, pragmas.pin? q = some pin)
    (hsame : ∀ q ∈ g.transitiveImports file, ∀ v, pragmas.pin? q = some v → v = pin) :
    ∀ x, x = file ∨ (x ∈ g.transitiveImports file ∧ (pragmas.pin? x).isSome = true) →
      m.resolved[x]? = some pin ∧ ∀ v, x ∈ (m.consolidate g).group v ↔ v = pin := by
  intro x hx
  have hresolved : m.resolved[x]? = some pin := by
    rcases hx with rfl | ⟨hx, hpinned⟩
    · exact resolved_of_pinned_imports hs h hfile hfree hpin hsame
    · obtain ⟨v, hv⟩ := Option.isSome_iff_exists.mp hpinned
      have hmem : x ∈ m.resolved := (mem_resolved_iff h).mpr
        (mem_closure_of_brings ((mem_resolved_iff h).mp hfile) (Or.inr hx))
      exact hsame x hx v hv ▸ resolved_of_pin hs h hmem hv
  refine ⟨hresolved, fun v => ?_⟩
  rw [mem_group_consolidate h, hresolved, Option.some.injEq, eq_comm]

/-- The first source imports the second and the third, and the third imports the fourth and the
first again. -/
def pinInCycle : ImportGraph :=
  .ofImports [(.ofText ['A'], [.ofText ['B'], .ofText ['C']]), (.ofText ['B'], []),
    (.ofText ['C'], [.ofText ['A'], .ofText ['D']]), (.ofText ['D'], [])]

/-- The second source lowers the version of the first before the pin of the fourth is met. -/
def pinInCyclePragmas : PragmaTable :=
  .ofList [(.ofText ['A'], some ⟨"^0.8.0".toList, [[⟨.caret, .patch 0 8 0⟩]]⟩),
    (.ofText ['B'], some ⟨"<0.8.20".toList, [[⟨.less, .patch 0 8 20⟩]]⟩),
    (.ofText ['D'], some ⟨"0.8.24".toList, [[⟨.exact, .patch 0 8 24⟩]]⟩)]

/-- The pinned version is installed with build metadata, between two others. -/
def pinTools : Toolchain :=
  .ofLists (some [.release 0 8 12, { Version.release 0 8 24 with build := [⟨['x']⟩] },
    .release 0 8 26]) none []

theorem resolved_pinInCycle :
    ∃ s s' m, Selector.start pinTools ⟨[], 0⟩ = .ok s ∧
      compute pinTools pinInCycle pinInCyclePragmas [.ofText ['A']] s = (s', .ok m) ∧
      m.resolved[SourceId.ofText ['A']]? = some (.release 0 8 24) ∧
      ∀ v, SourceId.ofText ['A'] ∈ (m.consolidate pinInCycle).group v ↔ v = .release 0 8 24 := by
  obtain ⟨s, hs⟩ : ∃ s, Selector.start pinTools ⟨[], 0⟩ = .ok s := ⟨_, rfl⟩
  have hok : ((Selector.start pinTools ⟨[], 0⟩).toOption.map fun s =>
      (compute pinTools pinInCycle pinInCyclePragmas [.ofText ['A']] s).2.isOk) = some true := by
    cbv
  rw [hs] at hok
  cases hm : (compute pinTools pinInCycle pinInCyclePragmas [.ofText ['A']] s).2 with
  | error e =>
    have hfalse : some (Except.isOk (α := VersionMap) (Except.error e)) = some true := hm ▸ hok
    cases hfalse
  | ok m =>
    have hmap : compute pinTools pinInCycle pinInCyclePragmas [.ofText ['A']] s =
        (_, .ok m) := Prod.ext rfl hm
    have hfile : SourceId.ofText ['A'] ∈ m.resolved :=
      (mem_resolved_iff hmap).mpr (mem_closure.mpr ⟨_, List.mem_cons_self, Or.inl rfl⟩)
    have hlist : (pinInCycle.transitiveImports (.ofText ['A'])).toList =
        [.ofText ['B'], .ofText ['C'], .ofText ['D']] := by cbv
    have hpins : (pinInCycle.transitiveImports (.ofText ['A'])).toList.map pinInCyclePragmas.pin? =
        [none, none, some (.release 0 8 24)] := by
      rw [hlist]
      cbv
    have hpin : pinInCyclePragmas.pin? (.ofText ['D']) = some (.release 0 8 24) := by cbv
    have hresolved := resolved_of_pins (.start hs) hmap hfile (by cbv)
      ⟨.ofText ['D'], Std.ExtTreeSet.mem_toList.mp (by rw [hlist]; simp), hpin⟩
      (fun q hq v hv => by
        have hmem : pinInCyclePragmas.pin? q ∈ [none, none, some (.release 0 8 24)] :=
          hpins ▸ List.mem_map_of_mem (Std.ExtTreeSet.mem_toList.mpr hq)
        rw [hv] at hmem
        simpa using hmem) _ (Or.inl rfl)
    exact ⟨s, _, m, hs, hmap, hresolved.1, hresolved.2⟩

end VersionMap

end SolPlan
