import Mathlib
import SolPlan.Proofs.Compiler.VersionMap
import SolPlan.Proofs.Constraint.Ranges

/-!
# When a version suits a file and its imports

The version of a file without a pin is found import by import, and no constraint is looked at
again. It is the version of the first pinned import, or else the least of the best versions of the
file and its imports (`lower_of_find?`, `lower_of_find?_none`), so some of them accepts it.

All of them accept it if they can share a version. Beside a pin it is enough that there is any such
version. Without one it must be installed from the start, and no constraint may leave gaps: the
least of the best versions lies between the shared version and each of the best ones.

Results:
* **`accepts_of_compute`**: both facts, for each file of a computed map;
* `not_accepts_of_compute`: a pin deep in the imports overrides what another import accepts.
-/

namespace SolPlan

namespace VersionMap

variable {g : ImportGraph} {pragmas : PragmaTable} {best : Std.ExtTreeMap SourceId Version}

/-! ## Lowering -/

/-- The lesser of two versions is at most both. -/
theorem lesser_isLE (b v : Version) :
    (compare (if compare b v = .lt then b else v) v).isLE = true ∧
      (compare (if compare b v = .lt then b else v) b).isLE = true := by
  split
  · rename_i hlt
    exact ⟨by rw [hlt]; rfl, Std.ReflCmp.isLE_rfl⟩
  · rename_i hlt
    refine ⟨Std.ReflCmp.isLE_rfl, ?_⟩
    have hswap : compare v b = (compare b v).swap := Std.OrientedCmp.eq_swap
    rw [hswap]
    cases hbv : compare b v with
    | lt => exact absurd hbv hlt
    | eq => rfl
    | gt => rfl

/-- The first pinned import decides. -/
theorem lower_of_find? {l : List SourceId} {q : SourceId} {b v : Version}
    (hq : l.find? pragmas.isExactPin = some q) (hb : best[q]? = some b) :
    lower pragmas best v l = b := by
  induction l generalizing v with
  | nil => cases hq
  | cons id l ih =>
    rw [List.find?_cons] at hq
    unfold lower
    split at hq
    · rename_i hpin
      cases hq
      simp only [hb, hpin, if_true]
    · rename_i hpin
      split
      · exact ih hq
      · rw [hpin, if_neg Bool.false_ne_true]
        exact ih hq

/-- Without a pinned import, the version is one of those that were looked at, and none of them is
less. -/
theorem lower_of_find?_none (best : Std.ExtTreeMap SourceId Version) {l : List SourceId}
    {v : Version}
    (hnone : l.find? pragmas.isExactPin = none) :
    (lower pragmas best v l = v ∨ ∃ x ∈ l, best[x]? = some (lower pragmas best v l)) ∧
      (compare (lower pragmas best v l) v).isLE = true ∧
      ∀ x ∈ l, ∀ b, best[x]? = some b → (compare (lower pragmas best v l) b).isLE = true := by
  induction l generalizing v with
  | nil =>
    exact ⟨Or.inl rfl, Std.ReflCmp.isLE_rfl, fun x hx => absurd hx List.not_mem_nil⟩
  | cons id l ih =>
    rw [List.find?_cons] at hnone
    split at hnone
    · cases hnone
    · rename_i hpin
      unfold lower
      split
      · rename_i hid
        obtain ⟨hfrom, hle, hall⟩ := ih (v := v) hnone
        refine ⟨hfrom.imp_right fun ⟨x, hx, hb⟩ => ⟨x, List.mem_cons_of_mem _ hx, hb⟩, hle,
          fun x hx b hb => ?_⟩
        rcases List.mem_cons.mp hx with rfl | hx
        · rw [hid] at hb
          cases hb
        · exact hall x hx b hb
      · rename_i b hid
        rw [hpin, if_neg Bool.false_ne_true]
        obtain ⟨hmin, hmin'⟩ := lesser_isLE b v
        obtain ⟨hfrom, hle, hall⟩ := ih (v := if compare b v = .lt then b else v) hnone
        refine ⟨?_, Std.TransCmp.isLE_trans hle hmin, fun x hx b' hb' => ?_⟩
        · rcases hfrom with hfrom | ⟨x, hx, hb⟩
          · by_cases hlt : compare b v = .lt
            · rw [if_pos hlt] at hfrom ⊢
              exact Or.inr ⟨id, List.mem_cons_self, hid.trans (congrArg some hfrom.symm)⟩
            · rw [if_neg hlt] at hfrom ⊢
              exact Or.inl hfrom
          · exact Or.inr ⟨x, List.mem_cons_of_mem _ hx, hb⟩
        · rcases List.mem_cons.mp hx with rfl | hx
          · rw [hid] at hb'
            cases hb'
            exact Std.TransCmp.isLE_trans hle hmin'
          · exact hall x hx b' hb'

/-! ## The version of a file -/

section

variable {tools : Toolchain} {files : List SourceId} {s s' : Selector} {m : VersionMap}
  {file : SourceId} {v : Version}

/-- What is known about a file of a computed map and about what it brings. -/
structure Resolved (g : ImportGraph) (pragmas : PragmaTable) (s : Selector)
    (best : Std.ExtTreeMap SourceId Version) (file : SourceId) (v : Version) : Prop where
  /-- Everything has a version that is the best for it. -/
  each : ∀ x, Brings g file x →
    ∃ b, best[x]? = some b ∧ Best (pragmas.constraint? x) s.installed b
  value : ∀ own, best[file]? = some own → v = resolve g pragmas best file own

/-- One choice of best versions tells this of all files of a computed map. -/
theorem exists_resolved (h : compute tools g pragmas files s = (s', .ok m)) :
    ∃ best, ∀ file v, m.resolved[file]? = some v → Resolved g pragmas s best file v := by
  obtain ⟨best, hselect, hmem, hcomputed⟩ := computed_of_compute h
  refine ⟨best, fun file v hv => ⟨fun x hx => ?_, fun own hown => ?_⟩⟩
  · have hfile : file ∈ best := hcomputed.isSome_resolved.mp (hv ▸ rfl)
    have hx := closed_of_mem_iff hmem file x hfile hx
    rw [Std.ExtTreeMap.mem_iff_isSome_getElem?] at hx
    obtain ⟨b, hb⟩ := Option.isSome_iff_exists.mp hx
    exact ⟨b, hb, (Selector.selectAll_best hselect).2 x b hb⟩
  · rw [hcomputed.resolved, hown] at hv
    exact (Option.some.inj hv).symm

theorem resolved_of_compute (h : compute tools g pragmas files s = (s', .ok m))
    (hv : m.resolved[file]? = some v) : ∃ best, Resolved g pragmas s best file v :=
  (exists_resolved h).imp fun _ hall => hall file v hv

/-- Beside a pinned import, the version is that of the import. -/
theorem Resolved.of_find? (h : Resolved g pragmas s best file v)
    (hfile : pragmas.isExactPin file = false) {q : SourceId}
    (hq : (g.transitiveImports file).toList.find? pragmas.isExactPin = some q) :
    Accepts (pragmas.constraint? q) v := by
  obtain ⟨own, hown, -⟩ := h.each file (Or.inl rfl)
  obtain ⟨b, hb, hbest⟩ := h.each q
    (Or.inr (Std.ExtTreeSet.mem_toList.mp (List.mem_of_find?_eq_some hq)))
  have hvb : v = b := by
    rw [h.value own hown, resolve, hfile, if_neg Bool.false_ne_true, lower_of_find? hq hb]
  exact hvb ▸ hbest.accepts

/-- What all accept beside a pin has the numbers of the pin. -/
theorem accepts_of_pin {q : SourceId} {u : Version} (hpin : pragmas.isExactPin q = true)
    (hq : Accepts (pragmas.constraint? q) v) (hu : Accepts (pragmas.constraint? q) u)
    {constraint : Option Constraint} (hc : Accepts constraint u) : Accepts constraint v := by
  unfold PragmaTable.isExactPin at hpin
  cases hconstraint : pragmas.constraint? q with
  | none => rw [hconstraint] at hpin; cases hpin
  | some pin =>
    rw [hconstraint] at hpin
    exact fun c hcc => Constraint.admits_of_exactPin hpin (hu pin hconstraint) (hq pin hconstraint)
      (hc c hcc)

/-- Without a pinned import, the version is the least of the best ones. -/
theorem Resolved.of_find?_none (h : Resolved g pragmas s best file v)
    (hfile : pragmas.isExactPin file = false)
    (hnone : (g.transitiveImports file).toList.find? pragmas.isExactPin = none) :
    (∃ x, Brings g file x ∧ best[x]? = some v) ∧
      ∀ x, Brings g file x → ∀ b, best[x]? = some b → (compare v b).isLE = true := by
  obtain ⟨own, hown, -⟩ := h.each file (Or.inl rfl)
  have hv : v = lower pragmas best own (g.transitiveImports file).toList := by
    rw [h.value own hown, resolve, hfile, if_neg Bool.false_ne_true]
  obtain ⟨hfrom, hle, hall⟩ := lower_of_find?_none best (v := own) hnone
  rw [← hv] at hfrom hle hall
  refine ⟨?_, fun x hx b hb => ?_⟩
  · rcases hfrom with hfrom | ⟨x, hx, hb⟩
    · exact ⟨file, Or.inl rfl, hfrom ▸ hown⟩
    · exact ⟨x, Or.inr (Std.ExtTreeSet.mem_toList.mp hx), hb⟩
  · rcases hx with rfl | hx
    · rw [hown] at hb
      cases hb
      exact hle
    · exact hall x (Std.ExtTreeSet.mem_toList.mpr hx) b hb

/-- A release that all accept and that is installed from the start holds the version up, so that it
stays in all ranges. -/
theorem Resolved.accepts_of_installed (h : Resolved g pragmas s best file v)
    (hfile : pragmas.isExactPin file = false)
    (hnone : (g.transitiveImports file).toList.find? pragmas.isExactPin = none)
    (hrelease : v.isRelease = true) {u : Version} (hinstalled : u ∈ s.installed)
    (hu : ∀ x, Brings g file x → Accepts (pragmas.constraint? x) u) {x : SourceId}
    (hx : Brings g file x)
    (hrange : ∀ c, pragmas.constraint? x = some c → c.SingleRange) :
    Accepts (pragmas.constraint? x) v := by
  obtain ⟨⟨y, hy, hyv⟩, hleast⟩ := h.of_find?_none hfile hnone
  obtain ⟨b, hb, hxbest⟩ := h.each x hx
  obtain ⟨v', hv', hybest⟩ := h.each y hy
  cases hyv.symm.trans hv'
  have huv := Version.numbersLE_of_compare (hybest.greatest u hinstalled (hu y hy))
  have hvb := Version.numbersLE_of_compare (hleast x hx b hb)
  exact fun c hc => Constraint.admits_between (hrange c hc) hrelease huv hvb (hu x hx c hc)
    (hxbest.accepts c hc)

/-- **The version of a file suits the file and its imports if they can share one.** -/
theorem accepts_of_compute (h : compute tools g pragmas files s = (s', .ok m))
    (hv : m.resolved[file]? = some v) (hfile : pragmas.isExactPin file = false) :
    (∃ x, Brings g file x ∧ Accepts (pragmas.constraint? x) v) ∧
    (∀ q, (g.transitiveImports file).toList.find? pragmas.isExactPin = some q →
      Accepts (pragmas.constraint? q) v ∧
        ((∃ u, ∀ x, Brings g file x → Accepts (pragmas.constraint? x) u) →
          ∀ x, Brings g file x → Accepts (pragmas.constraint? x) v)) ∧
    ((∀ x ∈ g.transitiveImports file, pragmas.isExactPin x = false) → v.isRelease = true →
      (∀ x, Brings g file x → ∀ c, pragmas.constraint? x = some c → c.SingleRange) →
      (∃ u ∈ s.installed, ∀ x, Brings g file x → Accepts (pragmas.constraint? x) u) →
        ∀ x, Brings g file x → Accepts (pragmas.constraint? x) v) := by
  obtain ⟨best, hres⟩ := resolved_of_compute h hv
  refine ⟨?_, fun q hq => ⟨hres.of_find? hfile hq, fun ⟨u, hu⟩ x hx => ?_⟩,
    fun hpins hrelease hranges ⟨u, hinstalled, hu⟩ x hx => ?_⟩
  · cases hq : (g.transitiveImports file).toList.find? pragmas.isExactPin with
    | some q =>
      have hmem := Std.ExtTreeSet.mem_toList.mp (List.mem_of_find?_eq_some hq)
      exact ⟨q, Or.inr hmem, hres.of_find? hfile hq⟩
    | none =>
      obtain ⟨⟨y, hy, hyv⟩, -⟩ := hres.of_find?_none hfile hq
      obtain ⟨b, hb, hbest⟩ := hres.each y hy
      cases hyv.symm.trans hb
      exact ⟨y, hy, hbest.accepts⟩
  · have hmem := Std.ExtTreeSet.mem_toList.mp (List.mem_of_find?_eq_some hq)
    exact accepts_of_pin (List.find?_some hq) (hres.of_find? hfile hq) (hu q (Or.inr hmem))
      (hu x hx)
  · have hnone : (g.transitiveImports file).toList.find? pragmas.isExactPin = none := by
      rw [List.find?_eq_none]
      intro y hy
      rw [hpins y (Std.ExtTreeSet.mem_toList.mp hy)]
      exact Bool.false_ne_true
    exact hres.accepts_of_installed hfile hnone hrelease hinstalled hu hx (hranges x hx)

end

/-! ## Two maps -/

/-- The selector that knows some installed versions. -/
def selectorOf (versions : List Version) : Selector := ⟨.ofList versions, ∅, false, ⟨[], 0⟩⟩

/-- The first source imports the second. -/
def oneImport : ImportGraph := .ofImports [(.ofText ['A'], [.ofText ['B']]), (.ofText ['B'], [])]

/-- `>=0.8.0` for the importer, `<0.8.20` for what it imports. -/
def oneImportPragmas : PragmaTable :=
  .ofList [(.ofText ['A'], some ⟨">=0.8.0".toList, [[⟨.greaterEq, .patch 0 8 0⟩]]⟩),
    (.ofText ['B'], some ⟨"<0.8.20".toList, [[⟨.less, .patch 0 8 20⟩]]⟩)]

/-- The map of both, with a version below the bound and one above it. -/
def oneImportMap : Selector × Except Error VersionMap :=
  compute (.ofLists none none []) oneImport oneImportPragmas [.ofText ['A']]
    (selectorOf [.release 0 8 12, .release 0 8 26])

theorem brings_oneImport {x : SourceId} (h : Brings oneImport (.ofText ['A']) x) :
    x = .ofText ['A'] ∨ x = .ofText ['B'] := by
  have hlist : (oneImport.transitiveImports (.ofText ['A'])).toList = [.ofText ['B']] := by cbv
  refine h.imp_right fun hx => ?_
  rwa [← Std.ExtTreeSet.mem_toList, hlist, List.mem_singleton] at hx

theorem accepts_oneImportMap :
    ∃ s' m, oneImportMap = (s', .ok m) ∧
      m.resolved[SourceId.ofText ['A']]? = some (.release 0 8 12) ∧
      ∀ x, Brings oneImport (.ofText ['A']) x →
        Accepts (oneImportPragmas.constraint? x) (.release 0 8 12) := by
  have hok : (oneImportMap.2.toOption.bind fun m => m.resolved[SourceId.ofText ['A']]?) =
      some (.release 0 8 12) := by cbv
  cases hm : oneImportMap.2 with
  | error e => rw [hm] at hok; cases hok
  | ok m =>
    rw [hm] at hok
    have hv : m.resolved[SourceId.ofText ['A']]? = some (.release 0 8 12) := hok
    have hmap : oneImportMap = (oneImportMap.1, .ok m) := Prod.ext rfl hm
    have hA : oneImportPragmas.constraint? (.ofText ['A']) =
        some ⟨">=0.8.0".toList, [[⟨.greaterEq, .patch 0 8 0⟩]]⟩ := by cbv
    have hB : oneImportPragmas.constraint? (.ofText ['B']) =
        some ⟨"<0.8.20".toList, [[⟨.less, .patch 0 8 20⟩]]⟩ := by cbv
    have hpins : ∀ x, Brings oneImport (.ofText ['A']) x →
        oneImportPragmas.isExactPin x = false := fun x hx => by
      rcases brings_oneImport hx with rfl | rfl
      · rw [PragmaTable.isExactPin, hA]
        rfl
      · rw [PragmaTable.isExactPin, hB]
        rfl
    have hshared := accepts_of_compute hmap hv (hpins _ (Or.inl rfl))
    refine ⟨_, m, hmap, hv, hshared.2.2 (fun x hx => hpins x (Or.inr hx)) rfl
      (fun x hx c hc => ?_) ⟨.release 0 8 12, ?_, fun x hx c hc => ?_⟩⟩
    · rcases brings_oneImport hx with rfl | rfl
      · cases hA.symm.trans hc
        exact Nat.le_refl 1
      · cases hB.symm.trans hc
        exact Nat.le_refl 1
    · simp [selectorOf]
    · rcases brings_oneImport hx with rfl | rfl
      · cases hA.symm.trans hc
        rfl
      · cases hB.symm.trans hc
        rfl

/-- The first source imports the second and the third, and the third imports the fourth. -/
def pinBelow : ImportGraph :=
  .ofImports [(.ofText ['A'], [.ofText ['B'], .ofText ['C']]), (.ofText ['B'], []),
    (.ofText ['C'], [.ofText ['D']]), (.ofText ['D'], [])]

/-- `^0.8.0` for the importer, `>=0.8.0 <0.8.20` for an import, and a pin below another import. -/
def pinBelowPragmas : PragmaTable :=
  .ofList [(.ofText ['A'], some ⟨"^0.8.0".toList, [[⟨.caret, .patch 0 8 0⟩]]⟩),
    (.ofText ['B'], some ⟨">=0.8.0 <0.8.20".toList,
      [[⟨.greaterEq, .patch 0 8 0⟩, ⟨.less, .patch 0 8 20⟩]]⟩),
    (.ofText ['D'], some ⟨"0.8.24".toList, [[⟨.exact, .patch 0 8 24⟩]]⟩)]

/-- The map of all four. -/
def pinBelowMap : Selector × Except Error VersionMap :=
  compute (.ofLists none none []) pinBelow pinBelowPragmas [.ofText ['A']]
    (selectorOf [.release 0 8 12, .release 0 8 24, .release 0 8 26])

/-- A pin deep in the imports overrides what another import accepts. -/
theorem not_accepts_of_compute :
    ¬ ∀ (tools : Toolchain) (g : ImportGraph) (pragmas : PragmaTable) (files : List SourceId)
      (s s' : Selector) (m : VersionMap), compute tools g pragmas files s = (s', .ok m) →
      ∀ file v, m.resolved[file]? = some v → pragmas.isExactPin file = false →
        ∀ x, Brings g file x → Accepts (pragmas.constraint? x) v := by
  intro hall
  have hok : (pinBelowMap.2.toOption.bind fun m => m.resolved[SourceId.ofText ['A']]?) =
      some (.release 0 8 24) := by cbv
  cases hm : pinBelowMap.2 with
  | error e => rw [hm] at hok; cases hok
  | ok m =>
    rw [hm] at hok
    have hlist : (pinBelow.transitiveImports (.ofText ['A'])).contains (.ofText ['B']) = true := by
      cbv
    have hB : pinBelowPragmas.constraint? (.ofText ['B']) = some ⟨">=0.8.0 <0.8.20".toList,
        [[⟨.greaterEq, .patch 0 8 0⟩, ⟨.less, .patch 0 8 20⟩]]⟩ := by cbv
    have hadmits := hall _ _ _ _ _ _ m (Prod.ext rfl hm) (.ofText ['A']) (.release 0 8 24) hok
      (by cbv) (.ofText ['B']) (Or.inr (Std.ExtTreeSet.contains_iff_mem.mp hlist)) _ hB
    cases hadmits

end VersionMap

end SolPlan
