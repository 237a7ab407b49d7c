import SolPlan.Proofs.Compiler.LazySelection
import SolPlan.Proofs.Constraint.PreReleases

/-!
# Constraints select releases, whatever their builds

A constraint says nothing about build metadata, and no comparator of it names a pre-release. So a
file with a constraint never gets a pre-release. Build metadata counts last in the order of
versions, so dropping it keeps the order (`compare_stripBuild`) and with it what is greatest: the
choice among versions without build metadata is the choice among all, without its build metadata.

Results:
* `Bound.pre_of_meets`, `Bound.meets_congr`: what meets comparators that name no pre-release;
* `Greatest.stripBuild`: the greatest of the versions without build metadata;
* **`selectVersion_releases`**: a file with a constraint gets a release, the same for all builds.
-/

namespace SolPlan

namespace Bound

/-- A pre-release needs a comparator that names one. -/
theorem pre_of_meets {bounds : List Bound} {v : Version} (hbounds : ∀ b ∈ bounds, b.pre = [])
    (h : meets bounds v = true) : v.pre = [] := by
  unfold meets at h
  have hnames : bounds.any (·.names v) = false :=
    List.any_eq_false.mpr fun b hb => by simp [names, hbounds b hb]
  rw [hnames, Bool.or_false, Bool.and_eq_true] at h
  exact List.isEmpty_iff.mp h.2

/-- No comparator looks at build metadata. -/
theorem meets_stripBuild (bounds : List Bound) (v : Version) :
    meets bounds v.stripBuild = meets bounds v := rfl

theorem meets_congr (bounds : List Bound) {v w : Version} (h : v.stripBuild = w.stripBuild) :
    meets bounds v = meets bounds w := by
  rw [← meets_stripBuild, h, meets_stripBuild]

end Bound

namespace Constraint

variable {c : Constraint} {v w : Version}

/-- **What is admitted is a release.** -/
theorem pre_of_admits (h : c.admits v = true) : v.pre = [] := by
  rw [admits_eq_any_meets, List.any_eq_true] at h
  obtain ⟨cs, -, hmeets⟩ := h
  refine Bound.pre_of_meets (fun b hb => ?_) hmeets
  obtain ⟨comparator, -, rfl⟩ := List.mem_map.mp hb
  rfl

/-- **Build metadata does not count.** -/
theorem admits_congr (c : Constraint) (h : v.stripBuild = w.stripBuild) :
    c.admits v = c.admits w := by
  rw [admits_eq_any_meets, admits_eq_any_meets]
  congr 1
  funext cs
  exact Bound.meets_congr _ h

end Constraint

/-! ## Dropping build metadata -/

namespace Version

@[simp] theorem stripBuild_stripBuild (v : Version) : v.stripBuild.stripBuild = v.stripBuild := rfl

/-- Build metadata counts last. -/
theorem compare_eq_then (u v : Version) :
    compare u v = (compare u.stripBuild v.stripBuild).then (compare u.build v.build) := by
  have hlex : ∀ u v : Version, compare u v = (compare u.major v.major).then
      ((compare u.minor v.minor).then ((compare u.patch v.patch).then
        ((compare u.isRelease v.isRelease).then
          ((compare u.pre v.pre).then (compare u.build v.build))))) := fun _ _ => rfl
  have hnil : compare u.stripBuild.build v.stripBuild.build = .eq := rfl
  rw [hlex u, hlex u.stripBuild, hnil]
  simp only [Ordering.then_eq, Ordering.then_assoc]
  rfl

/-- The order is kept without build metadata. -/
theorem compare_stripBuild {u v : Version} (h : (compare u v).isLE = true) :
    (compare u.stripBuild v.stripBuild).isLE = true := by
  rw [compare_eq_then] at h
  cases hstrip : compare u.stripBuild v.stripBuild with
  | lt => rfl
  | eq => rfl
  | gt =>
    rw [hstrip] at h
    cases h

end Version

open Selector (mem_stripBuilds)

variable {constraint : Option Constraint} {options installed offered : Versions} {v w : Version}

theorem accepts_stripBuild : Accepts constraint v.stripBuild ↔ Accepts constraint v := by
  unfold Accepts
  refine forall₂_congr fun c _ => ?_
  rw [c.admits_congr v.stripBuild_stripBuild]

theorem Greatest.stripBuild (h : Greatest constraint options v) :
    Greatest constraint (stripBuilds options) v.stripBuild := by
  refine ⟨mem_stripBuilds.mpr ⟨v, h.mem, rfl⟩, accepts_stripBuild.mpr h.best.accepts, ?_⟩
  intro u hu haccepts
  obtain ⟨u, hmem, rfl⟩ := mem_stripBuilds.mp hu
  exact Version.compare_stripBuild (h.best.greatest u hmem (accepts_stripBuild.mp haccepts))

theorem NoneAccepted.stripBuilds (h : NoneAccepted constraint options) :
    NoneAccepted constraint (stripBuilds options) := by
  intro u hu haccepts
  obtain ⟨u, hmem, rfl⟩ := mem_stripBuilds.mp hu
  exact h u hmem (accepts_stripBuild.mp haccepts)

/-- The same selection, without the build metadata of an installed version. -/
def Selection.stripInstalled : Selection → Selection
  | .installed v => .installed v.stripBuild
  | .install v => .install v

/-- **Dropping the build metadata of what is installed** drops it from the choice, and changes
nothing else. -/
theorem selectVersion_stripBuilds (constraint : Option Constraint) (installed offered : Versions) :
    selectVersion constraint (stripBuilds installed) offered =
      (selectVersion constraint installed offered).map Selection.stripInstalled := by
  have hchooses : Chooses constraint installed offered
      (selectVersion constraint installed offered) := selectVersion_eq_iff.mp rfl
  generalize selectVersion constraint installed offered = choice at hchooses ⊢
  rw [selectVersion_eq_iff]
  cases hchooses with
  | installed h => exact .installed h.stripBuild
  | install hlacks h => exact .install hlacks.stripBuilds h
  | unsatisfiable hconstraint hlacks hnone =>
    exact .unsatisfiable hconstraint hlacks.stripBuilds hnone
  | noCompilers hconstraint hlacks hnone =>
    refine .noCompilers hconstraint (fun u hu => ?_) hnone
    obtain ⟨u, hmem, -⟩ := mem_stripBuilds.mp hu
    exact hlacks u hmem

/-- **A file with a constraint gets a release, and the same one for all builds.** In no constraint
stands a hyphen; it is met as its comparators are in general, where they name no pre-release; so a
version that meets it is a release, its build metadata does not count, and neither does that of
what is installed. -/
theorem selectVersion_releases {t : Text} {c : Constraint} (h : Constraint.ofText t = .ok c) :
    '-' ∉ c.expression ∧
      (∀ v, c.admits v = c.alternatives.any fun cs => Bound.meets (cs.map Bound.ofComparator) v) ∧
      (∀ v, c.admits v = true → v.pre = []) ∧
      (∀ v w, v.stripBuild = w.stripBuild → c.admits v = c.admits w) ∧
      (∀ installed offered selection,
        selectVersion (some c) installed offered = .ok selection → selection.version.pre = []) ∧
      ∀ installed offered, selectVersion (some c) (stripBuilds installed) offered =
        (selectVersion (some c) installed offered).map Selection.stripInstalled := by
  refine ⟨Constraint.hyphen_not_mem h, c.admits_eq_any_meets, fun v => Constraint.pre_of_admits,
    fun v w => c.admits_congr, fun installed offered selection hselection => ?_,
    selectVersion_stripBuilds (some c)⟩
  exact Constraint.pre_of_admits ((selectVersion_best hselection).accepts c rfl)

/-- Builds of two releases and a pre-release. -/
def nightlies : Versions :=
  .ofList ([⟨0, 7, 6, [], []⟩, ⟨0, 8, 12, [], [⟨['c']⟩]⟩, ⟨0, 8, 21, [⟨['b']⟩], [⟨['c']⟩]⟩] :
    List Version)

/-- All of 0.8. -/
def caretEight : Constraint := ⟨"^0.8.0".toList, [[⟨.caret, .patch 0 8 0⟩]]⟩

/-- The pre-release is passed over, and the build does not count. -/
theorem selectVersion_releases_nightlies :
    Constraint.ofText "^0.8.0".toList = .ok caretEight ∧
      selectVersion (some caretEight) nightlies ∅ =
        .ok (.installed ⟨0, 8, 12, [], [⟨['c']⟩]⟩) ∧
      selectVersion (some caretEight) (stripBuilds nightlies) ∅ =
        .ok (.installed (.release 0 8 12)) := by
  have htext : Constraint.ofText "^0.8.0".toList = .ok caretEight := by decide +kernel
  have hselect : selectVersion (some caretEight) nightlies ∅ =
      .ok (.installed ⟨0, 8, 12, [], [⟨['c']⟩]⟩) := by cbv
  obtain ⟨-, -, -, -, -, hstrip⟩ := selectVersion_releases htext
  refine ⟨htext, hselect, ?_⟩
  rw [hstrip, hselect]
  rfl

end SolPlan
