import SolPlan.Proofs.Compiler.LazySelection
import SolPlan.Proofs.Constraint.Ranges

/-!
# A pinned file gets its pin

A pin is told by the shape of a constraint: a single `=` with all three numbers. What it says is a
matter of what the constraint admits: one release, with any build metadata. A selector in use knows
versions without build metadata only, so what it chooses for a pinned file is the pin itself, be it
installed or offered. It answers the pin or an error, and asks for no other version to be installed.

Results:
* `stripBuild_of_select`, `isSome_select_iff`: what is selected from any options;
* `Selector.Serving.build_of_selectVersion`: what a selector in use chooses has no build metadata;
* **`select_pinned`**: pins mean what they say, for all options and for selectors in use.
-/

namespace SolPlan

variable {c : Constraint} {pin v : Version} {options : Versions}

namespace Constraint

theorem select_eq_max? (c : Constraint) (options : Versions) :
    c.select options = (acceptable (some c) options).max? := rfl

/-- What a pin selects is the pin, with any build metadata. -/
theorem stripBuild_of_select (hpin : c.exactPin? = some pin) (h : c.select options = some v) :
    v ∈ options ∧ v.stripBuild = pin := by
  obtain ⟨hmem, haccepts⟩ := mem_of_max? (c.select_eq_max? options ▸ h)
  exact ⟨hmem, (admits_iff_of_exactPin? hpin).mp (haccepts c rfl)⟩

/-- A pin selects something if it is among the options, with any build metadata. -/
theorem isSome_select_iff (hpin : c.exactPin? = some pin) :
    (c.select options).isSome = true ↔ ∃ v ∈ options, v.stripBuild = pin := by
  constructor
  · intro h
    obtain ⟨v, hv⟩ := Option.isSome_iff_exists.mp h
    exact ⟨v, stripBuild_of_select hpin hv⟩
  · rintro ⟨v, hmem, hv⟩
    rw [Option.isSome_iff_ne_none, select_eq_max?]
    intro hnone
    refine max?_acceptable_eq_none.mp hnone v hmem fun d hd => ?_
    obtain rfl : c = d := Option.some.inj hd
    exact (admits_iff_of_exactPin? hpin).mpr hv

end Constraint

/-! ## Selectors -/

theorem Toolchain.build_of_mem_offered {tools : Toolchain} (h : v ∈ tools.offered) :
    v.build = [] := by
  unfold Toolchain.offered at h
  split at h
  · exact Selector.build_of_mem_stripBuilds h
  · exact absurd h Std.ExtTreeSet.not_mem_empty

/-- What is delivered of a selection is its version. -/
theorem Toolchain.deliver_ok {tools : Toolchain} {selection : Selection}
    (h : tools.deliver selection = .ok v) : v = selection.version := by
  cases selection with
  | installed u =>
    cases h
    rfl
  | install u =>
    change (tools.install u).map (fun _ => u) = .ok v at h
    cases hinstall : tools.install u <;> rw [hinstall] at h <;> cases h
    rfl

namespace Selector

variable {tools : Toolchain} {s : Selector} {selection : Selection}

/-- What a selector in use chooses has no build metadata. -/
theorem Serving.build_of_selectVersion (h : Serving tools s) {constraint : Option Constraint}
    (hselection : selectVersion constraint s.installed tools.offered = .ok selection) :
    selection.version.build = [] := by
  rcases mem_of_selectVersion hselection with ⟨v, hv, rfl⟩ | ⟨v, hv, rfl⟩
  · exact h.stripped.installed v hv
  · exact Toolchain.build_of_mem_offered hv

/-- What a selector in use chooses for a pinned file is the pin. -/
theorem Serving.version_of_exactPin? (h : Serving tools s) (hpin : c.exactPin? = some pin)
    (hselection : selectVersion (some c) s.installed tools.offered = .ok selection) :
    selection.version = pin := by
  have haccepts := (selectVersion_best hselection).accepts c rfl
  rw [← (Constraint.admits_iff_of_exactPin? hpin).mp haccepts, Version.stripBuild,
    ← h.build_of_selectVersion hselection]

/-- **Pins mean what they say.** A constraint that pins a version admits that version with any build
metadata, and nothing else. So it selects the pinned version from any options, if it is among
them, and a selector in use answers a file that is pinned with the pin, if it answers with a
version, and asks for nothing but the pin to be installed. -/
theorem select_pinned (hpin : c.exactPin? = some pin) :
    (∀ v, c.admits v = true ↔ v.stripBuild = pin) ∧
      (∀ options v, c.select options = some v → v ∈ options ∧ v.stripBuild = pin) ∧
      (∀ options, (c.select options).isSome = true ↔ ∃ v ∈ options, v.stripBuild = pin) ∧
      ∀ tools s, Serving tools s → ∀ pragmas file, pragmas.constraint? file = some c →
        (∀ v, (s.select tools pragmas file).2 = .ok v → v = pin) ∧
          ∃ calls, (s.select tools pragmas file).1.log.installs = s.log.installs ++ calls ∧
            ∀ v ∈ calls, v = pin := by
  refine ⟨fun v => Constraint.admits_iff_of_exactPin? hpin,
    fun options v => Constraint.stripBuild_of_select hpin,
    fun options => Constraint.isSome_select_iff hpin, fun tools s h pragmas file hfile => ?_⟩
  obtain ⟨asked, hlog, hselect⟩ := h.knows.select_eq pragmas file
  rw [hfile] at hselect
  rw [hselect, answer_carryOut, installs_carryOut, hlog]
  cases hchoice : selectVersion (some c) s.installed tools.offered with
  | error e => exact ⟨fun v hv => (by cases hv), [], rfl, fun v hv => (by cases hv)⟩
  | ok selection =>
    have hversion := h.version_of_exactPin? hpin hchoice
    refine ⟨fun v hv => (Toolchain.deliver_ok hv).trans hversion, _, rfl, fun v hv => ?_⟩
    cases selection with
    | installed u => cases hv
    | install u => exact (List.mem_singleton.mp hv).trans hversion

/-- A file that is pinned to 0.8.24 by a version without an operator. -/
def bareVersion : Constraint := ⟨"0.8.24".toList, [[⟨.exact, .patch 0 8 24⟩]]⟩

/-- The pin is offered with build metadata, between two others that are installed. -/
def pinOffered : Toolchain :=
  .ofLists (some [.release 0 8 12, .release 0 8 26])
    (some [{ Version.release 0 8 24 with build := [⟨['x']⟩] }]) []

/-- A version alone is a pin, and it is installed without its build metadata. -/
theorem select_pinned_bareVersion :
    ∃ s, Selector.start pinOffered ⟨[], 0⟩ = .ok s ∧
      Constraint.ofText "0.8.24".toList = .ok bareVersion ∧
      bareVersion.exactPin? = some (.release 0 8 24) ∧
      bareVersion.admits { Version.release 0 8 24 with build := [⟨['x']⟩] } = true ∧
      (s.select pinOffered (.ofList [(.ofText ['A'], some bareVersion)]) (.ofText ['A'])).2 =
        .ok (.release 0 8 24) := by
  obtain ⟨s, hs⟩ : ∃ s, Selector.start pinOffered ⟨[], 0⟩ = .ok s := ⟨_, rfl⟩
  have htext : Constraint.ofText "0.8.24".toList = .ok bareVersion := by decide +kernel
  have hpin : bareVersion.exactPin? = some (.release 0 8 24) := rfl
  obtain ⟨hadmits, -, -, hselector⟩ := select_pinned hpin
  obtain ⟨hanswer, -⟩ := hselector pinOffered s (.start hs)
    (.ofList [(.ofText ['A'], some bareVersion)]) (.ofText ['A']) (by cbv)
  have hok : (s.select pinOffered (.ofList [(.ofText ['A'], some bareVersion)])
      (.ofText ['A'])).2.isOk = true := by
    cases hs
    cbv
  refine ⟨s, hs, htext, hpin, (hadmits _).mpr rfl, ?_⟩
  cases hv : (s.select pinOffered (.ofList [(.ofText ['A'], some bareVersion)])
      (.ofText ['A'])).2 with
  | error e =>
    rw [hv] at hok
    cases hok
  | ok v => rw [hanswer v hv]

end Selector

end SolPlan
