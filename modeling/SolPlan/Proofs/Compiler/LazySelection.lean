import SolPlan.Proofs.Compiler.Requests

/-!
# Asking late for what can be installed

A selector tries twice: first as if nothing could be installed, and only if that fails with what the
toolchain offers, for which it asks once. What a file gets is the same as if the offer were known
from the start (`selectVersion`), whatever was asked and installed before. What was offered at the
first time is kept (`Knows`), and an offer that cannot be listed counts as empty then and later.

An installation that fails is the one thing that `selectVersion` does not foresee: its error takes
the place of the version.

Results:
* `selectVersion_eq_iff`: the choice among installed and offered versions, as a rule (`Chooses`);
* `Serving.knows`: what a selector knows about the offer, after any requests;
* **`select_agrees`**: the answer and the calls to install are those of the choice among all;
* `not_select_eq_version`: a version that cannot be installed is chosen and not returned.
-/

namespace SolPlan

/-! ## The choice -/

/-- One of the options, accepted, and the greatest of those that are accepted. -/
structure Greatest (constraint : Option Constraint) (options : Versions) (v : Version) : Prop where
  mem : v ∈ options
  best : Best constraint options v

theorem max?_acceptable_eq_some {constraint : Option Constraint} {options : Versions}
    {v : Version} :
    (acceptable constraint options).max? = some v ↔ Greatest constraint options v := by
  constructor
  · intro h
    exact ⟨(mem_of_max? h).1, best_of_max? h⟩
  · intro h
    refine Std.ExtTreeSet.max?_eq_some_iff_mem_and_forall.mpr
      ⟨mem_acceptable.mpr ⟨h.mem, h.best.accepts⟩, fun u hu => ?_⟩
    obtain ⟨hmem, haccepts⟩ := mem_acceptable.mp hu
    exact h.best.greatest u hmem haccepts

/-- No option is accepted. -/
def NoneAccepted (constraint : Option Constraint) (options : Versions) : Prop :=
  ∀ v ∈ options, ¬ Accepts constraint v

/-- What is chosen for a file: the greatest installed version that it accepts, else the greatest
offered one that it accepts, else nothing, for a reason that depends on its constraint. -/
inductive Chooses (constraint : Option Constraint) (installed offered : Versions) :
    Except Error Selection → Prop where
  | installed {v : Version} (h : Greatest constraint installed v) :
    Chooses constraint installed offered (.ok (.installed v))
  | install {v : Version} (hlacks : NoneAccepted constraint installed)
    (h : Greatest constraint offered v) : Chooses constraint installed offered (.ok (.install v))
  | unsatisfiable {c : Constraint} (hconstraint : constraint = some c)
    (hlacks : NoneAccepted constraint installed) (hnone : NoneAccepted constraint offered) :
    Chooses constraint installed offered (.error (.unsatisfiable c.expression))
  | noCompilers (hconstraint : constraint = none) (hlacks : ∀ v, v ∉ installed)
    (hnone : ∀ v, v ∉ offered) : Chooses constraint installed offered (.error .noCompilers)

theorem noneAccepted_none_iff {options : Versions} :
    NoneAccepted none options ↔ ∀ v, v ∉ options := by
  refine forall_congr' fun v => imp_congr_right fun _ => ?_
  simp [Accepts]

/-- **The choice follows the rule,** and nothing else does. -/
theorem selectVersion_eq_iff {constraint : Option Constraint} {installed offered : Versions}
    {choice : Except Error Selection} :
    selectVersion constraint installed offered = choice ↔
      Chooses constraint installed offered choice := by
  constructor
  · rintro rfl
    unfold selectVersion
    split
    · rename_i v hv
      exact .installed (max?_acceptable_eq_some.mp hv)
    · rename_i hinstalled
      have hlacks := max?_acceptable_eq_none.mp hinstalled
      split
      · rename_i v hv
        exact .install hlacks (max?_acceptable_eq_some.mp hv)
      · rename_i hoffered
        have hnone := max?_acceptable_eq_none.mp hoffered
        cases constraint with
        | some c => exact .unsatisfiable rfl hlacks hnone
        | none =>
          exact .noCompilers rfl (noneAccepted_none_iff.mp hlacks)
            (noneAccepted_none_iff.mp hnone)
  · intro h
    unfold selectVersion
    cases h with
    | installed h => rw [max?_acceptable_eq_some.mpr h]
    | install hlacks h =>
      rw [max?_acceptable_eq_none.mpr hlacks, max?_acceptable_eq_some.mpr h]
    | unsatisfiable hconstraint hlacks hnone =>
      rw [max?_acceptable_eq_none.mpr hlacks, max?_acceptable_eq_none.mpr hnone, hconstraint]
      rfl
    | noCompilers hconstraint hlacks hnone =>
      subst hconstraint
      rw [max?_acceptable_eq_none.mpr (noneAccepted_none_iff.mpr hlacks),
        max?_acceptable_eq_none.mpr (noneAccepted_none_iff.mpr hnone)]
      rfl

/-- What is chosen while nothing is offered is chosen whatever is offered. -/
theorem selectVersion_of_empty {constraint : Option Constraint} {installed : Versions}
    {selection : Selection} (h : selectVersion constraint installed ∅ = .ok selection)
    (offered : Versions) : selectVersion constraint installed offered = .ok selection := by
  rw [selectVersion_eq_iff] at h ⊢
  cases h with
  | installed h => exact .installed h
  | install hlacks h => exact absurd h.mem Std.ExtTreeSet.not_mem_empty

/-! ## What a toolchain offers and does -/

namespace Toolchain

/-- The versions that can be installed, without build metadata: none if they cannot be listed. -/
def offered (tools : Toolchain) : Versions :=
  match tools.available with
  | .ok versions => stripBuilds versions
  | .error _ => ∅

/-- What comes of a selection: its version, unless installing it fails. -/
def deliver (tools : Toolchain) : Selection → Except Error Version
  | .installed v => .ok v
  | .install v => (tools.install v).map fun () => v

end Toolchain

/-- The version that a choice asks to install, if any. -/
def toInstall : Except Error Selection → List Version
  | .ok (.install v) => [v]
  | .ok (.installed _) => []
  | .error _ => []

namespace Selector

variable {tools : Toolchain} {s s' : Selector}

/-- Do what a choice says. -/
def carryOut (tools : Toolchain) (s : Selector) :
    Except Error Selection → Selector × Except Error Version
  | .ok selection => s.obtain tools selection
  | .error e => (s, .error e)

theorem answer_carryOut (s : Selector) (choice : Except Error Selection) :
    (s.carryOut tools choice).2 = choice.bind tools.deliver := by
  cases choice with
  | error e => rfl
  | ok selection =>
    cases selection with
    | installed v => rfl
    | install v =>
      simp only [carryOut, obtain, Except.bind, Toolchain.deliver]
      cases tools.install v <;> rfl

theorem installs_carryOut (s : Selector) (choice : Except Error Selection) :
    (s.carryOut tools choice).1.log.installs = s.log.installs ++ toInstall choice := by
  cases choice with
  | error e => exact (List.append_nil _).symm
  | ok selection =>
    cases selection with
    | installed v => exact (List.append_nil _).symm
    | install v =>
      simp only [carryOut, obtain, toInstall]
      cases tools.install v <;> rfl

/-! ## What a selector knows -/

/-- The selector knows nothing of the offer before it asks, and all of it afterwards. -/
structure Knows (tools : Toolchain) (s : Selector) : Prop where
  unasked : s.probed = false → s.available = ∅
  asked : s.probed = true → s.available = tools.offered

theorem Knows.available_probe (h : Knows tools s) :
    (s.probe tools).available = tools.offered := by
  unfold Selector.probe
  split
  · rename_i hprobed
    exact h.asked hprobed
  · rename_i hprobed
    have hempty := h.unasked (Bool.eq_false_iff.mpr hprobed)
    rw [Toolchain.offered]
    cases tools.available with
    | ok versions => rfl
    | error e => exact hempty

theorem probed_probe (s : Selector) : (s.probe tools).probed = true := by
  unfold probe
  split
  · assumption
  · rfl

/-- Asking tells all. -/
theorem Knows.probe (h : Knows tools s) : Knows tools (s.probe tools) := by
  refine ⟨fun hprobed => ?_, fun _ => h.available_probe⟩
  rw [probed_probe] at hprobed
  cases hprobed

/-- Installing, whether it fails or not, tells nothing about the offer. -/
theorem Knows.outcome {q : Request} {answer : Except Error Version} (h : Knows tools s)
    (houtcome : Outcome tools s q s' answer) : Knows tools s' := by
  have hprobe : Knows tools (s.probe tools) := h.probe
  cases houtcome with
  | found => exact h
  | installed => exact ⟨hprobe.unasked, hprobe.asked⟩
  | refused => exact ⟨hprobe.unasked, hprobe.asked⟩
  | none => exact hprobe

/-- **After any requests a selector knows all of the offer or has not asked for it.** -/
theorem Serving.knows (h : Serving tools s) : Knows tools s := by
  induction h with
  | @start log s h =>
    unfold Selector.start at h
    cases hversions : tools.installed with
    | error e =>
      rw [hversions] at h
      cases h
    | ok versions =>
      rw [hversions] at h
      cases h
      exact ⟨fun _ => rfl, fun hprobed => absurd hprobed Bool.false_ne_true⟩
  | @serve s h q ih => exact ih.outcome (outcome_serve tools s q)

/-! ## The two tries -/

/-- Both tries come to carrying out the choice among all versions, by a selector that may have
asked for the offer but has installed nothing yet. -/
theorem Knows.select_eq (h : Knows tools s) (pragmas : PragmaTable) (file : SourceId) :
    ∃ asked : Selector, asked.log.installs = s.log.installs ∧
      s.select tools pragmas file = asked.carryOut tools
        (selectVersion (pragmas.constraint? file) s.installed tools.offered) := by
  unfold Selector.select
  dsimp only
  split
  · rename_i selection hselection
    exact ⟨s, rfl, by rw [selectVersion_of_empty hselection]; rfl⟩
  · refine ⟨s.probe tools, installs_probe s, ?_⟩
    rw [installed_probe, h.available_probe]
    cases selectVersion (pragmas.constraint? file) s.installed tools.offered <;> rfl

/-- **Asking late agrees with knowing all from the start.** A selector in use answers a file with
the choice among what is installed and all that the toolchain offers, and calls for an installation
exactly if the choice is to install. Where that fails, its error is the answer. -/
theorem select_agrees (h : Serving tools s) (pragmas : PragmaTable) (file : SourceId) :
    ∃ choice, selectVersion (pragmas.constraint? file) s.installed tools.offered = choice ∧
      Chooses (pragmas.constraint? file) s.installed tools.offered choice ∧
      (s.select tools pragmas file).2 = choice.bind tools.deliver ∧
      (s.select tools pragmas file).1.log.installs = s.log.installs ++ toInstall choice := by
  obtain ⟨asked, hlog, hselect⟩ := h.knows.select_eq pragmas file
  refine ⟨_, rfl, selectVersion_eq_iff.mp rfl, ?_, ?_⟩
  · rw [hselect, answer_carryOut]
  · rw [hselect, installs_carryOut, hlog]

/-- The selector of `nightly` after a request whose download failed. -/
def afterRefusal : Except Error Selector :=
  (Selector.start nightly ⟨[], 0⟩).map fun s =>
    (s.serve nightly (fromTwenty fun v => .error (.install v "download failed".toList))).after

/-- The offer is known from the refused request, and the next one installs what it chooses. -/
theorem select_agrees_afterRefusal :
    ∃ s, afterRefusal = .ok s ∧ s.log = ⟨[.release 0 8 20], 1⟩ ∧
      Chooses (fromTwenty nightly.install).constraint s.installed nightly.offered
        (.ok (.install (.release 0 8 20))) ∧
      (s.select nightly (fromTwenty nightly.install).pragmas (.ofText ['A'])).2 =
        .ok (.release 0 8 20) ∧
      (s.select nightly (fromTwenty nightly.install).pragmas (.ofText ['A'])).1.log.installs =
        [.release 0 8 20, .release 0 8 20] := by
  obtain ⟨s, hs⟩ : ∃ s, Selector.start nightly ⟨[], 0⟩ = .ok s := ⟨_, rfl⟩
  have hserving := (Serving.start hs).serve
    (fromTwenty fun v => .error (.install v "download failed".toList))
  obtain ⟨choice, hchoice, hchooses, hanswer, hinstalls⟩ := select_agrees hserving
    (fromTwenty nightly.install).pragmas (.ofText ['A'])
  cases hs
  obtain rfl : .ok (.install (.release 0 8 20)) = choice := by
    rw [← hchoice]
    cbv
  exact ⟨_, rfl, by cbv, hchooses, hanswer, hinstalls.trans (by cbv)⟩

/-- A toolchain with nothing installed and one version to install, whose download fails. -/
def brokenDownload : Toolchain := .ofLists (some []) (some [.release 0 8 26]) [.release 0 8 26]

/-- The chosen version is not returned if it cannot be installed. -/
theorem not_select_eq_version :
    ¬ ∀ (tools : Toolchain) (s : Selector) (pragmas : PragmaTable) (file : SourceId),
      Serving tools s → (s.select tools pragmas file).2 =
        (selectVersion (pragmas.constraint? file) s.installed tools.offered).map
          Selection.version := by
  intro hall
  obtain ⟨s, hs⟩ : ∃ s, Selector.start brokenDownload ⟨[], 0⟩ = .ok s := ⟨_, rfl⟩
  have heq := congrArg Except.isOk (hall brokenDownload s .empty (.ofText ['A']) (.start hs))
  cases hs
  have hanswer : (Selector.select brokenDownload .empty
      ⟨stripBuilds (.ofList ([] : List Version)), ∅, false, ⟨[], 0⟩⟩ (.ofText ['A'])).2.isOk =
        false := by cbv
  have hchoice : ((selectVersion (PragmaTable.constraint? .empty (.ofText ['A']))
      (stripBuilds (.ofList ([] : List Version))) brokenDownload.offered).map
        Selection.version).isOk = true := by cbv
  rw [hanswer, hchoice] at heq
  cases heq

end Selector

end SolPlan
