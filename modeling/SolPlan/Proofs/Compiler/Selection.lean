import SolPlan.Compiler.Toolchain
import SolPlan.Proofs.ImportGraph.Reachability

/-!
# What a selected version is worth

A file accepts a version if it has no constraint, or one that the version meets (`Accepts`). The
version that is selected for a file is accepted by it, and no installed version that the file
accepts is greater: what is not installed is only looked at when nothing installed will do.

Results:
* `select_best` and **`selectAll_best`**: both facts for one file, and for a list of files where
  installing goes on between them;
* `selectAll_agree`: what is selected does not depend on the log of the toolchain;
* `Serving.stripped`, `selectAll_installed`: a selector in use, whatever it has been asked for since
  it was started, selects versions that are installed then and have no build metadata.
-/

namespace SolPlan

/-- The version meets the constraint, if there is one. -/
def Accepts (constraint : Option Constraint) (v : Version) : Prop :=
  ∀ c, constraint = some c → c.admits v = true

instance (constraint : Option Constraint) (v : Version) : Decidable (Accepts constraint v) :=
  decidable_of_iff ((constraint.all fun c => c.admits v) = true) (by
    cases constraint <;> simp [Accepts])

theorem mem_acceptable {constraint : Option Constraint} {options : Versions} {v : Version} :
    v ∈ acceptable constraint options ↔ v ∈ options ∧ Accepts constraint v := by
  cases constraint with
  | none => simp [acceptable, Accepts]
  | some c => simp [acceptable, Accepts]

theorem max?_acceptable_eq_none {constraint : Option Constraint} {options : Versions} :
    (acceptable constraint options).max? = none ↔ ∀ v ∈ options, ¬ Accepts constraint v := by
  rw [Std.ExtTreeSet.max?_eq_none_iff, Std.ExtTreeSet.eq_empty_iff_forall_not_mem]
  simp only [mem_acceptable, not_and]

theorem mem_of_max? {constraint : Option Constraint} {options : Versions} {v : Version}
    (h : (acceptable constraint options).max? = some v) : v ∈ options ∧ Accepts constraint v :=
  mem_acceptable.mp (Std.ExtTreeSet.max?_eq_some_iff_mem_and_forall.mp h).1

/-- The version is accepted, and nothing accepted among the options is greater. -/
structure Best (constraint : Option Constraint) (options : Versions) (v : Version) : Prop where
  accepts : Accepts constraint v
  greatest : ∀ u ∈ options, Accepts constraint u → (compare u v).isLE = true

theorem Best.mono {constraint : Option Constraint} {options options' : Versions} {v : Version}
    (h : Best constraint options' v) (hsub : ∀ u ∈ options, u ∈ options') :
    Best constraint options v :=
  ⟨h.accepts, fun u hu => h.greatest u (hsub u hu)⟩

theorem best_of_max? {constraint : Option Constraint} {options : Versions} {v : Version}
    (h : (acceptable constraint options).max? = some v) : Best constraint options v := by
  rw [Std.ExtTreeSet.max?_eq_some_iff_mem_and_forall] at h
  refine ⟨(mem_acceptable.mp h.1).2, fun u hu hacc => ?_⟩
  exact h.2 u (mem_acceptable.mpr ⟨hu, hacc⟩)

/-- A version to be installed is chosen only if nothing installed is accepted. -/
theorem selectVersion_best {constraint : Option Constraint} {installed available : Versions}
    {selection : Selection} (h : selectVersion constraint installed available = .ok selection) :
    Best constraint installed selection.version := by
  unfold selectVersion at h
  split at h
  · rename_i v hv
    cases h
    exact best_of_max? hv
  · rename_i hnone
    split at h
    · rename_i v hv
      cases h
      refine ⟨(best_of_max? hv).accepts, fun u hu hacc => ?_⟩
      exact absurd hacc (max?_acceptable_eq_none.mp hnone u hu)
    · cases h

/-! ## Requests -/

/-- A request for the version of a file. -/
structure Request where
  /-- What the toolchain would answer to an installation now. -/
  install : Version → Except Error Unit
  pragmas : PragmaTable
  file : SourceId

/-- A request that was served. -/
structure Service where
  request : Request
  before : Selector
  after : Selector
  answer : Except Error Version

namespace Selector

/-! ## What is selected -/

variable {tools : Toolchain} {pragmas : PragmaTable}

theorem obtain_ok {s s' : Selector} {selection : Selection} {v : Version}
    (h : s.obtain tools selection = (s', .ok v)) :
    v = selection.version ∧ ∀ u ∈ s.installed, u ∈ s'.installed := by
  cases selection with
  | installed u =>
    simp only [obtain, Prod.mk.injEq, Except.ok.injEq] at h
    obtain ⟨rfl, rfl⟩ := h
    exact ⟨rfl, fun _ hu => hu⟩
  | install u =>
    simp only [obtain] at h
    split at h
    · simp only [Prod.mk.injEq, Except.ok.injEq] at h
      obtain ⟨rfl, rfl⟩ := h
      exact ⟨rfl, fun _ hu => Std.ExtTreeSet.mem_insert.mpr (Or.inr hu)⟩
    · simp at h

theorem installed_probe (s : Selector) : (s.probe tools).installed = s.installed := by
  unfold probe
  split <;> rfl

/-- The version selected for a file is the best for it, and what is installed stays so. -/
theorem select_best {s s' : Selector} {file : SourceId} {v : Version}
    (h : s.select tools pragmas file = (s', .ok v)) :
    Best (pragmas.constraint? file) s.installed v ∧ ∀ u ∈ s.installed, u ∈ s'.installed := by
  unfold select at h
  dsimp only at h
  split at h
  · rename_i selection hselection
    obtain ⟨rfl, hgrows⟩ := obtain_ok h
    exact ⟨selectVersion_best hselection, hgrows⟩
  · split at h
    · rename_i selection hselection
      obtain ⟨rfl, hgrows⟩ := obtain_ok h
      rw [installed_probe] at hselection hgrows
      exact ⟨selectVersion_best hselection, hgrows⟩
    · simp at h

/-- A file that accepts an installed version gets one, and nothing is installed for it. -/
theorem select_of_accepts {s : Selector} {file : SourceId}
    (h : ∃ v ∈ s.installed, Accepts (pragmas.constraint? file) v) :
    ∃ v, s.select tools pragmas file = (s, .ok v) := by
  unfold select selectVersion
  cases hmax : (acceptable (pragmas.constraint? file) s.installed).max? with
  | some v =>
    dsimp only
    rw [hmax]
    exact ⟨v, rfl⟩
  | none =>
    obtain ⟨v, hv, haccepts⟩ := h
    exact absurd haccepts (max?_acceptable_eq_none.mp hmax v hv)

theorem selectAll_of_accepts {s : Selector} {files : List SourceId}
    (h : ∀ file ∈ files, ∃ v ∈ s.installed, Accepts (pragmas.constraint? file) v) :
    ∃ best, s.selectAll tools pragmas files = (s, .ok best) := by
  induction files with
  | nil => exact ⟨_, rfl⟩
  | cons file files ih =>
    obtain ⟨v, hv⟩ : ∃ v, s.select tools pragmas file = (s, .ok v) :=
      select_of_accepts (h file List.mem_cons_self)
    obtain ⟨best, hbest⟩ := ih fun a ha => h a (List.mem_cons_of_mem _ ha)
    unfold selectAll
    rw [hv]
    dsimp only
    rw [hbest]
    exact ⟨_, rfl⟩
/-- **Each listed file gets a version, and the version is the best for it.** -/
theorem selectAll_best {files : List SourceId} {s s' : Selector}
    {best : Std.ExtTreeMap SourceId Version}
    (h : s.selectAll tools pragmas files = (s', .ok best)) :
    (∀ file, file ∈ best ↔ file ∈ files) ∧
      ∀ file v, best[file]? = some v → Best (pragmas.constraint? file) s.installed v := by
  induction files generalizing s s' best with
  | nil =>
    simp only [selectAll, Prod.mk.injEq, Except.ok.injEq] at h
    obtain ⟨-, rfl⟩ := h
    exact ⟨fun file => by simp, fun file v hv => by simp at hv⟩
  | cons file files ih =>
    unfold selectAll at h
    split at h
    · simp at h
    · rename_i s₁ v hselect
      obtain ⟨hbest, hgrows⟩ := select_best hselect
      split at h
      · simp at h
      · rename_i s₂ more hmore
        simp only [Prod.mk.injEq, Except.ok.injEq] at h
        obtain ⟨-, rfl⟩ := h
        obtain ⟨hmem, hrest⟩ := ih hmore
        refine ⟨fun other => ?_, fun other u hu => ?_⟩
        · rw [Std.ExtTreeMap.mem_insert, Std.LawfulEqCmp.compare_eq_iff_eq, hmem, List.mem_cons,
            eq_comm]
        · rw [getElem?_insert_ite] at hu
          split at hu
          · rename_i hother
            cases hu
            exact hother ▸ hbest
          · exact (hrest other u hu).mono hgrows

/-! ## The log does not matter -/

variable (tools) (pragmas)

/-- Two selectors know the same. -/
structure Agree (s s' : Selector) : Prop where
  installed : s.installed = s'.installed
  available : s.available = s'.available
  probed : s.probed = s'.probed

theorem Agree.obtain {s s' : Selector} (h : Agree s s') (selection : Selection) :
    Agree (s.obtain tools selection).1 (s'.obtain tools selection).1 ∧
      (s.obtain tools selection).2 = (s'.obtain tools selection).2 := by
  cases selection with
  | installed v => exact ⟨h, rfl⟩
  | install v =>
    simp only [Selector.obtain]
    split
    · exact ⟨⟨by simp only [h.installed], h.available, h.probed⟩, rfl⟩
    · exact ⟨⟨h.installed, h.available, h.probed⟩, rfl⟩

theorem Agree.probe {s s' : Selector} (h : Agree s s') :
    Agree (s.probe tools) (s'.probe tools) := by
  unfold Selector.probe
  rw [h.probed]
  split
  · exact h
  · refine ⟨h.installed, ?_, rfl⟩
    simp only [h.available]

theorem Agree.select {s s' : Selector} (h : Agree s s') (file : SourceId) :
    Agree (s.select tools pragmas file).1 (s'.select tools pragmas file).1 ∧
      (s.select tools pragmas file).2 = (s'.select tools pragmas file).2 := by
  have hp := h.probe tools
  unfold Selector.select
  dsimp only
  rw [h.installed, hp.installed, hp.available]
  split
  · exact h.obtain tools _
  · split
    · exact hp.obtain tools _
    · exact ⟨hp, rfl⟩

/-- What is selected does not depend on the log. -/
theorem selectAll_agree {s s' : Selector} (h : Agree s s') (files : List SourceId) :
    Agree (s.selectAll tools pragmas files).1 (s'.selectAll tools pragmas files).1 ∧
      (s.selectAll tools pragmas files).2 = (s'.selectAll tools pragmas files).2 := by
  induction files generalizing s s' with
  | nil => exact ⟨h, rfl⟩
  | cons file files ih =>
    obtain ⟨hagree, heq⟩ := h.select tools pragmas file
    unfold selectAll
    generalize s.select tools pragmas file = a at hagree heq
    generalize s'.select tools pragmas file = b at hagree heq
    obtain ⟨a, x⟩ := a
    obtain ⟨b, y⟩ := b
    dsimp only at hagree heq
    subst heq
    cases x with
    | error e => exact ⟨hagree, rfl⟩
    | ok v =>
      obtain ⟨hagree, heq⟩ := ih hagree
      dsimp only
      generalize a.selectAll tools pragmas files = c at hagree heq
      generalize b.selectAll tools pragmas files = d at hagree heq
      obtain ⟨c, x⟩ := c
      obtain ⟨d, y⟩ := d
      dsimp only at hagree heq
      subst heq
      cases x <;> exact ⟨hagree, rfl⟩

/-! ## What a selector in use knows -/

/-- Serve a request. -/
def serve (tools : Toolchain) (s : Selector) (q : Request) : Service :=
  let result := s.select { tools with install := q.install } q.pragmas q.file
  ⟨q, s, result.1, result.2⟩

/-- The selector was started with the toolchain and has served requests since, while installing may
have failed at any time. -/
inductive Serving (tools : Toolchain) : Selector → Prop where
  | start {log : ToolchainLog} {s : Selector} (h : Selector.start tools log = .ok s) :
    Serving tools s
  | serve {s : Selector} (h : Serving tools s) (q : Request) :
    Serving tools (s.serve tools q).after

/-- No version that the selector knows has build metadata. -/
structure Stripped (s : Selector) : Prop where
  installed : ∀ v ∈ s.installed, v.build = []
  available : ∀ v ∈ s.available, v.build = []

variable {tools} {pragmas} {s s' : Selector}

theorem mem_stripBuilds {versions : Versions} {v : Version} :
    v ∈ stripBuilds versions ↔ ∃ u ∈ versions, u.stripBuild = v := by
  unfold stripBuilds
  rw [Std.ExtTreeSet.mem_ofList, List.contains_iff_mem, List.mem_map]
  simp only [Std.ExtTreeSet.mem_toList]

theorem build_of_mem_stripBuilds {versions : Versions} {v : Version} (h : v ∈ stripBuilds versions) :
    v.build = [] := by
  obtain ⟨u, -, rfl⟩ := mem_stripBuilds.mp h
  rfl

theorem Stripped.probe (h : Stripped s) : Stripped (s.probe tools) := by
  unfold Selector.probe
  split
  · exact h
  · refine ⟨h.installed, fun v hv => ?_⟩
    dsimp only at hv
    split at hv
    · exact build_of_mem_stripBuilds hv
    · exact h.available v hv

/-- What is selected is among the versions that were offered. -/
theorem mem_of_selectVersion {constraint : Option Constraint} {installed available : Versions}
    {selection : Selection} (h : selectVersion constraint installed available = .ok selection) :
    (∃ v ∈ installed, selection = .installed v) ∨ ∃ v ∈ available, selection = .install v := by
  unfold selectVersion at h
  split at h
  · rename_i v hv
    cases h
    exact Or.inl ⟨v, (mem_of_max? hv).1, rfl⟩
  · split at h
    · rename_i v hv
      cases h
      exact Or.inr ⟨v, (mem_of_max? hv).1, rfl⟩
    · cases h

/-- Taking a version that was offered installs it, if anything. -/
theorem Stripped.obtain (h : Stripped s) {constraint : Option Constraint} {selection : Selection}
    (hselection : selectVersion constraint s.installed s.available = .ok selection) :
    Stripped (s.obtain tools selection).1 := by
  rcases mem_of_selectVersion hselection with ⟨v, -, rfl⟩ | ⟨v, hv, rfl⟩
  · exact h
  · simp only [Selector.obtain]
    split
    · refine ⟨fun u hu => ?_, h.available⟩
      rcases Std.ExtTreeSet.mem_insert.mp hu with heq | hu
      · rw [← Std.LawfulEqCmp.compare_eq_iff_eq.mp heq]
        exact h.available v hv
      · exact h.installed u hu
    · exact ⟨h.installed, h.available⟩

theorem Stripped.select (h : Stripped s) (file : SourceId) :
    Stripped (s.select tools pragmas file).1 := by
  unfold Selector.select
  dsimp only
  split
  · rename_i selection hselection
    -- nothing is offered for installation yet
    rcases mem_of_selectVersion hselection with ⟨v, -, rfl⟩ | ⟨v, hv, -⟩
    · exact h
    · simp at hv
  · split
    · exact h.probe.obtain ‹_›
    · exact h.probe

/-- **A selector in use knows only versions without build metadata.** -/
theorem Serving.stripped (h : Serving tools s) : Stripped s := by
  induction h with
  | start h =>
    unfold Selector.start at h
    cases hversions : tools.installed with
    | error e => rw [hversions] at h; cases h
    | ok versions =>
      rw [hversions] at h
      cases h
      exact ⟨fun v hv => build_of_mem_stripBuilds hv, fun v hv => by simp at hv⟩
  | serve _ q ih => exact ih.select q.file

theorem Stripped.selectAll (h : Stripped s) (files : List SourceId) :
    Stripped (s.selectAll tools pragmas files).1 := by
  induction files generalizing s with
  | nil => exact h
  | cons file files ih =>
    have hnext : Stripped (s.select tools pragmas file).1 := h.select file
    unfold Selector.selectAll
    generalize s.select tools pragmas file = selected at hnext
    obtain ⟨s₁, _ | v⟩ := selected
    · exact hnext
    · have hrest := ih hnext
      dsimp only at hrest ⊢
      generalize s₁.selectAll tools pragmas files = rest at hrest
      obtain ⟨s₂, _ | best⟩ := rest <;> exact hrest

/-- The version that was taken is installed. -/
theorem obtain_installed {constraint : Option Constraint} {selection : Selection} {v : Version}
    {available : Versions}
    (hselection : selectVersion constraint s.installed available = .ok selection)
    (h : s.obtain tools selection = (s', .ok v)) : v ∈ s'.installed := by
  rcases mem_of_selectVersion hselection with ⟨u, hu, rfl⟩ | ⟨u, -, rfl⟩
  · simp only [Selector.obtain, Prod.mk.injEq, Except.ok.injEq] at h
    obtain ⟨rfl, rfl⟩ := h
    exact hu
  · simp only [Selector.obtain] at h
    split at h
    · simp only [Prod.mk.injEq, Except.ok.injEq] at h
      obtain ⟨rfl, rfl⟩ := h
      exact Std.ExtTreeSet.mem_insert_self
    · simp at h

theorem select_installed {file : SourceId} {v : Version}
    (h : s.select tools pragmas file = (s', .ok v)) : v ∈ s'.installed := by
  unfold select at h
  dsimp only at h
  split at h
  · exact obtain_installed ‹_› h
  · split at h
    · exact obtain_installed ‹_› h
    · simp at h

/-- The versions that were selected are installed, and so is what was installed before. -/
theorem selectAll_installed {files : List SourceId} {best : Std.ExtTreeMap SourceId Version}
    (h : s.selectAll tools pragmas files = (s', .ok best)) :
    (∀ u ∈ s.installed, u ∈ s'.installed) ∧
      ∀ (file : SourceId) (v : Version), best[file]? = some v → v ∈ s'.installed := by
  induction files generalizing s s' best with
  | nil =>
    simp only [selectAll, Prod.mk.injEq, Except.ok.injEq] at h
    obtain ⟨rfl, rfl⟩ := h
    exact ⟨fun _ hu => hu, fun file v hv => by simp at hv⟩
  | cons file files ih =>
    unfold selectAll at h
    split at h
    · simp at h
    · rename_i s₁ v hselect
      split at h
      · simp at h
      · rename_i s₂ more hmore
        simp only [Prod.mk.injEq, Except.ok.injEq] at h
        obtain ⟨rfl, rfl⟩ := h
        obtain ⟨hkept, hrest⟩ := ih hmore
        refine ⟨fun u hu => hkept u ((select_best hselect).2 u hu), fun other u hu => ?_⟩
        rw [getElem?_insert_ite] at hu
        split at hu
        · cases hu
          exact hkept v (select_installed hselect)
        · exact hrest other u hu

end Selector

end SolPlan
