import SolPlan.Proofs.ImportGraph.Walk

/-!
# Walking again with the corrected table

A walk ends with a table to which its corrections are written. Walking again with that table finds
the same if each source of the project still has the statements that were noted for it, although
the first walk resolved some of them before a correction (`Settled`). Sources of known packages do
not matter, as they have tables of their own.

The two walks run in lockstep: at each moment the second is the first with the final table and
without corrections (`fixed`).

Results:
* `settled_of_corrections_nil`: a walk that has corrected nothing is settled;
* **`rewalk_iff`**: walking again finds the same, and corrects nothing, iff the first walk is
  settled.
-/

namespace SolPlan

/-- The imports of the source are resolved with the table of the project. -/
def OfProject (r : Registry) (id : SourceId) : Prop := (Project.packageOf? id).bind r.find? = none

variable {t : FileTree} {p : Project} {r : Registry}

/-- Whether a statement can be read does not depend on the table. -/
theorem Import.isOk_resolve (table table' : RemappingTable) (path : Path) (raw : Text) :
    (Import.resolve t p r table path raw).isOk = (Import.resolve t p r table' path raw).isOk := by
  unfold Import.resolve
  cases Import.ofStatement path raw <;> rfl

/-- No statement of the lines corrects the table. -/
def Quiet (t : FileTree) (p : Project) (r : Registry) (table : RemappingTable) (path : Path)
    (lines : List Text) : Prop :=
  ∀ raw ∈ lines, ∀ res, Import.resolve t p r table path raw = .ok res → res.correction = none

/-- The statements of lines that are all resolved with one table, after those that are done. -/
def resolvedWith (t : FileTree) (p : Project) (r : Registry) (table : RemappingTable) (path : Path)
    (lines : List Text) (done : List Import) : List Import :=
  lines.foldl (fun done raw =>
    match Import.resolve t p r table path raw with
    | .error _ => done
    | .ok res => res.statement.addTo done) done

/-- What is wrong with those lines that cannot be read. -/
def unreadable (t : FileTree) (p : Project) (r : Registry) (table : RemappingTable) (path : Path)
    (lines : List Text) : List Error :=
  lines.filterMap fun raw =>
    match Import.resolve t p r table path raw with
    | .error e => some e
    | .ok _ => none

/-- With the final table, no source of the project corrects it again, and each has the statements
that were noted for it. -/
def ImportGraph.Settled (t : FileTree) (p : Project) (r : Registry) (g : ImportGraph) : Prop :=
  ∀ id ∈ g.imports, OfProject r id → ∀ lines, ImportLines.ofFile t (p.pathOf id) = .ok lines →
    Quiet t p r g.remapping (p.pathOf id) lines ∧
      resolvedWith t p r g.remapping (p.pathOf id) lines [] = g.statementsOf id

namespace Walk

open ImportGraph

/-! ## Tables of packages -/

/-- Only known packages have tables. -/
def Known (r : Registry) (w : Walk) : Prop := ∀ package ∈ w.tables, (r.find? package).isSome = true

theorem known_ensureTable {w : Walk} (h : Known r w) (id : SourceId) (package : PackageId) :
    Known r (w.ensureTable p r id package) := by
  unfold ensureTable
  split
  · exact h
  · split
    · exact h
    · rename_i dependency hfind
      split
      · intro other hother
        rw [Std.ExtTreeMap.mem_insert, Std.LawfulEqCmp.compare_eq_iff_eq] at hother
        rcases hother with rfl | hother
        · rw [hfind]
          rfl
        · exact h other hother
      · exact h

theorem known_prepared {w : Walk} (h : Known r w) (id : SourceId) :
    Known r (prepared p r w id) := by
  unfold prepared
  split
  · exact known_ensureTable h id _
  · exact h

theorem known_correctMaybe {w : Walk} (h : Known r w) (package : Option PackageId)
    (c : Option Correction) : Known r (w.correctMaybe package c) := by
  cases c with
  | none => exact h
  | some c =>
    simp only [correctMaybe, correct]
    split
    · rename_i id table hcontext
      intro other hother
      rw [Std.ExtTreeMap.mem_insert, Std.LawfulEqCmp.compare_eq_iff_eq] at hother
      rcases hother with rfl | hother
      · unfold context? at hcontext
        obtain ⟨other, -, hother⟩ := Option.bind_eq_some_iff.mp hcontext
        obtain ⟨old, hold, heq⟩ := Option.map_eq_some_iff.mp hother
        cases heq
        exact h _ (Std.ExtTreeMap.mem_iff_isSome_getElem?.mpr (hold ▸ rfl))
      · exact h other hother
    · exact h

theorem known_resolveAll {id : SourceId} {path : Path} {package : Option PackageId}
    {lines : List Text} {w : Walk} (h : Known r w) (done : List Import) :
    Known r (resolveAll t p r id path package lines w done).1 := by
  induction lines generalizing w done with
  | nil => exact h
  | cons raw lines ih =>
    unfold resolveAll
    split
    · exact ih (w := w.record id _) h done
    · exact ih (known_correctMaybe h package _) _

theorem known_enter {w : Walk} (h : Known r w) (id : SourceId) (importer : Option SourceId) :
    Known r (w.enter t p r id importer).2 := by
  unfold enter
  split
  · cases hlines : ImportLines.ofFile t (p.pathOf id) with
    | error e =>
      rw [visit_error hlines]
      exact h
    | ok lines =>
      rw [visit_ok hlines]
      exact known_resolveAll (known_prepared h id) []
  · exact h

/-- A source of the project is resolved without a package's table. -/
theorem context?_of_ofProject {w : Walk} (h : Known r w) {id : SourceId} (hid : OfProject r id) :
    w.context? (Project.packageOf? id) = none := by
  unfold OfProject at hid
  unfold context?
  cases hpackage : Project.packageOf? id with
  | none => rfl
  | some package =>
    rw [hpackage, Option.bind_some] at hid
    rw [Option.bind_some, Option.map_eq_none_iff]
    cases htable : w.tables[package]? with
    | none => rfl
    | some table =>
      have hknown := h package (Std.ExtTreeMap.mem_iff_isSome_getElem?.mpr (htable ▸ rfl))
      rw [hid] at hknown
      cases hknown

/-- A source of a known package is resolved with the table of the package. -/
theorem isSome_context?_prepared {w : Walk} {id : SourceId} (hid : ¬ OfProject r id)
    (hclean : (prepared p r w id).graph.Clean) :
    ((prepared p r w id).context? (Project.packageOf? id)).isSome = true := by
  unfold OfProject at hid
  unfold prepared at hclean ⊢
  cases hpackage : Project.packageOf? id with
  | none => rw [hpackage] at hid; exact absurd rfl hid
  | some package =>
    rw [hpackage, Option.bind_some] at hid
    rw [hpackage] at hclean
    dsimp only at hclean ⊢
    rw [context?, Option.bind_some, Option.isSome_map, ← Std.ExtTreeMap.mem_iff_isSome_getElem?]
    unfold ensureTable at hclean ⊢
    split at hclean
    · rename_i hcontains
      rw [if_pos hcontains]
      exact Std.ExtTreeMap.contains_iff_mem.mp hcontains
    · rename_i hcontains
      rw [if_neg hcontains]
      cases hfind : r.find? package with
      | none => exact absurd hfind hid
      | some dependency =>
        rw [hfind] at hclean
        dsimp only at hclean ⊢
        split at hclean
        · exact Std.ExtTreeMap.mem_insert_self
        · exact absurd hclean (not_clean_record _ _ _)

/-! ## Resolving lines with one table -/

variable {id : SourceId} {path : Path} {package : Option PackageId}

/-- What is wrong with one line stays noted while the others are resolved. -/
theorem not_clean_resolveAll_record (lines : List Text) (w : Walk) (e : Error)
    (done : List Import) :
    ¬ (resolveAll t p r id path package lines (w.record id e) done).1.graph.Clean := fun h =>
  not_clean_record w.graph id e ((noted_resolveAll id path package lines _ done).clean h)

/-- If nothing is wrong after the lines were resolved, each of them can be read. -/
theorem isOk_of_clean {lines : List Text} {w : Walk} {done : List Import}
    (h : (resolveAll t p r id path package lines w done).1.graph.Clean) :
    ∀ raw ∈ lines, ∀ table, (Import.resolve t p r table path raw).isOk = true := by
  induction lines generalizing w done with
  | nil => exact fun _ h => absurd h List.not_mem_nil
  | cons raw lines ih =>
    unfold resolveAll at h
    split at h
    · exact absurd h (not_clean_resolveAll_record lines w _ done)
    · rename_i res hres
      intro other hother table
      rcases List.mem_cons.mp hother with rfl | hother
      · rw [Import.isOk_resolve table (w.tableFor package), hres]
        rfl
      · exact ih h other hother table

theorem tableFor_of_none {w : Walk} (h : w.context? package = none) :
    w.tableFor package = w.graph.remapping := by
  unfold tableFor
  rw [h]

/-- Lines that correct nothing are all resolved with one table, and leave only errors. -/
theorem resolveAll_of_quiet (id : SourceId) {table : RemappingTable} {lines : List Text} {w : Walk}
    (htable : w.tableFor package = table) (hquiet : Quiet t p r table path lines)
    (done : List Import) :
    resolveAll t p r id path package lines w done =
      ({ w with graph := w.graph.recordAll id (unreadable t p r table path lines) },
        resolvedWith t p r table path lines done) := by
  induction lines generalizing w done with
  | nil => rfl
  | cons raw lines ih =>
    have hrest := fun other h => hquiet other (List.mem_cons_of_mem raw h)
    unfold resolveAll resolvedWith unreadable
    rw [htable, List.foldl_cons, List.filterMap_cons]
    cases hres : Import.resolve t p r table path raw with
    | error e => exact ih (w := w.record id e) htable hrest done
    | ok res =>
      dsimp only
      rw [hquiet raw List.mem_cons_self res hres]
      exact ih htable hrest _

theorem unreadable_eq_nil {table : RemappingTable} {lines : List Text}
    (h : ∀ raw ∈ lines, (Import.resolve t p r table path raw).isOk = true) :
    unreadable t p r table path lines = [] := by
  refine List.filterMap_eq_nil_iff.mpr fun raw hraw => ?_
  have := h raw hraw
  split
  · rename_i e he
    rw [he] at this
    cases this
  · rfl

/-- Lines that can be read and correct nothing leave the walk as it is. -/
theorem resolveAll_of_quiet_of_ok (id : SourceId) {lines : List Text} {w : Walk}
    (hcontext : w.context? package = none)
    (hok : ∀ raw ∈ lines, (Import.resolve t p r w.graph.remapping path raw).isOk = true)
    (hquiet : Quiet t p r w.graph.remapping path lines) (done : List Import) :
    resolveAll t p r id path package lines w done =
      (w, resolvedWith t p r w.graph.remapping path lines done) := by
  rw [resolveAll_of_quiet id (tableFor_of_none hcontext) hquiet, unreadable_eq_nil hok]
  rfl

/-- Lines after which nothing was corrected have corrected nothing. -/
theorem quiet_of_corrections_nil {lines : List Text} {w : Walk} {done : List Import}
    (hcontext : w.context? package = none)
    (hnil : (resolveAll t p r id path package lines w done).1.graph.corrections = []) :
    Quiet t p r w.graph.remapping path lines := by
  induction lines generalizing w done with
  | nil => exact fun _ h => absurd h List.not_mem_nil
  | cons raw lines ih =>
    unfold resolveAll at hnil
    rw [tableFor_of_none hcontext] at hnil
    intro other hother res hres
    split at hnil
    · rename_i e he
      rcases List.mem_cons.mp hother with rfl | hother
      · rw [he] at hres
        cases hres
      · exact ih (w := w.record id e) hcontext hnil other hother res hres
    · rename_i res' hres'
      cases hcorrection : res'.correction with
      | none =>
        rw [hcorrection] at hnil
        rcases List.mem_cons.mp hother with rfl | hother
        · rw [hres'] at hres
          cases hres
          exact hcorrection
        · exact ih hcontext hnil other hother res hres
      | some c =>
        -- a correction stays among the corrections
        rw [hcorrection] at hnil
        obtain ⟨l, hl, -⟩ := (noted_resolveAll (t := t) (p := p) (r := r) id path package lines
          (w.correctMaybe package (some c)) (res'.statement.addTo done)).corrects
        rw [hnil] at hl
        simp [correctMaybe, correct, hcontext] at hl

/-! ## Lockstep -/

/-- The walk with a table that stays, and without corrections. -/
def fixed (table : RemappingTable) (w : Walk) : Walk :=
  { w with graph := { w.graph with remapping := table, corrections := [] } }

variable {table : RemappingTable}

/-- For the project, only the table and the corrections change while lines are resolved. -/
theorem fixed_resolveAll (table : RemappingTable) {lines : List Text} {w : Walk} {done : List Import}
    (hcontext : w.context? package = none)
    (hclean : (resolveAll t p r id path package lines w done).1.graph.Clean) :
    (resolveAll t p r id path package lines w done).1.fixed table = w.fixed table := by
  induction lines generalizing w done with
  | nil => rfl
  | cons raw lines ih =>
    unfold resolveAll at hclean ⊢
    split at hclean
    · exact absurd hclean (not_clean_resolveAll_record lines w _ done)
    · rename_i res hres
      cases hcorrection : res.correction with
      | none =>
        rw [hcorrection] at hclean
        exact ih hcontext hclean
      | some c =>
        rw [hcorrection] at hclean
        have hsame : (w.correctMaybe package (some c)).fixed table = w.fixed table := by
          simp only [correctMaybe, correct, hcontext]
          rfl
        have hcontext' : (w.correctMaybe package (some c)).context? package = none := by
          simp only [correctMaybe, correct, hcontext]
          exact hcontext
        rw [ih hcontext' hclean, hsame]

theorem correctMaybe_fixed (table : RemappingTable) {w : Walk} (h : (w.context? package).isSome = true)
    (c : Option Correction) :
    (w.fixed table).correctMaybe package c = (w.correctMaybe package c).fixed table ∧
      ((w.correctMaybe package c).context? package).isSome = true := by
  cases c with
  | none => exact ⟨rfl, h⟩
  | some c =>
    obtain ⟨⟨id, old⟩, hcontext⟩ := Option.isSome_iff_exists.mp h
    have hfixed : (w.fixed table).context? package = some (id, old) := hcontext
    simp only [correctMaybe, correct, hcontext, hfixed]
    refine ⟨rfl, ?_⟩
    unfold context? at hcontext ⊢
    obtain ⟨id', rfl, hid⟩ := Option.bind_eq_some_iff.mp hcontext
    obtain ⟨old', hold, heq⟩ := Option.map_eq_some_iff.mp hid
    cases heq
    simp

/-- With the table of a package, the table of the project does not matter. -/
theorem resolveAll_fixed {lines : List Text} {w : Walk} (h : (w.context? package).isSome = true)
    (done : List Import) :
    resolveAll t p r id path package lines (w.fixed table) done =
      ((resolveAll t p r id path package lines w done).1.fixed table,
        (resolveAll t p r id path package lines w done).2) := by
  induction lines generalizing w done with
  | nil => rfl
  | cons raw lines ih =>
    have htable : (w.fixed table).tableFor package = w.tableFor package := by
      obtain ⟨⟨id, old⟩, hcontext⟩ := Option.isSome_iff_exists.mp h
      have hfixed : (w.fixed table).context? package = some (id, old) := hcontext
      unfold tableFor
      rw [hcontext, hfixed]
    unfold resolveAll
    rw [htable]
    split
    · exact ih (w := w.record id _) h done
    · rename_i res hres
      obtain ⟨hfixed, hsome⟩ := correctMaybe_fixed table h res.correction
      rw [hfixed]
      exact ih hsome _

/-- A prepared walk is prepared in the same way. -/
theorem prepared_fixed (w : Walk) (id : SourceId) :
    prepared p r (w.fixed table) id = (prepared p r w id).fixed table := by
  unfold prepared
  cases Project.packageOf? id with
  | none => rfl
  | some package =>
    dsimp only
    unfold ensureTable
    have htables : (w.fixed table).tables = w.tables := rfl
    rw [htables]
    split
    · rfl
    · split
      · rfl
      · split <;> rfl

variable {g : ImportGraph}

/-- A source is visited in the same way. -/
theorem visit_fixed {w : Walk} (hknown : Known r w) (hsettled : g.Settled t p r)
    (hclean : g.Clean)
    (hgrows : Grows ((w.visit t p r id).1.enterWith id (w.visit t p r id).2).graph g) :
    (w.fixed g.remapping).visit t p r id =
      ((w.visit t p r id).1.fixed g.remapping, (w.visit t p r id).2) := by
  have hmem : id ∈ ((w.visit t p r id).1.enterWith id (w.visit t p r id).2).graph.imports :=
    Std.ExtTreeMap.mem_insert_self
  cases hlines : ImportLines.ofFile t (p.pathOf id) with
  | error e =>
    rw [visit_error hlines] at hgrows
    exact absurd (hgrows.clean hclean) (not_clean_record _ _ _)
  | ok lines =>
    have hstatements := hgrows.statements id hmem
    have hid := hgrows.mem hmem
    have hcleanAll := hgrows.clean hclean
    rw [visit_ok hlines] at hstatements hcleanAll
    have hcleanAll : (resolveAll t p r id (p.pathOf id) (Project.packageOf? id) lines
      (prepared p r w id) []).1.graph.Clean := hcleanAll
    rw [visit_ok hlines, visit_ok hlines, prepared_fixed]
    dsimp only
    by_cases hproject : OfProject r id
    · have hcontext := context?_of_ofProject (known_prepared (p := p) hknown id) hproject
      have hok := isOk_of_clean hcleanAll
      obtain ⟨hquiet, hsame⟩ := hsettled id hid hproject lines hlines
      have hnoted : g.statementsOf id = (resolveAll t p r id (p.pathOf id)
          (Project.packageOf? id) lines (prepared p r w id) []).2 := by
        unfold statementsOf
        rw [hstatements]
        simp [enterWith, noteStatements]
      have hfixed : ((prepared p r w id).fixed g.remapping).context? (Project.packageOf? id) = none :=
        hcontext
      have hall := resolveAll_of_quiet_of_ok id hfixed (fun raw h => hok raw h _) hquiet []
      have hsame' : resolvedWith t p r ((prepared p r w id).fixed g.remapping).graph.remapping
          (p.pathOf id) lines [] = g.statementsOf id := hsame
      rw [hall, hsame', hnoted]
      have hlast := fixed_resolveAll g.remapping hcontext hcleanAll
      dsimp only
      rw [← hlast]
      rfl
    · have hcleanPrepared := (noted_resolveAll id (p.pathOf id) (Project.packageOf? id) lines
        (prepared p r w id) []).clean hcleanAll
      rw [resolveAll_fixed (isSome_context?_prepared hproject hcleanPrepared)]
      rfl

/-- A source is entered in the same way. -/
theorem enter_fixed {w : Walk} {importer : Option SourceId} (hknown : Known r w)
    (hsettled : g.Settled t p r) (hclean : g.Clean)
    (hgrows : Grows (w.enter t p r id importer).2.graph g) :
    (w.fixed g.remapping).enter t p r id importer =
      ((w.enter t p r id importer).1, (w.enter t p r id importer).2.fixed g.remapping) := by
  obtain ⟨hfile, henter⟩ := enter_of_clean (hgrows.clean hclean)
  rw [henter] at hgrows ⊢
  have hvisit := visit_fixed hknown hsettled hclean hgrows
  unfold enter
  rw [if_pos (show t.isFile (p.pathOf id) ∧ id ∈ (w.fixed g.remapping).unread from hfile), hvisit]
  rfl

theorem follow_fixed {w : Walk} {stack : List Frame} (hknown : Known r w)
    (hsettled : g.Settled t p r) (hclean : g.Clean)
    (hgrows : Grows (w.follow t p r stack).graph g) :
    (w.fixed g.remapping).follow t p r stack = (w.follow t p r stack).fixed g.remapping := by
  fun_induction w.follow t p r stack with
  | case1 => rw [follow]
  | case2 _ _ _ ih =>
    rw [follow]
    exact ih hknown hgrows
  | case3 w id next pending stack _ hcycle ih =>
    rw [follow]
    dsimp only
    rw [if_pos hcycle]
    exact ih hknown hgrows
  | case4 w id next pending stack _ hcycle hnext ih =>
    have hnext' : (w.fixed g.remapping).graph.contains next = true := hnext
    rw [follow]
    dsimp only
    rw [if_neg hcycle, if_pos hnext']
    exact ih hknown hgrows
  | case5 w id next pending stack _ hcycle hnext entered ih =>
    have hnext' : ¬ (w.fixed g.remapping).graph.contains next = true := hnext
    have henter := enter_fixed hknown hsettled hclean ((grows_follow _ _).trans hgrows)
    rw [follow]
    dsimp only
    rw [if_neg hcycle, if_neg hnext', henter]
    exact ih (known_enter hknown next (some id)) hgrows

theorem known_walkFrom {w : Walk} (h : Known r w) (entry : SourceId) :
    Known r (w.walkFrom t p r entry) :=
  walkFrom_induction (P := Known r) (fun _ h => h)
    (fun _ id importer _ h => known_enter h id importer) w entry h

theorem foldl_walkFrom_fixed {entries : List SourceId} {w : Walk} (hknown : Known r w)
    (hsettled : g.Settled t p r) (hclean : g.Clean)
    (hgrows : Grows (entries.foldl (walkFrom t p r) w).graph g) :
    entries.foldl (walkFrom t p r) (w.fixed g.remapping) =
      (entries.foldl (walkFrom t p r) w).fixed g.remapping := by
  induction entries generalizing w with
  | nil => rfl
  | cons entry entries ih =>
    rw [List.foldl_cons] at hgrows ⊢
    have hstep : (w.fixed g.remapping).walkFrom t p r entry =
        (w.walkFrom t p r entry).fixed g.remapping := by
      have hfirst := (grows_foldl_walkFrom entries (w.walkFrom t p r entry)).trans hgrows
      unfold walkFrom at hfirst ⊢
      have hcontains : (w.fixed g.remapping).graph.contains entry = w.graph.contains entry := rfl
      rw [hcontains]
      split at hfirst
      · rename_i hentry
        rw [if_pos hentry, if_pos hentry]
      · rename_i hentry
        rw [if_neg hentry, if_neg hentry,
          enter_fixed hknown hsettled hclean ((grows_follow _ _).trans hfirst)]
        exact follow_fixed (known_enter hknown entry none) hsettled hclean hfirst
    rw [hstep]
    exact ih (known_walkFrom hknown entry) hgrows

end Walk

namespace ImportGraph

open Walk

variable {table : RemappingTable} {entries : List SourceId}

theorem remapping_of_corrects {g : ImportGraph} (h : Corrects (start table) g)
    (hnil : g.corrections = []) : g.remapping = table := by
  obtain ⟨l, hl, hr⟩ := h
  rw [hnil] at hl
  obtain ⟨-, rfl⟩ := List.append_eq_nil_iff.mp hl.symm
  exact hr

/-- As long as a walk has corrected nothing, all sources of the project were resolved with its
first table. -/
structure Uncorrected (t : FileTree) (p : Project) (r : Registry) (table : RemappingTable)
    (w : Walk) : Prop where
  known : Known r w
  corrects : Corrects (start table) w.graph
  resolved : w.graph.Clean → w.graph.corrections = [] → ∀ id ∈ w.graph.imports, OfProject r id →
    ∀ lines, ImportLines.ofFile t (p.pathOf id) = .ok lines →
      Quiet t p r table (p.pathOf id) lines ∧
        resolvedWith t p r table (p.pathOf id) lines [] = w.graph.statementsOf id

theorem uncorrected_enter {w : Walk} {id : SourceId} (importer : Option SourceId)
    (hid : id ∉ w.graph.imports) (h : Uncorrected t p r table w) :
    Uncorrected t p r table (w.enter t p r id importer).2 := by
  have hgrows := grows_enter (t := t) (p := p) (r := r) w importer hid
  refine ⟨known_enter h.known id importer, h.corrects.trans hgrows.corrects,
    fun hclean hnil a ha hproject lines hlines => ?_⟩
  obtain ⟨s, -, himports⟩ := w.enter_spec (t := t) (p := p) (r := r) id importer
  rw [himports, Std.ExtTreeMap.mem_insert, Std.LawfulEqCmp.compare_eq_iff_eq] at ha
  rcases ha with rfl | ha
  · have henter := (enter_of_clean hclean).2
    rw [henter, visit_ok hlines] at hclean hnil ⊢
    have hclean : (resolveAll t p r id (p.pathOf id) (Project.packageOf? id) lines
      (prepared p r w id) []).1.graph.Clean := hclean
    have hcontext := context?_of_ofProject (known_prepared (p := p) h.known id) hproject
    have hquiet := quiet_of_corrections_nil hcontext hnil
    have hok := isOk_of_clean hclean
    have hprepared : (prepared p r w id).graph.remapping = table := by
      refine remapping_of_corrects (h.corrects.trans (noted_prepared w id).corrects) ?_
      obtain ⟨l, hl, -⟩ := (noted_resolveAll (t := t) (p := p) (r := r) id (p.pathOf id)
        (Project.packageOf? id) lines (prepared p r w id) []).corrects
      exact (List.append_eq_nil_iff.mp (hl.symm.trans hnil)).1
    have hall := resolveAll_of_quiet_of_ok id hcontext (fun raw h => hok raw h _) hquiet []
    rw [hall, ← hprepared]
    refine ⟨hquiet, ?_⟩
    simp [statementsOf, enterWith, noteStatements]
  · have hold := h.resolved (hgrows.clean hclean) (hgrows.corrections_nil hnil) a ha hproject lines
      hlines
    unfold statementsOf at hold ⊢
    rwa [hgrows.statements a ha]

/-- A walk that has corrected nothing is settled. -/
theorem settled_of_corrections_nil (hclean : (walk t p r table entries).Clean)
    (hnil : (walk t p r table entries).corrections = []) :
    (walk t p r table entries).Settled t p r := by
  have hstart : Uncorrected t p r table ⟨start table, ∅, enterable t p entries⟩ :=
    ⟨fun _ hmem => by simp at hmem, Corrects.refl _, fun _ _ _ hmem => by simp [start] at hmem⟩
  have h := foldl_walkFrom_induction (t := t) (p := p) (r := r)
    (P := Uncorrected t p r table) (fun w h => ⟨h.known, h.corrects, h.resolved⟩)
    (fun w id importer hid h => uncorrected_enter importer hid h) entries _ hstart
  have hremapping : (walk t p r table entries).remapping = table :=
    remapping_of_corrects h.corrects hnil
  unfold Settled
  rw [hremapping]
  exact h.resolved hclean hnil

/-- **Walking again finds the same iff the walk is settled.** -/
theorem rewalk_iff (hclean : (walk t p r table entries).Clean) :
    walk t p r (walk t p r table entries).remapping entries =
        { walk t p r table entries with corrections := [] } ↔
      (walk t p r table entries).Settled t p r := by
  constructor
  · intro h
    have hclean' : (walk t p r (walk t p r table entries).remapping entries).Clean := by
      rw [h]
      exact hclean
    have hsettled := settled_of_corrections_nil hclean' (by rw [h])
    rw [h] at hsettled
    exact hsettled
  · intro h
    have hstart : Known r ⟨start table, ∅, enterable t p entries⟩ := fun _ hmem => by simp at hmem
    have := foldl_walkFrom_fixed hstart h hclean (Grows.refl _)
    exact congrArg Walk.graph this

end ImportGraph

end SolPlan
