import SolPlan.Proofs.ImportGraph.Rewalk
import SolPlan.Proofs.ImportGraph.Statements
import SolPlan.Proofs.Remapping.Correction

/-!
# Walks from several entries

As long as nothing is corrected, the table that counts for a source is always the same (`home`):
that of the package in whose cache folder it lies, or that of the project. So what is found when a
source is entered does not depend on when that is, or on what was entered before (`Findings.of`).
All that the entries decide is which sources are entered, namely those that they reach along imports
(`mem_walk_iff_of_steady`).

The walk from some of the entries enters less, so nothing is corrected there either.

Results:
* `steady_of_correctsNothing`: a walk that corrects nothing finds of each source what is to be
  found;
* `steady_walk`: so does the walk from some of its entries;
* **`walk_append`**: the graph of a walk from several entries is the union of the graphs of the
  walks from each of them, and does not depend on their order.
-/

namespace SolPlan

/-- The error, whoever imports the source that is missing. -/
def Error.withoutImporter : Error → Error
  | .missingSource source _ => .missingSource source none
  | e => e

/-- What a graph holds of a source, whoever imports it. -/
structure Findings where
  imports : Option SourceSet
  statements : Option (List Import)
  errors : List Error

/-- What a graph holds of a source that was not entered. -/
def Findings.nothing : Findings := ⟨none, none, []⟩

/-- What the graph holds of a source. -/
def ImportGraph.findings (g : ImportGraph) (id : SourceId) : Findings :=
  ⟨g.imports[id]?, g.statements[id]?, (g.errorsOf id).map Error.withoutImporter⟩

/-- The table that counts for a source while nothing is corrected, and what is wrong with the table
that its package should have. -/
def home (p : Project) (r : Registry) (table : RemappingTable) (id : SourceId) :
    RemappingTable × List Error :=
  match (Project.packageOf? id).bind r.find? with
  | none => (table, [])
  | some dependency =>
    match RemappingTable.ofDependency p dependency with
    | .ok own => (own, [])
    | .error e => (table, [e])

/-- What is found when a source is entered while nothing is corrected. -/
def Findings.of (t : FileTree) (p : Project) (r : Registry) (table : RemappingTable)
    (id : SourceId) : Findings :=
  if t.isFile (p.pathOf id) then
    match ImportLines.ofFile t (p.pathOf id) with
    | .error e => ⟨some ∅, none, [e.withoutImporter]⟩
    | .ok lines =>
      let (own, errors) := home p r table id
      let imports := resolvedWith t p r own (p.pathOf id) lines []
      ⟨some (Walk.targets imports), some imports,
        (errors ++ unreadable t p r own (p.pathOf id) lines).map Error.withoutImporter⟩
  else ⟨some ∅, none, [.missingSource id.text none]⟩

/-- No statement of the source is corrected. -/
def QuietSource (t : FileTree) (p : Project) (r : Registry) (table : RemappingTable)
    (id : SourceId) : Prop :=
  ∀ lines, ImportLines.ofFile t (p.pathOf id) = .ok lines →
    Quiet t p r (home p r table id).1 (p.pathOf id) lines

variable {t : FileTree} {p : Project} {r : Registry} {table : RemappingTable} {id : SourceId}

namespace ImportGraph

variable {g g' : ImportGraph}

/-- What is noted for a source that was not there is all that the graph holds of it. -/
theorem findings_of_insert {imports : SourceSet} {statements : Option (List Import)}
    {errors : List Error} (hnothing : g.findings id = Findings.nothing)
    (himports : g'.imports = g.imports.insert id imports)
    (hstatements : ∀ a, g'.statements[a]? = if a = id then statements else g.statements[a]?)
    (herrors : ∀ a, g'.errorsOf a = if a = id then g.errorsOf id ++ errors else g.errorsOf a)
    (a : SourceId) :
    g'.findings a = if a = id then ⟨some imports, statements, errors.map Error.withoutImporter⟩
      else g.findings a := by
  have hclean : g.errorsOf id = [] := List.map_eq_nil_iff.mp (congrArg Findings.errors hnothing)
  unfold findings
  rw [himports, getElem?_insert_ite, hstatements, herrors, hclean, List.nil_append]
  split <;> rfl

/-- The graph holds of each source that was entered what is to be found. -/
def Steady (t : FileTree) (p : Project) (r : Registry) (table : RemappingTable)
    (g : ImportGraph) : Prop :=
  ∀ id, (id ∈ g.imports → g.findings id = Findings.of t p r table id) ∧
    (id ∉ g.imports → g.findings id = Findings.nothing)

end ImportGraph

namespace Walk

open ImportGraph

variable {w : Walk}

/-! ## Entering a source while nothing is corrected -/

/-- The tables of packages are those that they have at first. -/
def OwnTables (p : Project) (r : Registry)
    (tables : Std.ExtTreeMap PackageId RemappingTable) : Prop :=
  ∀ package own, tables[package]? = some own →
    ∃ dependency, r.find? package = some dependency ∧
      RemappingTable.ofDependency p dependency = .ok own

theorem OwnTables.insert {tables : Std.ExtTreeMap PackageId RemappingTable} {package : PackageId}
    {dependency : Dependency} {own : RemappingTable} (h : OwnTables p r tables)
    (hfind : r.find? package = some dependency)
    (hown : RemappingTable.ofDependency p dependency = .ok own) :
    OwnTables p r (tables.insert package own) := fun other table htable => by
  rw [getElem?_insert_ite] at htable
  split at htable
  · rename_i hother
    cases htable
    exact ⟨dependency, hother ▸ hfind, hown⟩
  · exact h other table htable

/-- The walk is prepared for a source with the table that counts for it. -/
theorem prepared_spec (h : OwnTables p r w.tables) (id : SourceId) :
    (prepared p r w id).graph = w.graph.recordAll id (home p r w.graph.remapping id).2 ∧
      OwnTables p r (prepared p r w id).tables ∧
      (prepared p r w id).tableFor (Project.packageOf? id) = (home p r w.graph.remapping id).1 := by
  unfold prepared home tableFor context?
  cases hpackage : Project.packageOf? id with
  | none => exact ⟨rfl, h, rfl⟩
  | some package =>
    dsimp only [Option.bind_some]
    unfold ensureTable
    cases htable : w.tables[package]? with
    | some own =>
      obtain ⟨dependency, hfind, hown⟩ := h package own htable
      have hcontains : w.tables.contains package = true :=
        Std.ExtTreeMap.contains_iff_mem.mpr
          (Std.ExtTreeMap.mem_iff_isSome_getElem?.mpr (htable ▸ rfl))
      rw [if_pos hcontains, htable, hfind]
      dsimp only
      rw [hown]
      exact ⟨rfl, h, rfl⟩
    | none =>
      have hcontains : ¬ w.tables.contains package = true := fun hmem => by
        have hmem := Std.ExtTreeMap.contains_iff_mem.mp hmem
        rw [Std.ExtTreeMap.mem_iff_isSome_getElem?, htable] at hmem
        cases hmem
      rw [if_neg hcontains]
      cases hfind : r.find? package with
      | none =>
        dsimp only
        rw [htable]
        exact ⟨rfl, h, rfl⟩
      | some dependency =>
        dsimp only
        cases hown : RemappingTable.ofDependency p dependency with
        | ok own =>
          dsimp only
          rw [Std.ExtTreeMap.getElem?_insert_self]
          exact ⟨rfl, h.insert hfind hown, rfl⟩
        | error e =>
          refine ⟨rfl, h, ?_⟩
          dsimp only [record]
          rw [htable]
          rfl

/-- Noting what is wrong changes no table. -/
theorem tableFor_recordAll (w : Walk) (id : SourceId) (errors : List Error)
    (package : Option PackageId) :
    ({ w with graph := w.graph.recordAll id errors } : Walk).tableFor package =
      w.tableFor package := by
  unfold tableFor context?
  dsimp only
  rw [remapping_recordAll]

/-- Nothing was corrected so far, and all that is to be found was found. -/
structure Steady (t : FileTree) (p : Project) (r : Registry) (table : RemappingTable)
    (w : Walk) : Prop where
  remapping : w.graph.remapping = table
  tables : OwnTables p r w.tables
  found : w.graph.Steady t p r table

theorem steady_start (t : FileTree) (p : Project) (r : Registry) (table : RemappingTable)
    (entries : List SourceId) : Steady t p r table (Loop.start t p table entries).walk where
  remapping := rfl
  tables package own h := by simp [Loop.start] at h
  found id := by
    refine ⟨fun hid => ?_, fun _ => ?_⟩
    · simp [Loop.start, ImportGraph.start] at hid
    · simp [Loop.start, ImportGraph.start, ImportGraph.findings, ImportGraph.errorsOf,
        Findings.nothing]

theorem Steady.countCycle (h : Steady t p r table w) : Steady t p r table w.countCycle :=
  ⟨h.remapping, h.tables, h.found⟩

/-- One source more, of which all that is to be found is noted. -/
theorem Steady.of_insert {w' : Walk} (h : Steady t p r table w) (hid : id ∉ w.graph.imports)
    (imports : SourceSet) (statements : Option (List Import)) (errors : List Error)
    (hremapping : w'.graph.remapping = w.graph.remapping) (htables : OwnTables p r w'.tables)
    (himports : w'.graph.imports = w.graph.imports.insert id imports)
    (hstatements : ∀ a, w'.graph.statements[a]? =
      if a = id then statements else w.graph.statements[a]?)
    (herrors : ∀ a, w'.graph.errorsOf a =
      if a = id then w.graph.errorsOf id ++ errors else w.graph.errorsOf a)
    (hof : Findings.of t p r table id =
      ⟨some imports, statements, errors.map Error.withoutImporter⟩) :
    Steady t p r table w' := by
  have hfindings := findings_of_insert ((h.found id).2 hid) himports hstatements herrors
  have hmem : ∀ a, a ∈ w'.graph.imports ↔ a = id ∨ a ∈ w.graph.imports := fun a => by
    rw [himports, Std.ExtTreeMap.mem_insert, Std.LawfulEqCmp.compare_eq_iff_eq, eq_comm]
  refine ⟨hremapping.trans h.remapping, htables, fun a => ?_⟩
  rw [hfindings a, hmem]
  by_cases ha : a = id
  · subst ha
    rw [if_pos rfl, hof]
    exact ⟨fun _ => rfl, fun hnew => absurd (Or.inl rfl) hnew⟩
  · rw [if_neg ha]
    exact ⟨fun hold => (h.found a).1 (hold.resolve_left ha),
      fun hnew => (h.found a).2 fun hold => hnew (Or.inr hold)⟩

/-- **A source of which nothing is corrected brings what is to be found.** -/
theorem Steady.enterFreely (h : Steady t p r table w) (hid : id ∉ w.graph.imports)
    (hquiet : QuietSource t p r table id) (importer : Option SourceId) :
    Steady t p r table (w.enterFreely t p r id importer).2 := by
  -- without a line of its own, a source has no imports, and its statements are not noted
  have hunread : ∀ e : Error, Findings.of t p r table id = ⟨some ∅, none, [e.withoutImporter]⟩ →
      ∀ unread, Steady t p r table { (w.record id e).enterWith id ∅ with unread } := fun e hof _ =>
    h.of_insert hid ∅ none [e] rfl h.tables rfl
      (fun a => by
        have hnone := congrArg Findings.statements ((h.found id).2 hid)
        split
        · rename_i ha
          exact ha ▸ hnone
        · rfl)
      (fun a => errorsOf_record w.graph id a e) hof
  unfold Walk.enterFreely
  split
  · rename_i hfile
    cases hlines : ImportLines.ofFile t (p.pathOf id) with
    | error e =>
      rw [visit_error hlines]
      refine hunread e ?_ _
      unfold Findings.of
      rw [if_pos hfile, hlines]
    | ok lines =>
      obtain ⟨hgraph, htables, htable⟩ := prepared_spec h.tables id
      rw [h.remapping] at hgraph htable
      rw [visit_ok hlines, resolveAll_of_quiet id htable (hquiet lines hlines), hgraph]
      generalize himports :
        resolvedWith t p r (home p r table id).1 (p.pathOf id) lines [] = imports
      refine h.of_insert hid (targets imports) (some imports) ((home p r table id).2 ++
        unreadable t p r (home p r table id).1 (p.pathOf id) lines)
        ?_ htables ?_ (fun a => ?_) (fun a => ?_) ?_
      · exact (remapping_recordAll _ _ _).trans (remapping_recordAll _ _ _)
      · change (((w.graph.recordAll id _).recordAll id _).imports.insert id (targets imports)) = _
        rw [imports_recordAll, imports_recordAll]
      · refine getElem?_insert_ite.trans ?_
        rw [statements_recordAll, statements_recordAll]
      · refine (errorsOf_recordAll _ _ _ _).trans ?_
        rw [errorsOf_recordAll, errorsOf_recordAll, if_pos rfl, List.append_assoc]
        split <;> rfl
      · unfold Findings.of
        rw [if_pos hfile, hlines, ← himports]
  · rename_i hfile
    refine hunread _ ?_ w.unread
    unfold Findings.of
    rw [if_neg hfile]
    rfl

/-! ## Walks that correct nothing -/

/-- No statement is corrected when its turn has come in the walk from the entries. -/
def CorrectsNothing (t : FileTree) (p : Project) (r : Registry) (table : RemappingTable)
    (entries : List SourceId) : Prop :=
  ∀ s id importer, Loop.Runs t p r (Loop.start t p table entries) s →
    Loop.Enters t p r s id importer →
    ∀ lines, ImportLines.ofFile t (p.pathOf id) = .ok lines →
      ∀ before raw after, lines = before ++ raw :: after → ∀ res,
        Import.resolve t p r (tableAfter t p r s.walk id before) (p.pathOf id) raw = .ok res →
          res.correction = none

/-- Only remappings of known packages that have a source folder of their own are corrected. -/
theorem correctsNothing_of_contractsName {entries : List SourceId}
    (h : ∀ package d, r.find? package = some d → d.package.contractsName = []) :
    CorrectsNothing t p r table entries := by
  intro s id importer _ _ lines _ before raw after _ res hres
  cases hcorrection : res.correction with
  | none => rfl
  | some c =>
    obtain ⟨-, -, place, d, -, -, hfind, hfolder, -⟩ :=
      Import.correction_of_resolve hres hcorrection
    exact absurd (h place.package d hfind) hfolder

theorem correctsNothing_of_find?_none {entries : List SourceId} (h : ∀ id, r.find? id = none) :
    CorrectsNothing t p r table entries :=
  correctsNothing_of_contractsName fun package d hfind => by
    rw [h package] at hfind
    cases hfind

/-- The table stays while nothing is corrected. -/
theorem Steady.tableAfter_eq (h : Steady t p r table w) {before : List Text}
    (hquiet : Quiet t p r (home p r table id).1 (p.pathOf id) before) :
    tableAfter t p r w id before = (home p r table id).1 := by
  obtain ⟨-, -, htable⟩ := prepared_spec h.tables id
  rw [h.remapping] at htable
  unfold tableAfter resolved
  rw [resolveAll_of_quiet id htable hquiet, tableFor_recordAll, htable]

/-- The source that is entered next is not corrected. -/
theorem CorrectsNothing.quietSource {entries : List SourceId} {s : Loop}
    {importer : Option SourceId} (h : CorrectsNothing t p r table entries)
    (hruns : Loop.Runs t p r (Loop.start t p table entries) s)
    (henters : Loop.Enters t p r s id importer) (hs : Steady t p r table s.walk) :
    QuietSource t p r table id := by
  intro lines hlines
  -- Line by line: what comes before a line is quiet, so the table is still the same.
  have hfront : ∀ front back, lines = front ++ back →
      Quiet t p r (home p r table id).1 (p.pathOf id) front := fun front => by
    induction front using List.reverseRecOn with
    | nil => exact fun _ _ _ h => absurd h List.not_mem_nil
    | append_singleton front raw ih =>
      intro back hsplit other hother res hres
      rw [List.append_assoc, List.singleton_append] at hsplit
      have hquiet := ih _ hsplit
      rcases List.mem_append.mp hother with hother | hother
      · exact hquiet other hother res hres
      · rw [List.mem_singleton.mp hother, ← hs.tableAfter_eq hquiet] at hres
        exact h s id importer hruns henters lines hlines front raw back hsplit res hres
  exact hfront lines [] (List.append_nil lines).symm

/-- **A walk that corrects nothing finds what is to be found**, at each moment. -/
theorem steady_of_correctsNothing {entries : List SourceId} {s : Loop}
    (h : CorrectsNothing t p r table entries)
    (hruns : Loop.Runs t p r (Loop.start t p table entries) s) : Steady t p r table s.walk := by
  induction hruns with
  | refl => exact steady_start t p r table entries
  | @tail s s' hruns hstep ih =>
    rcases Loop.step?_cases hstep with ⟨-, hwalk | hwalk⟩ | ⟨id, importer, hid, hentered, hwalk⟩
    · exact hwalk ▸ ih
    · exact hwalk ▸ ih.countCycle
    · rw [hwalk]
      exact ih.enterFreely hid (h.quietSource hruns ⟨hid, s', hstep, hentered, hwalk⟩ ih) importer

/-! ## Walks from some of the entries -/

namespace Loop

/-- The source waits to be looked at. -/
def Waits (s : Loop) (id : SourceId) : Prop := id ∈ s.entries ∨ ∃ f ∈ s.stack, id ∈ f.pending

/-- A turn enters what has waited, and then its imports wait. -/
theorem step?_waits {s s' : Loop} (h : step? t p r s = some s') :
    ((s'.walk = s.walk ∨ s'.walk = s.walk.countCycle) ∧ ∀ b, s'.Waits b → s.Waits b) ∨
      ∃ id importer, s.Waits id ∧ id ∉ s.walk.graph.imports ∧
        s'.walk = (s.walk.enterFreely t p r id importer).2 ∧
        ∀ b, s'.Waits b → s.Waits b ∨ b ∈ (s.walk.enterFreely t p r id importer).1.pending := by
  have hnew : ∀ {id}, ¬ s.walk.graph.contains id = true → id ∉ s.walk.graph.imports :=
    fun h hmem => h (Std.ExtTreeMap.contains_iff_mem.mpr hmem)
  obtain ⟨walk, stack, entries, entered⟩ := s
  unfold step? at h
  dsimp only at h hnew ⊢
  split at h
  · cases h
  · rename_i entry entries
    have hrest : ∀ b, b ∈ entries → Waits ⟨walk, [], entry :: entries, entered⟩ b := fun b hb =>
      Or.inl (List.mem_cons_of_mem _ hb)
    cases h
    split
    · refine Or.inl ⟨Or.inl rfl, fun b hb => ?_⟩
      rcases hb with hb | ⟨f, hf, -⟩
      · exact hrest b hb
      · exact absurd hf List.not_mem_nil
    · refine Or.inr ⟨entry, none, Or.inl List.mem_cons_self, hnew ‹_›, rfl, fun b hb => ?_⟩
      rcases hb with hb | ⟨f, hf, hb⟩
      · exact Or.inl (hrest b hb)
      · rw [List.mem_singleton.mp hf] at hb
        exact Or.inr hb
  · rename_i id stack _
    cases h
    refine Or.inl ⟨Or.inl rfl, fun b hb => hb.imp_right ?_⟩
    exact fun ⟨f, hf, hb⟩ => ⟨f, List.mem_cons_of_mem _ hf, hb⟩
  · rename_i id next pending stack
    have hstack : ∀ f ∈ (⟨id, pending⟩ : Frame) :: stack, ∀ b ∈ f.pending,
        Waits ⟨walk, ⟨id, next :: pending⟩ :: stack, entries, entered⟩ b := fun f hf b hb => by
      rcases List.mem_cons.mp hf with rfl | hf
      · exact Or.inr ⟨_, List.mem_cons_self, List.mem_cons_of_mem _ hb⟩
      · exact Or.inr ⟨f, List.mem_cons_of_mem _ hf, hb⟩
    have hless : ∀ b, Waits ⟨walk, ⟨id, pending⟩ :: stack, entries, entered⟩ b →
        Waits ⟨walk, ⟨id, next :: pending⟩ :: stack, entries, entered⟩ b := fun b hb => by
      rcases hb with hb | ⟨f, hf, hb⟩
      · exact Or.inl hb
      · exact hstack f hf b hb
    cases h
    split
    · exact Or.inl ⟨Or.inr rfl, hless⟩
    · split
      · exact Or.inl ⟨Or.inl rfl, hless⟩
      · refine Or.inr ⟨next, some id, Or.inr ⟨_, List.mem_cons_self, List.mem_cons_self⟩, hnew ‹_›,
          rfl, fun b hb => ?_⟩
        rcases hb with hb | ⟨f, hf, hb⟩
        · exact Or.inl (Or.inl hb)
        · rcases List.mem_cons.mp hf with rfl | hf
          · exact Or.inr hb
          · exact Or.inl (hstack f hf b hb)

end Loop

end Walk

namespace ImportGraph

open Walk

/-- While nothing is corrected, a source imports another. -/
def Leads (t : FileTree) (p : Project) (r : Registry) (table : RemappingTable)
    (a b : SourceId) : Prop :=
  ∃ imports, (Findings.of t p r table a).imports = some imports ∧ b ∈ imports

theorem Steady.imports_iff {g : ImportGraph} (h : g.Steady t p r table) {a : SourceId}
    (ha : a ∈ g.imports) {b : SourceId} : g.Imports a b ↔ Leads t p r table a b := by
  have himports : g.imports[a]? = (Findings.of t p r table a).imports :=
    congrArg Findings.imports ((h a).1 ha)
  have hsome := Std.ExtTreeMap.mem_iff_isSome_getElem?.mp ha
  obtain ⟨imports, hsome⟩ := Option.isSome_iff_exists.mp hsome
  unfold Imports directImports Leads
  rw [← himports, hsome]
  exact ⟨fun hb => ⟨imports, rfl, hb⟩, fun ⟨_, heq, hb⟩ => Option.some.inj heq ▸ hb⟩

/-- The sources of a steady walk are those that lead on from the entries. -/
theorem mem_walk_iff_of_steady {entries : List SourceId}
    (h : (walk t p r table entries).Steady t p r table) :
    id ∈ (walk t p r table entries).imports ↔
      ∃ a ∈ entries, Relation.ReflTransGen (Leads t p r table) a id := by
  rw [mem_walk_iff]
  constructor
  · rintro ⟨a, ha, hreaches⟩
    refine ⟨a, ha, Relation.ReflTransGen.mono (fun b c hbc => ?_) _ _ hreaches⟩
    exact (h.imports_iff (mem_of_imports hbc)).mp hbc
  · rintro ⟨a, ha, hleads⟩
    refine ⟨a, ha, ?_⟩
    induction hleads with
    | refl => exact Relation.ReflTransGen.refl
    | tail _ hbc ih => exact ih.tail ((h.imports_iff (mem_walk_iff.mpr ⟨a, ha, ih⟩)).mpr hbc)

/-- The walk is steady, and all that waits is among some sources. -/
structure Confined (t : FileTree) (p : Project) (r : Registry) (table : RemappingTable)
    (sources : SourceId → Prop) (s : Loop) : Prop where
  steady : Walk.Steady t p r table s.walk
  waits : ∀ b, s.Waits b → sources b

variable {sources : SourceId → Prop} {s s' : Loop}

/-- What is entered from among quiet sources brings sources that it leads to. -/
theorem Confined.step (hs : Confined t p r table sources s)
    (hquiet : ∀ a, sources a → QuietSource t p r table a)
    (hclosed : ∀ a b, sources a → Leads t p r table a b → sources b)
    (h : Loop.step? t p r s = some s') : Confined t p r table sources s' := by
  rcases Loop.step?_waits h with ⟨hwalk, hless⟩ | ⟨id, importer, hid, hnew, hwalk, hmore⟩
  · refine ⟨?_, fun b hb => hs.waits b (hless b hb)⟩
    rcases hwalk with hwalk | hwalk
    · exact hwalk ▸ hs.steady
    · exact hwalk ▸ hs.steady.countCycle
  · have hid := hs.waits id hid
    have hsteady := hs.steady.enterFreely hnew (hquiet id hid) importer
    refine ⟨hwalk ▸ hsteady, fun b hb => ?_⟩
    rcases hmore b hb with hb | hb
    · exact hs.waits b hb
    · obtain ⟨imports, hframe, himports⟩ :=
        s.walk.imports_enterFreely (t := t) (p := p) (r := r) id importer
      rw [hframe] at hb
      refine hclosed id b hid ((hsteady.found.imports_iff ?_).mp ?_)
      · exact himports ▸ Std.ExtTreeMap.mem_insert_self
      · unfold Imports directImports
        rw [himports, Std.ExtTreeMap.getElem?_insert_self]
        exact Std.ExtTreeSet.mem_toList.mp hb

theorem Confined.runs (hs : Confined t p r table sources s)
    (hquiet : ∀ a, sources a → QuietSource t p r table a)
    (hclosed : ∀ a b, sources a → Leads t p r table a b → sources b)
    (h : Loop.Runs t p r s s') : Confined t p r table sources s' := by
  induction h with
  | refl => exact hs
  | tail _ hstep ih => exact ih.step hquiet hclosed hstep

/-- **The walk from some of the entries** of a walk that corrects nothing finds what is to be
found. -/
theorem steady_walk {entries entries' : List SourceId} (h : CorrectsNothing t p r table entries)
    (hsub : entries' ⊆ entries) : (walk t p r table entries').Steady t p r table := by
  obtain ⟨last, hlast, -, hgraph⟩ := Loop.runs_end t p r entries table
  have hsteady : (walk t p r table entries).Steady t p r table :=
    hgraph ▸ (steady_of_correctsNothing h hlast).found
  have hquiet : ∀ a ∈ (walk t p r table entries).imports, QuietSource t p r table a :=
    fun a ha => by
      obtain ⟨s, importer, hruns, henters, -⟩ := exists_entered ha
      exact h.quietSource hruns henters (steady_of_correctsNothing h hruns)
  -- Whatever waits is a source of the walk from all entries.
  have hstart : Confined t p r table (· ∈ (walk t p r table entries).imports)
      (Loop.start t p table entries') := by
    refine ⟨steady_start t p r table entries', fun b hb => ?_⟩
    rcases hb with hb | ⟨f, hf, -⟩
    · exact mem_walk_iff.mpr ⟨b, hsub hb, Relation.ReflTransGen.refl⟩
    · exact absurd hf List.not_mem_nil
  obtain ⟨last', hlast', -, hgraph'⟩ := Loop.runs_end t p r entries' table
  have hclosed : ∀ a b, a ∈ (walk t p r table entries).imports → Leads t p r table a b →
      b ∈ (walk t p r table entries).imports := fun a b ha hab =>
    imports_closed ((hsteady.imports_iff ha).mpr hab)
  exact hgraph' ▸ (hstart.runs hquiet hclosed hlast').steady.found

/-- A graph holds what two graphs hold together, which agree where both have entered a source. -/
structure IsUnion (g g₁ g₂ : ImportGraph) : Prop where
  imports : ∀ id : SourceId, g.imports[id]? = g₁.imports[id]?.or g₂.imports[id]?
  statements : ∀ id : SourceId, g.statements[id]? = g₁.statements[id]?.or g₂.statements[id]?
  errors : ∀ id, (g.findings id).errors =
    if id ∈ g₁.imports then (g₁.findings id).errors else (g₂.findings id).errors
  agree : ∀ id ∈ g₁.imports, id ∈ g₂.imports → g₁.findings id = g₂.findings id

/-- Steady graphs that have entered the same sources together. -/
theorem Steady.isUnion {g g₁ g₂ : ImportGraph} (h : g.Steady t p r table)
    (h₁ : g₁.Steady t p r table) (h₂ : g₂.Steady t p r table)
    (hmem : ∀ id, id ∈ g.imports ↔ id ∈ g₁.imports ∨ id ∈ g₂.imports) : IsUnion g g₁ g₂ := by
  have hcases : ∀ id, g.findings id = if id ∈ g₁.imports then g₁.findings id else g₂.findings id :=
    fun id => by
      split
      · rename_i hid
        rw [(h id).1 ((hmem id).mpr (Or.inl hid)), (h₁ id).1 hid]
      · rename_i hid
        by_cases hid₂ : id ∈ g₂.imports
        · rw [(h id).1 ((hmem id).mpr (Or.inr hid₂)), (h₂ id).1 hid₂]
        · rw [(h id).2 fun hmem' => ((hmem id).mp hmem').elim hid hid₂, (h₂ id).2 hid₂]
  have hagree : ∀ id ∈ g₁.imports, id ∈ g₂.imports → g₁.findings id = g₂.findings id :=
    fun id hid hid₂ => ((h₁ id).1 hid).trans ((h₂ id).1 hid₂).symm
  -- Where the first graph holds nothing, the second one counts.
  have hor : ∀ {α : Type} (f : Findings → Option α), f Findings.nothing = none → ∀ id,
      f (g.findings id) = (f (g₁.findings id)).or (f (g₂.findings id)) := fun f hf id => by
    rw [hcases]
    split
    · rename_i hid
      by_cases hid₂ : id ∈ g₂.imports
      · rw [← hagree id hid hid₂, Option.or_self]
      · rw [(h₂ id).2 hid₂, hf, Option.or_none]
    · rename_i hid
      rw [(h₁ id).2 hid, hf, Option.none_or]
  refine ⟨hor Findings.imports rfl, hor Findings.statements rfl, fun id => ?_, hagree⟩
  rw [hcases]
  split <;> rfl

/-- **Walks add up.** If nothing is corrected on the way, the graph of a walk from entries is the
union of the graphs of the walks from some of them and from the others, apart from who is named as
the importer of a missing source. It does not depend on the order and the repetition of entries. -/
theorem walk_append {entries₁ entries₂ : List SourceId}
    (h : CorrectsNothing t p r table (entries₁ ++ entries₂)) :
    IsUnion (walk t p r table (entries₁ ++ entries₂)) (walk t p r table entries₁)
        (walk t p r table entries₂) ∧
      ∀ entries : List SourceId, (∀ a, a ∈ entries ↔ a ∈ entries₁ ++ entries₂) →
        ∀ id, (walk t p r table entries).findings id =
          (walk t p r table (entries₁ ++ entries₂)).findings id := by
  have hboth := steady_walk h (List.Subset.refl _)
  have hfirst := steady_walk h (List.subset_append_left entries₁ entries₂)
  have hsecond := steady_walk h (List.subset_append_right entries₁ entries₂)
  refine ⟨hboth.isUnion hfirst hsecond fun id => ?_, fun entries hentries id => ?_⟩
  · rw [mem_walk_iff_of_steady hboth, mem_walk_iff_of_steady hfirst,
      mem_walk_iff_of_steady hsecond]
    simp only [List.mem_append, or_and_right, exists_or]
  · have hsteady := steady_walk h fun a ha => (hentries a).mp ha
    have hmem : id ∈ (walk t p r table entries).imports ↔
        id ∈ (walk t p r table (entries₁ ++ entries₂)).imports := by
      rw [mem_walk_iff_of_steady hsteady, mem_walk_iff_of_steady hboth]
      simp only [hentries]
    by_cases hid : id ∈ (walk t p r table entries).imports
    · rw [(hsteady id).1 hid, (hboth id).1 (hmem.mp hid)]
    · rw [(hsteady id).2 hid, (hboth id).2 fun hid' => hid (hmem.mpr hid')]

/-- Two files import one that is not there. -/
def sharedImport : FileTree :=
  (FileTree.empty.place ⟨"/a".toList⟩ (some (.text "import './c';".toList))).place
    ⟨"/b".toList⟩ (some (.text "import './c';".toList))

/-- The walk of these files from an entry, without packages. -/
def walkShared (entries : List SourceId) : ImportGraph :=
  walk sharedImport ⟨[], ⟨[]⟩, ⟨[], []⟩⟩ ⟨[], [], none⟩ .empty entries

/-- The walks from overlapping entries share a source. -/
theorem walk_append_shared :
    IsUnion (walkShared ([.ofText ['a']] ++ [.ofText ['b'], .ofText ['a']]))
        (walkShared [.ofText ['a']]) (walkShared [.ofText ['b'], .ofText ['a']]) ∧
      .ofText ['a'] ∈ (walkShared [.ofText ['a']]).imports ∧
      .ofText ['a'] ∈ (walkShared [.ofText ['b'], .ofText ['a']]).imports ∧
      ∀ id, (walkShared [.ofText ['b'], .ofText ['a']]).findings id =
        (walkShared ([.ofText ['a']] ++ [.ofText ['b'], .ofText ['a']])).findings id := by
  have hquiet : CorrectsNothing sharedImport ⟨[], ⟨[]⟩, ⟨[], []⟩⟩ ⟨[], [], none⟩ .empty
      ([.ofText ['a']] ++ [.ofText ['b'], .ofText ['a']]) :=
    correctsNothing_of_find?_none fun _ => rfl
  obtain ⟨hunion, hsame⟩ := walk_append hquiet
  have hmem : ∀ entries : List SourceId, .ofText ['a'] ∈ entries →
      .ofText ['a'] ∈ (walkShared entries).imports := fun entries h =>
    mem_walk_iff.mpr ⟨_, h, Relation.ReflTransGen.refl⟩
  exact ⟨hunion, hmem _ (by simp), hmem _ (by simp), hsame _ (by simp)⟩

end ImportGraph

end SolPlan
