import SolPlan.ImportGraph.Walk
import SolPlan.Proofs.ImportGraph.Reachability

/-!
# Walking reaches what can be reached

A walk takes two kinds of steps: it counts a cycle, or it enters a source that was not entered
before (`foldl_walkFrom_induction`). Reading the imports of a file only adds to what is
noted (`Noted`); entering a source adds the source to that and leaves the others alone (`Grows`).

While a walk is under way, every direct import of a source that was entered is entered too, or
waits in the frame of that source (`Searching`). No frame is left at the end.

Results:
* **`mem_walk_iff`**: a source is in the graph of a walk iff some entry reaches it along the direct
  imports of that graph;
* `isFile_of_mem_walk`: each source of a graph in which nothing is wrong is a file;
* `remapping_walk`: the table after a walk is the one before it with all corrections written to it.
-/

namespace SolPlan

namespace ImportGraph

/-- What was found wrong with a source. -/
def errorsOf (g : ImportGraph) (id : SourceId) : List Error := g.errors[id]?.getD []

/-- Nothing was found wrong. -/
def Clean (g : ImportGraph) : Prop := ∀ id, g.errorsOf id = []

/-- The first error is looked for in all sources. -/
theorem firstError?_eq_none_iff {g : ImportGraph} : g.firstError? = none ↔ g.Clean := by
  unfold firstError? Clean errorsOf
  rw [List.head?_eq_none_iff, List.flatMap_eq_nil_iff]
  constructor
  · intro h id
    cases hid : g.errors[id]? with
    | none => rfl
    | some l => exact h (id, l) (Std.ExtTreeMap.mem_toList_iff_getElem?_eq_some.mpr hid)
  · rintro h ⟨id, l⟩ hl
    have := h id
    rwa [Std.ExtTreeMap.mem_toList_iff_getElem?_eq_some.mp hl] at this

/-- Corrections are written to the table and noted. -/
def Corrects (g g' : ImportGraph) : Prop :=
  ∃ l, g'.corrections = g.corrections ++ l ∧ g'.remapping = l.foldl RemappingTable.correct g.remapping

theorem Corrects.refl (g : ImportGraph) : Corrects g g := ⟨[], (List.append_nil _).symm, rfl⟩

theorem Corrects.trans {g g' g'' : ImportGraph} (h : Corrects g g') (h' : Corrects g' g'') :
    Corrects g g'' := by
  obtain ⟨l, hc, hr⟩ := h
  obtain ⟨l', hc', hr'⟩ := h'
  exact ⟨l ++ l', by rw [hc', hc, List.append_assoc], by rw [hr', hr, List.foldl_append]⟩

/-- The sources are the same; there are only more errors and corrections. -/
structure Noted (g g' : ImportGraph) : Prop where
  imports : g'.imports = g.imports
  statements : g'.statements = g.statements
  errors : ∀ a, g.errorsOf a <+: g'.errorsOf a
  corrects : Corrects g g'

/-- All that one graph has found, another has too. -/
structure Grows (g g' : ImportGraph) : Prop where
  imports : ∀ a ∈ g.imports, g'.imports[a]? = g.imports[a]?
  statements : ∀ a ∈ g.imports, g'.statements[a]? = g.statements[a]?
  errors : ∀ a, g.errorsOf a <+: g'.errorsOf a
  corrects : Corrects g g'

variable {g g' g'' : ImportGraph}

theorem Noted.refl (g : ImportGraph) : Noted g g :=
  ⟨rfl, rfl, fun _ => List.prefix_rfl, Corrects.refl g⟩

theorem Noted.trans (h : Noted g g') (h' : Noted g' g'') : Noted g g'' :=
  ⟨h'.imports.trans h.imports, h'.statements.trans h.statements,
    fun a => (h.errors a).trans (h'.errors a), h.corrects.trans h'.corrects⟩

theorem Noted.clean (h : Noted g g') (hc : g'.Clean) : g.Clean := fun a =>
  List.prefix_nil.mp (hc a ▸ h.errors a)

namespace Grows

theorem refl (g : ImportGraph) : Grows g g :=
  ⟨fun _ _ => rfl, fun _ _ => rfl, fun _ => List.prefix_rfl, Corrects.refl g⟩

theorem mem (h : Grows g g') {a : SourceId} (ha : a ∈ g.imports) : a ∈ g'.imports := by
  rw [Std.ExtTreeMap.mem_iff_isSome_getElem?] at ha ⊢
  rwa [h.imports a (Std.ExtTreeMap.mem_iff_isSome_getElem?.mpr ha)]

theorem trans (h : Grows g g') (h' : Grows g' g'') : Grows g g'' where
  imports a ha := (h'.imports a (h.mem ha)).trans (h.imports a ha)
  statements a ha := (h'.statements a (h.mem ha)).trans (h.statements a ha)
  errors a := (h.errors a).trans (h'.errors a)
  corrects := h.corrects.trans h'.corrects

theorem clean (h : Grows g g') (hc : g'.Clean) : g.Clean := fun a =>
  List.prefix_nil.mp (hc a ▸ h.errors a)

theorem corrections_nil (h : Grows g g') (hc : g'.corrections = []) : g.corrections = [] := by
  obtain ⟨l, hl, -⟩ := h.corrects
  rw [hc] at hl
  exact (List.append_eq_nil_iff.mp hl.symm).1

theorem imports_of (h : Grows g g') {a b : SourceId} (hab : g.Imports a b) : g'.Imports a b := by
  unfold Imports directImports
  rw [h.imports a (mem_of_imports hab)]
  exact hab

theorem reaches (h : Grows g g') {a b : SourceId} (hab : g.Reaches a b) : g'.Reaches a b :=
  Relation.ReflTransGen.mono (fun _ _ => h.imports_of) _ _ hab

/-- A source that was not there takes nothing away, whatever is noted for it. -/
theorem of_insert {id : SourceId} {s : SourceSet} (hid : id ∉ g.imports)
    (himports : g'.imports = g.imports.insert id s)
    (hstatements : ∀ a, a ≠ id → g'.statements[a]? = g.statements[a]?)
    (herrors : ∀ a, g.errorsOf a <+: g'.errorsOf a) (hcorrects : Corrects g g') : Grows g g' := by
  have hne : ∀ a ∈ g.imports, a ≠ id := fun a ha h => hid (h ▸ ha)
  refine ⟨fun a ha => ?_, fun a ha => hstatements a (hne a ha), herrors, hcorrects⟩
  rw [himports, getElem?_insert_ite, if_neg (hne a ha)]

end Grows

/-! ## Errors -/

theorem errorsOf_record (g : ImportGraph) (id a : SourceId) (e : Error) :
    (g.record id e).errorsOf a = if a = id then g.errorsOf id ++ [e] else g.errorsOf a := by
  unfold errorsOf record
  rw [getElem?_insert_ite]
  split <;> rfl

theorem noted_record (g : ImportGraph) (id : SourceId) (e : Error) : Noted g (g.record id e) where
  imports := rfl
  statements := rfl
  errors a := by
    rw [errorsOf_record]
    split
    · rename_i h
      rw [h]
      exact List.prefix_append _ _
    · exact List.prefix_rfl
  corrects := Corrects.refl g

theorem not_clean_record (g : ImportGraph) (id : SourceId) (e : Error) :
    ¬ (g.record id e).Clean := fun h => by
  have := h id
  rw [errorsOf_record, if_pos rfl] at this
  simp at this

/-- Note all that is wrong with a source. -/
def recordAll (g : ImportGraph) (id : SourceId) (errors : List Error) : ImportGraph :=
  errors.foldl (fun g e => g.record id e) g

theorem errorsOf_recordAll (g : ImportGraph) (id a : SourceId) (errors : List Error) :
    (g.recordAll id errors).errorsOf a =
      if a = id then g.errorsOf id ++ errors else g.errorsOf a := by
  unfold recordAll
  induction errors generalizing g with
  | nil =>
    rw [List.append_nil]
    split
    · rename_i h
      rw [h]
      rfl
    · rfl
  | cons e errors ih =>
    rw [List.foldl_cons, ih, errorsOf_record, errorsOf_record, if_pos rfl]
    split
    · rw [List.append_assoc, List.singleton_append]
    · rfl

theorem imports_recordAll (g : ImportGraph) (id : SourceId) (errors : List Error) :
    (g.recordAll id errors).imports = g.imports := by
  unfold recordAll
  induction errors generalizing g with
  | nil => rfl
  | cons e errors ih => exact ih (g.record id e)

theorem statements_recordAll (g : ImportGraph) (id : SourceId) (errors : List Error) :
    (g.recordAll id errors).statements = g.statements := by
  unfold recordAll
  induction errors generalizing g with
  | nil => rfl
  | cons e errors ih => exact ih (g.record id e)

theorem remapping_recordAll (g : ImportGraph) (id : SourceId) (errors : List Error) :
    (g.recordAll id errors).remapping = g.remapping := by
  unfold recordAll
  induction errors generalizing g with
  | nil => rfl
  | cons e errors ih => exact ih (g.record id e)

end ImportGraph

namespace Walk

open ImportGraph

variable {t : FileTree} {p : Project} {r : Registry}

/-! ## The imports of one file -/

theorem noted_ensureTable (w : Walk) (id : SourceId) (package : PackageId) :
    Noted w.graph (w.ensureTable p r id package).graph := by
  unfold ensureTable
  split
  · exact Noted.refl _
  · split
    · exact Noted.refl _
    · split
      · exact Noted.refl _
      · exact noted_record _ _ _

theorem noted_correctMaybe (w : Walk) (package : Option PackageId) (c : Option Correction) :
    Noted w.graph (w.correctMaybe package c).graph := by
  cases c with
  | none => exact Noted.refl _
  | some c =>
    simp only [correctMaybe, correct]
    split
    · exact Noted.refl _
    · exact ⟨rfl, rfl, fun _ => List.prefix_rfl, [c], rfl, rfl⟩

theorem noted_resolveAll (id : SourceId) (path : Path) (package : Option PackageId)
    (lines : List Text) (w : Walk) (done : List Import) :
    Noted w.graph (resolveAll t p r id path package lines w done).1.graph := by
  induction lines generalizing w done with
  | nil => exact Noted.refl _
  | cons raw lines ih =>
    unfold resolveAll
    split
    · exact (noted_record w.graph id _).trans (ih (w.record id _) done)
    · exact (noted_correctMaybe w package _).trans (ih _ _)

/-- A walk with the table that the imports of a source need. -/
def prepared (p : Project) (r : Registry) (w : Walk) (id : SourceId) : Walk :=
  match Project.packageOf? id with
  | some package => w.ensureTable p r id package
  | none => w

theorem noted_prepared (w : Walk) (id : SourceId) : Noted w.graph (prepared p r w id).graph := by
  unfold prepared
  split
  · exact noted_ensureTable _ _ _
  · exact Noted.refl _

theorem noted_resolved (w : Walk) (id : SourceId) (lines : List Text) :
    Noted w.graph (resolveAll t p r id (p.pathOf id) (Project.packageOf? id) lines
      (prepared p r w id) []).1.graph :=
  (noted_prepared w id).trans (noted_resolveAll _ _ _ _ _ _)

/-- A walk in which the statements of a source are noted. -/
def noteStatements (w : Walk) (id : SourceId) (statements : List Import) : Walk :=
  { w with graph := { w.graph with statements := w.graph.statements.insert id statements } }

/-- A visit that cannot read the statements of a file. -/
theorem visit_error {w : Walk} {id : SourceId} {e : Error}
    (h : ImportLines.ofFile t (p.pathOf id) = .error e) :
    w.visit t p r id = (w.record id e, ∅) := by
  unfold visit
  dsimp only
  rw [h]

/-- A visit that resolves the statements of a file one after the other. -/
theorem visit_ok {w : Walk} {id : SourceId} {lines : List Text}
    (h : ImportLines.ofFile t (p.pathOf id) = .ok lines) :
    w.visit t p r id =
      let resolved := resolveAll t p r id (p.pathOf id) (Project.packageOf? id) lines
        (prepared p r w id) []
      (resolved.1.noteStatements id resolved.2, targets resolved.2) := by
  unfold visit prepared
  dsimp only
  rw [h]
  cases Project.packageOf? id <;> rfl

theorem imports_visit (w : Walk) (id : SourceId) :
    (w.visit t p r id).1.graph.imports = w.graph.imports := by
  cases h : ImportLines.ofFile t (p.pathOf id) with
  | error e => rw [visit_error h]; rfl
  | ok lines =>
    rw [visit_ok h]
    exact (noted_resolved w id lines).imports

theorem grows_visit (w : Walk) {id : SourceId} (hid : id ∉ w.graph.imports) :
    Grows w.graph ((w.visit t p r id).1.enterWith id (w.visit t p r id).2).graph := by
  cases h : ImportLines.ofFile t (p.pathOf id) with
  | error e =>
    rw [visit_error h]
    have h := noted_record w.graph id e
    exact Grows.of_insert hid rfl (fun _ _ => rfl) h.errors h.corrects
  | ok lines =>
    rw [visit_ok h]
    have h := noted_resolved (t := t) (p := p) (r := r) w id lines
    generalize resolveAll t p r id (p.pathOf id) (Project.packageOf? id) lines
      (prepared p r w id) [] = resolved at h ⊢
    refine Grows.of_insert (s := targets resolved.2) hid ?_ (fun a ha => ?_) h.errors h.corrects
    · rw [← h.imports]
      rfl
    · refine getElem?_insert_ite.trans ?_
      rw [if_neg ha, h.statements]

/-! ## Entering a source -/

/-- What is entered gets its direct imports, and they wait in its frame. -/
theorem enter_spec (w : Walk) (id : SourceId) (importer : Option SourceId) :
    ∃ s : SourceSet, (w.enter t p r id importer).1 = ⟨id, s.toList⟩ ∧
      (w.enter t p r id importer).2.graph.imports = w.graph.imports.insert id s := by
  unfold enter
  split
  · exact ⟨(w.visit t p r id).2, rfl, by simp only [enterWith, imports_visit]⟩
  · exact ⟨∅, by simp, rfl⟩

theorem grows_enter (w : Walk) {id : SourceId} (importer : Option SourceId)
    (hid : id ∉ w.graph.imports) : Grows w.graph (w.enter t p r id importer).2.graph := by
  unfold enter
  split
  · exact grows_visit w hid
  · have h := noted_record w.graph id
      (.missingSource id.text (importer.map SourceId.text))
    exact Grows.of_insert hid rfl (fun _ _ => rfl) h.errors h.corrects

/-- Nothing is wrong after a source was entered only if it is a file that was visited. -/
theorem enter_of_clean {w : Walk} {id : SourceId} {importer : Option SourceId}
    (h : (w.enter t p r id importer).2.graph.Clean) :
    (t.isFile (p.pathOf id) ∧ id ∈ w.unread) ∧
      w.enter t p r id importer = (⟨id, (w.visit t p r id).2.toList⟩,
        { (w.visit t p r id).1.enterWith id (w.visit t p r id).2 with
          unread := w.unread.erase id }) := by
  unfold enter at h ⊢
  split at h
  · rename_i hfile
    exact ⟨hfile, if_pos hfile⟩
  · exact absurd h (not_clean_record _ _ _)

/-! ## Steps of a walk -/

/-- A walk counts cycles, and enters sources that were not entered before. -/
theorem follow_induction {P : Walk → Prop} (hcycle : ∀ w : Walk, P w → P w.countCycle)
    (henter : ∀ (w : Walk) id importer, id ∉ w.graph.imports → P w →
      P (w.enter t p r id importer).2)
    (w : Walk) (stack : List Frame) (h : P w) : P (w.follow t p r stack) := by
  fun_induction w.follow t p r stack with
  | case1 => exact h
  | case2 _ _ _ ih => exact ih h
  | case3 _ _ _ _ _ _ _ ih => exact ih (hcycle _ h)
  | case4 _ _ _ _ _ _ _ _ ih => exact ih h
  | case5 w id next pending stack _ _ hnext entered ih =>
    refine ih (henter w next (some id) (fun hmem => hnext ?_) h)
    exact Std.ExtTreeMap.contains_iff_mem.mpr hmem

theorem walkFrom_induction {P : Walk → Prop} (hcycle : ∀ w : Walk, P w → P w.countCycle)
    (henter : ∀ (w : Walk) id importer, id ∉ w.graph.imports → P w →
      P (w.enter t p r id importer).2)
    (w : Walk) (entry : SourceId) (h : P w) : P (w.walkFrom t p r entry) := by
  unfold walkFrom
  split
  · exact h
  · rename_i hentry
    refine follow_induction hcycle henter _ _ (henter w entry none (fun hmem => hentry ?_) h)
    exact Std.ExtTreeMap.contains_iff_mem.mpr hmem

/-- What holds at the start and after each step of a walk holds at its end. -/
theorem foldl_walkFrom_induction {P : Walk → Prop} (hcycle : ∀ w : Walk, P w → P w.countCycle)
    (henter : ∀ (w : Walk) id importer, id ∉ w.graph.imports → P w →
      P (w.enter t p r id importer).2)
    (entries : List SourceId) (w : Walk) (h : P w) : P (entries.foldl (walkFrom t p r) w) := by
  induction entries generalizing w with
  | nil => exact h
  | cons entry entries ih => exact ih _ (walkFrom_induction hcycle henter w entry h)

theorem grows_countCycle (w : Walk) : Grows w.graph w.countCycle.graph :=
  ⟨fun _ _ => rfl, fun _ _ => rfl, fun _ => List.prefix_rfl, Corrects.refl w.graph⟩

theorem grows_follow (w : Walk) (stack : List Frame) :
    Grows w.graph (w.follow t p r stack).graph :=
  follow_induction (P := fun w' => Grows w.graph w'.graph) (fun w' h => h.trans (grows_countCycle w'))
    (fun w' _ importer hid h => h.trans (grows_enter w' importer hid)) w stack (Grows.refl _)

theorem grows_foldl_walkFrom (entries : List SourceId) (w : Walk) :
    Grows w.graph (entries.foldl (walkFrom t p r) w).graph :=
  foldl_walkFrom_induction (P := fun w' => Grows w.graph w'.graph)
    (fun w' h => h.trans (grows_countCycle w'))
    (fun w' _ importer hid h => h.trans (grows_enter w' importer hid)) entries w (Grows.refl _)

/-! ## What is still to be entered -/

/-- Every source of the graph can be reached from a start, and what it imports is in the graph or
waits in its frame. -/
structure Searching (starts : SourceId → Prop) (g : ImportGraph) (stack : List Frame) : Prop where
  started : ∀ a, starts a → a ∈ g.imports
  entered : ∀ f ∈ stack, f.id ∈ g.imports
  pending : ∀ f ∈ stack, ∀ b ∈ f.pending, g.Imports f.id b
  closed : ∀ a b, g.Imports a b → b ∈ g.imports ∨ ∃ f ∈ stack, f.id = a ∧ b ∈ f.pending
  reach : ∀ b ∈ g.imports, ∃ a, starts a ∧ g.Reaches a b

variable {starts : SourceId → Prop}

/-- An import that was entered need not wait. -/
theorem Searching.passed {g : ImportGraph} (above : List Frame) {stack : List Frame}
    {id next : SourceId} {pending : List SourceId} (h : Searching starts g (above ++ ⟨id, next :: pending⟩ :: stack))
    (hnext : next ∈ g.imports) : Searching starts g (above ++ ⟨id, pending⟩ :: stack) := by
  refine ⟨h.started, fun f hf => ?_, fun f hf b hb => ?_, fun a b hab => ?_, h.reach⟩
  · rcases List.mem_append.mp hf with hf | hf
    · exact h.entered f (List.mem_append_left _ hf)
    · rcases List.mem_cons.mp hf with rfl | hf
      · exact h.entered ⟨id, next :: pending⟩ (by simp)
      · exact h.entered f (by simp [hf])
  · rcases List.mem_append.mp hf with hf | hf
    · exact h.pending f (List.mem_append_left _ hf) b hb
    · rcases List.mem_cons.mp hf with rfl | hf
      · exact h.pending ⟨id, next :: pending⟩ (by simp) b (List.mem_cons_of_mem _ hb)
      · exact h.pending f (by simp [hf]) b hb
  · rcases h.closed a b hab with hb | ⟨f, hf, hfa, hb⟩
    · exact Or.inl hb
    · rcases List.mem_append.mp hf with hf | hf
      · exact Or.inr ⟨f, List.mem_append_left _ hf, hfa, hb⟩
      · rcases List.mem_cons.mp hf with rfl | hf
        · rcases List.mem_cons.mp hb with rfl | hb
          · exact Or.inl hnext
          · exact Or.inr ⟨⟨id, pending⟩, by simp, hfa, hb⟩
        · exact Or.inr ⟨f, by simp [hf], hfa, hb⟩

/-- A frame with nothing that waits can go. -/
theorem Searching.finished {g : ImportGraph} {stack : List Frame} {id : SourceId}
    (h : Searching starts g (⟨id, []⟩ :: stack)) : Searching starts g stack := by
  refine ⟨h.started, fun f hf => h.entered f (List.mem_cons_of_mem _ hf),
    fun f hf => h.pending f (List.mem_cons_of_mem _ hf), fun a b hab => ?_, h.reach⟩
  rcases h.closed a b hab with hb | ⟨f, hf, hfa, hb⟩
  · exact Or.inl hb
  · rcases List.mem_cons.mp hf with rfl | hf
    · exact absurd hb List.not_mem_nil
    · exact Or.inr ⟨f, hf, hfa, hb⟩

/-- A source that is entered brings a frame with all its imports. -/
theorem Searching.enter {starts' : SourceId → Prop} {w : Walk} {stack : List Frame} {id : SourceId}
    (importer : Option SourceId) (h : Searching starts w.graph stack) (hid : id ∉ w.graph.imports)
    (hold : ∀ a, starts a → starts' a) (hnew : ∀ a, starts' a → starts a ∨ a = id)
    (hreach : starts' id ∨ ∃ a, w.graph.Imports a id) :
    Searching starts' (w.enter t p r id importer).2.graph
      ((w.enter t p r id importer).1 :: stack) := by
  have hg := grows_enter (t := t) (p := p) (r := r) w importer hid
  obtain ⟨s, hframe, himports⟩ := w.enter_spec (t := t) (p := p) (r := r) id importer
  rw [hframe]
  generalize (w.enter t p r id importer).2.graph = g at hg himports ⊢
  have hmem : ∀ {a}, a ∈ g.imports ↔ a = id ∨ a ∈ w.graph.imports := fun {a} => by
    rw [himports, Std.ExtTreeMap.mem_insert, Std.LawfulEqCmp.compare_eq_iff_eq, eq_comm]
  have hedge : ∀ {a b}, g.Imports a b ↔ if a = id then b ∈ s else w.graph.Imports a b := by
    intro a b
    unfold ImportGraph.Imports directImports
    rw [himports, getElem?_insert_ite]
    split <;> rfl
  have hstep : ∀ b ∈ w.graph.imports, ∃ a, starts' a ∧ g.Reaches a b := fun b hb => by
    obtain ⟨a, ha, hab⟩ := h.reach b hb
    exact ⟨a, hold a ha, hg.reaches hab⟩
  refine ⟨fun a ha => ?_, fun f hf => ?_, fun f hf b hb => ?_, fun a b hab => ?_, fun b hb => ?_⟩
  · rcases hnew a ha with ha | rfl
    · exact hg.mem (h.started a ha)
    · exact hmem.mpr (Or.inl rfl)
  · rcases List.mem_cons.mp hf with rfl | hf
    · exact hmem.mpr (Or.inl rfl)
    · exact hg.mem (h.entered f hf)
  · rcases List.mem_cons.mp hf with rfl | hf
    · exact hedge.mpr ((if_pos rfl).symm ▸ Std.ExtTreeSet.mem_toList.mp hb)
    · exact hg.imports_of (h.pending f hf b hb)
  · rw [hedge] at hab
    split at hab
    · rename_i ha
      exact Or.inr ⟨⟨id, s.toList⟩, List.mem_cons_self, ha.symm,
        Std.ExtTreeSet.mem_toList.mpr hab⟩
    · rcases h.closed a b hab with hb | ⟨f, hf, hfa, hb⟩
      · exact Or.inl (hg.mem hb)
      · exact Or.inr ⟨f, List.mem_cons_of_mem _ hf, hfa, hb⟩
  · rcases hmem.mp hb with rfl | hb
    · rcases hreach with hb | ⟨a, hab⟩
      · exact ⟨b, hb, Relation.ReflTransGen.refl⟩
      · obtain ⟨c, hc, hca⟩ := hstep a (mem_of_imports hab)
        exact ⟨c, hc, hca.tail (hg.imports_of hab)⟩
    · exact hstep b hb

theorem Searching.countCycle {w : Walk} {stack : List Frame} (h : Searching starts w.graph stack) :
    Searching starts w.countCycle.graph stack :=
  ⟨h.started, h.entered, h.pending, h.closed, h.reach⟩

theorem Searching.follow {w : Walk} {stack : List Frame} (h : Searching starts w.graph stack) :
    Searching starts (w.follow t p r stack).graph [] := by
  fun_induction w.follow t p r stack with
  | case1 => exact h
  | case2 _ _ _ ih => exact ih h.finished
  | case3 w id next pending stack _ hcycle ih =>
    obtain ⟨f, hf, hnext⟩ := List.any_eq_true.mp hcycle
    refine ih (Searching.passed [] h.countCycle ?_)
    have hnext : f.id = next := of_decide_eq_true hnext
    rcases List.mem_cons.mp hf with rfl | hf
    · exact hnext ▸ h.entered ⟨id, next :: pending⟩ List.mem_cons_self
    · exact hnext ▸ h.entered f (List.mem_cons_of_mem _ hf)
  | case4 w id next pending stack _ _ hnext ih =>
    exact ih (Searching.passed [] h (Std.ExtTreeMap.contains_iff_mem.mp hnext))
  | case5 w id next pending stack _ _ hnext entered ih =>
    have hid : next ∉ w.graph.imports := fun hmem =>
      hnext (Std.ExtTreeMap.contains_iff_mem.mpr hmem)
    have himport : w.graph.Imports id next :=
      h.pending ⟨id, next :: pending⟩ List.mem_cons_self next List.mem_cons_self
    have h' := Searching.enter (t := t) (p := p) (r := r) (some id) h hid (fun _ ha => ha)
      (fun _ ha => Or.inl ha) (Or.inr ⟨id, himport⟩)
    refine ih (Searching.passed [entered.1] h' ?_)
    obtain ⟨s, -, himports⟩ := w.enter_spec (t := t) (p := p) (r := r) next (some id)
    rw [himports]
    exact Std.ExtTreeMap.mem_insert_self

theorem Searching.walkFrom {w : Walk} (h : Searching starts w.graph []) (entry : SourceId) :
    Searching (fun a => starts a ∨ a = entry) (w.walkFrom t p r entry).graph [] := by
  unfold Walk.walkFrom
  split
  · rename_i hentry
    have hentry : entry ∈ w.graph.imports := Std.ExtTreeMap.contains_iff_mem.mp hentry
    refine ⟨fun a ha => ?_, h.entered, h.pending, h.closed, fun b hb => ?_⟩
    · rcases ha with ha | rfl
      · exact h.started a ha
      · exact hentry
    · obtain ⟨a, ha, hab⟩ := h.reach b hb
      exact ⟨a, Or.inl ha, hab⟩
  · rename_i hentry
    refine (Searching.enter none h (fun hmem => hentry ?_) (fun _ ha => Or.inl ha) (fun _ ha => ha)
      (Or.inl (Or.inr rfl))).follow
    exact Std.ExtTreeMap.contains_iff_mem.mpr hmem

theorem Searching.foldl_walkFrom {w : Walk} (h : Searching starts w.graph [])
    (entries : List SourceId) :
    Searching (fun a => starts a ∨ a ∈ entries) (entries.foldl (Walk.walkFrom t p r) w).graph [] := by
  induction entries generalizing w starts with
  | nil => simpa using h
  | cons entry entries ih =>
    have := ih (h.walkFrom (t := t) (p := p) (r := r) entry)
    simpa only [List.mem_cons, or_assoc, List.foldl_cons] using this

end Walk

namespace ImportGraph

open Walk

variable {t : FileTree} {p : Project} {r : Registry} {table : RemappingTable}
  {entries : List SourceId}

theorem searching_walk :
    Searching (· ∈ entries) (walk t p r table entries) [] := by
  have hstart : Searching (fun _ => False) (start table) [] :=
    ⟨fun _ h => h.elim, fun _ h => absurd h List.not_mem_nil, fun _ h => absurd h List.not_mem_nil,
      fun a b h => by simp [Imports, directImports, start] at h, fun b h => by simp [start] at h⟩
  have h := Searching.foldl_walkFrom (t := t) (p := p) (r := r)
    (w := ⟨start table, ∅, enterable t p entries⟩) hstart entries
  simp only [false_or] at h
  exact h

/-- **A source is in the graph of a walk iff some entry reaches it.** -/
theorem mem_walk_iff {id : SourceId} :
    id ∈ (walk t p r table entries).imports ↔
      ∃ a ∈ entries, (walk t p r table entries).Reaches a id := by
  have h : Searching (· ∈ entries) (walk t p r table entries) [] := searching_walk
  constructor
  · exact h.reach id
  · rintro ⟨a, ha, hr⟩
    induction hr with
    | refl => exact h.started a ha
    | tail _ hbc _ =>
      rcases h.closed _ _ hbc with hc | ⟨f, hf, -⟩
      · exact hc
      · exact absurd hf List.not_mem_nil

theorem imports_closed {a b : SourceId} (h : (walk t p r table entries).Imports a b) :
    b ∈ (walk t p r table entries).imports := by
  obtain ⟨c, hc, hca⟩ := mem_walk_iff.mp (mem_of_imports h)
  exact mem_walk_iff.mpr ⟨c, hc, hca.tail h⟩

/-- Each source of a graph in which nothing is wrong is a file. -/
theorem isFile_of_mem_walk (hclean : (walk t p r table entries).Clean) {id : SourceId}
    (hid : id ∈ (walk t p r table entries).imports) : t.isFile (p.pathOf id) := by
  refine foldl_walkFrom_induction (t := t) (p := p) (r := r)
    (P := fun w => w.graph.Clean → ∀ id ∈ w.graph.imports, t.isFile (p.pathOf id))
    (fun w h => h) (fun w id importer hid h hclean a ha => ?_) entries _
    (fun _ id h => by simp [start] at h) hclean id hid
  obtain ⟨s, -, himports⟩ := w.enter_spec (t := t) (p := p) (r := r) id importer
  rw [himports, Std.ExtTreeMap.mem_insert, Std.LawfulEqCmp.compare_eq_iff_eq] at ha
  rcases ha with rfl | ha
  · exact (enter_of_clean hclean).1.1
  · exact h ((w.grows_enter importer hid).clean hclean) a ha

/-- The table after a walk is the one before it with all corrections written to it. -/
theorem remapping_walk :
    (walk t p r table entries).remapping =
      (walk t p r table entries).corrections.foldl RemappingTable.correct table := by
  obtain ⟨l, hc, hr⟩ := (grows_foldl_walkFrom (t := t) (p := p) (r := r) entries
    ⟨start table, ∅, enterable t p entries⟩).corrects
  unfold walk
  rw [hr, hc]
  rfl

end ImportGraph

end SolPlan
