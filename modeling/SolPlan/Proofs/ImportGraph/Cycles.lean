import SolPlan.Proofs.ImportGraph.Walk

/-!
# The walk counts a cycle iff there is one

The sources on the stack form a way: each imports, over some steps, those above it. So an import
that leads back to the stack closes a cycle.

A source that has left the stack is finished: it was entered, and so is whatever it imports, down to
sources that import nothing (`Finished`). As long as no cycle was counted, each import of a source
on the stack waits in its frame, or is on the stack above it, or is finished (`Covered`). When a
frame is taken off, nothing waits in it and nothing is above it, so its source is finished. What is
finished is on no cycle.

Results:
* `Finished.not_transGen`: what is finished does not import itself, directly or not;
* `Spine.exists_cycle`: an import that leads back to the stack closes a cycle;
* `Tracking.follow`: following imports keeps track of both;
* **`cycles_eq_zero_iff`**: a walk counts no cycle iff no source of its graph imports itself,
  directly or not.
-/

namespace SolPlan

namespace ImportGraph

variable {g g' : ImportGraph}

/-- The source was entered, and all that it imports is finished. -/
inductive Finished (g : ImportGraph) : SourceId → Prop
  | intro (a : SourceId) (entered : a ∈ g.imports)
      (imports : ∀ b, g.Imports a b → Finished g b) : Finished g a

theorem Grows.imports_iff (h : Grows g g') {a b : SourceId} (ha : a ∈ g.imports) :
    g'.Imports a b ↔ g.Imports a b := by
  unfold Imports directImports
  rw [h.imports a ha]

theorem Finished.mono {a : SourceId} (h : g.Finished a) (hgrows : Grows g g') : g'.Finished a := by
  induction h with
  | intro a entered _ ih =>
    exact .intro a (hgrows.mem entered) fun b hab => ih b ((hgrows.imports_iff entered).mp hab)

/-- **What is finished is on no cycle.** -/
theorem Finished.not_transGen {a : SourceId} (h : g.Finished a) :
    ¬ Relation.TransGen g.Imports a a := by
  induction h with
  | intro a _ _ ih =>
    intro hcycle
    -- the first step of the cycle leads to a source that is on it too
    obtain ⟨b, hab, hba⟩ := Relation.TransGen.head'_iff.mp hcycle
    exact ih b hab (Relation.TransGen.tail' hba hab)

end ImportGraph

namespace Walk

open ImportGraph

variable {t : FileTree} {p : Project} {r : Registry} {g g' : ImportGraph} {stack : List Frame}
  {id next : SourceId} {pending : List SourceId}

/-! ## The stack -/

/-- The sources on the stack were entered, and each imports, over some steps, those above it. What
waits in its frame it imports directly. -/
structure Spine (g : ImportGraph) (stack : List Frame) : Prop where
  entered : ∀ f ∈ stack, f.id ∈ g.imports
  pending : ∀ f ∈ stack, ∀ b ∈ f.pending, g.Imports f.id b
  below : stack.Pairwise fun upper lower => g.Reaches lower.id upper.id

/-- What a source on the stack imports waits in its frame, is above it, or is finished. -/
def Covered (g : ImportGraph) : List SourceId → List Frame → Prop
  | _, [] => True
  | above, f :: stack =>
    (∀ b, g.Imports f.id b → b ∈ f.pending ∨ b ∈ above ∨ g.Finished b) ∧
      Covered g (f.id :: above) stack

theorem Spine.tail {f : Frame} (h : Spine g (f :: stack)) : Spine g stack :=
  ⟨(List.forall_mem_cons.mp h.entered).2, (List.forall_mem_cons.mp h.pending).2,
    (List.pairwise_cons.mp h.below).2⟩

theorem Spine.passed (h : Spine g (⟨id, next :: pending⟩ :: stack)) :
    Spine g (⟨id, pending⟩ :: stack) where
  entered := List.forall_mem_cons.mpr (List.forall_mem_cons.mp h.entered)
  pending := by
    obtain ⟨hfirst, hrest⟩ := List.forall_mem_cons.mp h.pending
    exact List.forall_mem_cons.mpr ⟨fun b hb => hfirst b (List.mem_cons_of_mem _ hb), hrest⟩
  below := List.pairwise_cons.mpr (List.pairwise_cons.mp h.below)

/-- **An import that leads back to the stack closes a cycle.** -/
theorem Spine.exists_cycle (h : Spine g (⟨id, next :: pending⟩ :: stack))
    (hnext : next ∈ (⟨id, pending⟩ :: stack).map Frame.id) :
    ∃ a, Relation.TransGen g.Imports a a := by
  have himport : g.Imports id next := h.pending _ List.mem_cons_self next List.mem_cons_self
  refine ⟨id, Relation.TransGen.head' himport ?_⟩
  rcases List.mem_cons.mp hnext with rfl | hnext
  · exact Relation.ReflTransGen.refl
  · obtain ⟨f, hf, rfl⟩ := List.mem_map.mp hnext
    exact (List.pairwise_cons.mp h.below).1 f hf

/-- What was above may be finished by now, and the graph may have grown. -/
theorem Covered.mono {above above' : List SourceId} (h : Covered g above stack) (hgrows : Grows g g')
    (hentered : ∀ f ∈ stack, f.id ∈ g.imports)
    (habove : ∀ b ∈ above, b ∈ above' ∨ g'.Finished b) : Covered g' above' stack := by
  induction stack generalizing above above' with
  | nil => trivial
  | cons f stack ih =>
    obtain ⟨hfirst, hrest⟩ := h
    obtain ⟨hf, hstack⟩ := List.forall_mem_cons.mp hentered
    refine ⟨fun b hb => ?_, ih hrest hstack fun b hb => ?_⟩
    · rcases hfirst b ((hgrows.imports_iff hf).mp hb) with hb | hb | hb
      · exact Or.inl hb
      · exact Or.inr (habove b hb)
      · exact Or.inr (Or.inr (hb.mono hgrows))
    · rcases List.mem_cons.mp hb with rfl | hb
      · exact Or.inl List.mem_cons_self
      · exact (habove b hb).imp_left (List.mem_cons_of_mem _)

/-- What is known on the way: as long as no cycle was counted, each source that was entered is on
the stack or finished; and if one was counted, there is one. -/
structure Tracking (g : ImportGraph) (stack : List Frame) : Prop where
  spine : Spine g stack
  covered : g.cycles = 0 → Covered g [] stack
  finished : g.cycles = 0 → ∀ a ∈ g.imports, a ∈ stack.map Frame.id ∨ g.Finished a
  cyclic : g.cycles ≠ 0 → ∃ a, Relation.TransGen g.Imports a a

/-- A frame in which nothing waits is taken off. Its source is finished. -/
theorem Tracking.popped (h : Tracking g (⟨id, []⟩ :: stack)) : Tracking g stack := by
  have hdone : g.cycles = 0 → g.Finished id := fun hzero =>
    .intro id (h.spine.entered _ List.mem_cons_self) fun b hb => by
      rcases (h.covered hzero).1 b hb with hb | hb | hb
      · exact absurd hb List.not_mem_nil
      · exact absurd hb List.not_mem_nil
      · exact hb
  refine ⟨h.spine.tail, fun hzero => ?_, fun hzero a ha => ?_, h.cyclic⟩
  · refine (h.covered hzero).2.mono (Grows.refl g) h.spine.tail.entered fun b hb => ?_
    rw [List.mem_singleton.mp hb]
    exact Or.inr (hdone hzero)
  · rcases h.finished hzero a ha with ha | ha
    · rcases List.mem_cons.mp ha with rfl | ha
      · exact Or.inr (hdone hzero)
      · exact Or.inl ha
    · exact Or.inr ha

/-- An import that was entered before and has left the stack need not wait. -/
theorem Tracking.passed (h : Tracking g (⟨id, next :: pending⟩ :: stack))
    (hnext : next ∈ g.imports) (hstack : next ∉ (⟨id, pending⟩ :: stack).map Frame.id) :
    Tracking g (⟨id, pending⟩ :: stack) := by
  refine ⟨h.spine.passed, fun hzero => ⟨fun b hb => ?_, (h.covered hzero).2⟩, h.finished, h.cyclic⟩
  have hdone : g.Finished next := (h.finished hzero next hnext).resolve_left hstack
  rcases (h.covered hzero).1 b hb with hb | hb | hb
  · rcases List.mem_cons.mp hb with rfl | hb
    · exact Or.inr (Or.inr hdone)
    · exact Or.inl hb
  · exact absurd hb List.not_mem_nil
  · exact Or.inr (Or.inr hb)

/-! ## Entering a source counts no cycle -/

theorem cycles_prepared (w : Walk) (id : SourceId) :
    (prepared p r w id).graph.cycles = w.graph.cycles := by
  unfold prepared
  split
  · unfold ensureTable
    split
    · rfl
    · split
      · rfl
      · split <;> rfl
  · rfl

theorem cycles_correctMaybe (w : Walk) (package : Option PackageId) (c : Option Correction) :
    (w.correctMaybe package c).graph.cycles = w.graph.cycles := by
  cases c with
  | none => rfl
  | some c =>
    simp only [correctMaybe, correct]
    split <;> rfl

theorem cycles_resolveAll (id : SourceId) (path : Path) (package : Option PackageId)
    (lines : List Text) (w : Walk) (done : List Import) :
    (resolveAll t p r id path package lines w done).1.graph.cycles = w.graph.cycles := by
  induction lines generalizing w done with
  | nil => rfl
  | cons raw lines ih =>
    unfold resolveAll
    split
    · exact ih (w.record id _) done
    · rw [ih, cycles_correctMaybe]

theorem cycles_enter (w : Walk) (id : SourceId) (importer : Option SourceId) :
    (w.enter t p r id importer).2.graph.cycles = w.graph.cycles := by
  unfold enter
  split
  · change (w.visit t p r id).1.graph.cycles = _
    cases hfile : ImportLines.ofFile t (p.pathOf id) with
    | error e => rw [visit_error hfile]; rfl
    | ok lines =>
      rw [visit_ok hfile]
      exact (cycles_resolveAll _ _ _ _ _ _).trans (cycles_prepared w id)
  · rfl

/-! ## Following imports -/

/-- An import that leads back to the stack is counted. -/
theorem tracking_countCycle {w : Walk} (h : Tracking w.graph (⟨id, next :: pending⟩ :: stack))
    (hnext : next ∈ (⟨id, pending⟩ :: stack).map Frame.id) :
    Tracking w.countCycle.graph (⟨id, pending⟩ :: stack) where
  spine := ⟨h.spine.passed.entered, h.spine.passed.pending, h.spine.passed.below⟩
  covered hzero := absurd hzero (Nat.succ_ne_zero _)
  finished hzero := absurd hzero (Nat.succ_ne_zero _)
  cyclic _ := h.spine.exists_cycle hnext

/-- A source that is entered goes on top of the stack, from where it can be reached. -/
theorem tracking_enter {w : Walk} (importer : Option SourceId) (hnew : next ∉ w.graph.imports)
    (hspine : Spine w.graph stack) (hreach : ∀ f ∈ stack, ∃ a, w.graph.Reaches f.id a ∧
      w.graph.Imports a next)
    (hcovered : w.graph.cycles = 0 → Covered w.graph [next] stack)
    (hfinished : w.graph.cycles = 0 → ∀ a ∈ w.graph.imports,
      a ∈ stack.map Frame.id ∨ w.graph.Finished a)
    (hcyclic : w.graph.cycles ≠ 0 → ∃ a, Relation.TransGen w.graph.Imports a a) :
    Tracking (w.enter t p r next importer).2.graph
      ((w.enter t p r next importer).1 :: stack) := by
  have hgrows := grows_enter (t := t) (p := p) (r := r) w importer hnew
  have hcycles := cycles_enter (t := t) (p := p) (r := r) w next importer
  obtain ⟨s, hframe, himports⟩ := w.enter_spec (t := t) (p := p) (r := r) next importer
  rw [hframe]
  generalize (w.enter t p r next importer).2.graph = g at hgrows hcycles himports ⊢
  have hmem : ∀ {a}, a ∈ g.imports ↔ a = next ∨ a ∈ w.graph.imports := fun {a} => by
    rw [himports, Std.ExtTreeMap.mem_insert, Std.LawfulEqCmp.compare_eq_iff_eq, eq_comm]
  have hown : ∀ {b}, g.Imports next b ↔ b ∈ s.toList := fun {b} => by
    unfold ImportGraph.Imports directImports
    rw [himports, getElem?_insert_ite, if_pos rfl, Std.ExtTreeSet.mem_toList]
    rfl
  rw [← hcycles] at hcovered hfinished hcyclic
  refine ⟨⟨?_, ?_, ?_⟩, fun hzero => ⟨fun b hb => Or.inl (hown.mp hb), ?_⟩,
    fun hzero a ha => ?_, fun hsome => ?_⟩
  · refine List.forall_mem_cons.mpr ⟨hmem.mpr (Or.inl rfl), fun f hf => ?_⟩
    exact hgrows.mem (hspine.entered f hf)
  · exact List.forall_mem_cons.mpr ⟨fun b hb => hown.mpr hb,
      fun f hf b hb => hgrows.imports_of (hspine.pending f hf b hb)⟩
  · refine List.pairwise_cons.mpr ⟨fun f hf => ?_, hspine.below.imp hgrows.reaches⟩
    obtain ⟨a, hfa, han⟩ := hreach f hf
    exact (hgrows.reaches hfa).tail (hgrows.imports_of han)
  · exact (hcovered hzero).mono hgrows hspine.entered fun b hb => Or.inl hb
  · rcases hmem.mp ha with rfl | ha
    · exact Or.inl List.mem_cons_self
    · exact (hfinished hzero a ha).imp (List.mem_cons_of_mem _) (·.mono hgrows)
  · obtain ⟨a, ha⟩ := hcyclic hsome
    exact ⟨a, Relation.TransGen.mono (fun _ _ => hgrows.imports_of) _ _ ha⟩

/-- A source that is entered from the stack is above its importer. -/
theorem Tracking.entered {w : Walk} (importer : Option SourceId)
    (h : Tracking w.graph (⟨id, next :: pending⟩ :: stack)) (hnew : next ∉ w.graph.imports) :
    Tracking (w.enter t p r next importer).2.graph
      ((w.enter t p r next importer).1 :: ⟨id, pending⟩ :: stack) := by
  have himport : w.graph.Imports id next :=
    h.spine.pending _ List.mem_cons_self next List.mem_cons_self
  refine tracking_enter importer hnew h.spine.passed ?_ (fun hzero => ⟨fun b hb => ?_, ?_⟩)
    h.finished h.cyclic
  · refine List.forall_mem_cons.mpr ⟨⟨id, Relation.ReflTransGen.refl, himport⟩, fun f hf => ?_⟩
    exact ⟨id, (List.pairwise_cons.mp h.spine.below).1 f hf, himport⟩
  · rcases (h.covered hzero).1 b hb with hb | hb | hb
    · rcases List.mem_cons.mp hb with rfl | hb
      · exact Or.inr (Or.inl List.mem_cons_self)
      · exact Or.inl hb
    · exact absurd hb List.not_mem_nil
    · exact Or.inr (Or.inr hb)
  · refine (h.covered hzero).2.mono (Grows.refl _) h.spine.tail.entered fun b hb => ?_
    rw [List.mem_singleton.mp hb]
    exact Or.inl List.mem_cons_self

/-- **Following imports** keeps track of what is finished, and of cycles. -/
theorem Tracking.follow {w : Walk} (h : Tracking w.graph stack) :
    Tracking (w.follow t p r stack).graph [] := by
  have hids : ∀ {a : SourceId} {frames : List Frame},
      frames.any (·.id = a) = true ↔ a ∈ frames.map Frame.id := by
    simp
  -- One case for each turn of the loop.
  fun_induction w.follow t p r stack with
  | case1 => exact h
  | case2 _ _ _ ih => exact ih h.popped
  | case3 _ _ _ _ _ _ hback ih => exact ih (tracking_countCycle h (hids.mp hback))
  | case4 _ _ _ _ _ _ hback hnext ih =>
    exact ih (h.passed (Std.ExtTreeMap.contains_iff_mem.mp hnext) fun hmem => hback (hids.mpr hmem))
  | case5 _ id _ _ _ _ _ hnext _ ih =>
    exact ih (h.entered (some id) fun hmem => hnext (Std.ExtTreeMap.contains_iff_mem.mpr hmem))

theorem Tracking.walkFrom {w : Walk} (h : Tracking w.graph []) (entry : SourceId) :
    Tracking (w.walkFrom t p r entry).graph [] := by
  unfold Walk.walkFrom
  split
  · exact h
  · rename_i hentry
    have hnew : entry ∉ w.graph.imports := fun hmem =>
      hentry (Std.ExtTreeMap.contains_iff_mem.mpr hmem)
    exact (tracking_enter none hnew h.spine (fun _ hf => absurd hf List.not_mem_nil)
      (fun _ => trivial) h.finished h.cyclic).follow

theorem Tracking.foldl_walkFrom {w : Walk} (h : Tracking w.graph []) (entries : List SourceId) :
    Tracking (entries.foldl (Walk.walkFrom t p r) w).graph [] := by
  induction entries generalizing w with
  | nil => exact h
  | cons entry entries ih => exact ih (h.walkFrom entry)

end Walk

namespace ImportGraph

open Walk

/-- **A walk counts no cycle iff there is none**: no source of its graph imports itself, directly
or not. -/
theorem cycles_eq_zero_iff {t : FileTree} {p : Project} {r : Registry} {table : RemappingTable}
    {entries : List SourceId} :
    (walk t p r table entries).cycles = 0 ↔
      ∀ a, ¬ Relation.TransGen (walk t p r table entries).Imports a a := by
  have hstart : Tracking (start table) [] :=
    { spine := ⟨fun _ h => absurd h List.not_mem_nil, fun _ h => absurd h List.not_mem_nil,
        List.Pairwise.nil⟩
      covered := fun _ => trivial
      finished := fun _ a ha => by simp [start] at ha
      cyclic := fun h => absurd rfl h }
  have h : Tracking (walk t p r table entries) [] :=
    Tracking.foldl_walkFrom (w := ⟨start table, ∅, enterable t p entries⟩) hstart entries
  constructor
  · intro hzero a hcycle
    obtain ⟨b, hab, -⟩ := Relation.TransGen.head'_iff.mp hcycle
    have hdone := (h.finished hzero a (mem_of_imports hab)).resolve_left List.not_mem_nil
    exact hdone.not_transGen hcycle
  · intro hnone
    refine Decidable.byContradiction fun hsome => ?_
    obtain ⟨a, ha⟩ := h.cyclic hsome
    exact hnone a ha

end ImportGraph

end SolPlan
