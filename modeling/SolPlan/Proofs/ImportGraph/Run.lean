import SolPlan.Proofs.ImportGraph.Enterable
import SolPlan.Proofs.ImportGraph.Walk

/-!
# The walk as a loop

The loop of a walk, step by step (`step?`): it looks at the import that waits next in the uppermost
frame, or takes off a frame in which none waits, or starts with the next entry. It enters a source
whenever its id leads to a file, whether the list of what can be entered holds it or not
(`enterFreely`), and keeps a log of what was entered.

The list is no restriction: an import that leads to a file is on it (`Listed`), and stays there
until the file is entered (`Unread`). So the loop ends, with the graph of the walk.

Results:
* `runs_end`: the loop ends, and its graph is that of the walk; `graph_turns`: so has the loop after
  any number of turns that leave nothing to do;
* **`walk_run`**: every run of the loop leads to that end and enters no source twice; the graph
  holds the sources that were entered, which are those that the entries reach.
-/

namespace SolPlan

open ImportGraph

namespace Walk

variable {t : FileTree} {p : Project} {r : Registry} {entries : List SourceId}

/-! ## Entering without the list -/

/-- Enter a source: a file whatever the list of what can be entered says. -/
def enterFreely (t : FileTree) (p : Project) (r : Registry) (w : Walk) (id : SourceId)
    (importer : Option SourceId) : Frame × Walk :=
  if t.isFile (p.pathOf id) then
    let (w', imports) := w.visit t p r id
    (⟨id, imports.toList⟩, { w'.enterWith id imports with unread := w.unread.erase id })
  else
    (⟨id, []⟩,
      (w.record id (.missingSource id.text (importer.map SourceId.text))).enterWith id ∅)

/-- The list decides nothing for a source that it holds if it is a file. -/
theorem enter_eq_enterFreely {w : Walk} {id : SourceId} (importer : Option SourceId)
    (h : t.isFile (p.pathOf id) = true → id ∈ w.unread) :
    w.enter t p r id importer = w.enterFreely t p r id importer := by
  unfold enter enterFreely
  by_cases hfile : t.isFile (p.pathOf id) = true
  · rw [if_pos ⟨hfile, h hfile⟩, if_pos hfile]
  · rw [if_neg fun hboth => hfile hboth.1, if_neg hfile]

theorem imports_enterFreely (w : Walk) (id : SourceId) (importer : Option SourceId) :
    ∃ s : SourceSet, (w.enterFreely t p r id importer).1 = ⟨id, s.toList⟩ ∧
      (w.enterFreely t p r id importer).2.graph.imports = w.graph.imports.insert id s := by
  unfold enterFreely
  split
  · exact ⟨(w.visit t p r id).2, rfl, by simp only [enterWith, imports_visit]⟩
  · exact ⟨∅, by simp, rfl⟩

theorem grows_enterFreely (w : Walk) {id : SourceId} (importer : Option SourceId)
    (hid : id ∉ w.graph.imports) : Grows w.graph (w.enterFreely t p r id importer).2.graph := by
  unfold enterFreely
  split
  · exact grows_visit w hid
  · have h := noted_record w.graph id
      (.missingSource id.text (importer.map SourceId.text))
    exact Grows.of_insert hid rfl (fun _ _ => rfl) h.errors h.corrects

/-! ## The loop -/

/-- A walk in its loop. -/
structure Loop where
  walk : Walk
  stack : List Frame
  /-- The entries that are still to come. -/
  entries : List SourceId
  /-- The log of the sources that were entered. -/
  entered : List SourceId

namespace Loop

/-- Enter a source from the loop. -/
def enter (t : FileTree) (p : Project) (r : Registry) (s : Loop) (id : SourceId)
    (importer : Option SourceId) : Loop :=
  let entered := s.walk.enterFreely t p r id importer
  { s with
    walk := entered.2
    stack := entered.1 :: s.stack
    entered := s.entered ++ [id] }

/-- One turn of the loop, unless nothing is left to do. -/
def step? (t : FileTree) (p : Project) (r : Registry) (s : Loop) : Option Loop :=
  match s.stack, s.entries with
  | [], [] => none
  | [], entry :: entries =>
    let s := { s with entries }
    some (if s.walk.graph.contains entry then s else s.enter t p r entry none)
  | ⟨_, []⟩ :: stack, _ => some { s with stack }
  | ⟨id, next :: pending⟩ :: stack, _ =>
    let s := { s with stack := ⟨id, pending⟩ :: stack }
    some (if s.stack.any (·.id = next) then { s with walk := s.walk.countCycle }
      else if s.walk.graph.contains next then s
      else s.enter t p r next (some id))

/-- One loop is some turns ahead of another. -/
def Runs (t : FileTree) (p : Project) (r : Registry) : Loop → Loop → Prop :=
  Relation.ReflTransGen fun s s' => step? t p r s = some s'

/-- The loop of a walk that has reached nothing. -/
def start (t : FileTree) (p : Project) (table : RemappingTable) (entries : List SourceId) : Loop :=
  ⟨⟨.start table, ∅, enterable t p entries⟩, [], entries, []⟩

variable {s s' : Loop}

/-- **A turn enters one source that was not entered before, or none.** -/
theorem step?_cases (h : step? t p r s = some s') :
    (s'.entered = s.entered ∧ (s'.walk = s.walk ∨ s'.walk = s.walk.countCycle)) ∨
      ∃ id importer, id ∉ s.walk.graph.imports ∧ s'.entered = s.entered ++ [id] ∧
        s'.walk = (s.walk.enterFreely t p r id importer).2 := by
  have hnew : ∀ {id}, ¬ s.walk.graph.contains id = true → id ∉ s.walk.graph.imports :=
    fun h hmem => h (Std.ExtTreeMap.contains_iff_mem.mpr hmem)
  unfold step? at h
  split at h
  · cases h
  · rename_i entry entries _ _
    cases h
    split
    · exact Or.inl ⟨rfl, Or.inl rfl⟩
    · exact Or.inr ⟨entry, none, hnew ‹_›, rfl, rfl⟩
  · cases h
    exact Or.inl ⟨rfl, Or.inl rfl⟩
  · rename_i id next pending stack _
    cases h
    split
    · exact Or.inl ⟨rfl, Or.inr rfl⟩
    · split
      · exact Or.inl ⟨rfl, Or.inl rfl⟩
      · exact Or.inr ⟨next, some id, hnew ‹_›, rfl, rfl⟩

/-- The next turn enters this source. -/
structure Enters (t : FileTree) (p : Project) (r : Registry) (s : Loop) (id : SourceId)
    (importer : Option SourceId) : Prop where
  new : id ∉ s.walk.graph.imports
  turn : ∃ s', step? t p r s = some s' ∧ s'.entered = s.entered ++ [id] ∧
    s'.walk = (s.walk.enterFreely t p r id importer).2

/-- The log names the sources of the graph, each once. -/
structure Logged (s : Loop) : Prop where
  nodup : s.entered.Nodup
  mem_iff : ∀ id, id ∈ s.entered ↔ id ∈ s.walk.graph.imports

theorem logged_start (t : FileTree) (p : Project) (table : RemappingTable)
    (entries : List SourceId) : Logged (start t p table entries) :=
  ⟨List.nodup_nil, fun id => by simp [start, ImportGraph.start]⟩

theorem Logged.step (hs : Logged s) (h : step? t p r s = some s') : Logged s' := by
  rcases step?_cases h with ⟨hentered, hwalk⟩ | ⟨id, importer, hid, hentered, hwalk⟩
  · have himports : s'.walk.graph.imports = s.walk.graph.imports := by
      rcases hwalk with hwalk | hwalk <;> rw [hwalk]
      rfl
    exact ⟨hentered ▸ hs.nodup, fun id => by rw [hentered, himports, hs.mem_iff]⟩
  · obtain ⟨imports, -, himports⟩ :=
      s.walk.imports_enterFreely (t := t) (p := p) (r := r) id importer
    refine ⟨?_, fun a => ?_⟩
    · rw [hentered]
      refine List.nodup_append.mpr ⟨hs.nodup, List.pairwise_singleton _ id, fun a ha b hb => ?_⟩
      rw [List.mem_singleton.mp hb]
      rintro rfl
      exact hid ((hs.mem_iff a).mp ha)
    · rw [hentered, hwalk, himports, List.mem_append, List.mem_singleton, hs.mem_iff,
        Std.ExtTreeMap.mem_insert, Std.LawfulEqCmp.compare_eq_iff_eq, or_comm, eq_comm]

theorem Logged.runs (hs : Logged s) (h : Runs t p r s s') : Logged s' := by
  induction h with
  | refl => exact hs
  | tail _ hstep ih => exact ih.step hstep

/-- A turn takes nothing away. -/
theorem grows_step (h : step? t p r s = some s') : Grows s.walk.graph s'.walk.graph := by
  rcases step?_cases h with ⟨-, hwalk | hwalk⟩ | ⟨id, importer, hid, -, hwalk⟩
  · rw [hwalk]
    exact Grows.refl _
  · rw [hwalk]
    exact grows_countCycle _
  · rw [hwalk]
    exact grows_enterFreely _ importer hid

/-! ## The list is no restriction -/

/-- What waits to be entered is on the list of what can be entered if it is a file, and what is on
that list was entered or is unread. -/
structure Listed (t : FileTree) (p : Project) (all : List SourceId) (s : Loop) : Prop where
  pending : ∀ f ∈ s.stack, ∀ b ∈ f.pending, t.isFile (p.pathOf b) = true → b ∈ enterable t p all
  entries : ∀ b ∈ s.entries, b ∈ enterable t p all
  unread : ∀ b ∈ enterable t p all, b ∉ s.walk.graph.imports → b ∈ s.walk.unread

theorem listed_start (t : FileTree) (p : Project) (table : RemappingTable)
    (entries : List SourceId) : Listed t p entries (start t p table entries) :=
  ⟨fun _ hf => absurd hf List.not_mem_nil, fun _ hb => mem_enterable.mpr (Or.inl hb),
    fun _ hb _ => hb⟩

variable {all : List SourceId}

/-- The imports in a frame that is entered are on the list. -/
theorem mem_enterable_of_mem_enterFreely {w : Walk} {id : SourceId} {importer : Option SourceId}
    {b : SourceId} (hb : b ∈ (w.enterFreely t p r id importer).1.pending)
    (hfile : t.isFile (p.pathOf b) = true) : b ∈ enterable t p all := by
  unfold enterFreely at hb
  split at hb
  · exact mem_enterable_of_mem_visit (Std.ExtTreeSet.mem_toList.mp hb) hfile
  · exact absurd hb List.not_mem_nil

theorem mem_unread_enterFreely {w : Walk} {id : SourceId} {importer : Option SourceId}
    {b : SourceId} (hb : b ∈ w.unread) (hne : b ≠ id) :
    b ∈ (w.enterFreely t p r id importer).2.unread := by
  unfold enterFreely
  split
  · exact SourceSet.mem_erase.mpr ⟨hne, hb⟩
  · exact hb

/-- A source that is entered brings imports that are on the list, and leaves it. -/
theorem Listed.enter (hs : Listed t p all s) (id : SourceId) (importer : Option SourceId) :
    Listed t p all (s.enter t p r id importer) := by
  refine ⟨fun f hf b hb hfile => ?_, hs.entries, fun b hb hnew => ?_⟩
  · rcases List.mem_cons.mp hf with rfl | hf
    · exact mem_enterable_of_mem_enterFreely hb hfile
    · exact hs.pending f hf b hb hfile
  · obtain ⟨imports, -, himports⟩ :=
      s.walk.imports_enterFreely (t := t) (p := p) (r := r) id importer
    have hnew : b ∉ s.walk.graph.imports.insert id imports := himports ▸ hnew
    rw [Std.ExtTreeMap.mem_insert, Std.LawfulEqCmp.compare_eq_iff_eq, not_or] at hnew
    exact mem_unread_enterFreely (hs.unread b hb hnew.2) (Ne.symm hnew.1)

/-- A stack on which less waits. -/
theorem Listed.of_stack (hs : Listed t p all s) {stack : List Frame}
    (h : ∀ f ∈ stack, ∀ b ∈ f.pending, ∃ f' ∈ s.stack, b ∈ f'.pending) :
    Listed t p all { s with stack } :=
  ⟨fun f hf b hb hfile => by
    obtain ⟨f', hf', hb'⟩ := h f hf b hb
    exact hs.pending f' hf' b hb' hfile, hs.entries, hs.unread⟩

theorem Listed.tail (hs : Listed t p all s) {f : Frame} {stack : List Frame}
    (h : s.stack = f :: stack) : Listed t p all { s with stack } :=
  hs.of_stack fun f' hf' _ hb => ⟨f', h ▸ List.mem_cons_of_mem _ hf', hb⟩

theorem Listed.next (hs : Listed t p all s) {id next : SourceId} {pending : List SourceId}
    {stack : List Frame} (h : s.stack = ⟨id, next :: pending⟩ :: stack) :
    Listed t p all { s with stack := ⟨id, pending⟩ :: stack } := by
  refine hs.of_stack fun f hf b hb => ?_
  rw [h]
  rcases List.mem_cons.mp hf with rfl | hf
  · exact ⟨⟨id, next :: pending⟩, List.mem_cons_self, List.mem_cons_of_mem _ hb⟩
  · exact ⟨f, List.mem_cons_of_mem _ hf, hb⟩

/-- What is on the list is entered as the walk enters it. -/
theorem Listed.enter_eq (hs : Listed t p all s) {id : SourceId} (importer : Option SourceId)
    (hlisted : t.isFile (p.pathOf id) = true → id ∈ enterable t p all)
    (hnew : id ∉ s.walk.graph.imports) :
    s.enter t p r id importer =
      ⟨(s.walk.enter t p r id importer).2, (s.walk.enter t p r id importer).1 :: s.stack,
        s.entries, s.entered ++ [id]⟩ := by
  rw [enter_eq_enterFreely importer fun hfile => hs.unread id (hlisted hfile) hnew]
  rfl

/-- The loop follows the imports on the stack as the walk does. -/
theorem runs_follow (w : Walk) (stack : List Frame) (rest : List SourceId) :
    ∀ log, Listed t p all ⟨w, stack, rest, log⟩ →
      ∃ log', Listed t p all ⟨w.follow t p r stack, [], rest, log'⟩ ∧
        Runs t p r ⟨w, stack, rest, log⟩ ⟨w.follow t p r stack, [], rest, log'⟩ := by
  -- Along the recursion of the walk, one turn a case. `Listed` is what makes both enter alike.
  fun_induction w.follow t p r stack with
  | case1 => exact fun log hs => ⟨log, hs, Relation.ReflTransGen.refl⟩
  | case2 w id stack ih =>
    intro log hs
    obtain ⟨log', hs', hruns⟩ := ih log (hs.tail rfl)
    exact ⟨log', hs', hruns.head rfl⟩
  | case3 w id next pending stack _ hcycle ih =>
    intro log hs
    have hs := hs.next rfl
    obtain ⟨log', hs', hruns⟩ := ih log ⟨hs.pending, hs.entries, hs.unread⟩
    exact ⟨log', hs', hruns.head (congrArg some (if_pos hcycle))⟩
  | case4 w id next pending stack _ hcycle hnext ih =>
    intro log hs
    obtain ⟨log', hs', hruns⟩ := ih log (hs.next rfl)
    exact ⟨log', hs', hruns.head (congrArg some ((if_neg hcycle).trans (if_pos hnext)))⟩
  | case5 w id next pending stack _ hcycle hnext entered ih =>
    intro log hs
    have hnew : next ∉ w.graph.imports := fun hmem =>
      hnext (Std.ExtTreeMap.contains_iff_mem.mpr hmem)
    have hlisted := hs.pending ⟨id, next :: pending⟩ List.mem_cons_self next List.mem_cons_self
    have hs := hs.next rfl
    have henter := hs.enter_eq (r := r) (some id) hlisted hnew
    have hentered := hs.enter (r := r) next (some id)
    rw [henter] at hentered
    obtain ⟨log', hs', hruns⟩ := ih _ hentered
    exact ⟨log', hs', hruns.head
      (congrArg some (((if_neg hcycle).trans (if_neg hnext)).trans henter))⟩

/-- The loop goes from entry to entry as the walk does. -/
theorem runs_entries (entries : List SourceId) (w : Walk) {log : List SourceId}
    (hs : Listed t p all ⟨w, [], entries, log⟩) :
    ∃ log', Runs t p r ⟨w, [], entries, log⟩ ⟨entries.foldl (walkFrom t p r) w, [], [], log'⟩ := by
  induction entries generalizing w log with
  | nil => exact ⟨log, Relation.ReflTransGen.refl⟩
  | cons entry entries ih =>
    have hs' : Listed t p all ⟨w, [], entries, log⟩ :=
      ⟨hs.pending, fun b hb => hs.entries b (List.mem_cons_of_mem _ hb), hs.unread⟩
    rw [List.foldl_cons]
    unfold walkFrom
    split
    · rename_i hentry
      obtain ⟨log', hruns⟩ := ih w hs'
      exact ⟨log', hruns.head (congrArg some (if_pos hentry))⟩
    · rename_i hentry
      have hnew : entry ∉ w.graph.imports := fun hmem =>
        hentry (Std.ExtTreeMap.contains_iff_mem.mpr hmem)
      have henter := hs'.enter_eq (r := r) none (fun _ => hs.entries entry List.mem_cons_self) hnew
      have hentered := hs'.enter (r := r) entry none
      rw [henter] at hentered
      obtain ⟨log₁, hs₁, hruns₁⟩ := runs_follow (r := r) _ _ _ _ hentered
      obtain ⟨log₂, hruns₂⟩ := ih _ hs₁
      exact ⟨log₂, (hruns₁.trans hruns₂).head (congrArg some ((if_neg hentry).trans henter))⟩

variable {table : RemappingTable}

variable (t p r table entries) in
/-- **The loop ends, with the graph of the walk.** -/
theorem runs_end : ∃ s, Runs t p r (start t p table entries) s ∧ step? t p r s = none ∧
    s.walk.graph = ImportGraph.walk t p r table entries := by
  obtain ⟨log, hruns⟩ := runs_entries (r := r) entries _ (listed_start t p table entries)
  exact ⟨_, hruns, rfl, rfl⟩

/-- Each run leads to the end of the loop. -/
theorem Runs.to_end {last : Loop} (hlast : Runs t p r (start t p table entries) last)
    (hend : step? t p r last = none) (h : Runs t p r (start t p table entries) s) :
    Runs t p r s last :=
  runs_to_stop hlast hend h

/-- Some turns of the loop, or all if it ends before. -/
def turns (t : FileTree) (p : Project) (r : Registry) : Nat → Loop → Loop
  | 0, s => s
  | n + 1, s => ((step? t p r s).map (turns t p r n)).getD s

theorem runs_turns (n : Nat) (s : Loop) : Runs t p r s (turns t p r n s) := by
  induction n generalizing s with
  | zero => exact Relation.ReflTransGen.refl
  | succ n ih =>
    unfold turns
    cases h : step? t p r s with
    | none => exact Relation.ReflTransGen.refl
    | some s' => exact (ih s').head h

/-- Turns after which nothing is left to do have made the graph of the walk. -/
theorem graph_turns {n : Nat}
    (h : step? t p r (turns t p r n (start t p table entries)) = none) :
    (turns t p r n (start t p table entries)).walk.graph =
      ImportGraph.walk t p r table entries := by
  obtain ⟨last, hlast, hend, hgraph⟩ := runs_end t p r entries table
  rcases (Runs.to_end hlast hend (runs_turns n _)).cases_head with heq | ⟨s, hstep, -⟩
  · rw [heq, hgraph]
  · rw [h] at hstep
    cases hstep

/-- What a run has brought into the graph was entered by one of its turns. -/
theorem Runs.exists_entered (h : Runs t p r s s') {id : SourceId}
    (hold : id ∉ s.walk.graph.imports) (hid : id ∈ s'.walk.graph.imports) :
    ∃ m importer, Runs t p r s m ∧ Enters t p r m id importer ∧
      Grows (m.walk.enterFreely t p r id importer).2.graph s'.walk.graph := by
  induction h with
  | refl => exact absurd hid hold
  | @tail m m' hruns hstep ih =>
    -- Either an earlier turn has entered it, or the last one does.
    by_cases hm : id ∈ m.walk.graph.imports
    · obtain ⟨k, importer, hk, henters, hgrows⟩ := ih hm
      exact ⟨k, importer, hk, henters, hgrows.trans (grows_step hstep)⟩
    · rcases step?_cases hstep with ⟨-, hwalk⟩ | ⟨a, importer, ha, hentered, hwalk⟩
      · refine absurd hid ?_
        rcases hwalk with hwalk | hwalk <;> rw [hwalk] <;> exact hm
      · obtain ⟨imports, -, himports⟩ :=
          m.walk.imports_enterFreely (t := t) (p := p) (r := r) a importer
        rw [hwalk, himports, Std.ExtTreeMap.mem_insert, Std.LawfulEqCmp.compare_eq_iff_eq] at hid
        obtain rfl : a = id := hid.resolve_right hm
        exact ⟨m, importer, hruns, ⟨ha, m', hstep, hentered, hwalk⟩, hwalk ▸ Grows.refl _⟩

end Loop

end Walk

namespace ImportGraph

open Walk

variable {t : FileTree} {p : Project} {r : Registry} {table : RemappingTable}
  {entries : List SourceId}

/-- A source of a graph was entered by a turn of the loop, and what was found then is kept. -/
theorem exists_entered {id : SourceId} (hid : id ∈ (walk t p r table entries).imports) :
    ∃ s importer, Loop.Runs t p r (Loop.start t p table entries) s ∧
      Loop.Enters t p r s id importer ∧
      Grows (s.walk.enterFreely t p r id importer).2.graph (walk t p r table entries) := by
  obtain ⟨last, hlast, -, hgraph⟩ := Loop.runs_end t p r entries table
  rw [← hgraph] at hid ⊢
  exact hlast.exists_entered (by simp [Loop.start, start]) hid

/-- **The loop of a walk ends, and enters each source once that the entries reach.** -/
theorem walk_run :
    (∃ last, Loop.Runs t p r (Loop.start t p table entries) last ∧ Loop.step? t p r last = none ∧
      last.walk.graph = walk t p r table entries ∧
      (∀ id, id ∈ last.entered ↔ id ∈ (walk t p r table entries).imports) ∧
      ∀ s, Loop.Runs t p r (Loop.start t p table entries) s →
        s.entered.Nodup ∧ Loop.Runs t p r s last) ∧
    (∀ id, id ∈ (walk t p r table entries).imports ↔
      ∃ a ∈ entries, (walk t p r table entries).Reaches a id) ∧
    (∀ a, ∀ b ∈ (walk t p r table entries).directImports a,
      b ∈ (walk t p r table entries).imports) ∧
    (walk t p r table entries).sources.Pairwise (fun a b => compare a b = .lt) ∧
    ∀ a, ((walk t p r table entries).directImports a).toList.Pairwise fun b c =>
      compare b c = .lt := by
  obtain ⟨last, hlast, hend, hgraph⟩ := Loop.runs_end t p r entries table
  have hlogged : ∀ s, Loop.Runs t p r (Loop.start t p table entries) s → Loop.Logged s :=
    fun s h => (Loop.logged_start t p table entries).runs h
  refine ⟨⟨last, hlast, hend, hgraph, fun id => ?_, fun s h => ⟨(hlogged s h).nodup,
    hlast.to_end hend h⟩⟩, fun id => mem_walk_iff, fun a b h => imports_closed h,
    Std.ExtTreeMap.ordered_keys, fun a => Std.ExtTreeSet.ordered_toList⟩
  rw [(hlogged last hlast).mem_iff, hgraph]

end ImportGraph

end SolPlan
