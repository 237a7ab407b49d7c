import Mathlib
import SolPlan.Proofs.ImportGraph.Run

/-!
# No statement is lost

The imports of a file are distinct (`Import.Distinct`): one that is the same as an earlier one is
not added. So each statement of the file that can be read leaves exactly one import that is the
same as what it resolves to, whatever table it is resolved with; each of the others leaves an error.
The imports, and with them the direct imports of the source, are noted when the source is entered,
and no later turn of the walk changes them.

Results:
* `enterFreely_ok`, `enterFreely_error`: what is noted when a source is entered;
* **`walk_statements`**: each statement of a file that was reached is noted, as an import or as an
  error, and a file that cannot be read leaves an error and nothing else.
-/

namespace SolPlan

namespace Import

variable {i j k : Import} {imports : List Import}

theorem SameAs.refl (i : Import) : i.SameAs i := by
  unfold SameAs
  cases i.target with
  | none => rfl
  | some target => rfl

theorem SameAs.symm (h : i.SameAs j) : j.SameAs i := by
  unfold SameAs at h ⊢
  cases hi : i.target <;> cases hj : j.target <;> rw [hi, hj] at h
  · exact Eq.symm h
  · exact h
  · exact h
  · exact Eq.symm h

theorem SameAs.trans (h : i.SameAs j) (h' : j.SameAs k) : i.SameAs k := by
  unfold SameAs at h h' ⊢
  cases hi : i.target <;> cases hj : j.target <;> cases hk : k.target <;> rw [hi, hj] at h <;>
    rw [hj, hk] at h'
  · exact Eq.trans h h'
  · exact h'
  · exact h.elim
  · exact h.elim
  · exact h.elim
  · exact h.elim
  · exact h'
  · exact Eq.trans h h'

/-- No two of the imports are the same. -/
def Distinct (imports : List Import) : Prop := imports.Pairwise fun i j => ¬ i.SameAs j

theorem prefix_addTo (imports : List Import) (i : Import) : imports <+: i.addTo imports := by
  unfold addTo
  split
  · exact List.prefix_rfl
  · exact List.prefix_append _ _

theorem Distinct.addTo (h : Distinct imports) (i : Import) : Distinct (i.addTo imports) := by
  unfold Import.addTo
  split
  · exact h
  · rename_i hnew
    refine List.pairwise_append.mpr ⟨h, List.pairwise_singleton _ i, fun j hj k hk hsame => hnew ?_⟩
    rw [List.mem_singleton.mp hk] at hsame
    exact List.any_eq_true.mpr ⟨j, hj, decide_eq_true hsame⟩

theorem exists_sameAs_addTo (imports : List Import) (i : Import) :
    ∃ j ∈ i.addTo imports, j.SameAs i := by
  unfold addTo
  split
  · rename_i hold
    obtain ⟨j, hj, hsame⟩ := List.any_eq_true.mp hold
    exact ⟨j, hj, of_decide_eq_true hsame⟩
  · exact ⟨i, List.mem_append_right _ List.mem_cons_self, SameAs.refl i⟩

/-- Among distinct imports only one is the same as another. -/
theorem Distinct.filter_sameAs (h : Distinct imports) (hj : j ∈ imports) (hsame : j.SameAs i) :
    imports.filter (fun k => k.SameAs i) = [j] := by
  induction imports with
  | nil => exact absurd hj List.not_mem_nil
  | cons k imports ih =>
    obtain ⟨hk, himports⟩ := List.pairwise_cons.mp h
    rcases List.mem_cons.mp hj with rfl | hj
    · rw [List.filter_cons_of_pos (by exact decide_eq_true hsame)]
      refine congrArg (j :: ·) (List.filter_eq_nil_iff.mpr fun k hk' hsame' => ?_)
      exact hk k hk' (hsame.trans (of_decide_eq_true hsame').symm)
    · rw [List.filter_cons_of_neg, ih himports hj]
      intro hsame'
      exact hk j hj ((of_decide_eq_true hsame').trans hsame.symm)

end Import

namespace Walk

open ImportGraph

variable {t : FileTree} {p : Project} {r : Registry} {id : SourceId} {path : Path}
  {package : Option PackageId} {w : Walk} {done : List Import}

/-! ## Resolving the statements of a file -/

theorem resolveAll_error {raw : Text} {e : Error}
    (h : Import.resolve t p r (w.tableFor package) path raw = .error e) (lines : List Text) :
    resolveAll t p r id path package (raw :: lines) w done =
      resolveAll t p r id path package lines (w.record id e) done := by
  rw [resolveAll, h]

theorem resolveAll_ok {raw : Text} {res : Resolution}
    (h : Import.resolve t p r (w.tableFor package) path raw = .ok res) (lines : List Text) :
    resolveAll t p r id path package (raw :: lines) w done =
      resolveAll t p r id path package lines (w.correctMaybe package res.correction)
        (res.statement.addTo done) := by
  rw [resolveAll, h]

theorem resolveAll_append (before after : List Text) :
    resolveAll t p r id path package (before ++ after) w done =
      resolveAll t p r id path package after
        (resolveAll t p r id path package before w done).1
        (resolveAll t p r id path package before w done).2 := by
  induction before generalizing w done with
  | nil => rfl
  | cons raw before ih =>
    rw [List.cons_append]
    cases h : Import.resolve t p r (w.tableFor package) path raw with
    | error e => rw [resolveAll_error h, resolveAll_error h, ih]
    | ok res => rw [resolveAll_ok h, resolveAll_ok h, ih]

theorem prefix_resolveAll (lines : List Text) :
    done <+: (resolveAll t p r id path package lines w done).2 := by
  induction lines generalizing w done with
  | nil => exact List.prefix_rfl
  | cons raw lines ih =>
    cases h : Import.resolve t p r (w.tableFor package) path raw with
    | error e => rw [resolveAll_error h]; exact ih
    | ok res => rw [resolveAll_ok h]; exact (Import.prefix_addTo done res.statement).trans ih

theorem distinct_resolveAll (hdone : Import.Distinct done) (lines : List Text) :
    Import.Distinct (resolveAll t p r id path package lines w done).2 := by
  induction lines generalizing w done with
  | nil => exact hdone
  | cons raw lines ih =>
    cases h : Import.resolve t p r (w.tableFor package) path raw with
    | error e => rw [resolveAll_error h]; exact ih hdone
    | ok res => rw [resolveAll_ok h]; exact ih (hdone.addTo res.statement)

/-- A statement that cannot be read leaves an error. -/
theorem error_mem_resolveAll {before after : List Text} {raw : Text} {e : Error}
    (h : Import.resolve t p r
      ((resolveAll t p r id path package before w done).1.tableFor package) path raw = .error e) :
    e ∈ (resolveAll t p r id path package (before ++ raw :: after) w done).1.graph.errorsOf id := by
  rw [resolveAll_append, resolveAll_error h]
  -- What came before the statement no longer matters: the error is noted, and errors stay.
  generalize resolveAll t p r id path package before w done = done
  refine ((noted_resolveAll id path package after _ done.2).errors id).subset ?_
  change e ∈ (done.1.graph.record id e).errorsOf id
  rw [errorsOf_record, if_pos rfl]
  exact List.mem_append_right _ List.mem_cons_self

/-- A statement that can be read leaves exactly one import that is the same. -/
theorem filter_sameAs_resolveAll {before : List Text} {raw : Text} {res : Resolution}
    (after : List Text) (hdone : Import.Distinct done)
    (h : Import.resolve t p r
      ((resolveAll t p r id path package before w done).1.tableFor package) path raw = .ok res) :
    ∃ j ∈ (resolveAll t p r id path package (before ++ raw :: after) w done).2,
      (resolveAll t p r id path package (before ++ raw :: after) w done).2.filter
        (fun k => k.SameAs res.statement) = [j] := by
  have hdistinct : Import.Distinct
      (resolveAll t p r id path package (before ++ raw :: after) w done).2 :=
    distinct_resolveAll hdone _
  have hmem : ∃ j ∈ (resolveAll t p r id path package (before ++ raw :: after) w done).2,
      j.SameAs res.statement := by
    rw [resolveAll_append, resolveAll_ok h]
    generalize resolveAll t p r id path package before w done = resolved
    obtain ⟨j, hj, hsame⟩ := Import.exists_sameAs_addTo resolved.2 res.statement
    exact ⟨j, (prefix_resolveAll after).subset hj, hsame⟩
  obtain ⟨j, hj, hsame⟩ := hmem
  exact ⟨j, hj, hdistinct.filter_sameAs hj hsame⟩

/-! ## What is noted for a source -/

/-- The walk after some statements of a source were resolved, and the imports that they leave. -/
def resolved (t : FileTree) (p : Project) (r : Registry) (w : Walk) (id : SourceId)
    (lines : List Text) : Walk × List Import :=
  resolveAll t p r id (p.pathOf id) (Project.packageOf? id) lines (prepared p r w id) []

/-- The table that counts after some statements of a source. -/
def tableAfter (t : FileTree) (p : Project) (r : Registry) (w : Walk) (id : SourceId)
    (lines : List Text) : RemappingTable :=
  (resolved t p r w id lines).1.tableFor (Project.packageOf? id)

theorem isFile_of_ofFile {lines : List Text} (h : ImportLines.ofFile t path = .ok lines) :
    t.isFile path = true := by
  unfold ImportLines.ofFile FileTree.readText at h
  unfold FileTree.isFile FileTree.lookup?
  cases hfind : t.find path with
  | error fault => simp only [hfind] at h; cases h
  | ok l =>
    simp only [hfind] at h ⊢
    split at h
    · rename_i he
      rw [he]
      rfl
    all_goals cases h

/-- **Entering a source whose statements cannot be read** leaves an error, and no imports. -/
theorem enterFreely_error (importer : Option SourceId)
    (h : ∀ lines, ImportLines.ofFile t (p.pathOf id) ≠ .ok lines) :
    (w.enterFreely t p r id importer).2.graph.errorsOf id ≠ [] ∧
      (w.enterFreely t p r id importer).2.graph.imports[id]? = some ∅ := by
  have hnoted : ∀ e, ((w.record id e).enterWith id ∅).graph.errorsOf id ≠ [] ∧
      ((w.record id e).enterWith id ∅).graph.imports[id]? = some ∅ := fun e => by
    refine ⟨?_, Std.ExtTreeMap.getElem?_insert_self⟩
    change (w.graph.record id e).errorsOf id ≠ []
    rw [errorsOf_record, if_pos rfl]
    simp
  unfold enterFreely
  split
  · cases hlines : ImportLines.ofFile t (p.pathOf id) with
    | ok lines => exact absurd hlines (h lines)
    | error e =>
      rw [visit_error hlines]
      exact hnoted e
  · exact hnoted _

/-- **Entering a source whose statements can be read** notes what they resolve to. -/
theorem enterFreely_ok {lines : List Text} (importer : Option SourceId)
    (h : ImportLines.ofFile t (p.pathOf id) = .ok lines) :
    (w.enterFreely t p r id importer).2.graph.statements[id]? =
        some (resolved t p r w id lines).2 ∧
      (w.enterFreely t p r id importer).2.graph.imports[id]? =
        some (targets (resolved t p r w id lines).2) ∧
      (w.enterFreely t p r id importer).2.graph.errorsOf id =
        (resolved t p r w id lines).1.graph.errorsOf id := by
  unfold enterFreely
  rw [if_pos (isFile_of_ofFile h), visit_ok h]
  exact ⟨Std.ExtTreeMap.getElem?_insert_self, Std.ExtTreeMap.getElem?_insert_self, rfl⟩

end Walk

namespace ImportGraph

open Walk

variable {t : FileTree} {p : Project} {r : Registry} {table : RemappingTable}
  {entries : List SourceId} {id : SourceId} {g g' : ImportGraph}

theorem Grows.mem_errorsOf (h : Grows g g') {e : Error} (he : e ∈ g.errorsOf id) :
    e ∈ g'.errorsOf id :=
  (h.errors id).subset he

theorem Grows.directImports (h : Grows g g') {s : SourceSet} (hs : g.imports[id]? = some s) :
    g'.directImports id = s := by
  have hid : id ∈ g.imports := by
    rw [Std.ExtTreeMap.mem_iff_isSome_getElem?, hs]
    rfl
  unfold ImportGraph.directImports
  rw [h.imports id hid, hs]
  rfl

theorem Grows.statementsOf (h : Grows g g') (hid : id ∈ g.imports) {l : List Import}
    (hl : g.statements[id]? = some l) : g'.statementsOf id = l := by
  unfold ImportGraph.statementsOf
  rw [h.statements id hid, hl]
  rfl

theorem mem_unresolved {i : Import} : (id, i) ∈ g.unresolved ↔
    id ∈ g.imports ∧ i ∈ g.statementsOf id ∧ i.target = none := by
  unfold unresolved sources
  simp only [List.mem_flatMap, List.mem_map, List.mem_filter, Prod.mk.injEq,
    Std.ExtTreeMap.mem_keys, Bool.not_eq_true', Import.isResolved, Option.isSome_eq_false_iff,
    Option.isNone_iff_eq_none]
  constructor
  · rintro ⟨id, hid, i, ⟨hi, hnone⟩, rfl, rfl⟩
    exact ⟨hid, hi, hnone⟩
  · rintro ⟨hid, hi, hnone⟩
    exact ⟨id, hid, i, ⟨hi, hnone⟩, rfl, rfl⟩

/-- A statement of a source is in the graph: as an error if it has no literal, and otherwise as
exactly one import that is the same as what it resolves to with a table. -/
def Holds (t : FileTree) (p : Project) (r : Registry) (g : ImportGraph) (id : SourceId)
    (table : RemappingTable) (raw : Text) : Prop :=
  if Import.Malformed raw then .unreadableImport (p.pathOf id) raw ∈ g.errorsOf id
  else
    ∃ res, Import.resolve t p r table (p.pathOf id) raw = .ok res ∧
      ∃ i, (g.statementsOf id).filter (fun j => j.SameAs res.statement) = [i] ∧
        ((∃ target, i.target = some target ∧ target.id ∈ g.directImports id ∧
            target.id ∈ g.imports) ∨
          i.target = none ∧ (id, i) ∈ g.unresolved)

/-- What was found when a source of a walk was entered. -/
structure Found (t : FileTree) (p : Project) (r : Registry) (g : ImportGraph) (id : SourceId)
    (found : Walk × List Import) : Prop where
  mem : id ∈ g.imports
  statements : g.statementsOf id = found.2
  targets : g.directImports id = targets found.2
  errors : ∀ e ∈ found.1.graph.errorsOf id, e ∈ g.errorsOf id

theorem found_of_grows {w : Walk} {importer : Option SourceId} {lines : List Text}
    (h : ImportLines.ofFile t (p.pathOf id) = .ok lines)
    (hg : Grows (w.enterFreely t p r id importer).2.graph g) :
    Found t p r g id (resolved t p r w id lines) := by
  obtain ⟨hstatements, himports, herrors⟩ := enterFreely_ok (w := w) (r := r) importer h
  have hid : id ∈ (w.enterFreely t p r id importer).2.graph.imports := by
    rw [Std.ExtTreeMap.mem_iff_isSome_getElem?, himports]
    rfl
  exact ⟨hg.mem hid, hg.statementsOf hid hstatements, hg.directImports himports,
    fun e he => hg.mem_errorsOf (herrors ▸ he)⟩

/-- Each statement of a source that was entered is in the graph. -/
theorem Found.holds {w : Walk} {lines before after : List Text} {raw : Text}
    (h : Found t p r g id (resolved t p r w id lines)) (hlines : lines = before ++ raw :: after)
    (hclosed : ∀ b ∈ g.directImports id, b ∈ g.imports) :
    g.Holds t p r id (tableAfter t p r w id before) raw := by
  subst hlines
  unfold Holds
  split
  · rename_i hmalformed
    exact h.errors _ (error_mem_resolveAll (Import.resolve_malformed hmalformed))
  · rename_i hliteral
    obtain ⟨res, hres⟩ : ∃ res, Import.resolve t p r (tableAfter t p r w id before) (p.pathOf id)
        raw = .ok res := Import.exists_resolve hliteral
    obtain ⟨i, hi, hfilter⟩ := filter_sameAs_resolveAll after List.Pairwise.nil hres
    refine ⟨res, hres, i, by rw [h.statements]; exact hfilter, ?_⟩
    cases htarget : i.target with
    | some target =>
      have hdirect : target.id ∈ g.directImports id := by
        rw [h.targets]
        exact mem_targets.mpr ⟨i, hi, target, htarget, rfl⟩
      exact Or.inl ⟨target, rfl, hdirect, hclosed _ hdirect⟩
    | none =>
      exact Or.inr ⟨rfl, mem_unresolved.mpr ⟨h.mem, by rw [h.statements]; exact hi, htarget⟩⟩

/-- If nothing is wrong, the statements of all sources can be read. -/
theorem exists_lines_of_clean (hclean : (walk t p r table entries).Clean)
    (hid : id ∈ (walk t p r table entries).imports) :
    ∃ lines, ImportLines.ofFile t (p.pathOf id) = .ok lines := by
  obtain ⟨s, importer, -, -, hgrows⟩ := exists_entered hid
  cases hlines : ImportLines.ofFile t (p.pathOf id) with
  | ok lines => exact ⟨lines, rfl⟩
  | error e =>
    refine absurd (hgrows.clean hclean id) (enterFreely_error importer fun lines h => ?_).1
    rw [hlines] at h
    cases h

/-- **No statement is lost**: a source of a walk has an error and no imports if its statements
cannot be read; otherwise each of them is in the graph, resolved with the table that counts when its
turn has come. What a source imports is the target of one of its statements. -/
theorem walk_statements (hid : id ∈ (walk t p r table entries).imports) :
    ((t.isFile (p.pathOf id) = false ∨ ∃ e, ImportLines.ofFile t (p.pathOf id) = .error e) →
      (walk t p r table entries).errorsOf id ≠ [] ∧
        (walk t p r table entries).directImports id = ∅) ∧
    (∀ lines, ImportLines.ofFile t (p.pathOf id) = .ok lines →
      ∃ s importer, Loop.Runs t p r (Loop.start t p table entries) s ∧
        Loop.Enters t p r s id importer ∧
        ∀ before raw after, lines = before ++ raw :: after →
          (walk t p r table entries).Holds t p r id (tableAfter t p r s.walk id before) raw) ∧
    ∀ b ∈ (walk t p r table entries).directImports id,
      ∃ i ∈ (walk t p r table entries).statementsOf id, ∃ target, i.target = some target ∧
        target.id = b := by
  obtain ⟨s, importer, hruns, henters, hgrows⟩ := exists_entered hid
  have hunread : (∀ lines, ImportLines.ofFile t (p.pathOf id) ≠ .ok lines) →
      (walk t p r table entries).errorsOf id ≠ [] ∧
        (walk t p r table entries).directImports id = ∅ := fun h => by
    obtain ⟨herrors, himports⟩ := enterFreely_error (r := r) (w := s.walk) importer h
    obtain ⟨e, he⟩ := List.exists_mem_of_ne_nil _ herrors
    exact ⟨List.ne_nil_of_mem (hgrows.mem_errorsOf he), hgrows.directImports himports⟩
  refine ⟨fun h => hunread fun lines hlines => ?_, fun lines hlines => ⟨s, importer, hruns, henters,
    fun before raw after hsplit => ?_⟩, fun b hb => ?_⟩
  · rcases h with h | ⟨e, h⟩
    · rw [isFile_of_ofFile hlines] at h
      cases h
    · rw [hlines] at h
      cases h
  · exact (found_of_grows hlines hgrows).holds hsplit fun b hb => imports_closed hb
  · cases hlines : ImportLines.ofFile t (p.pathOf id) with
    | error e =>
      rw [(hunread fun lines h => by rw [hlines] at h; cases h).2] at hb
      simp at hb
    | ok lines =>
      have hfound := found_of_grows hlines hgrows
      rw [hfound.targets] at hb
      rw [hfound.statements]
      exact mem_targets.mp hb

/-- The only file of the tree imports itself and a file that is not there; between these stands a
statement without a literal. -/
def threeStatements : FileTree :=
  FileTree.empty.place ⟨"/A.sol".toList⟩
    (some (.text "import './A.sol';\nimport A;\nimport 'gone';".toList))

theorem walk_statements_three :
    let g := walk threeStatements ⟨[], ⟨[]⟩, ⟨[], []⟩⟩ ⟨[], [], none⟩ .empty
      [.ofText "A.sol".toList]
    .ofText "A.sol".toList ∈ g.imports ∧
      .unreadableImport ⟨"/A.sol".toList⟩ "import A;".toList ∈
        g.errorsOf (.ofText "A.sol".toList) := by
  intro g
  have hid : SourceId.ofText "A.sol".toList ∈ g.imports :=
    mem_walk_iff.mpr ⟨_, List.mem_cons_self, Relation.ReflTransGen.refl⟩
  have hpath : Project.pathOf ⟨[], ⟨[]⟩, ⟨[], []⟩⟩ (.ofText "A.sol".toList) =
      ⟨"/A.sol".toList⟩ := by
    decide
  have hlines : ImportLines.ofFile threeStatements
      (Project.pathOf ⟨[], ⟨[]⟩, ⟨[], []⟩⟩ (.ofText "A.sol".toList)) =
        .ok ["import './A.sol';".toList, "import A;".toList, "import 'gone';".toList] := by
    cbv
  refine ⟨hid, ?_⟩
  obtain ⟨s, -, -, -, h⟩ := (walk_statements hid).2.1 _ hlines
  have h := h [_] _ [_] rfl
  unfold Holds at h
  rw [if_pos (by decide), hpath] at h
  exact h

end ImportGraph

end SolPlan
