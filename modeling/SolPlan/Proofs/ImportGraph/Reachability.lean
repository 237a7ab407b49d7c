import Mathlib.Logic.Relation
import SolPlan.ImportGraph

/-!
# Transitive imports are what can be reached

`g.Imports a b`: the source `b` is a direct import of `a`. `g.Reaches` is any number of such steps.
`dropReached` takes off the list of unseen sources all that some way through unseen sources leads
to, and nothing else (`Dropped`). Every source that is imported at all is on that list, so no way
leaves it, apart from ways through the source itself.

Results:
* **`mem_transitiveImports`**: the transitive imports of a source are what it reaches, itself left
  out, on graphs with cycles too;
* `mem_transitiveImports_of_mem`: what a transitive import imports is a transitive import, or the
  source itself.
-/

namespace SolPlan

/-- Reading a map after a write. -/
theorem getElem?_insert_ite {κ ν : Type} [DecidableEq κ] [Ord κ] [Std.TransOrd κ]
    [Std.LawfulEqOrd κ] {m : Std.ExtTreeMap κ ν} {a b : κ} {v : ν} :
    (m.insert a v)[b]? = if b = a then some v else m[b]? := by
  simp only [Std.ExtTreeMap.getElem?_insert, Std.LawfulEqCmp.compare_eq_iff_eq]
  by_cases h : b = a
  · rw [if_pos h.symm, if_pos h]
  · rw [if_neg (Ne.symm h), if_neg h]

theorem SourceSet.mem_insert {s : SourceSet} {a b : SourceId} : b ∈ s.insert a ↔ b = a ∨ b ∈ s := by
  rw [Std.ExtTreeSet.mem_insert, Std.LawfulEqCmp.compare_eq_iff_eq, eq_comm]

theorem SourceSet.mem_erase {s : SourceSet} {a b : SourceId} : b ∈ s.erase a ↔ b ≠ a ∧ b ∈ s := by
  rw [Std.ExtTreeSet.mem_erase, Ne, Std.LawfulEqCmp.compare_eq_iff_eq, eq_comm]

theorem SourceSet.mem_filter {s : SourceSet} {f : SourceId → Bool} {a : SourceId} :
    a ∈ s.filter f ↔ a ∈ s ∧ f a = true := by
  simp

theorem SourceSet.mem_foldl_insert {l : List SourceId} {s : SourceSet} {b : SourceId} :
    b ∈ l.foldl (fun s a => s.insert a) s ↔ b ∈ l ∨ b ∈ s := by
  induction l generalizing s with
  | nil => simp
  | cons a l ih =>
    rw [List.foldl_cons, ih, SourceSet.mem_insert, List.mem_cons, or_left_comm, or_assoc]

/-- A run whose steps are determined goes on to where the steps stop. -/
theorem runs_to_stop {σ : Type} {step : σ → Option σ} {start s last : σ}
    (hlast : Relation.ReflTransGen (fun s s' => step s = some s') start last)
    (hstop : step last = none)
    (h : Relation.ReflTransGen (fun s s' => step s = some s') start s) :
    Relation.ReflTransGen (fun s s' => step s = some s') s last := by
  have hunique : Relator.RightUnique fun s s' => step s = some s' :=
    fun _ _ _ h h' => Option.some.inj (h.symm.trans h')
  rcases Relation.ReflTransGen.total_of_right_unique hunique h hlast with h | h
  · exact h
  · rcases Relation.ReflTransGen.cases_head h with rfl | ⟨next, hnext, -⟩
    · exact Relation.ReflTransGen.refl
    · rw [hstop] at hnext
      cases hnext

namespace ImportGraph

variable {g : ImportGraph}

/-- The first source imports the second directly. -/
def Imports (g : ImportGraph) (a b : SourceId) : Prop := b ∈ g.directImports a

/-- The first source imports the second over any number of steps. -/
def Reaches (g : ImportGraph) : SourceId → SourceId → Prop := Relation.ReflTransGen g.Imports

/-- A source with a direct import was reached. -/
theorem mem_of_imports {a b : SourceId} (h : g.Imports a b) : a ∈ g.imports := by
  unfold Imports directImports at h
  rw [Std.ExtTreeMap.mem_iff_isSome_getElem?]
  cases ha : g.imports[a]? with
  | none => simp [ha] at h
  | some s => rfl

/-! ## Everything that is imported -/

theorem mem_foldl_imports {l : List (SourceId × SourceSet)} {all : SourceSet} {b : SourceId} :
    b ∈ l.foldl (fun all e => e.2.foldl (fun all id => all.insert id) all) all ↔
      (∃ e ∈ l, b ∈ e.2) ∨ b ∈ all := by
  induction l generalizing all with
  | nil => simp
  | cons e l ih =>
    rw [List.foldl_cons, ih, Std.ExtTreeSet.foldl_eq_foldl_toList, SourceSet.mem_foldl_insert,
      Std.ExtTreeSet.mem_toList]
    simp only [List.mem_cons, exists_eq_or_imp]
    rw [or_left_comm, or_assoc]

theorem mem_imported {b : SourceId} : b ∈ g.imported ↔ ∃ a, g.Imports a b := by
  unfold imported
  rw [Std.ExtTreeMap.foldl_eq_foldl_toList, mem_foldl_imports]
  constructor
  · rintro (⟨⟨a, s⟩, he, hb⟩ | hb)
    · rw [Std.ExtTreeMap.mem_toList_iff_getElem?_eq_some] at he
      exact ⟨a, by unfold Imports directImports; rw [he]; exact hb⟩
    · simp at hb
  · rintro ⟨a, hab⟩
    have ha := mem_of_imports hab
    rw [Std.ExtTreeMap.mem_iff_isSome_getElem?] at ha
    obtain ⟨s, hs⟩ := Option.isSome_iff_exists.mp ha
    refine Or.inl ⟨(a, s), Std.ExtTreeMap.mem_toList_iff_getElem?_eq_some.mpr hs, ?_⟩
    unfold Imports directImports at hab
    rwa [hs] at hab

/-! ## Taking off what is reached -/

/-- `left` is what remains of `unseen` when `todo` and all it imports is taken off. -/
structure Dropped (g : ImportGraph) (unseen : SourceSet) (todo : List SourceId)
    (left : SourceSet) : Prop where
  sub : ∀ b ∈ left, b ∈ unseen
  off : ∀ b ∈ todo, b ∉ left
  closed : ∀ a ∈ unseen, a ∉ left → ∀ b, g.Imports a b → b ∉ left
  reach : ∀ b ∈ unseen, b ∉ left → ∃ a ∈ todo, g.Reaches a b

theorem dropReached_spec (unseen : SourceSet) (todo : List SourceId) :
    Dropped g unseen todo (g.dropReached unseen todo) := by
  fun_induction g.dropReached unseen todo with
  | case1 unseen =>
    exact ⟨fun _ h => h, fun _ h => absurd h List.not_mem_nil, fun _ h h' => absurd h h',
      fun _ h h' => absurd h h'⟩
  | case2 unseen id todo hid ih =>
    have hself : id ∉ g.dropReached (unseen.erase id) ((g.directImports id).toList ++ todo) :=
      fun h => (SourceSet.mem_erase.mp (ih.sub id h)).1 rfl
    have himports : ∀ b, g.Imports id b →
        b ∉ g.dropReached (unseen.erase id) ((g.directImports id).toList ++ todo) := fun b hb =>
      ih.off b (List.mem_append_left _ (Std.ExtTreeSet.mem_toList.mpr hb))
    refine ⟨fun b hb => (SourceSet.mem_erase.mp (ih.sub b hb)).2, fun b hb => ?_,
      fun a ha hleft b hab => ?_, fun b hb hleft => ?_⟩
    · rcases List.mem_cons.mp hb with rfl | hb
      · exact hself
      · exact ih.off b (List.mem_append_right _ hb)
    · by_cases e : a = id
      · exact himports b (e ▸ hab)
      · exact ih.closed a (SourceSet.mem_erase.mpr ⟨e, ha⟩) hleft b hab
    · by_cases e : b = id
      · exact ⟨id, List.mem_cons_self, e ▸ Relation.ReflTransGen.refl⟩
      · obtain ⟨a, ha, hr⟩ := ih.reach b (SourceSet.mem_erase.mpr ⟨e, hb⟩) hleft
        rcases List.mem_append.mp ha with ha | ha
        · exact ⟨id, List.mem_cons_self,
            Relation.ReflTransGen.head (Std.ExtTreeSet.mem_toList.mp ha) hr⟩
        · exact ⟨a, List.mem_cons_of_mem _ ha, hr⟩
  | case3 unseen id todo hid ih =>
    refine ⟨ih.sub, fun b hb => ?_, ih.closed, fun b hb hleft => ?_⟩
    · rcases List.mem_cons.mp hb with rfl | hb
      · exact fun h => hid (ih.sub b h)
      · exact ih.off b hb
    · obtain ⟨a, ha, hr⟩ := ih.reach b hb hleft
      exact ⟨a, List.mem_cons_of_mem _ ha, hr⟩

/-! ## Transitive imports -/

/-- **The transitive imports of a source are what it reaches, itself left out.** -/
theorem mem_transitiveImports {a b : SourceId} :
    b ∈ g.transitiveImports a ↔ b ≠ a ∧ g.Reaches a b := by
  have hd := dropReached_spec (g := g) (g.imported.erase a) (g.directImports a).toList
  have hmem : b ∈ g.transitiveImports a ↔ b ∈ g.imported.erase a ∧
      b ∉ g.dropReached (g.imported.erase a) (g.directImports a).toList := by
    unfold transitiveImports
    rw [SourceSet.mem_filter, Bool.not_eq_true', ← Bool.not_eq_true,
      Std.ExtTreeSet.contains_iff_mem]
  rw [hmem]
  constructor
  · rintro ⟨hb, hleft⟩
    obtain ⟨c, hc, hr⟩ := hd.reach b hb hleft
    exact ⟨(SourceSet.mem_erase.mp hb).1,
      Relation.ReflTransGen.head (Std.ExtTreeSet.mem_toList.mp hc) hr⟩
  · rintro ⟨hne, hr⟩
    -- along a way from `a`, every source but `a` itself is taken off
    have hoff : ∀ c, g.Reaches a c →
        c ≠ a → c ∉ g.dropReached (g.imported.erase a) (g.directImports a).toList := by
      intro c hc
      induction hc with
      | refl => exact fun h => absurd rfl h
      | @tail c d hc hcd ih =>
        intro hda
        by_cases hca : c = a
        · exact hd.off d (Std.ExtTreeSet.mem_toList.mpr (hca ▸ hcd))
        · by_cases hcl : c ∈ g.imported.erase a
          · exact hd.closed c hcl (ih hca) d hcd
          · refine absurd (SourceSet.mem_erase.mpr ⟨hca, ?_⟩) hcl
            rcases Relation.ReflTransGen.cases_tail hc with e | ⟨e, -, hec⟩
            · exact absurd e hca
            · exact mem_imported.mpr ⟨e, hec⟩
    refine ⟨SourceSet.mem_erase.mpr ⟨hne, ?_⟩, hoff b hr hne⟩
    rcases Relation.ReflTransGen.cases_tail hr with e | ⟨c, -, hcb⟩
    · exact absurd e hne
    · exact mem_imported.mpr ⟨c, hcb⟩

/-- What a transitive import imports is a transitive import, or the source itself. -/
theorem mem_transitiveImports_of_mem {a b c : SourceId} (hab : b ∈ g.transitiveImports a)
    (hbc : c ∈ g.transitiveImports b) : c = a ∨ c ∈ g.transitiveImports a := by
  by_cases hca : c = a
  · exact Or.inl hca
  · exact Or.inr (mem_transitiveImports.mpr
      ⟨hca, (mem_transitiveImports.mp hab).2.trans (mem_transitiveImports.mp hbc).2⟩)

/-- Transitive imports depend on nothing but the direct ones. -/
theorem transitiveImports_congr {g' : ImportGraph} (h : g.imports = g'.imports) (id : SourceId) :
    g.transitiveImports id = g'.transitiveImports id := by
  have himports : g.Imports = g'.Imports := by
    funext a b
    unfold Imports directImports
    rw [h]
  refine Std.ExtTreeSet.ext_mem fun b => ?_
  rw [mem_transitiveImports, mem_transitiveImports, Reaches, Reaches, himports]

/-- The graph with these imports, in which nothing is wrong. -/
def ofImports (edges : List (SourceId × List SourceId)) : ImportGraph :=
  { start .empty with imports := .ofList (edges.map fun e => (e.1, Std.ExtTreeSet.ofList e.2)) }

end ImportGraph

end SolPlan
