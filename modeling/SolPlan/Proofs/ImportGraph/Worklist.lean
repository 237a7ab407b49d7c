import SolPlan.Proofs.ImportGraph.Reachability

/-!
# Collecting transitive imports with a worklist

The loop that collects what a source imports, step by step (`step?`): it takes the uppermost source
off a stack, and unless that is the source itself or was seen before, notes it and puts its direct
imports on the stack. The source itself is never noted, so it is never expanded again.

Whatever is noted or waits can be reached, and each import of what is noted, and of the source
itself, is noted, waits, or is the source itself (`Collecting`). The stack may grow on the way; what
shrinks is the set of sources with imports that were not noted yet.

Results:
* `exists_stop`: from every state the loop comes to an end;
* `Collecting.seen_of_stop`: at the end it has noted the transitive imports;
* **`worklist_run`**: every run of the loop leads to that end, and what it has noted there are the
  other sources that some way of imports leads to.
-/

namespace SolPlan

namespace ImportGraph

/-- The loop that collects transitive imports. -/
structure Worklist where
  /-- What is still to be looked at, the uppermost first. -/
  stack : List SourceId
  seen : SourceSet

namespace Worklist

variable {g : ImportGraph} {id : SourceId} {s s' : Worklist}

/-- The loop before its first turn. -/
def start (g : ImportGraph) (id : SourceId) : Worklist :=
  ⟨(g.directImports id).toList.reverse, ∅⟩

/-- One turn of the loop, unless nothing waits. -/
def step? (g : ImportGraph) (id : SourceId) (s : Worklist) : Option Worklist :=
  match s.stack with
  | [] => none
  | next :: stack =>
    some (if next = id ∨ next ∈ s.seen then { s with stack }
      else ⟨(g.directImports next).toList.reverse ++ stack, s.seen.insert next⟩)

/-- One state is some turns after another. -/
def Runs (g : ImportGraph) (id : SourceId) : Worklist → Worklist → Prop :=
  Relation.ReflTransGen fun s s' => step? g id s = some s'

/-! ## The loop ends -/

/-- From every state the loop comes to an end. `unseen` holds the sources with imports that it can
still note. -/
theorem exists_stop (unseen : SourceSet) (stack : List SourceId) (seen : SourceSet)
    (h : ∀ a ∈ g.imports, a ∉ seen → a ∈ unseen) :
    ∃ last, Runs g id ⟨stack, seen⟩ last ∧ step? g id last = none := by
  match stack with
  | [] => exact ⟨⟨[], seen⟩, Relation.ReflTransGen.refl, rfl⟩
  | next :: stack =>
    by_cases hskip : next = id ∨ next ∈ seen
    · obtain ⟨last, hruns, hstop⟩ := exists_stop unseen stack seen h
      exact ⟨last, hruns.head (congrArg some (if_pos hskip)), hstop⟩
    · have hstep : step? g id ⟨next :: stack, seen⟩ =
          some ⟨(g.directImports next).toList.reverse ++ stack, seen.insert next⟩ :=
        congrArg some (if_neg hskip)
      have hseen : ∀ a, a ∉ seen.insert next → a ≠ next ∧ a ∉ seen := fun a ha =>
        ⟨fun e => ha (SourceSet.mem_insert.mpr (Or.inl e)),
          fun hmem => ha (SourceSet.mem_insert.mpr (Or.inr hmem))⟩
      by_cases hnext : next ∈ unseen
      · obtain ⟨last, hruns, hstop⟩ := exists_stop (unseen.erase next)
          ((g.directImports next).toList.reverse ++ stack) (seen.insert next) fun a ha hnew =>
            SourceSet.mem_erase.mpr ⟨(hseen a hnew).1, h a ha (hseen a hnew).2⟩
        exact ⟨last, hruns.head hstep, hstop⟩
      · -- what is not in the graph brings nothing onto the stack
        have hnone : g.directImports next = ∅ := by
          refine Std.ExtTreeSet.ext_mem fun b => ⟨fun hb => ?_, fun hb => by simp at hb⟩
          exact absurd (h next (mem_of_imports hb) fun hmem => hskip (Or.inr hmem)) hnext
        obtain ⟨last, hruns, hstop⟩ := exists_stop unseen stack (seen.insert next) fun a ha hnew =>
          h a ha (hseen a hnew).2
        refine ⟨last, hruns.head ?_, hstop⟩
        rw [hstep, hnone]
        simp
termination_by (unseen.size, stack.length)
decreasing_by
  · exact Prod.Lex.right _ (Nat.lt_succ_self _)
  · exact Prod.Lex.left _ _ (SourceSet.size_erase_lt hnext)
  · exact Prod.Lex.right _ (Nat.lt_succ_self _)

/-! ## What the loop notes -/

/-- What is noted or waits can be reached, and each import of what is noted, and of the source
itself, is noted, waits, or is the source itself. -/
structure Collecting (g : ImportGraph) (id : SourceId) (s : Worklist) : Prop where
  other : id ∉ s.seen
  reached : ∀ b, b ∈ s.seen ∨ b ∈ s.stack → Relation.TransGen g.Imports id b
  closed : ∀ a b, a = id ∨ a ∈ s.seen → g.Imports a b → b = id ∨ b ∈ s.seen ∨ b ∈ s.stack

theorem collecting_start (g : ImportGraph) (id : SourceId) : Collecting g id (start g id) := by
  have hwaits : ∀ b, b ∈ (start g id).stack ↔ g.Imports id b := fun b => by
    unfold start
    rw [List.mem_reverse, Std.ExtTreeSet.mem_toList]
    rfl
  have hempty : ∀ b, b ∉ (start g id).seen := fun b hb => by simp [start] at hb
  refine ⟨hempty id, fun b hb => ?_, fun a b ha hab => ?_⟩
  · exact Relation.TransGen.single ((hwaits b).mp (hb.resolve_left (hempty b)))
  · obtain rfl := ha.resolve_right (hempty a)
    exact Or.inr (Or.inr ((hwaits b).mpr hab))

theorem Collecting.step (h : Collecting g id s) (hstep : step? g id s = some s') :
    Collecting g id s' := by
  unfold step? at hstep
  split at hstep
  · cases hstep
  · rename_i next stack hstack
    have hnext : Relation.TransGen g.Imports id next :=
      h.reached next (Or.inr (hstack ▸ List.mem_cons_self))
    have hrest : ∀ b ∈ stack, b ∈ s.stack := fun b hb => hstack ▸ List.mem_cons_of_mem _ hb
    have hwaits : ∀ b ∈ s.stack, b = next ∨ b ∈ stack := fun b hb =>
      List.mem_cons.mp (hstack ▸ hb)
    cases hstep
    split
    · rename_i hskip
      refine ⟨h.other, fun b hb => h.reached b (hb.imp_right (hrest b)), fun a b ha hab => ?_⟩
      rcases h.closed a b ha hab with hb | hb | hb
      · exact Or.inl hb
      · exact Or.inr (Or.inl hb)
      · rcases hwaits b hb with rfl | hb
        · exact hskip.imp_right Or.inl
        · exact Or.inr (Or.inr hb)
    · rename_i hnew
      rw [not_or] at hnew
      have hmem : ∀ b, b ∈ (g.directImports next).toList.reverse ++ stack ↔
          g.Imports next b ∨ b ∈ stack := fun b => by
        rw [List.mem_append, List.mem_reverse, Std.ExtTreeSet.mem_toList]
        rfl
      refine ⟨fun hid => ?_, fun b hb => ?_, fun a b ha hab => ?_⟩
      · rcases SourceSet.mem_insert.mp hid with hid | hid
        · exact hnew.1 hid.symm
        · exact h.other hid
      · rcases hb with hb | hb
        · rcases SourceSet.mem_insert.mp hb with rfl | hb
          · exact hnext
          · exact h.reached b (Or.inl hb)
        · rcases (hmem b).mp hb with hb | hb
          · exact hnext.tail hb
          · exact h.reached b (Or.inr (hrest b hb))
      · rw [SourceSet.mem_insert, or_left_comm] at ha
        rw [SourceSet.mem_insert, hmem]
        rcases ha with rfl | ha
        · exact Or.inr (Or.inr (Or.inl hab))
        · rcases h.closed a b ha hab with hb | hb | hb
          · exact Or.inl hb
          · exact Or.inr (Or.inl (Or.inr hb))
          · rcases hwaits b hb with rfl | hb
            · exact Or.inr (Or.inl (Or.inl rfl))
            · exact Or.inr (Or.inr (Or.inr hb))

theorem Collecting.runs (h : Collecting g id s) (hruns : Runs g id s s') : Collecting g id s' := by
  induction hruns with
  | refl => exact h
  | tail _ hstep ih => exact ih.step hstep

/-- **At the end the transitive imports are noted.** -/
theorem Collecting.seen_of_stop (h : Collecting g id s) (hstop : step? g id s = none) :
    s.seen = g.transitiveImports id := by
  have hstack : s.stack = [] := by
    unfold step? at hstop
    split at hstop
    · assumption
    · cases hstop
  have hclosed : ∀ a b, a = id ∨ a ∈ s.seen → g.Imports a b → b = id ∨ b ∈ s.seen :=
    fun a b ha hab => (h.closed a b ha hab).imp_right fun hb =>
      hb.resolve_right (by rw [hstack]; exact List.not_mem_nil)
  have hall : ∀ b, g.Reaches id b → b = id ∨ b ∈ s.seen := fun b hreaches => by
    induction hreaches with
    | refl => exact Or.inl rfl
    | tail _ hab ih => exact hclosed _ _ ih hab
  refine Std.ExtTreeSet.ext_mem fun b => ?_
  rw [mem_transitiveImports]
  constructor
  · intro hb
    exact ⟨fun e => h.other (e ▸ hb), (h.reached b (Or.inl hb)).to_reflTransGen⟩
  · rintro ⟨hne, hreaches⟩
    exact (hall b hreaches).resolve_left hne

end Worklist

/-- **The worklist ends with the transitive imports**: the sources other than the given one to which
some way of imports leads. So what a transitive import imports is one too, or the source itself. -/
theorem worklist_run (g : ImportGraph) (id : SourceId) :
    (∃ last, Worklist.Runs g id (Worklist.start g id) last ∧ Worklist.step? g id last = none ∧
      last.seen = g.transitiveImports id ∧
      ∀ s, Worklist.Runs g id (Worklist.start g id) s → Worklist.Runs g id s last) ∧
    (∀ b, b ∈ g.transitiveImports id ↔ b ≠ id ∧ Relation.TransGen g.Imports id b) ∧
    ∀ b ∈ g.transitiveImports id, ∀ c ∈ g.transitiveImports b,
      c = id ∨ c ∈ g.transitiveImports id := by
  have hend : ∃ last, Worklist.Runs g id (Worklist.start g id) last ∧
      Worklist.step? g id last = none := by
    refine Worklist.exists_stop (.ofList g.sources) _ _ fun a ha _ => ?_
    rw [Std.ExtTreeSet.mem_ofList, List.contains_iff_mem]
    exact Std.ExtTreeMap.mem_keys.mpr ha
  obtain ⟨last, hlast, hstop⟩ := hend
  have hseen := ((Worklist.collecting_start g id).runs hlast).seen_of_stop hstop
  refine ⟨⟨last, hlast, hstop, hseen, fun s hs => runs_to_stop hlast hstop hs⟩, fun b => ?_,
    fun b hb c hc => mem_transitiveImports_of_mem hb hc⟩
  rw [mem_transitiveImports, Reaches, Relation.reflTransGen_iff_eq_or_transGen]
  exact and_congr_right fun hne => or_iff_right hne

end ImportGraph

end SolPlan
