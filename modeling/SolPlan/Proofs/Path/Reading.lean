import Mathlib.Data.List.Basic
import Mathlib.Data.List.Induction
import Mathlib.Order.Bounds.Defs
import SolPlan.Proofs.Path.Steps

/-!
# What a path says

A path is read component by component, with the names so far on a stack: a `..` takes the last name
away, and if there is none, the path climbs one directory above its start (`Reading`). From the root
there is nothing to climb to, so an absolute path denotes its names alone, and a relative one as
many `..` as it climbs, and then its names.

The normalized path keeps the names. A `..` that found no name is kept, but the next one takes it
away again, so of all the climbs there remains one if their number is odd, and none if it is even.
From the root the same is done.

Results:
* `isGreatest_climbs`: how far a path climbs, told without the stack;
* `kept_reading`: what is kept of a path, by its reading;
* `normalize_join_normalize`: a path may be normalized before another is seen from it;
* **`normalize_denotes_iff`**: the paths whose normalized form denotes what they say.
-/

namespace SolPlan

namespace Path

/-- What is read of a path: how far it climbs above its start, and where it goes down from there,
last name first. -/
structure Reading where
  climbs : Nat
  names : List Text
deriving DecidableEq

namespace Reading

/-- One more component. -/
def next : Reading → Component → Reading
  | r, .root => r
  | r, .here => r
  | ⟨climbs, []⟩, .up => ⟨climbs + 1, []⟩
  | ⟨climbs, _ :: names⟩, .up => ⟨climbs, names⟩
  | ⟨climbs, names⟩, .name n => ⟨climbs, n :: names⟩

/-- What components say, one after the other. -/
def ofComponents (components : List Component) : Reading := components.foldl next ⟨0, []⟩

/-- The components in which a reading is written. From the root no step leads up. -/
def components (absolute : Bool) (r : Reading) : List Component :=
  (if absolute then [.root] else List.replicate r.climbs .up) ++ r.names.reverse.map .name

theorem ofComponents_append_singleton (components : List Component) (c : Component) :
    ofComponents (components ++ [c]) = (ofComponents components).next c := by
  unfold ofComponents
  rw [List.foldl_append]
  rfl

end Reading

/-- What the path says. -/
def reading (p : Path) : Reading := Reading.ofComponents p.components

/-! ## How far a path climbs -/

/-- Does the component go down? -/
def Component.isName : Component → Bool
  | .name _ => true
  | _ => false

namespace Reading

variable {components front : List Component}

/-- Each name is on the stack or was taken away, and each step upwards took one away or climbed. -/
theorem length_names_add (components : List Component) :
    (ofComponents components).names.length + components.count .up =
      (ofComponents components).climbs + components.countP Component.isName := by
  induction components using List.reverseRecOn with
  | nil => rfl
  | append_singleton components c ih =>
    rw [ofComponents_append_singleton, List.count_append, List.countP_append]
    generalize ofComponents components = r at ih ⊢
    obtain ⟨climbs, names⟩ := r
    cases c with
    | root => simpa [next, Component.isName] using ih
    | here => simpa [next, Component.isName] using ih
    | up => cases names <;> simp [next, Component.isName] at ih ⊢ <;> omega
    | name n => simp [next, Component.isName] at ih ⊢; omega

theorem climbs_le_next (r : Reading) (c : Component) : r.climbs ≤ (r.next c).climbs := by
  obtain ⟨climbs, names⟩ := r
  cases c with
  | up => cases names <;> simp [next]
  | _ => exact Nat.le_refl _

/-- A path climbs no less than its start. -/
theorem climbs_le_of_prefix (h : front <+: components) :
    (ofComponents front).climbs ≤ (ofComponents components).climbs := by
  obtain ⟨behind, rfl⟩ := h
  induction behind using List.reverseRecOn with
  | nil => simp
  | append_singleton behind c ih =>
    rw [← List.append_assoc, ofComponents_append_singleton]
    exact Nat.le_trans ih (climbs_le_next _ c)

/-- Where the path is highest above its start, all names are taken away. -/
theorem exists_highest (components : List Component) : ∃ front, front <+: components ∧
    (ofComponents front).names = [] ∧
      (ofComponents front).climbs = (ofComponents components).climbs := by
  induction components using List.reverseRecOn with
  | nil => exact ⟨[], List.prefix_rfl, rfl, rfl⟩
  | append_singleton components c ih =>
    obtain ⟨front, hfront, hnames, hclimbs⟩ := ih
    rw [ofComponents_append_singleton]
    by_cases hsame : ((ofComponents components).next c).climbs = (ofComponents components).climbs
    · exact ⟨front, hfront.trans (List.prefix_append _ _), hnames, hclimbs.trans hsame.symm⟩
    · refine ⟨components ++ [c], List.prefix_rfl, ?_, ?_⟩ <;> rw [ofComponents_append_singleton]
      generalize ofComponents components = r at hsame ⊢
      obtain ⟨climbs, names⟩ := r
      -- only a step upwards on an empty stack climbs
      cases c with
      | up =>
        cases names with
        | nil => rfl
        | cons n names => exact absurd rfl hsame
      | _ => exact absurd rfl hsame

end Reading

/-- By how much the steps upwards outnumber the names up to a point where they do. -/
def Surplus (components : List Component) (d : Nat) : Prop :=
  ∃ front, front <+: components ∧ front.count .up = front.countP Component.isName + d

/-- **A path climbs by the greatest surplus** of its steps upwards over its names. -/
theorem isGreatest_climbs (p : Path) :
    IsGreatest {d | Surplus p.components d} p.reading.climbs := by
  constructor
  · obtain ⟨front, hfront, hnames, hclimbs⟩ := Reading.exists_highest p.components
    have hcount := Reading.length_names_add front
    rw [hnames, hclimbs, List.length_nil] at hcount
    exact ⟨front, hfront, by unfold reading; omega⟩
  · rintro d ⟨front, hfront, hd⟩
    have hcount := Reading.length_names_add front
    have hle := Reading.climbs_le_of_prefix hfront
    unfold reading
    omega

/-! ## What is kept -/

/-- What is kept of what was read: the names, and one step upwards if the climbs are odd. -/
def Reading.kept (r : Reading) : List Text := r.names ++ List.replicate (r.climbs % 2) upPiece

theorem Reading.resolveStep_kept (r : Reading) (c : Component) :
    resolveStep r.kept c = (r.next c).kept := by
  obtain ⟨climbs, names⟩ := r
  cases c with
  | root => cases names <;> rfl
  | here => cases names <;> rfl
  | name n => cases names <;> rfl
  | up =>
    cases names with
    | cons n names => rfl
    | nil =>
      -- a step upwards that was kept counts as a name
      rcases Nat.mod_two_eq_zero_or_one climbs with h | h
      · simp [Reading.kept, next, h, Nat.add_mod, resolveStep, upPiece]
      · simp [Reading.kept, next, h, Nat.add_mod, resolveStep]

/-- **The steps of a path by its reading.** -/
theorem reverse_steps_eq_kept (p : Path) : p.steps.reverse = p.reading.kept := by
  unfold steps resolve reading Reading.ofComponents
  rw [List.reverse_reverse]
  have hrun : p.components.foldl resolveStep (Reading.kept ⟨0, []⟩) =
      (p.components.foldl Reading.next ⟨0, []⟩).kept :=
    List.foldl_hom Reading.kept Reading.resolveStep_kept
  exact hrun

/-! ## The components of a normalized path -/

/-- Steps are written without a `.` before them. -/
theorem anchor_ofSteps {steps : List Text} (absolute : Bool)
    (h : ∀ s ∈ steps, '/' ∉ s ∧ isVoid s = false) :
    (ofSteps absolute steps).split.1 = if absolute then .root else .none := by
  cases absolute with
  | true => rfl
  | false =>
    have hhead := head?_join h
    change (Path.split ⟨Text.join '/' steps⟩).1 = .none
    unfold split
    dsimp only
    split
    · rename_i body htext
      rw [htext] at hhead
      exact absurd rfl hhead
    · split
      · rename_i body hsplit
        by_cases hnil : steps = []
        · subst hnil
          cases hsplit
        · rw [Text.join, List.splitOn_intercalate _ (fun s hs => (h s hs).1) hnil] at hsplit
          exact absurd (h ['.'] (hsplit ▸ List.mem_cons_self)).2 (by decide)
      · rfl

theorem components_ofSteps {steps : List Text} (absolute : Bool)
    (h : ∀ s ∈ steps, '/' ∉ s ∧ isVoid s = false) : (ofSteps absolute steps).components =
      (if absolute then [.root] else []) ++ steps.filterMap Component.ofPiece? := by
  have hpieces : ((Text.join '/' steps).splitOn '/').filterMap Component.ofPiece? =
      steps.filterMap Component.ofPiece? := by
    by_cases hnil : steps = []
    · subst hnil
      rfl
    · rw [Text.join, List.splitOn_intercalate _ (fun s hs => (h s hs).1) hnil]
  rw [components_eq, anchor_ofSteps absolute h]
  cases absolute with
  | false => exact congrArg _ hpieces
  | true =>
    refine congrArg _ (Eq.trans ?_ hpieces)
    change (('/' :: Text.join '/' steps).splitOn '/').filterMap Component.ofPiece? = _
    rw [splitOn_slash_cons]
    rfl

/-- A name that is read is a component of the path. -/
theorem Reading.mem_of_mem_names {components : List Component} {n : Text}
    (h : n ∈ (ofComponents components).names) : .name n ∈ components := by
  induction components using List.reverseRecOn with
  | nil => cases h
  | append_singleton components c ih =>
    rw [ofComponents_append_singleton] at h
    generalize ofComponents components = r at ih h
    obtain ⟨climbs, names⟩ := r
    cases c with
    | root => exact List.mem_append_left _ (ih h)
    | here => exact List.mem_append_left _ (ih h)
    | up =>
      cases names with
      | nil => cases h
      | cons m names => exact List.mem_append_left _ (ih (List.mem_cons_of_mem m h))
    | name m =>
      rcases List.mem_cons.mp h with rfl | h
      · exact List.mem_concat_self
      · exact List.mem_append_left _ (ih h)

/-- What a piece names is named by the name alone. -/
theorem Component.ofPiece?_of_mem_components {p : Path} {n : Text}
    (h : Component.name n ∈ p.components) : ofPiece? n = some (.name n) := by
  rw [components_eq] at h
  rcases List.mem_append.mp h with h | h
  · cases hanchor : p.split.1 <;> rw [hanchor] at h <;> simp [Anchor.component?] at h
  · obtain ⟨s, -, hs⟩ := List.mem_filterMap.mp h
    have hsame : s = n := by
      unfold ofPiece? at hs
      split at hs
      · cases hs
      · split at hs
        · cases hs
        · cases hs
          rfl
    exact hsame ▸ hs

/-- **The components of a normalized path**: of the climbs the last is left if they are odd. -/
theorem components_normalize (p : Path) : p.normalize.components =
    (if p.isAbsolute then [.root] else []) ++ List.replicate (p.reading.climbs % 2) .up ++
      p.reading.names.reverse.map .name := by
  have hsteps : p.steps = List.replicate (p.reading.climbs % 2) upPiece ++
      p.reading.names.reverse := by
    rw [← List.reverse_inj, reverse_steps_eq_kept, Reading.kept, List.reverse_append,
      List.reverse_reverse, List.reverse_replicate]
  have hnames : p.reading.names.reverse.filterMap Component.ofPiece? =
      p.reading.names.reverse.map .name := by
    refine List.filterMap_eq_map_iff_forall_eq_some.mpr fun n hn => ?_
    exact Component.ofPiece?_of_mem_components
      (Reading.mem_of_mem_names (List.mem_reverse.mp hn))
  unfold normalize
  rw [components_ofSteps p.isAbsolute p.grounded_steps.solid, hsteps, List.filterMap_append,
    List.filterMap_replicate, hnames, List.append_assoc]
  rfl

/-- **A path may be normalized before another is seen from it.** -/
theorem normalize_join_normalize (p : Path) {q : Path} (hq : q.isAbsolute = false) :
    (p.join q).normalize = (p.normalize.join q).normalize := by
  have hsame : p.normalize.isAbsolute = p.isAbsolute := by
    unfold normalize
    cases p.isAbsolute with
    | true => rfl
    | false => exact isAbsolute_ofSteps_of_solid p.grounded_steps.solid
  have hanchor : ∀ r : Path, (r.join q).isAbsolute = r.isAbsolute := fun r => by
    cases hr : r.isAbsolute with
    | true => exact isAbsolute_join hr q
    | false => exact Bool.eq_false_iff.mpr fun h => by simp [isAbsolute_of_join hq h] at hr
  have hsteps : (p.join q).steps = (p.normalize.join q).steps := by
    rw [← List.reverse_inj, reverse_steps_join hq, reverse_steps_join hq, steps_normalize]
  unfold normalize at hsame ⊢
  rw [hanchor, hanchor, hsame]
  exact congrArg _ hsteps

/-- **A normalized path denotes what the path says** exactly if the path climbs an even number of
times, from the root, or at most once, from elsewhere. It never holds a `.`, its `..` are those of
the climbs that are left, and a path may be normalized before another is seen from it. -/
theorem normalize_denotes_iff (p : Path) :
    (p.normalize.components = p.reading.components p.isAbsolute ↔
      if p.isAbsolute then p.reading.climbs % 2 = 0 else p.reading.climbs ≤ 1) ∧
    (p.normalize.components = (if p.isAbsolute then [.root] else []) ++
        List.replicate (p.reading.climbs % 2) .up ++ p.reading.names.reverse.map .name ∧
      .here ∉ p.normalize.components) ∧
    IsGreatest {d | Surplus p.components d} p.reading.climbs ∧
    ∀ q : Path, q.isAbsolute = false → (p.join q).normalize = (p.normalize.join q).normalize := by
  have hcomponents := components_normalize p
  refine ⟨?_, ⟨hcomponents, ?_⟩, isGreatest_climbs p, fun q => normalize_join_normalize p⟩
  · rw [hcomponents, Reading.components, List.append_cancel_right_eq]
    cases p.isAbsolute with
    | true => simp
    | false =>
      have hreplicate : List.replicate (p.reading.climbs % 2) Component.up =
          List.replicate p.reading.climbs .up ↔ p.reading.climbs % 2 = p.reading.climbs := by
        refine ⟨fun h => ?_, fun h => by rw [h]⟩
        simpa using congrArg List.length h
      simp only [Bool.false_eq_true, if_false, List.nil_append, hreplicate]
      omega
  · rw [hcomponents]
    cases p.isAbsolute <;> simp

/-- A relative path that climbs once. -/
def climbOnce : Path := ⟨"./x/../..".toList⟩

/-- Two directories above, from elsewhere. -/
def climbTwice : Path := ⟨"../..".toList⟩

/-- Above the root there is nothing. -/
def climbRoot : Path := ⟨"/..".toList⟩

/-- A path that climbs once, and another seen from it. -/
theorem normalize_denotes_climbOnce :
    climbOnce.reading = ⟨1, []⟩ ∧ climbOnce.normalize.components = [.up] ∧
      climbOnce.normalize.components = climbOnce.reading.components climbOnce.isAbsolute ∧
      climbTwice.isAbsolute = false ∧
      (climbOnce.join climbTwice).normalize = (climbOnce.normalize.join climbTwice).normalize := by
  obtain ⟨hdenotes, ⟨hcomponents, -⟩, -, hjoin⟩ := normalize_denotes_iff climbOnce
  have hreading : climbOnce.reading = ⟨1, []⟩ := by decide
  have hrelative : climbOnce.isAbsolute = false := by decide
  refine ⟨hreading, ?_, hdenotes.mpr ?_, by decide, hjoin climbTwice (by decide)⟩
  · rw [hcomponents, hreading, hrelative]
    rfl
  · rw [hreading, hrelative]
    decide

/-- Two climbs cancel each other, and a climb from the root is kept. -/
theorem not_normalize_denotes :
    (climbTwice.normalize = ⟨[]⟩ ∧ climbTwice.reading.components false = [.up, .up]) ∧
    (climbRoot.normalize = climbRoot ∧ climbRoot.components = [.root, .up] ∧
      climbRoot.reading.components true = [.root]) ∧
    ¬ ∀ p : Path, p.normalize.components = p.reading.components p.isAbsolute := by
  refine ⟨⟨by decide, by decide⟩, ⟨by decide, by decide, by decide⟩, fun h => ?_⟩
  exact absurd (h climbTwice) (by decide)

end Path

end SolPlan
