import Mathlib
import SolPlan.Proofs.Remapping.Building
import SolPlan.Remapping.Cache

/-!
# What a cache of tables hides

A kept table is reused if the key of the project has the digest that is kept with it. If no two of
the keys that are asked with have one digest (`NoCollision`), the entries of the project and the
packages of its registry are then the same up to order. The table is built from more than that
(`SameRecipe`): the source folder, the order of the entries, what the entries mean, and what is
declared, with all that it brings. While these stay the same the cache cannot be seen; the tree, what
the registry holds beyond them and the kept tables of other projects do not matter. When one of them
changes and the key does not, the old table is given.

The digest is any function of keys. That of the program is taken where a run is shown.

Results:
* `origin_of_kept`: what is kept was built by a call for the same root, whose key has the digest;
* **`get_afterCalls`**: the table that is got is the one of the recipe of some call;
* `not_get_fresh`: it is not always the table of a new build.
-/

namespace SolPlan

namespace RemappingCache

variable {c c' : RemappingCache} {p : Project} {r : Registry} {t : FileTree} {depot depot' : Depot}
  {table : RemappingTable}

theorem reusable?_eq_some_iff :
    c.reusable? p r t = some table ↔
      c.kept[p.root]? = some ⟨c.digest (.of p r), table⟩ ∧ foldersPresent p t table = true := by
  unfold reusable?
  cases hkept : c.kept[p.root]? with
  | none => simp
  | some k =>
    obtain ⟨key, kept⟩ := k
    dsimp only
    rw [Option.ite_none_right_eq_some, Option.some.injEq, Option.some.injEq, KeptTable.mk.injEq]
    constructor
    · rintro ⟨⟨hkey, hpresent⟩, rfl⟩
      exact ⟨⟨hkey, rfl⟩, hpresent⟩
    · rintro ⟨⟨hkey, rfl⟩, hpresent⟩
      exact ⟨⟨hkey, hpresent⟩, rfl⟩

theorem get_of_reusable (h : c.reusable? p r depot.tree = some table) :
    c.get p r depot = (c, depot, .ok table) := by
  unfold get
  rw [h]

theorem get_of_not_reusable (h : c.reusable? p r depot.tree = none)
    (hget : c.get p r depot = (c', depot', .ok table)) :
    RemappingTable.build p r depot = (depot', .ok table) := by
  unfold get at hget
  rw [h] at hget
  dsimp only at hget
  split at hget
  · simp at hget
  · rename_i depot₁ table₁ hbuild
    simp only [Prod.mk.injEq, Except.ok.injEq] at hget
    obtain ⟨-, rfl, rfl⟩ := hget
    exact hbuild

theorem get_of_build (h : c.reusable? p r depot.tree = none)
    (hbuild : RemappingTable.build p r depot = (depot', .ok table)) :
    c.get p r depot = (c.keep p.root ⟨c.digest (.of p r), table⟩, depot', .ok table) := by
  unfold get
  rw [h]
  dsimp only
  rw [hbuild]

/-- A table that was got is kept. -/
theorem kept_of_get (h : c.get p r depot = (c', depot', .ok table)) :
    c'.kept[p.root]? = some ⟨c.digest (.of p r), table⟩ := by
  unfold get at h
  split at h
  · rename_i table₁ hreusable
    simp only [Prod.mk.injEq, Except.ok.injEq] at h
    obtain ⟨rfl, -, rfl⟩ := h
    exact (reusable?_eq_some_iff.mp hreusable).1
  · split at h
    · simp at h
    · simp only [Prod.mk.injEq, Except.ok.injEq] at h
      obtain ⟨rfl, -, rfl⟩ := h
      exact Std.ExtTreeMap.getElem?_insert_self

theorem kept_correct {key : UInt64} (h : c.kept[p.root]? = some ⟨key, table⟩)
    (corrections : List Correction) :
    (c.correct p corrections).kept[p.root]? =
      some ⟨key, corrections.foldl RemappingTable.correct table⟩ := by
  unfold correct
  rw [h]
  exact Std.ExtTreeMap.getElem?_insert_self

/-! ## How keys are told apart -/

@[simp] theorem digest_get (c : RemappingCache) (p : Project) (r : Registry) (depot : Depot) :
    (c.get p r depot).1.digest = c.digest := by
  unfold get
  split
  · rfl
  · split <;> rfl

theorem digest_of_get {answer : Except Error RemappingTable}
    (h : c.get p r depot = (c', depot', answer)) : c'.digest = c.digest := by
  rw [← digest_get c p r depot, h]

@[simp] theorem digest_correct (c : RemappingCache) (p : Project) (corrections : List Correction) :
    (c.correct p corrections).digest = c.digest := by
  unfold correct
  split <;> rfl

@[simp] theorem digest_forget (c : RemappingCache) (p : Project) :
    (c.forget p).digest = c.digest := rfl

/-- No two of the keys have one digest. -/
def NoCollision (digest : CacheKey → UInt64) (keys : List CacheKey) : Prop :=
  ∀ a ∈ keys, ∀ b ∈ keys, digest a = digest b → a = b

instance (digest : CacheKey → UInt64) (keys : List CacheKey) : Decidable (NoCollision digest keys) :=
  inferInstanceAs (Decidable (∀ a ∈ keys, ∀ b ∈ keys, _ → _))

/-! ## Runs of calls -/

/-- A request for the table of a project, with what it finds. -/
structure Call where
  project : Project
  registry : Registry
  depot : Depot

/-- The key of the project that a call is for. -/
def Call.key (call : Call) : CacheKey := .of call.project call.registry

/-- The cache after some calls, the first of which finds nothing kept. -/
def afterCalls (digest : CacheKey → UInt64) (calls : List Call) : RemappingCache :=
  calls.foldl (fun c call => (c.get call.project call.registry call.depot).1) (blank digest)

variable {digest : CacheKey → UInt64} {call : Call} {calls : List Call} {root : Location}
  {k : KeptTable}

/-- The call has built this table for a root. -/
structure Call.Builds (digest : CacheKey → UInt64) (call : Call) (root : Location)
    (k : KeptTable) : Prop where
  root_eq : call.project.root = root
  key_eq : digest call.key = k.key
  built : ∃ depot, RemappingTable.build call.project call.registry call.depot = (depot, .ok k.table)

theorem digest_afterCalls (digest : CacheKey → UInt64) (calls : List Call) :
    (afterCalls digest calls).digest = digest := by
  induction calls using List.reverseRecOn with
  | nil => rfl
  | append_singleton calls call ih =>
    unfold afterCalls at ih ⊢
    rw [List.foldl_concat, digest_get, ih]

/-- What is kept after a call was kept before, or the call has built it. -/
theorem kept_get (h : (c.get call.project call.registry call.depot).1.kept[root]? = some k) :
    c.kept[root]? = some k ∨ call.Builds c.digest root k := by
  unfold get at h
  split at h
  · exact Or.inl h
  · split at h
    · exact Or.inl h
    · rename_i depot table hbuild
      dsimp only [keep] at h
      rw [Std.ExtTreeMap.getElem?_insert] at h
      split at h
      · rename_i hroot
        cases h
        exact Or.inr ⟨Std.LawfulEqCmp.eq_of_compare hroot, rfl, depot, hbuild⟩
      · exact Or.inl h

/-- **What is kept was built by one of the calls.** -/
theorem origin_of_kept (h : (afterCalls digest calls).kept[root]? = some k) :
    ∃ call ∈ calls, call.Builds digest root k := by
  induction calls using List.reverseRecOn with
  | nil => simp [afterCalls, blank] at h
  | append_singleton calls call ih =>
    have hdigest := digest_afterCalls digest calls
    unfold afterCalls at h hdigest
    rw [List.foldl_concat] at h
    rcases kept_get h with h | h
    · obtain ⟨call', hcall, hbuilds⟩ := ih h
      exact ⟨call', List.mem_append_left _ hcall, hbuilds⟩
    · rw [hdigest] at h
      exact ⟨call, List.mem_append_right _ List.mem_cons_self, h⟩

/-- **A table that is got is the one of the recipe of some call** for the same root, with the same
key, if no two keys of the calls have one digest. A new build gives the same while the recipe is the
same, and always if nothing can be reused. -/
theorem get_afterCalls (hdigest : NoCollision digest ((calls ++ [Call.mk p r depot]).map Call.key))
    (h : (afterCalls digest calls).get p r depot = (c', depot', .ok table)) :
    ((afterCalls digest calls).reusable? p r depot.tree = none →
      RemappingTable.build p r depot = (depot', .ok table)) ∧
    ∃ call ∈ calls ++ [⟨p, r, depot⟩], call.project.root = p.root ∧
      CacheKey.of call.project call.registry = .of p r ∧
      table = .ofSteps (recipe call.project call.registry) ∧
      ∀ depot₁ depot₂ fresh, RemappingTable.build p r depot₁ = (depot₂, .ok fresh) →
        fresh = .ofSteps (recipe p r) ∧
          (SameRecipe call.project call.registry p r → fresh = table) := by
  -- What is reused was built by an earlier call; otherwise this one builds.
  have hbuilds : ∃ call ∈ calls ++ [⟨p, r, depot⟩],
      call.Builds digest p.root ⟨digest (.of p r), table⟩ := by
    cases hreusable : (afterCalls digest calls).reusable? p r depot.tree with
    | none => exact ⟨_, List.mem_append_right _ List.mem_cons_self, rfl, rfl, depot',
        get_of_not_reusable hreusable h⟩
    | some kept =>
      rw [get_of_reusable hreusable] at h
      cases h
      have hkept := (reusable?_eq_some_iff.mp hreusable).1
      rw [digest_afterCalls] at hkept
      obtain ⟨call, hcall, hbuilds⟩ := origin_of_kept hkept
      exact ⟨call, List.mem_append_left _ hcall, hbuilds⟩
  obtain ⟨call, hcall, hroot, hkey, built, hbuilt⟩ := hbuilds
  have hkey : call.key = .of p r := hdigest _ (List.mem_map_of_mem hcall) _
    (List.mem_map_of_mem (List.mem_append_right _ List.mem_cons_self)) hkey
  have htable : table = .ofSteps (recipe call.project call.registry) :=
    RemappingTable.table_of_build hbuilt
  refine ⟨fun hreusable => get_of_not_reusable hreusable h, call, hcall, hroot, hkey, htable,
    fun depot₁ depot₂ fresh hfresh => ?_⟩
  have hfresh : fresh = .ofSteps (recipe p r) := RemappingTable.table_of_build hfresh
  exact ⟨hfresh, fun hsame => by rw [hfresh, htable, hsame.recipe_eq]⟩

/-- What the first call builds is kept. -/
theorem kept_firstCall (hbuild : RemappingTable.build call.project call.registry call.depot =
      (depot, .ok table)) :
    (afterCalls digest [call]).kept[call.project.root]? = some ⟨digest call.key, table⟩ := by
  have hnone : (blank digest).reusable? call.project call.registry call.depot.tree = none := by
    simp [reusable?, blank]
  unfold afterCalls
  rw [List.foldl_cons, List.foldl_nil, get_of_build hnone hbuild]
  exact Std.ExtTreeMap.getElem?_insert_self

/-- A project in the root directory with two entries for one key. -/
def twoEntries (first second : Text) : Project :=
  ⟨[], ⟨"contracts".toList⟩, ⟨['k' :: '=' :: first, 'k' :: '=' :: second], []⟩⟩

/-- The call for such a project without packages, on an empty tree. -/
def firstCall : Call :=
  ⟨twoEntries "a/b/c".toList "d/e/f".toList, ⟨[], [], none⟩, ⟨FileTree.empty, 0⟩⟩

/-- The depot that the call leaves. -/
def firstDepot : Depot :=
  (RemappingTable.build firstCall.project firstCall.registry firstCall.depot).1

theorem ofSteps_first :
    (RemappingTable.ofSteps (recipe firstCall.project firstCall.registry)).pairs =
      [("k".toList, "d/e/f".toList)] := by
  cbv

theorem build_first : RemappingTable.build firstCall.project firstCall.registry firstCall.depot =
    (firstDepot, .ok (.ofSteps (recipe firstCall.project firstCall.registry))) := by
  have hok : (RemappingTable.build firstCall.project firstCall.registry
      firstCall.depot).2.isOk = true := by cbv
  cases htable : (RemappingTable.build firstCall.project firstCall.registry firstCall.depot).2 with
  | error e => rw [htable] at hok; cases hok
  | ok table =>
    have hbuild : RemappingTable.build firstCall.project firstCall.registry firstCall.depot =
        (firstDepot, .ok table) := Prod.ext rfl htable
    rw [← RemappingTable.table_of_build hbuild]
    exact hbuild

variable (digest) in
/-- The second call reuses the table of the first, also if the entries have changed places. -/
theorem get_second (hroot : p.root = []) (hfolder : p.cacheFolder = firstCall.project.cacheFolder)
    (hkey : CacheKey.of p firstCall.registry = firstCall.key) :
    (afterCalls digest [firstCall]).get p firstCall.registry firstDepot =
      (afterCalls digest [firstCall], firstDepot,
        .ok (.ofSteps (recipe firstCall.project firstCall.registry))) := by
  refine get_of_reusable (reusable?_eq_some_iff.mpr ⟨?_, ?_⟩)
  · rw [digest_afterCalls, hkey, hroot]
    exact kept_firstCall build_first
  · have hplace : CacheLocation.ofText? "d/e/f".toList = none := by decide
    have hdirectory : firstDepot.tree.isDirectory firstCall.project.cacheFolder = true := by cbv
    unfold foldersPresent
    rw [ofSteps_first, hfolder, hdirectory, List.filterMap_cons, hplace]
    rfl

/-- Two calls with one key do not collide. -/
theorem noCollision_second (hkey : CacheKey.of p r = firstCall.key) :
    NoCollision digest ([firstCall, .mk p r depot].map Call.key) := by
  have hall : ∀ key ∈ [firstCall, .mk p r depot].map Call.key, key = firstCall.key := by
    simp [Call.key] at hkey ⊢
    exact hkey
  exact fun a ha b hb _ => (hall a ha).trans (hall b hb).symm

theorem get_afterCalls_first :
    ∃ table, (afterCalls CacheKey.digest [firstCall]).get firstCall.project firstCall.registry
        firstDepot = (afterCalls CacheKey.digest [firstCall], firstDepot, .ok table) ∧
      ∃ call ∈ [firstCall, ⟨firstCall.project, firstCall.registry, firstDepot⟩],
        table = .ofSteps (recipe call.project call.registry) := by
  have hget := get_second CacheKey.digest (p := firstCall.project) rfl rfl rfl
  obtain ⟨-, call, hcall, -, -, htable, -⟩ := get_afterCalls (noCollision_second rfl) hget
  exact ⟨_, hget, call, hcall, htable⟩

/-- **The table that is got need not be the one of a new build**, though no keys collide. -/
theorem not_get_fresh : ¬ ∀ (calls : List Call) (p : Project) (r : Registry) (depot : Depot)
    (table : RemappingTable),
      NoCollision CacheKey.digest ((calls ++ [Call.mk p r depot]).map Call.key) →
      ((afterCalls CacheKey.digest calls).get p r depot).2.2 = .ok table →
        (RemappingTable.build p r depot).2 = .ok table := by
  intro h
  have hkey : CacheKey.of (twoEntries "d/e/f".toList "a/b/c".toList) firstCall.registry =
      firstCall.key := by cbv
  have hget := get_second CacheKey.digest
    (p := twoEntries "d/e/f".toList "a/b/c".toList) rfl rfl hkey
  have hbuild := h [firstCall] _ _ _ _ (noCollision_second hkey) (congrArg (·.2.2) hget)
  have htable := RemappingTable.table_of_build (Prod.ext rfl hbuild)
  have hfresh : (RemappingTable.ofSteps (recipe (twoEntries "d/e/f".toList "a/b/c".toList)
      firstCall.registry)).pairs = [("k".toList, "a/b/c".toList)] := by cbv
  rw [← htable, ofSteps_first] at hfresh
  exact absurd hfresh (by decide)

end RemappingCache

end SolPlan
