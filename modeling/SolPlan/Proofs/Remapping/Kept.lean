import SolPlan.Proofs.Remapping.Correction
import SolPlan.Proofs.Remapping.Transparency

/-!
# What a cache keeps

A cache is asked for tables, told of corrections, and made to forget, for any projects in any order;
between its uses the trees, the registries and the projects may change. What it keeps for a root can
be told from the history of that root alone: it is the table that was built last, with all
corrections since then in their order, unless it was forgotten since (`LastWritten`).

A request comes to one of three things (`Outcome`). What is kept is given, if it can be used
(`Usable`); otherwise a table is built, or cannot be built. It can be used if the key of the request
has the digest of the one it was built for. So it is given for the same key, and for any other with
the same digest: only if no two keys of the history have one digest (`NoCollision`), another key
means another table. The digest is any function of keys; that of the program has collisions.

Results:
* `outcome_get`: what a request comes to;
* `kept_use_iff`: what is kept for a root after one use;
* `kept_afterUses_iff`: what is kept for a root after any uses;
* **`history_afterUses`**: all that holds of a cache after any uses (`History`);
* `not_rebuilt_of_otherKey`: a request with another key need not build.
-/

namespace SolPlan

/-- Building a table asks for one installation, whatever becomes of it. -/
theorem RemappingTable.requests_build (p : Project) (r : Registry) (depot : Depot) :
    (build p r depot).1.requests = depot.requests + 1 := by
  unfold build
  split
  · rename_i hinstall
    rw [← (Prod.mk.inj hinstall).1]
  · rename_i hinstall
    rw [← (Prod.mk.inj hinstall).1]
    split
    · rfl
    · split <;> rfl

/-- What is kept, with corrections. -/
def KeptTable.corrected (k : KeptTable) (corrections : List Correction) : KeptTable :=
  { k with table := corrections.foldl RemappingTable.correct k.table }

/-- The cache folder is there, and so is each package folder that a value of the table points into. -/
structure KeptTable.FoldersThere (p : Project) (t : FileTree) (k : KeptTable) : Prop where
  cacheFolder : t.isDirectory p.cacheFolder = true
  packageFolders : ∀ e ∈ k.table.pairs, ∀ place, CacheLocation.ofText? e.2 = some place →
    t.isDirectory (p.rootPath.join ⟨place.packagePath⟩) = true

/-- What is kept can be used for a project: the digest of its key is kept with it, and the folders
are there. -/
structure KeptTable.Usable (digest : CacheKey → UInt64) (p : Project) (r : Registry) (t : FileTree)
    (k : KeptTable) : Prop extends k.FoldersThere p t where
  key : k.key = digest (.of p r)

/-- Something that is done with a cache. -/
inductive CacheUse where
  /-- Ask for the table of a project. -/
  | get (call : RemappingCache.Call)
  /-- Correct the table kept for a project. -/
  | correct (p : Project) (corrections : List Correction)
  /-- Forget the table of a project. -/
  | forget (p : Project)

/-- The key of a request. -/
def CacheUse.key? : CacheUse → Option CacheKey
  | get call => some call.key
  | _ => none

/-- The root of the project that a use is about. -/
def CacheUse.root : CacheUse → Location
  | get call => call.project.root
  | correct p _ => p.root
  | forget p => p.root

/-- The use makes a cache forget what it keeps for a root. -/
def CacheUse.Forgets (root : Location) : CacheUse → Prop
  | forget p => p.root = root
  | _ => False

/-- The corrections that a use makes for a root. -/
def CacheUse.correctionsFor (root : Location) : CacheUse → List Correction
  | correct p corrections => if p.root = root then corrections else []
  | _ => []

namespace RemappingCache

variable {digest : CacheKey → UInt64} {c : RemappingCache} {p : Project} {r : Registry}
  {t : FileTree} {depot : Depot} {root : Location} {k : KeptTable} {u : CacheUse}
  {uses : List CacheUse} {call : Call}

/-- The cache keeps nothing that can be used for a project. -/
def Lacks (c : RemappingCache) (p : Project) (r : Registry) (t : FileTree) : Prop :=
  ∀ k, c.kept[p.root]? = some k → ¬ k.Usable c.digest p r t

/-- What a request can come to: the cache and the depot that it leaves, and the answer. -/
inductive Outcome (c : RemappingCache) (p : Project) (r : Registry) (depot : Depot) :
    RemappingCache × Depot × Except Error RemappingTable → Prop where
  | reused {k : KeptTable} (hkept : c.kept[p.root]? = some k)
    (husable : k.Usable c.digest p r depot.tree) :
    Outcome c p r depot (c, depot, .ok k.table)
  | built {depot' : Depot} {table : RemappingTable} (hlacks : c.Lacks p r depot.tree)
    (hbuild : RemappingTable.build p r depot = (depot', .ok table)) :
    Outcome c p r depot (c.keep p.root ⟨c.digest (.of p r), table⟩, depot', .ok table)
  | failed {depot' : Depot} {e : Error} (hlacks : c.Lacks p r depot.tree)
    (hbuild : RemappingTable.build p r depot = (depot', .error e)) :
    Outcome c p r depot (c, depot', .error e)

theorem foldersThere_iff : k.FoldersThere p t ↔ foldersPresent p t k.table = true := by
  rw [foldersPresent_iff]
  constructor
  · rintro ⟨hcache, hfolders⟩
    refine ⟨hcache, fun e he folder hfolder => ?_⟩
    obtain ⟨place, hplace, rfl⟩ := Option.map_eq_some_iff.mp hfolder
    exact hfolders e he place hplace
  · rintro ⟨hcache, hfolders⟩
    exact ⟨hcache, fun e he place hplace => hfolders e he _ (by rw [hplace]; rfl)⟩

theorem reusable?_eq_some (hkept : c.kept[p.root]? = some k) (husable : k.Usable c.digest p r t) :
    c.reusable? p r t = some k.table := by
  refine reusable?_eq_some_iff.mpr ⟨?_, foldersThere_iff.mp husable.toFoldersThere⟩
  rw [hkept, ← husable.key]

theorem reusable?_eq_none (hlacks : c.Lacks p r t) : c.reusable? p r t = none := by
  cases h : c.reusable? p r t with
  | none => rfl
  | some table =>
    obtain ⟨hkept, hfolders⟩ := reusable?_eq_some_iff.mp h
    have hthere : KeptTable.FoldersThere p t ⟨c.digest (.of p r), table⟩ :=
      foldersThere_iff.mpr hfolders
    exact absurd ⟨hthere, rfl⟩ (hlacks _ hkept)

/-- **What a request comes to.** -/
theorem outcome_get (c : RemappingCache) (p : Project) (r : Registry) (depot : Depot) :
    Outcome c p r depot (c.get p r depot) := by
  by_cases hlacks : c.Lacks p r depot.tree
  · have hnone := reusable?_eq_none hlacks
    cases hbuild : RemappingTable.build p r depot with
    | mk depot' answer =>
      cases answer with
      | ok table =>
        rw [get_of_build hnone hbuild]
        exact .built hlacks hbuild
      | error e =>
        unfold get
        rw [hnone]
        dsimp only
        rw [hbuild]
        exact .failed hlacks hbuild
  · unfold Lacks at hlacks
    push Not at hlacks
    obtain ⟨k, hkept, husable⟩ := hlacks
    rw [get_of_reusable (reusable?_eq_some hkept husable)]
    exact .reused hkept husable

/-! ## One use -/

/-- The cache after one use. -/
def use (c : RemappingCache) : CacheUse → RemappingCache
  | .get call => (c.get call.project call.registry call.depot).1
  | .correct p corrections => c.correct p corrections
  | .forget p => c.forget p

/-- The use writes a table for a root: a request that finds nothing usable, and builds. -/
def Writes (c : RemappingCache) (root : Location) (k : KeptTable) : CacheUse → Prop
  | .get call => c.Lacks call.project call.registry call.depot.tree ∧ call.Builds c.digest root k
  | _ => False

/-- The use neither writes a table for a root nor forgets it. -/
def Spares (c : RemappingCache) (root : Location) (u : CacheUse) : Prop :=
  ¬ u.Forgets root ∧ ∀ k, ¬ c.Writes root k u

theorem kept_keep (c : RemappingCache) (root root' : Location) (k : KeptTable) :
    (c.keep root k).kept[root']? = if root' = root then some k else c.kept[root']? :=
  getElem?_insert_ite

theorem digest_use (c : RemappingCache) (u : CacheUse) : (c.use u).digest = c.digest := by
  cases u <;> simp [use]

theorem correct_of_none (hkept : c.kept[p.root]? = none) (corrections : List Correction) :
    c.correct p corrections = c := by
  unfold correct
  rw [hkept]

theorem kept_correct_eq (corrections : List Correction) :
    (c.correct p corrections).kept[root]? =
      (c.kept[root]?).map fun k => k.corrected (if p.root = root then corrections else []) := by
  by_cases hroot : p.root = root
  · subst hroot
    rw [if_pos rfl]
    cases hkept : c.kept[p.root]? with
    | none => rw [correct_of_none hkept]; exact hkept
    | some k => exact kept_correct hkept corrections
  · rw [if_neg hroot]
    have hsame : (c.correct p corrections).kept[root]? = c.kept[root]? := by
      unfold correct
      split
      · rfl
      · rw [kept_keep, if_neg (Ne.symm hroot)]
    rw [hsame]
    cases c.kept[root]? <;> rfl

theorem kept_forget : (c.forget p).kept[root]? = if p.root = root then none else c.kept[root]? := by
  unfold forget
  rw [Std.ExtTreeMap.getElem?_erase]
  simp only [Std.LawfulEqCmp.compare_eq_iff_eq]

/-- What is kept for a root that a use leaves alone. -/
theorem kept_iff_of_spares (hspares : c.Spares root u) (hnone : u.correctionsFor root = []) :
    c.kept[root]? = some k ↔ c.Writes root k u ∨ c.Spares root u ∧
      ∃ k₀, c.kept[root]? = some k₀ ∧ k = k₀.corrected (u.correctionsFor root) := by
  rw [hnone]
  constructor
  · exact fun h => Or.inr ⟨hspares, k, h, rfl⟩
  · rintro (h | ⟨-, k₀, hkept, rfl⟩)
    · exact absurd h (hspares.2 k)
    · exact hkept

/-- **What is kept for a root after one use**: what the use writes, or else what was kept before,
with the corrections that the use makes. -/
theorem kept_use_iff : (c.use u).kept[root]? = some k ↔
    c.Writes root k u ∨ c.Spares root u ∧
      ∃ k₀, c.kept[root]? = some k₀ ∧ k = k₀.corrected (u.correctionsFor root) := by
  cases u with
  | get call =>
    change (c.get call.project call.registry call.depot).1.kept[root]? = some k ↔ _
    have houtcome := outcome_get c call.project call.registry call.depot
    generalize c.get call.project call.registry call.depot = result at houtcome ⊢
    cases houtcome with
    | reused hkept husable =>
      exact kept_iff_of_spares ⟨id, fun _ hwrites => hwrites.1 _ hkept husable⟩ rfl
    | @failed depot e hlacks hbuild =>
      refine kept_iff_of_spares ⟨id, ?_⟩ rfl
      rintro k ⟨-, -, -, depot', hbuild'⟩
      rw [hbuild] at hbuild'
      cases hbuild'
    | @built depot table hlacks hbuild =>
      rw [kept_keep]
      by_cases hroot : root = call.project.root
      · have hwrites : c.Writes root ⟨c.digest call.key, table⟩ (.get call) :=
          ⟨hlacks, hroot.symm, rfl, depot, hbuild⟩
        rw [if_pos hroot, Option.some.injEq]
        constructor
        · rintro rfl
          exact Or.inl hwrites
        · rintro (⟨-, -, hkey, depot', hbuild'⟩ | ⟨⟨-, hspares⟩, -⟩)
          · rw [hbuild] at hbuild'
            cases hbuild'
            exact congrArg (KeptTable.mk · k.table) hkey
          · exact absurd hwrites (hspares _)
      · rw [if_neg hroot]
        exact kept_iff_of_spares ⟨id, fun _ hwrites => hroot hwrites.2.root_eq.symm⟩ rfl
  | correct p corrections =>
    change (c.correct p corrections).kept[root]? = some k ↔ _
    rw [kept_correct_eq, Option.map_eq_some_iff]
    constructor
    · rintro ⟨k₀, hkept, rfl⟩
      exact Or.inr ⟨⟨id, fun _ => id⟩, k₀, hkept, rfl⟩
    · rintro (h | ⟨-, k₀, hkept, rfl⟩)
      · exact h.elim
      · exact ⟨k₀, hkept, rfl⟩
  | forget p =>
    change (c.forget p).kept[root]? = some k ↔ _
    rw [kept_forget]
    by_cases hroot : p.root = root
    · rw [if_pos hroot]
      constructor
      · exact fun h => nomatch h
      · rintro (h | ⟨⟨hspares, -⟩, -⟩)
        · exact h.elim
        · exact absurd hroot hspares
    · rw [if_neg hroot]
      exact kept_iff_of_spares ⟨hroot, fun _ => id⟩ rfl

/-- A use leaves alone what is kept for other roots. -/
theorem kept_use_of_ne (hroot : u.root ≠ root) : (c.use u).kept[root]? = c.kept[root]? := by
  have hspares : c.Spares root u := by
    cases u with
    | get call => exact ⟨id, fun _ hwrites => hroot hwrites.2.root_eq⟩
    | correct p corrections => exact ⟨id, fun _ => id⟩
    | forget p => exact ⟨hroot, fun _ => id⟩
  have hnone : u.correctionsFor root = [] := by
    cases u with
    | correct p corrections => exact if_neg hroot
    | _ => rfl
  refine Option.ext fun k => ?_
  rw [kept_use_iff, ← kept_iff_of_spares hspares hnone]

/-! ## Any uses -/

/-- The cache after some uses, the first of which finds nothing kept. -/
def afterUses (digest : CacheKey → UInt64) (uses : List CacheUse) : RemappingCache :=
  uses.foldl use (blank digest)

theorem afterUses_concat (digest : CacheKey → UInt64) (uses : List CacheUse) (u : CacheUse) :
    afterUses digest (uses ++ [u]) = (afterUses digest uses).use u := List.foldl_concat ..

theorem digest_afterUses (digest : CacheKey → UInt64) (uses : List CacheUse) :
    (afterUses digest uses).digest = digest := by
  induction uses using List.reverseRecOn with
  | nil => rfl
  | append_singleton uses u ih => rw [afterUses_concat, digest_use, ih]

/-- What was written for a root last: a request has written it, and nothing after it has written
anything else or made the cache forget it. What is kept is that, with all corrections since. -/
def LastWritten (digest : CacheKey → UInt64) (uses : List CacheUse) (root : Location) (call : Call)
    (k : KeptTable) : Prop :=
  ∃ before since written, uses = before ++ .get call :: since ∧
    (afterUses digest before).Writes root written (.get call) ∧
    (∀ middle u rest, since = middle ++ u :: rest →
      (afterUses digest (before ++ .get call :: middle)).Spares root u) ∧
    k = written.corrected (since.flatMap (CacheUse.correctionsFor root))

theorem LastWritten.mem (h : LastWritten digest uses root call k) : .get call ∈ uses := by
  obtain ⟨before, since, -, rfl, -⟩ := h
  exact List.mem_append_right _ List.mem_cons_self

theorem LastWritten.key_eq (h : LastWritten digest uses root call k) : k.key = digest call.key := by
  obtain ⟨before, -, written, -, ⟨-, hbuilds⟩, -, rfl⟩ := h
  have hkey := hbuilds.key_eq
  rw [digest_afterUses] at hkey
  exact hkey.symm

theorem lastWritten_concat : LastWritten digest (uses ++ [u]) root call k ↔
    (u = .get call ∧ (afterUses digest uses).Writes root k u) ∨
      (afterUses digest uses).Spares root u ∧
        ∃ k₀, LastWritten digest uses root call k₀ ∧ k = k₀.corrected (u.correctionsFor root) := by
  constructor
  · rintro ⟨before, since, written, huses, hwrites, hspares, rfl⟩
    rcases List.eq_nil_or_concat since with rfl | ⟨since, u', rfl⟩
    · obtain ⟨rfl, rfl⟩ := List.append_singleton_inj.mp huses
      exact Or.inl ⟨rfl, hwrites⟩
    · rw [List.concat_eq_append, ← List.cons_append, ← List.append_assoc] at huses
      obtain ⟨rfl, rfl⟩ := List.append_singleton_inj.mp huses
      rw [List.concat_eq_append] at hspares ⊢
      refine Or.inr ⟨hspares since u [] rfl, _, ⟨before, since, written, rfl, hwrites, ?_, rfl⟩, ?_⟩
      · rintro middle u' rest rfl
        exact hspares middle u' (rest ++ [u]) (by simp)
      · simp [KeptTable.corrected]
  · rintro (⟨rfl, hwrites⟩ | ⟨hspare, k₀, ⟨before, since, written, rfl, hwrites, hspares, rfl⟩, rfl⟩)
    · exact ⟨uses, [], k, rfl, hwrites, by simp, rfl⟩
    · refine ⟨before, since ++ [u], written, by simp, hwrites, fun middle u' rest h => ?_,
        by simp [KeptTable.corrected]⟩
      rcases List.eq_nil_or_concat rest with rfl | ⟨rest, u'', rfl⟩
      · obtain ⟨rfl, rfl⟩ := List.append_singleton_inj.mp h
        exact hspare
      · rw [List.concat_eq_append, ← List.cons_append, ← List.append_assoc] at h
        exact hspares middle u' rest (List.append_singleton_inj.mp h).1

/-- Only a request writes. -/
theorem exists_get_of_writes (h : c.Writes root k u) : ∃ call, u = .get call := by
  cases u with
  | get call => exact ⟨call, rfl⟩
  | _ => exact h.elim

/-- **What is kept for a root** is what was written for it last, with all corrections since. -/
theorem kept_afterUses_iff :
    (afterUses digest uses).kept[root]? = some k ↔ ∃ call, LastWritten digest uses root call k := by
  induction uses using List.reverseRecOn generalizing k with
  | nil => simp [afterUses, blank, LastWritten]
  | append_singleton uses u ih =>
    rw [afterUses_concat, kept_use_iff]
    simp only [ih, lastWritten_concat]
    constructor
    · rintro (hwrites | ⟨hspares, k₀, ⟨call, hlast⟩, hk⟩)
      · obtain ⟨call, rfl⟩ := exists_get_of_writes hwrites
        exact ⟨call, Or.inl ⟨rfl, hwrites⟩⟩
      · exact ⟨call, Or.inr ⟨hspares, k₀, hlast, hk⟩⟩
    · rintro ⟨call, ⟨-, hwrites⟩ | ⟨hspares, k₀, hlast, hk⟩⟩
      · exact Or.inl hwrites
      · exact Or.inr ⟨hspares, k₀, ⟨call, hlast⟩, hk⟩

/-- What holds of a cache after any uses. -/
structure History (digest : CacheKey → UInt64) (uses : List CacheUse) : Prop where
  /-- For each root, what was written last is kept, with all corrections since. -/
  kept_iff : ∀ root k,
    (afterUses digest uses).kept[root]? = some k ↔ ∃ call, LastWritten digest uses root call k
  /-- What was written for a key with the same digest is given while its folders are there, and
  nothing is asked for. -/
  get_kept : ∀ p r depot call k, LastWritten digest uses p.root call k →
    digest call.key = digest (.of p r) → k.FoldersThere p depot.tree →
      (afterUses digest uses).get p r depot = (afterUses digest uses, depot, .ok k.table)
  /-- Otherwise a table is built, which asks for one installation. -/
  get_built : ∀ p r depot,
    (∀ call k, LastWritten digest uses p.root call k → digest call.key = digest (.of p r) →
      ¬ k.FoldersThere p depot.tree) →
    ((afterUses digest uses).get p r depot).2 = RemappingTable.build p r depot ∧
      ((afterUses digest uses).get p r depot).2.1.requests = depot.requests + 1
  /-- So it is for another key, if no two keys have one digest. -/
  get_otherKey : ∀ p r depot, NoCollision digest (CacheKey.of p r :: uses.filterMap CacheUse.key?) →
    (∀ call k, LastWritten digest uses p.root call k → call.key = .of p r →
      ¬ k.FoldersThere p depot.tree) →
    ((afterUses digest uses).get p r depot).2 = RemappingTable.build p r depot ∧
      ((afterUses digest uses).get p r depot).2.1.requests = depot.requests + 1
  /-- A request that fails changes nothing that is kept. -/
  get_error : ∀ p r depot e, ((afterUses digest uses).get p r depot).2.2 = .error e →
    ((afterUses digest uses).get p r depot).1 = afterUses digest uses
  /-- What is kept for one root has nothing to do with another. -/
  use_of_ne : ∀ u root, u.root ≠ root →
    ((afterUses digest uses).use u).kept[root]? = (afterUses digest uses).kept[root]?
  /-- Where nothing is kept there is nothing to correct. -/
  correct_of_none : ∀ p corrections, (∀ call k, ¬ LastWritten digest uses p.root call k) →
    (afterUses digest uses).correct p corrections = afterUses digest uses
  /-- The size is the number of roots for which something is kept. -/
  size_eq : ∃ roots : List Location, roots.Nodup ∧
    (afterUses digest uses).size = roots.length ∧
      ∀ root, root ∈ roots ↔ ∃ call k, LastWritten digest uses root call k

/-- What can be used was written for a key with the same digest. -/
theorem usable_iff (h : LastWritten digest uses root call k) : k.Usable digest p r t ↔
    digest call.key = digest (.of p r) ∧ k.FoldersThere p t := by
  rw [← h.key_eq]
  exact ⟨fun husable => ⟨husable.key, husable.toFoldersThere⟩, fun ⟨hkey, hthere⟩ => ⟨hthere, hkey⟩⟩

/-- Where nothing that can be used was written, a table is built. -/
theorem get_of_lacks
    (hlacks : ∀ call k, LastWritten digest uses p.root call k → digest call.key = digest (.of p r) →
      ¬ k.FoldersThere p depot.tree) :
    ((afterUses digest uses).get p r depot).2 = RemappingTable.build p r depot ∧
      ((afterUses digest uses).get p r depot).2.1.requests = depot.requests + 1 := by
  have houtcome := outcome_get (afterUses digest uses) p r depot
  have hrequests := RemappingTable.requests_build p r depot
  generalize (afterUses digest uses).get p r depot = result at houtcome ⊢
  cases houtcome with
  | reused hkept husable =>
    rw [digest_afterUses] at husable
    obtain ⟨call, hlast⟩ := kept_afterUses_iff.mp hkept
    obtain ⟨hkey, hthere⟩ := (usable_iff hlast).mp husable
    exact absurd hthere (hlacks call _ hlast hkey)
  | built _ hbuild =>
    rw [hbuild] at hrequests ⊢
    exact ⟨rfl, hrequests⟩
  | failed _ hbuild =>
    rw [hbuild] at hrequests ⊢
    exact ⟨rfl, hrequests⟩

/-- **What holds of a cache after any uses**, by any projects, whatever may change in between. -/
theorem history_afterUses (digest : CacheKey → UInt64) (uses : List CacheUse) :
    History digest uses where
  kept_iff _ _ := kept_afterUses_iff
  get_kept p r depot call k hlast hkey hthere := by
    have husable := (usable_iff hlast).mpr ⟨hkey, hthere⟩
    refine get_of_reusable (reusable?_eq_some (kept_afterUses_iff.mpr ⟨call, hlast⟩) ?_)
    rwa [digest_afterUses]
  get_built p r depot hlacks := get_of_lacks hlacks
  get_otherKey p r depot hdigest hlacks := by
    refine get_of_lacks fun call k hlast hkey => hlacks call k hlast ?_
    have hmem : call.key ∈ uses.filterMap CacheUse.key? :=
      List.mem_filterMap.mpr ⟨.get call, hlast.mem, rfl⟩
    exact hdigest _ (List.mem_cons_of_mem _ hmem) _ List.mem_cons_self hkey
  get_error p r depot e herror := by
    have houtcome := outcome_get (afterUses digest uses) p r depot
    generalize (afterUses digest uses).get p r depot = result at houtcome herror ⊢
    cases houtcome with
    | reused hkept husable => rfl
    | built hlacks hbuild => cases herror
    | failed hlacks hbuild => rfl
  use_of_ne _ _ := kept_use_of_ne
  correct_of_none p corrections hnone := by
    refine correct_of_none (Option.eq_none_iff_forall_ne_some.mpr fun k hkept => ?_) corrections
    obtain ⟨call, hlast⟩ := kept_afterUses_iff.mp hkept
    exact hnone call k hlast
  size_eq := by
    refine ⟨(afterUses digest uses).kept.keys, Std.ExtTreeMap.nodup_keys,
      Std.ExtTreeMap.length_keys.symm, fun root => ?_⟩
    rw [Std.ExtTreeMap.mem_keys, ← Std.ExtTreeMap.isSome_getElem?_iff_mem,
      Option.isSome_iff_exists, exists_comm]
    exact exists_congr fun k => kept_afterUses_iff

variable (digest) in
/-- What the first request has built is what was written last. -/
theorem lastWritten_get {table : RemappingTable} {depot' : Depot}
    (hbuild : RemappingTable.build call.project call.registry call.depot = (depot', .ok table)) :
    LastWritten digest [.get call] call.project.root call ⟨digest call.key, table⟩ := by
  have hlacks : (blank digest).Lacks call.project call.registry call.depot.tree := by
    simp [Lacks, blank]
  exact ⟨[], [], ⟨digest call.key, table⟩, rfl, ⟨hlacks, rfl, rfl, depot', hbuild⟩, by simp, rfl⟩

/-- A table is built, and its key is corrected. -/
def correctedCall : List CacheUse :=
  [.get firstCall, .correct firstCall.project [⟨['k'], ['x']⟩]]

/-- The next request is given the corrected table, and asks for nothing. -/
theorem history_correctedCall : ∃ table : RemappingTable, table.pairs = [(['k'], ['x'])] ∧
    (afterUses CacheKey.digest correctedCall).get firstCall.project firstCall.registry firstDepot =
      (afterUses CacheKey.digest correctedCall, firstDepot, .ok table) := by
  have hlast : LastWritten CacheKey.digest correctedCall firstCall.project.root firstCall
      ⟨CacheKey.digest firstCall.key, RemappingTable.correct
        (.ofSteps (recipe firstCall.project firstCall.registry)) ⟨['k'], ['x']⟩⟩ := by
    have hconcat : correctedCall =
        [.get firstCall] ++ [.correct firstCall.project [⟨['k'], ['x']⟩]] := rfl
    rw [hconcat, lastWritten_concat]
    exact Or.inr ⟨⟨id, fun _ => id⟩, _, lastWritten_get CacheKey.digest build_first, rfl⟩
  have hpairs : (RemappingTable.correct (.ofSteps (recipe firstCall.project firstCall.registry))
      ⟨['k'], ['x']⟩).pairs = [(['k'], ['x'])] := by
    unfold RemappingTable.correct Table.insert
    dsimp only
    rw [ofSteps_first]
    rfl
  refine ⟨_, hpairs, (history_afterUses CacheKey.digest correctedCall).get_kept _ _ _ _ _ hlast rfl
    ⟨by cbv, fun e he place hplace => ?_⟩⟩
  rw [hpairs, List.mem_singleton] at he
  subst he
  cases hplace

/-- A request for a project with one entry, without packages and on an empty tree. -/
def entryCall (entry : Text) : Call :=
  ⟨⟨[], ⟨"contracts".toList⟩, ⟨[entry], []⟩⟩, ⟨[], [], none⟩, ⟨FileTree.empty, 0⟩⟩

/-- An entry. -/
def anEntry : Text := "K\u00E9k=aaaL\u00E9k1bbb".toList

/-- As many bytes, which are no entry. -/
def noEntry : Text := "\u06F8z\uD5C2DU\u0738z\uD6C1GV".toList

theorem digest_noEntry :
    CacheKey.digest (entryCall anEntry).key = CacheKey.digest (entryCall noEntry).key := by
  cbv

/-- The entry is built, and its folders are there, also for the other project. -/
theorem build_anEntry : ∃ depot table, RemappingTable.build (entryCall anEntry).project
      (entryCall anEntry).registry (entryCall anEntry).depot = (depot, .ok table) ∧
    foldersPresent (entryCall noEntry).project depot.tree table = true := by
  have hpresent : (RemappingTable.build (entryCall anEntry).project (entryCall anEntry).registry
      (entryCall anEntry).depot).2.toOption.map (foldersPresent (entryCall noEntry).project
        (RemappingTable.build (entryCall anEntry).project (entryCall anEntry).registry
          (entryCall anEntry).depot).1.tree) = some true := by cbv
  cases hbuild : RemappingTable.build (entryCall anEntry).project (entryCall anEntry).registry
      (entryCall anEntry).depot with
  | mk depot answer =>
    rw [hbuild] at hpresent
    cases answer with
    | error e => cases hpresent
    | ok table => exact ⟨depot, table, rfl, Option.some.inj hpresent⟩

/-- **A request with another key need not build**: a project whose entries cannot be read is given
the table that was built for other entries, since both have one digest. -/
theorem not_rebuilt_of_otherKey : ¬ ∀ (uses : List CacheUse) (p : Project) (r : Registry)
    (depot : Depot),
    (∀ call k, LastWritten CacheKey.digest uses p.root call k → call.key = .of p r →
      ¬ k.FoldersThere p depot.tree) →
    ((afterUses CacheKey.digest uses).get p r depot).2 = RemappingTable.build p r depot ∧
      ((afterUses CacheKey.digest uses).get p r depot).2.1.requests = depot.requests + 1 := by
  intro h
  obtain ⟨depot, table, hbuild, hpresent⟩ := build_anEntry
  have hkey : (entryCall anEntry).key ≠ (entryCall noEntry).key := by cbv; decide
  have hlast := lastWritten_get CacheKey.digest hbuild
  have hget := (history_afterUses CacheKey.digest [.get (entryCall anEntry)]).get_kept
    (entryCall noEntry).project (entryCall noEntry).registry depot _ _ hlast digest_noEntry
    (foldersThere_iff.mpr hpresent)
  obtain ⟨-, hrequests⟩ := h [.get (entryCall anEntry)] (entryCall noEntry).project
    (entryCall noEntry).registry depot fun call k hlast hsame => by
      obtain rfl := CacheUse.get.inj (List.mem_singleton.mp hlast.mem)
      exact absurd hsame hkey
  rw [hget] at hrequests
  exact absurd hrequests (Nat.ne_of_lt (Nat.lt_succ_self _))

end RemappingCache

end SolPlan
