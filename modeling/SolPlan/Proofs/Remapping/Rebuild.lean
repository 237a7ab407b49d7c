import Mathlib
import SolPlan.Proofs.Package.Settled
import SolPlan.Proofs.Remapping.Building

/-!
# Building a table again

A build that succeeds leaves nothing to do for the next one. What was unpacked is settled, and stays
so while the rest is unpacked; so the second build finds each package as the first has left it,
takes it for done, and comes to the same table.

The sources must not be looked up through the folders that are to be created. A path such as
`cache/name/version/../../../source` leads nowhere at first, so an empty folder is created for the
package; the second build then finds the sources, and copies them.

Results:
* `Lasts.both`: what holds from one time on, and what holds from a later time on;
* `lasts_unpackAfter`: a dependency that was unpacked is not unpacked again;
* `Lasting.andThen`: the parts of a build, one after the other;
* **`build_again`**: a second build changes nothing and gives the same table;
* `not_build_again`: it need not, if the sources are looked up through the cache.
-/

namespace SolPlan

open FileTree (Grows)

/-- From the first tree to the second, the cache has grown. Something holds of the second tree, and
goes on to hold while the cache grows. -/
structure Lasts (cache : List Text) (t t' : FileTree) (P : FileTree → Prop) : Prop where
  grows : Grows cache t t'
  later : ∀ t'', Grows cache t' t'' → P t''

namespace Lasts

variable {cache : List Text} {t t₁ t' : FileTree} {P Q : FileTree → Prop}

theorem refl (cache : List Text) (t : FileTree) (h : ∀ t, P t) : Lasts cache t t P :=
  ⟨Grows.refl cache t, fun t'' _ => h t''⟩

/-- What lasts from one tree on still holds when something else begins to last. -/
theorem both (h : Lasts cache t t₁ P) (h' : Lasts cache t₁ t' Q) :
    Lasts cache t t' fun t => P t ∧ Q t :=
  ⟨h.grows.trans h'.grows, fun t'' ht => ⟨h.later t'' (h'.grows.trans ht), h'.later t'' ht⟩⟩

theorem mono (h : Lasts cache t t' P) (hPQ : ∀ t, P t → Q t) : Lasts cache t t' Q :=
  ⟨h.grows, fun t'' ht => hPQ t'' (h.later t'' ht)⟩

end Lasts

/-! ## Unpacking again -/

variable {cachePath : Path} {cache : List Text} {t t' : FileTree}

/-- A package that was unpacked is not unpacked again. -/
theorem lasts_unpackPackage {q : Package} {copies : List Path} (hcache : cachePath.Descends cache)
    (hfits : q.FitsBeside cache) (hthere : t.FolderAt cache)
    (h : unpackPackage cachePath q t = (t', .ok copies)) :
    Lasts cache t t' fun t => unpackPackage cachePath q t = (t, .ok []) := by
  obtain ⟨hgrows, hsettled⟩ := settled_unpackPackage hcache hfits hthere h
  refine ⟨hgrows, fun t'' ht => ?_⟩
  exact unpackPackage_of_settled (hsettled.grows ht hfits) hcache hfits.toFits

namespace Dependency

theorem any_id (done : List Unpacked) (id : PackageId) :
    done.any (·.id = id) = (done.map Unpacked.id).any (· = id) := by
  rw [List.any_map]
  rfl

mutual

/-- **A dependency that was unpacked is not unpacked again**, after the same packages. -/
theorem lasts_unpackAfter {done unpacked : List Unpacked} {t t' : FileTree}
    (hcache : cachePath.Descends cache) :
    ∀ d : Dependency, (∀ q ∈ d.brought, q.FitsBeside cache) → t.FolderAt cache →
      unpackAfter cachePath done d t = (t', .ok unpacked) →
        Lasts cache t t' fun t => ∀ done', done'.map Unpacked.id = done.map Unpacked.id →
          ∃ unpacked', unpackAfter cachePath done' d t = (t, .ok unpacked')
  | mk package dependencies, hfits, hthere, h => by
    unfold unpackAfter at h
    split at h
    · rename_i hany
      cases h
      refine Lasts.refl cache _ fun t done' hids => ⟨done', ?_⟩
      unfold unpackAfter
      rw [any_id, hids, ← any_id, if_pos hany]
    · rename_i hany
      split at h
      · cases h
      · rename_i t₁ copies hunpack
        have hfirst := lasts_unpackPackage hcache (hfits package List.mem_cons_self) hthere hunpack
        have hrest := lasts_unpackAllAfter hcache dependencies
          (fun q hq => hfits q (List.mem_cons_of_mem _ hq)) (hfirst.grows.folderAt hthere) h
        refine (hfirst.both hrest).mono ?_
        rintro t ⟨hpackage, hdependencies⟩ done' hids
        obtain ⟨unpacked', hunpacked⟩ :=
          hdependencies (done' ++ [⟨package.id, []⟩]) (by simp [hids])
        refine ⟨unpacked', ?_⟩
        unfold unpackAfter
        rw [any_id, hids, ← any_id, if_neg hany, hpackage]
        exact hunpacked

theorem lasts_unpackAllAfter {done unpacked : List Unpacked} {t t' : FileTree}
    (hcache : cachePath.Descends cache) :
    ∀ ds : List Dependency, (∀ q ∈ allBrought ds, q.FitsBeside cache) → t.FolderAt cache →
      unpackAllAfter cachePath done ds t = (t', .ok unpacked) →
        Lasts cache t t' fun t => ∀ done', done'.map Unpacked.id = done.map Unpacked.id →
          ∃ unpacked', unpackAllAfter cachePath done' ds t = (t, .ok unpacked')
  | [], _, _, h => by
    unfold unpackAllAfter at h
    cases h
    refine Lasts.refl cache _ fun t done' _ => ⟨done', ?_⟩
    unfold unpackAllAfter
    rfl
  | d :: ds, hfits, hthere, h => by
    unfold unpackAllAfter at h
    split at h
    · cases h
    · rename_i t₁ done₁ hunpack
      have hfirst := lasts_unpackAfter hcache d (fun q hq => hfits q (List.mem_append_left _ hq))
        hthere hunpack
      have hrest := lasts_unpackAllAfter hcache ds
        (fun q hq => hfits q (List.mem_append_right _ hq))
        (hfirst.grows.folderAt hthere) h
      refine (hfirst.both hrest).mono ?_
      rintro t ⟨hd, hds⟩ done' hids
      obtain ⟨done₂, hagain⟩ := hd done' hids
      have hids₂ : done₂.map Unpacked.id = done₁.map Unpacked.id := by
        rw [unpackAfter_ids d hagain, unpackAfter_ids d hunpack, hids]
      obtain ⟨unpacked', hunpacked⟩ := hds done₂ hids₂
      refine ⟨unpacked', ?_⟩
      unfold unpackAllAfter
      rw [hagain]
      exact hunpacked

end

end Dependency

/-! ## Building again -/

namespace Draft

variable {p : Project} {r : Registry} {f g : Draft → Draft × Except Error Unit}

/-- One change of a draft, and then another, if the first succeeds. -/
def andThen (f g : Draft → Draft × Except Error Unit) (d : Draft) : Draft × Except Error Unit :=
  match f d with
  | (d, .error e) => (d, .error e)
  | (d, .ok ()) => g d

/-- Let a configured key claim the packages of a name. -/
def claim (name key : Text) (d : Draft) : Draft × Except Error Unit :=
  ({ d with claims := d.claims.insert name key }, .ok ())

/-- Whatever was drafted so far, on this tree it succeeds and changes nothing in the tree. -/
def Idle (f : Draft → Draft × Except Error Unit) (t : FileTree) : Prop :=
  ∀ d : Draft, d.tree = t → ∃ e, f d = (e, .ok ()) ∧ e.tree = t

/-- Where it has succeeded once, it leaves nothing to do for the next time. -/
def Lasting (cache : List Text) (f : Draft → Draft × Except Error Unit) : Prop :=
  ∀ d e : Draft, d.tree.FolderAt cache → f d = (e, .ok ()) →
    Lasts cache d.tree e.tree (Idle f)

/-- What changes nothing in the tree leaves nothing to do. -/
theorem Lasting.of_tree (h : ∀ d, ∃ e, f d = (e, .ok ()) ∧ e.tree = d.tree) : Lasting cache f := by
  intro d e _ hd
  obtain ⟨e', he', htree⟩ := h d
  rw [hd] at he'
  cases he'
  rw [htree]
  exact Lasts.refl cache d.tree fun t d' hd' => hd' ▸ h d'

/-- **One change after another** leaves nothing to do, if neither does. -/
theorem Lasting.andThen (hf : Lasting cache f) (hg : Lasting cache g) :
    Lasting cache (andThen f g) := fun d e hthere h => by
  unfold Draft.andThen at h
  split at h
  · cases h
  · rename_i d₁ hd₁
    have hfirst := hf d d₁ hthere hd₁
    have hsecond := hg d₁ e (hfirst.grows.folderAt hthere) h
    refine (hfirst.both hsecond).mono ?_
    rintro t ⟨hidle, hidle'⟩ d' hd'
    obtain ⟨d₂, hd₂, htree⟩ := hidle d' hd'
    unfold Draft.andThen
    rw [hd₂]
    exact hidle' d₂ htree

theorem lasting_addDependency {dependency : Dependency} (hcache : p.cacheFolder.Descends cache)
    (hfits : ∀ q ∈ dependency.brought, q.FitsBeside cache) :
    Lasting cache (addDependency p dependency) := fun d e hthere h => by
  unfold addDependency at h
  split at h
  · cases h
  · rename_i tree unpacked hunpack
    cases h
    refine (Dependency.lasts_unpackAfter hcache dependency hfits hthere hunpack).mono ?_
    rintro t hagain d rfl
    obtain ⟨unpacked', hunpacked⟩ := hagain [] rfl
    refine ⟨{ d with table := unpacked'.foldl (register p d.claims) d.table }, ?_, rfl⟩
    unfold addDependency Dependency.unpack
    rw [hunpacked]

theorem addDependencies_cons (p : Project) (dependency : Dependency) (more : List Dependency) :
    addDependencies p (dependency :: more) =
      andThen (addDependency p dependency) (addDependencies p more) := rfl

theorem lasting_addDependencies {dependencies : List Dependency}
    (hcache : p.cacheFolder.Descends cache)
    (hfits : ∀ q ∈ Dependency.allBrought dependencies, q.FitsBeside cache) :
    Lasting cache (addDependencies p dependencies) := by
  induction dependencies with
  | nil => exact Lasting.of_tree fun d => ⟨d, rfl, rfl⟩
  | cons dependency more ih =>
    rw [addDependencies_cons]
    exact (lasting_addDependency hcache fun q hq => hfits q (List.mem_append_left _ hq)).andThen
      (ih fun q hq => hfits q (List.mem_append_right _ hq))

variable (hcache : p.cacheFolder.Descends cache)
  (hfits : ∀ q ∈ Dependency.allBrought r.installed, q.FitsBeside cache)
include hcache hfits

theorem lasting_addEntry (entry : RemapEntry) : Lasting cache (addEntry p r entry) := by
  cases htarget : (entry.target? r.installed).bind r.find? with
  | none =>
    refine Lasting.of_tree fun d =>
      ⟨{ d with table := d.table.insert entry.key entry.value }, ?_, rfl⟩
    unfold addEntry
    rw [htarget]
  | some dependency =>
    obtain ⟨id, -, hfind⟩ := Option.bind_eq_some_iff.mp htarget
    have hadd : addEntry p r entry =
        andThen (claim dependency.id.name entry.key) (addDependency p dependency) := by
      funext d
      unfold addEntry
      rw [htarget]
      rfl
    have hclaim : Lasting cache (claim dependency.id.name entry.key) :=
      Lasting.of_tree fun d => ⟨_, rfl, rfl⟩
    rw [hadd]
    exact hclaim.andThen (lasting_addDependency hcache fun q hq =>
      hfits q (Dependency.brought_of_findIn? _ hfind q hq))

theorem lasting_addEntries (raws : List Text) : Lasting cache (addEntries p r raws) := by
  induction raws with
  | nil => exact Lasting.of_tree fun d => ⟨d, rfl, rfl⟩
  | cons raw raws ih =>
    cases hentry : RemapEntry.ofText raw with
    | error fault =>
      intro d e _ h
      unfold addEntries at h
      rw [hentry] at h
      cases h
    | ok entry =>
      have hadd : addEntries p r (raw :: raws) =
          andThen (addEntry p r entry) (addEntries p r raws) := by
        funext d
        unfold addEntries
        rw [hentry]
        rfl
      rw [hadd]
      exact (lasting_addEntry hcache hfits entry).andThen ih

theorem lasting_addAll : Lasting cache (addAll p r r.declared) :=
  (lasting_addEntries hcache hfits p.config.remappings).andThen
    (lasting_addDependencies hcache fun q hq => hfits q (Dependency.allBrought_declared q hq))

end Draft

namespace RemappingTable

variable {p : Project} {r : Registry} {depot depot' : Depot} {table : RemappingTable}

/-- **Building again changes nothing** and gives the same table. -/
theorem build_again
    (hfits : ∀ q ∈ Dependency.allBrought r.installed, q.FitsBeside p.cacheFolder.place)
    (h : build p r depot = (depot', .ok table)) :
    build p r depot' = ({ depot' with requests := depot'.requests + 1 }, .ok table) := by
  obtain ⟨cache, hcache⟩ := p.descends_cacheFolder
  rw [hcache.place_eq] at hfits
  have hfirst := h
  unfold build at h
  split at h
  · cases h
  · rename_i depot₁ declared hinstall
    obtain rfl : declared = r.declared := r.declared_of_install (congrArg Prod.snd hinstall)
    obtain ⟨rfl, hok⟩ := Prod.mk.inj hinstall
    split at h
    · cases h
    · rename_i tree hmake
      have hthere : tree.FolderAt cache :=
        hcache.place_eq ▸ FileTree.folderAt_of_makeDirectories hcache.isAbsolute hmake
      split at h
      · cases h
      · rename_i draft hall
        cases h
        have hlasts := Draft.lasting_addAll hcache hfits _ draft hthere hall
        obtain ⟨draft', hagain, htree⟩ :=
          hlasts.later draft.tree (Grows.refl cache _) ⟨draft.tree, .empty, .empty⟩ rfl
        have hmade := FileTree.makeDirectories_of_folderAt hcache (hlasts.grows.folderAt hthere)
        have hsecond : build p r ⟨draft.tree, depot.requests + 1⟩ =
            (⟨draft.tree, depot.requests + 1 + 1⟩, .ok draft'.table) := by
          unfold build Depot.install
          rw [hok]
          dsimp only
          rw [hmade]
          dsimp only
          rw [hagain]
          dsimp only
          rw [htree]
        rw [hsecond, build_table hsecond hfirst]

/-- A project at the root directory, with its sources in `c`. -/
def small : Project := ⟨[], ⟨['c']⟩, ⟨[], []⟩⟩

/-- A package that is installed as a path says, with its sources in `s`. -/
def packageAt (root : Text) : Package := ⟨⟨['m'], ['1']⟩, ⟨root⟩, ⟨['s']⟩, ⟨[], []⟩⟩

/-- The package is declared. -/
def installedAt (root : Text) : Registry := ⟨[.mk (packageAt root) []], [], none⟩

/-- There is one file, in the sources of what is installed at `/i`. -/
def installation : Depot :=
  ⟨FileTree.empty.place ⟨"/i/s/T.sol".toList⟩ (some (.text [])), 0⟩

theorem place_small : small.cacheFolder.place = [['c'], cacheFolderName] := by decide +kernel

theorem forall_mem_installedAt {root : Text} {P : Package → Prop} (h : P (packageAt root)) :
    ∀ q ∈ Dependency.allBrought (installedAt root).installed, P q := fun _ hq =>
  List.mem_singleton.mp hq ▸ h

theorem fits_packageAt {root : Text} (h : (packageAt root).sources.place = [['i'], ['s']]) :
    (packageAt root).Fits [['c'], cacheFolderName] where
  name := (⟨by decide, by decide, by decide⟩ : Path.IsName ['m'])
  version := (⟨by decide, by decide, by decide⟩ : Path.IsName ['1'])
  relative := (by decide : (⟨['s']⟩ : Path).isAbsolute = false)
  down := by
    have hwritten : (⟨['s']⟩ : Path).written = [['s']] := by decide +kernel
    change ∀ s ∈ (⟨['s']⟩ : Path).written, Path.IsName s
    rw [hwritten]
    exact List.forall_mem_singleton.mpr ⟨by decide, by decide, by decide⟩
  apart := fun _ => by
    rw [h]
    exact ⟨by decide, by decide⟩

/-- The package is copied, and then left alone. -/
theorem build_again_small :
    ∃ depot table, (∀ q ∈ Dependency.allBrought (installedAt ['/', 'i']).installed,
        q.FitsBeside small.cacheFolder.place) ∧
      build small (installedAt ['/', 'i']) installation = (depot, .ok table) ∧
      build small (installedAt ['/', 'i']) depot =
        ({ depot with requests := depot.requests + 1 }, .ok table) := by
  have hok : (build small (installedAt ['/', 'i']) installation).2.isOk = true := by decide +kernel
  have hsources : (packageAt ['/', 'i']).sources.Descends [['i'], ['s']] :=
    { isAbsolute := by decide
      written := ⟨0, by decide +kernel⟩
      isName := by
        refine List.forall_mem_cons.mpr ⟨⟨by decide, by decide, by decide⟩, ?_⟩
        exact List.forall_mem_singleton.mpr ⟨by decide, by decide, by decide⟩ }
  have hfits : ∀ q ∈ Dependency.allBrought (installedAt ['/', 'i']).installed,
      q.FitsBeside small.cacheFolder.place := by
    rw [place_small]
    exact forall_mem_installedAt ⟨fits_packageAt hsources.place_eq, hsources.avoids (by decide)⟩
  cases hbuild : build small (installedAt ['/', 'i']) installation with
  | mk depot result =>
    cases result with
    | error e => rw [hbuild] at hok; cases hok
    | ok table => exact ⟨depot, table, hfits, rfl, build_again hfits hbuild⟩

/-- The same place, by a path that goes through the folder which the package is to get. -/
def roundabout : Text := "/c/../c/.cache/m/1/../../../../i".toList

/-- **A second build may go on where the first has stopped**: it copies the sources of a package
that are looked up through the folder which the first build has created. They are not below the
cache folder, neither where they are nor as their path is written. -/
theorem not_build_again :
    ¬ ∀ (p : Project) (r : Registry) (depot depot' : Depot) (table : RemappingTable),
      (∀ q ∈ Dependency.allBrought r.installed, q.Fits p.cacheFolder.place ∧
        ¬ p.cacheFolder.written <+: q.sources.written) →
      build p r depot = (depot', .ok table) →
        (build p r depot').2 = .ok table ∧ (build p r depot').1.tree = depot'.tree := by
  intro hall
  have hok : (build small (installedAt roundabout) installation).2.isOk = true := by decide +kernel
  have hplace : (packageAt roundabout).sources.place = [['i'], ['s']] := by decide +kernel
  have hwritten : small.cacheFolder.written = [['c'], cacheFolderName] := by decide +kernel
  have hsources : (packageAt roundabout).sources.written.take 2 = [['c'], ['.', '.']] := by
    decide +kernel
  have hfits : ∀ q ∈ Dependency.allBrought (installedAt roundabout).installed,
      q.Fits small.cacheFolder.place ∧ ¬ small.cacheFolder.written <+: q.sources.written := by
    rw [place_small, hwritten]
    refine forall_mem_installedAt ⟨fits_packageAt hplace, fun hfront => ?_⟩
    have htake := List.prefix_iff_eq_take.mp hfront
    rw [show [['c'], cacheFolderName].length = 2 from rfl, hsources] at htake
    exact absurd htake (by decide)
  cases hbuild : build small (installedAt roundabout) installation with
  | mk depot result =>
    cases result with
    | error e => rw [hbuild] at hok; cases hok
    | ok table =>
      have htree := (hall small (installedAt roundabout) installation depot table hfits hbuild).2
      -- the second build has added the copy
      have hfirst : ((build small (installedAt roundabout) installation).1.tree.filesBelow
          []).length = 1 := by decide +kernel
      have hsecond : ((build small (installedAt roundabout)
          (build small (installedAt roundabout) installation).1).1.tree.filesBelow
          []).length = 2 := by decide +kernel
      rw [hbuild] at hfirst hsecond
      rw [htree, hfirst] at hsecond
      cases hsecond

end RemappingTable

end SolPlan
