import Mathlib
import SolPlan.Proofs.Package.Unpack
import SolPlan.Remapping.Build

/-!
# The folders of packages stay whole

A folder in the cache that holds a file passes for unpacked. So it must hold all that the sources
of its package have, whatever has gone wrong before. Calls that unpack a dependency or build a table
may fail at any file; whatever they leave, each package folder is bare or a copy (`Whole`), and
nothing outside the cache has changed, the sources among it.

Results:
* `build_induction`: what unpacking packages and creating the cache folder keep, building a table
  keeps;
* `Whole.unpackPackage`: one package more leaves all folders whole;
* **`isCopied_run`**: after each call, a package folder that holds a file is a copy of the sources
  of a package that was to be unpacked.
-/

namespace SolPlan

open SolPlan.Path (IsName)
open FileTree (SameFiles)

/-! ## What building changes in a tree -/

section Building

variable {p : Project} {r : Registry} {P : FileTree → Prop}

namespace Draft

variable {d : Draft}

theorem addDependency_induction {dependency : Dependency}
    (hpackage : ∀ q ∈ dependency.brought, ∀ t, P t → P (unpackPackage p.cacheFolder q t).1)
    (h : P d.tree) : P (d.addDependency p dependency).1.tree := by
  have hunpack : P (dependency.unpack p.cacheFolder d.tree).1 :=
    Dependency.unpackAfter_induction dependency hpackage h
  unfold addDependency
  split
  · rename_i hresult
    rw [hresult] at hunpack
    exact hunpack
  · rename_i hresult
    rw [hresult] at hunpack
    exact hunpack

theorem addDependencies_induction {dependencies : List Dependency}
    (hpackage : ∀ q ∈ Dependency.allBrought dependencies, ∀ t, P t →
      P (unpackPackage p.cacheFolder q t).1)
    (h : P d.tree) : P (addDependencies p dependencies d).1.tree := by
  induction dependencies generalizing d with
  | nil => exact h
  | cons dependency dependencies ih =>
    have hfirst : P (d.addDependency p dependency).1.tree :=
      addDependency_induction (fun q hq => hpackage q (List.mem_append_left _ hq)) h
    unfold addDependencies
    split
    · rename_i hresult
      rw [hresult] at hfirst
      exact hfirst
    · rename_i hresult
      rw [hresult] at hfirst
      exact ih (fun q hq => hpackage q (List.mem_append_right _ hq)) hfirst

theorem addEntry_induction {entry : RemapEntry}
    (hpackage : ∀ q ∈ Dependency.allBrought r.installed, ∀ t, P t →
      P (unpackPackage p.cacheFolder q t).1)
    (h : P d.tree) : P (d.addEntry p r entry).1.tree := by
  unfold addEntry
  split
  · exact h
  · rename_i dependency htarget
    obtain ⟨id, -, hfind⟩ := Option.bind_eq_some_iff.mp htarget
    exact addDependency_induction
      (fun q hq => hpackage q (Dependency.brought_of_findIn? _ hfind q hq)) h

theorem addEntries_induction {raws : List Text}
    (hpackage : ∀ q ∈ Dependency.allBrought r.installed, ∀ t, P t →
      P (unpackPackage p.cacheFolder q t).1)
    (h : P d.tree) : P (addEntries p r raws d).1.tree := by
  induction raws generalizing d with
  | nil => exact h
  | cons raw raws ih =>
    unfold addEntries
    split
    · exact h
    · rename_i entry _
      have hfirst : P (d.addEntry p r entry).1.tree := addEntry_induction hpackage h
      split
      · rename_i hresult
        rw [hresult] at hfirst
        exact hfirst
      · rename_i hresult
        rw [hresult] at hfirst
        exact ih hfirst

end Draft

/-- What creating the cache folder and unpacking each known package keep, building a table keeps,
whether it fails or not. -/
theorem build_induction {depot : Depot}
    (hmake : ∀ t, P t → P (t.makeDirectories p.cacheFolder).1)
    (hpackage : ∀ q ∈ Dependency.allBrought r.installed, ∀ t, P t →
      P (unpackPackage p.cacheFolder q t).1)
    (h : P depot.tree) : P (RemappingTable.build p r depot).1.tree := by
  unfold RemappingTable.build Depot.install Registry.install
  cases r.outage with
  | some reason => exact h
  | none =>
    dsimp only
    have hmade := hmake _ h
    split
    · rename_i hresult
      rw [hresult] at hmade
      exact hmade
    · rename_i tree hresult
      rw [hresult] at hmade
      have hall : P (Draft.addAll p r r.declared ⟨tree, .empty, .empty⟩).1.tree := by
        have hentries : P (Draft.addEntries p r p.config.remappings
            ⟨tree, .empty, .empty⟩).1.tree :=
          Draft.addEntries_induction hpackage hmade
        unfold Draft.addAll
        split
        · rename_i hfirst
          rw [hfirst] at hentries
          exact hentries
        · rename_i hfirst
          rw [hfirst] at hentries
          exact Draft.addDependencies_induction
            (fun q hq => hpackage q (Dependency.allBrought_declared q hq)) hentries
      split
      · rename_i hbuilt
        rw [hbuilt] at hall
        exact hall
      · rename_i hbuilt
        rw [hbuilt] at hall
        exact hall

end Building

/-! ## Whole folders -/

/-- Outside the cache no file has changed, and each package folder is bare or a copy of the sources
of one of the packages. -/
structure Whole (cache : List Text) (packages : List Package) (before after : FileTree) : Prop where
  outside : ∀ q content, ¬ cache <+: q → (after.FileAt q content ↔ before.FileAt q content)
  folders : ∀ id, after.IsBare (packagePlace cache id) ∨
    ∃ p ∈ packages, p.id = id ∧ p.IsCopied before after (packagePlace cache id)

namespace Whole

variable {cachePath : Path} {cache : List Text} {packages : List Package}
  {before t t' : FileTree}

theorem refl (h : ∀ id, t.IsBare (packagePlace cache id)) : Whole cache packages t t :=
  ⟨fun _ _ _ => Iff.rfl, fun id => Or.inl (h id)⟩

theorem congr (h : Whole cache packages before t) (hsame : SameFiles t t') :
    Whole cache packages before t' := by
  refine ⟨fun q content hq => (hsame q content).trans (h.outside q content hq), fun id => ?_⟩
  refine (h.folders id).imp (·.congr hsame) ?_
  exact fun ⟨p, hp, hid, hcopied⟩ => ⟨p, hp, hid, hcopied.congr hsame⟩

/-- **One package more leaves all folders whole**, whether it is unpacked or not. -/
theorem unpackPackage {p : Package} (h : Whole cache packages before t)
    (hcache : cachePath.Descends cache) (hfits : p.Fits cache) (hp : p ∈ packages) :
    Whole cache packages before (unpackPackage cachePath p t).1 := by
  obtain ⟨hothers, hfolder⟩ := unpackPackage_spec hcache hfits t
  generalize (SolPlan.unpackPackage cachePath p t).1 = after at hothers hfolder ⊢
  refine ⟨fun q content hq => ?_, fun id => ?_⟩
  · refine (hothers q content fun names _ he => hq ?_).trans (h.outside q content hq)
    rw [he, packagePlace, List.append_assoc]
    exact List.prefix_append _ _
  by_cases hid : p.id = id
  · subst hid
    rcases hfolder with hsame | hbare | ⟨habsolute, hcopied⟩
    · exact (h.congr hsame).folders p.id
    · exact Or.inl hbare
    · -- the sources are those of the start, since they lie outside the cache
      refine Or.inr ⟨p, hp, rfl, fun names content hne => (hcopied names content hne).trans ?_⟩
      refine exists_congr fun rest => and_congr_right fun _ => and_congr_right fun _ => ?_
      refine h.outside _ content fun hprefix => ?_
      obtain ⟨more, hmore⟩ := hprefix
      exact append_ne_append (hfits.apart habsolute).1 (hfits.apart habsolute).2 more rest hmore
  · -- another folder is not touched
    have hkept : ∀ names content, after.FileAt (packagePlace cache id ++ names) content ↔
        t.FileAt (packagePlace cache id ++ names) content := fun names content =>
      hothers _ content fun names' _ he => hid (packagePlace_append_inj he).symm
    refine (h.folders id).imp (fun hbare names content hne hfile => ?_) ?_
    · exact hbare names content hne ((hkept names content).mp hfile)
    · rintro ⟨q, hq, rfl, hcopied⟩
      exact ⟨q, hq, rfl, fun names content hne =>
        (hkept names content).trans (hcopied names content hne)⟩

end Whole

/-! ## Calls -/

/-- A call that brings packages into a cache. -/
inductive CacheCall where
  /-- Unpack a dependency into a cache folder. -/
  | unpack (cacheFolder : Path) (d : Dependency)
  /-- Build the table of a project. -/
  | build (p : Project) (r : Registry)

namespace CacheCall

/-- The cache folder that the packages are brought into. -/
def cacheFolder : CacheCall → Path
  | unpack cacheFolder _ => cacheFolder
  | build p _ => p.cacheFolder

/-- The packages that a call may unpack. -/
def packages : CacheCall → List Package
  | unpack _ d => d.brought
  | build _ r => Dependency.allBrought r.installed

/-- What a call leaves, whether it fails or not. -/
def run (depot : Depot) : CacheCall → Depot
  | unpack cacheFolder d => { depot with tree := (d.unpack cacheFolder depot.tree).1 }
  | build p r => (RemappingTable.build p r depot).1

/-- What calls leave, one after the other. -/
def runAll (calls : List CacheCall) (depot : Depot) : Depot := calls.foldl run depot

variable {cachePath : Path} {cache : List Text} {packages' : List Package} {before : FileTree}
  {depot : Depot}

/-- **A call leaves all folders whole.** -/
theorem whole_run {call : CacheCall} (hinto : call.cacheFolder.Descends cache)
    (hfits : ∀ p ∈ call.packages, p.Fits cache) (hsub : call.packages ⊆ packages')
    (h : Whole cache packages' before depot.tree) :
    Whole cache packages' before (call.run depot).tree := by
  have hpackage : ∀ p ∈ call.packages, ∀ t, Whole cache packages' before t →
      Whole cache packages' before (unpackPackage call.cacheFolder p t).1 := fun p hp t ht =>
    ht.unpackPackage hinto (hfits p hp) (hsub hp)
  cases call with
  | unpack cacheFolder d => exact Dependency.unpackAfter_induction d hpackage h
  | build p r =>
    exact build_induction (fun t ht => ht.congr (FileTree.sameFiles_makeDirectories t _)) hpackage h

theorem whole_runAll {calls : List CacheCall}
    (hinto : ∀ call ∈ calls, call.cacheFolder.Descends cache)
    (hfits : ∀ call ∈ calls, ∀ p ∈ call.packages, p.Fits cache)
    (hsub : ∀ call ∈ calls, call.packages ⊆ packages')
    (h : Whole cache packages' before depot.tree) :
    Whole cache packages' before (runAll calls depot).tree := by
  induction calls generalizing depot with
  | nil => exact h
  | cons call calls ih =>
    exact ih (fun c hc => hinto c (List.mem_cons_of_mem _ hc))
      (fun c hc => hfits c (List.mem_cons_of_mem _ hc))
      (fun c hc => hsub c (List.mem_cons_of_mem _ hc))
      (whole_run (hinto call List.mem_cons_self) (hfits call List.mem_cons_self)
        (hsub call List.mem_cons_self) h)

/-- Where no package folder holds a file, all package folders are bare. -/
theorem isBare_start {t : FileTree} (hcache : cachePath.Descends cache)
    (hbare : ∀ id : PackageId, IsName id.name → IsName id.version →
      t.holdsFiles (packageFolder cachePath id) = false)
    (id : PackageId) : t.IsBare (packagePlace cache id) := fun names content hne hfile => by
  -- only a package whose name and version are names can have a file below its folder
  have ⟨l, hl, _⟩ := hfile
  have hnames : ∀ s ∈ [id.name, id.version], IsName s := fun s hs =>
    Location.isName (l := l) s (hl ▸ List.mem_append_left _ (List.mem_append_right _ hs))
  have hname := hnames id.name List.mem_cons_self
  have hversion := hnames id.version (List.mem_cons_of_mem _ List.mem_cons_self)
  exact (FileTree.isBare_iff (descends_packageFolder hcache hname hversion)).mpr
    (hbare id hname hversion) names content hne hfile

/-- **What holds a file is whole.** Start with no file in any package folder of a cache, and let
calls bring packages into it, each of which may fail. After each of them, a package folder that
holds a file is a copy of the sources of a package that was to be unpacked so far; and no file
outside the cache has changed. -/
theorem isCopied_run (hcache : cachePath.Descends cache) {calls : List CacheCall}
    (hinto : ∀ call ∈ calls, call.cacheFolder.Descends cache)
    (hfits : ∀ call ∈ calls, ∀ p ∈ call.packages, p.Fits cache)
    (hbare : ∀ id : PackageId, IsName id.name → IsName id.version →
      depot.tree.holdsFiles (packageFolder cachePath id) = false)
    {done : List CacheCall} (hdone : done <+: calls) :
    (∀ id : PackageId, IsName id.name → IsName id.version →
      (runAll done depot).tree.holdsFiles (packageFolder cachePath id) = true →
        ∃ call ∈ done, ∃ p ∈ call.packages, p.id = id ∧
          p.IsCopied depot.tree (runAll done depot).tree (packageFolder cachePath id).place) ∧
    ∀ q content, ¬ cache <+: q →
      ((runAll done depot).tree.FileAt q content ↔ depot.tree.FileAt q content) := by
  have hwhole : Whole cache (done.flatMap packages) depot.tree (runAll done depot).tree :=
    whole_runAll (fun call hcall => hinto call (hdone.subset hcall))
      (fun call hcall => hfits call (hdone.subset hcall))
      (fun call hcall p hp => List.mem_flatMap.mpr ⟨call, hcall, hp⟩)
      (Whole.refl (isBare_start hcache hbare))
  refine ⟨fun id hname hversion hholds => ?_, hwhole.outside⟩
  have hfolder := descends_packageFolder hcache hname hversion
  rcases hwhole.folders id with hfree | ⟨p, hp, hid, hcopied⟩
  · rw [(FileTree.isBare_iff hfolder).mp hfree] at hholds
    cases hholds
  · obtain ⟨call, hcall, hp⟩ := List.mem_flatMap.mp hp
    exact ⟨call, hcall, p, hp, hid, hfolder.place_eq ▸ hcopied⟩

/-- A package with two source files. -/
def twoFiles : Package := ⟨⟨['n'], ['1']⟩, ⟨"/i".toList⟩, ⟨['s']⟩, ⟨[], []⟩⟩

/-- The package is installed, but in the cache a directory is in the way of its second file. -/
def blockedCopy : Depot where
  tree := ((FileTree.empty.place ⟨"/i/s/A".toList⟩ (some (.text ['a']))).place
    ⟨"/i/s/G".toList⟩ (some (.text ['g']))).place ⟨"/c/n/1/s/G".toList⟩ none
  requests := 0

/-- The package is unpacked twice. -/
def unpackTwice : List CacheCall :=
  List.replicate 2 (.unpack ⟨"/c".toList⟩ (.mk twoFiles []))

theorem fits_twoFiles : twoFiles.Fits [['c']] where
  name := ⟨by decide, by decide, by decide⟩
  version := ⟨by decide, by decide, by decide⟩
  relative := by decide
  down := fun s hs => by
    have hwritten : twoFiles.contracts.written = [['s']] := by cbv
    rw [hwritten] at hs
    exact List.mem_singleton.mp hs ▸ ⟨by decide, by decide, by decide⟩
  apart := fun _ => by
    have hplace : twoFiles.sources.place = [['i'], ['s']] := by cbv
    rw [hplace]
    exact ⟨by decide, by decide⟩

theorem descends_c : Path.Descends ⟨"/c".toList⟩ [['c']] where
  isAbsolute := by decide
  written := ⟨0, by cbv⟩
  isName := fun _ hs => List.mem_singleton.mp hs ▸ ⟨by decide, by decide, by decide⟩

/-- All files are below `/i`. -/
theorem holdsFiles_blockedCopy {id : PackageId} (hname : IsName id.name)
    (hversion : IsName id.version) :
    blockedCopy.tree.holdsFiles (packageFolder ⟨"/c".toList⟩ id) = false := by
  refine (FileTree.isBare_iff (descends_packageFolder descends_c hname hversion)).mp ?_
  rintro names content - ⟨l, hl, hfile⟩
  have hfiles : (blockedCopy.tree.filesBelow []).map Location.texts =
      [[['i'], ['s'], ['A']], [['i'], ['s'], ['G']]] := by cbv
  have hne : l ≠ [] := fun hnil => by
    rw [hnil] at hl
    cases hl
  have hmem : l ∈ blockedCopy.tree.filesBelow [] :=
    FileTree.mem_filesBelow.mpr ⟨hne, content, l, rfl, hfile⟩
  have htexts := List.mem_map_of_mem (f := Location.texts) hmem
  rw [hfiles, hl] at htexts
  simp [packagePlace] at htexts

/-- The first call fails and leaves no file; the second leaves a copy. -/
theorem isCopied_run_unpackTwice :
    ((Dependency.mk twoFiles []).unpack ⟨"/c".toList⟩ blockedCopy.tree).2.isOk = false ∧
      (runAll (unpackTwice.take 1) blockedCopy).tree.holdsFiles
        (packageFolder ⟨"/c".toList⟩ twoFiles.id) = false ∧
      twoFiles.IsCopied blockedCopy.tree (runAll unpackTwice blockedCopy).tree
        (packageFolder ⟨"/c".toList⟩ twoFiles.id).place := by
  refine ⟨by cbv, by cbv, ?_⟩
  have hpackages : ∀ call ∈ unpackTwice, ∀ p ∈ call.packages, p = twoFiles :=
    fun call hcall p hp => by
      rw [(List.mem_replicate.mp hcall).2] at hp
      exact List.mem_singleton.mp hp
  have hinto : ∀ call ∈ unpackTwice, call.cacheFolder.Descends [['c']] :=
    fun call hcall => (List.mem_replicate.mp hcall).2 ▸ descends_c
  obtain ⟨hcopied, -⟩ := isCopied_run descends_c hinto
    (fun call hcall p hp => hpackages call hcall p hp ▸ fits_twoFiles)
    (fun _ => holdsFiles_blockedCopy) (List.prefix_refl unpackTwice)
  obtain ⟨call, hcall, p, hp, -, hp'⟩ := hcopied twoFiles.id fits_twoFiles.name
    fits_twoFiles.version (by cbv)
  rwa [hpackages call hcall p hp] at hp'

end CacheCall

end SolPlan
