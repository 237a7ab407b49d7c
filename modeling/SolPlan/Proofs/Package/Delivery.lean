import Mathlib
import SolPlan.Proofs.Package.Filling
import SolPlan.Proofs.Package.Order

/-!
# What unpacking a dependency leaves

Unpacking a dependency unpacks packages one after the other, each in a tree that those before it
have changed. No two packages share a folder, and no sources are in the cache; so each package finds
its folder and its sources as they were at the start, and leaves its folder for good.

A path may come to a directory on its way that is not above its end, and lead somewhere only once
that is there. So a folder that holds a file must be found by its path from the start, or it is
taken for missing and copied into (`not_delivered`); that can only happen if the path of the cache
folder goes up again. Sources that are not found at the start may be found when it is their turn.

Results:
* `InTurn.adds`: what is added stands in the folders of the packages, or is on the way to them;
* `InTurn.isDelivered`: one package among others;
* **`isUnpacked_unpack`**: what is answered, and what has become of each folder and of the rest.
-/

namespace SolPlan

open SolPlan.Path (IsName)
open FileTree (Adds Keeps)

variable {cachePath : Path} {t t₁ t' : FileTree} {p : Package} {copies : List Path}
  {packages : List Package} {steps front back : List (Package × List Path)}

/-! ## Folders of packages -/

/-- The place is in the folder of a package. -/
def InFolder (cachePath : Path) (packages : List Package) (place : List Text) : Prop :=
  ∃ p ∈ packages, IsBelow (packagePlace cachePath.place p.id) place

/-- The place is on the way to the folder of a package. -/
def OnWay (cachePath : Path) (packages : List Package) (place : List Text) : Prop :=
  ∃ p ∈ packages, (packageFolder cachePath p.id).Passes place

theorem not_inFolder {id : PackageId} (hother : ∀ q ∈ packages, q.id ≠ id) (names : List Text) :
    ¬ InFolder cachePath packages (packagePlace cachePath.place id ++ names) := by
  rintro ⟨q, hq, more, -, hplace⟩
  exact hother q hq (packagePlace_append_inj hplace).symm

theorem Package.Fits.not_inFolder (hfits : p.Fits cachePath.place)
    (habsolute : p.sources.isAbsolute = true) (rest : List Text) :
    ¬ InFolder cachePath packages (p.sources.place ++ rest) := by
  rintro ⟨q, -, more, -, hplace⟩
  rw [packagePlace, List.append_assoc] at hplace
  obtain ⟨habove, hbelow⟩ := hfits.apart habsolute
  exact append_ne_append hbelow habove _ _ hplace

/-- What is on the way to a package folder and not on the way to the cache folder is the folder, or
the one that it stands in. -/
theorem passes_packageFolder {place : List Text} (hfits : p.Fits cachePath.place)
    (h : (packageFolder cachePath p.id).Passes place) :
    cachePath.Passes place ∨
      ∃ names, names <+: [p.id.name, p.id.version] ∧ place = cachePath.place ++ names := by
  have hnames : ∀ s ∈ [p.id.name, p.id.version], IsName s :=
    List.forall_mem_cons.mpr ⟨hfits.name, List.forall_mem_singleton.mpr hfits.version⟩
  rcases h.of_written (written_packageFolder cachePath hfits.name hfits.version) hnames with
    h | ⟨names, -, hnames, rfl⟩
  · exact Or.inl h
  · exact Or.inr ⟨names, hnames, rfl⟩

/-- **A folder that is found by its path** is not changed for the sake of other packages. -/
theorem entry?_of_adds {l top : Location} (hp : p.Fits cachePath.place)
    (hfits : ∀ q ∈ packages, q.Fits cachePath.place) (hother : ∀ q ∈ packages, q.id ≠ p.id)
    (h : Adds (InFolder cachePath packages) (OnWay cachePath packages) t t')
    (hfind : t.find (packageFolder cachePath p.id) = .ok top)
    (hl : packagePlace cachePath.place p.id <+: l.texts) : t'.entry? l = t.entry? l := by
  obtain ⟨names, hnames⟩ := hl
  have hinside : ¬ InFolder cachePath packages l.texts := hnames ▸ not_inFolder hother names
  refine (h.outside l hinside).resolve_right ?_
  rintro ⟨hnone, -, q, hq, hpasses⟩
  rcases passes_packageFolder (hfits q hq) hpasses with hcache | ⟨below, hbelow, hplace⟩
  · -- the whole way is there
    have hwritten := written_packageFolder cachePath hp.name hp.version
    obtain ⟨m, hm, hthere⟩ := FileTree.exists_of_passes hfind
      (hcache.mono (hwritten ▸ List.prefix_append _ _))
    rw [Location.texts_inj hm, hnone] at hthere
    cases hthere
  · -- no folder is in that of another package
    rw [← hnames, packagePlace, List.append_assoc] at hplace
    rw [← List.append_cancel_left hplace] at hbelow
    obtain ⟨hname, hbelow⟩ := List.cons_prefix_cons.mp hbelow
    obtain ⟨hversion, -⟩ := List.cons_prefix_cons.mp hbelow
    exact hother q hq (PackageId.ext hname.symm hversion.symm)

/-! ## Packages in turn -/

namespace InTurn

theorem keeps (hcache : cachePath.isAbsolute = true) (h : InTurn cachePath steps t t') :
    Keeps t t' := by
  induction h with
  | nil t => exact Keeps.refl t
  | cons first _ ih => exact (keeps_unpackPackage hcache first).trans ih

/-- **What is added** when packages are unpacked. -/
theorem adds (h : InTurn cachePath steps t t') (hmem : ∀ step ∈ steps, step.1 ∈ packages)
    (hfits : ∀ q ∈ packages, q.Fits cachePath.place) :
    Adds (InFolder cachePath packages) (OnWay cachePath packages) t t' := by
  induction h with
  | nil t => exact Adds.refl _ _ t
  | @cons q _ _ _ _ _ first _ ih =>
    have hq : q ∈ packages := hmem _ List.mem_cons_self
    have hfirst := adds_of_fits (hfits q hq) first
    refine (hfirst.mono (fun _ hbelow => ?_) fun _ hpasses => ?_).trans
      (ih fun step hstep => hmem step (List.mem_cons_of_mem _ hstep))
    · exact ⟨q, hq, hbelow⟩
    · exact ⟨q, hq, hpasses⟩

end InTurn

/-! ## One package among others -/

/-- What has become of the folder of a package for which these copies were reported. The sources
were read as they are at the start; if their path leads nowhere then, maybe as they are at the
end. -/
structure Package.IsDelivered (p : Package) (cachePath : Path) (before after : FileTree)
    (copies : List Path) : Prop where
  /-- The folder is there. -/
  folder : after.isDirectory (packageFolder cachePath p.id) = true
  /-- If it has held a file, nothing is copied, and it is as it was. -/
  kept : ¬ before.IsBare (packagePlace cachePath.place p.id) → copies = [] ∧
    ∀ l : Location, packagePlace cachePath.place p.id <+: l.texts →
      after.entry? l = before.entry? l
  /-- Else all files of the sources are copied, which are then the only files in it. -/
  filled : before.IsBare (packagePlace cachePath.place p.id) →
    ∃ source, (source = before ∨ source = after ∧ ∀ top, before.find p.sources ≠ .ok top) ∧
      copies = (p.sourceFiles source).map (p.copyOf cachePath) ∧
      p.HoldsCopies source after (packagePlace cachePath.place p.id)

/-- The sources are read alike from a tree to which packages are added. -/
theorem Package.Fits.sourceFiles_eq {way : List Text → Prop} {top : Location}
    (hfits : p.Fits cachePath.place) (h : Adds (InFolder cachePath packages) way t t')
    (hfind : t.find p.sources = .ok top) : p.sourceFiles t' = p.sourceFiles t := by
  obtain ⟨pieces, hsplit, -⟩ := FileTree.find_ok hfind
  rw [p.sourceFiles_of_find hfind, p.sourceFiles_of_find (h.toKeeps.find hfind)]
  refine FileTree.filesBelow_congr fun names content => h.fileAt_iff ?_
  rw [FileTree.texts_of_find hfind]
  exact hfits.not_inFolder (Path.isAbsolute_of_split hsplit) names

theorem Package.sourceFiles_eq_nil (h : ∀ top, t.find p.sources ≠ .ok top) :
    p.sourceFiles t = [] := by
  unfold sourceFiles
  split
  · exact absurd ‹_› (h _)
  · rfl

/-- Copies are those of another tree, if the sources and the folder are as there. -/
theorem Package.HoldsCopies.congr {place : List Text} {source after source' after' : FileTree}
    (h : p.HoldsCopies source after place)
    (hfiles : p.sourceFiles source' = p.sourceFiles source)
    (hsource : p.sources.isAbsolute = true → ∀ rest content,
      (source'.FileAt (p.sources.place ++ rest) content ↔
        source.FileAt (p.sources.place ++ rest) content))
    (hafter : ∀ names content,
      (after'.FileAt (place ++ names) content ↔ after.FileAt (place ++ names) content)) :
    p.HoldsCopies source' after' place := fun names content hne => by
  rw [hafter, h names content hne, hfiles]
  refine exists_congr fun file => and_congr_right fun hfile => and_congr_right fun _ => ?_
  exact (hsource (Package.fileAt_of_mem_sourceFiles hfile).1 _ _).symm

/-- The folder of a package is left as its turn leaves it, if all that is added before and after is
for others. -/
theorem Package.isDelivered_of_adds {others : List Package} {s s' : FileTree}
    (hp : p.Fits cachePath.place) (hfits : ∀ q ∈ others, q.Fits cachePath.place)
    (hother : ∀ q ∈ others, q.id ≠ p.id)
    (hbefore : Adds (InFolder cachePath others) (OnWay cachePath others) t s)
    (h : unpackPackage cachePath p s = (s', .ok copies))
    (hafter : Adds (InFolder cachePath others) (OnWay cachePath others) s' t')
    (hseen : t.IsBare (packagePlace cachePath.place p.id) ∨
      t.holdsFiles (packageFolder cachePath p.id) = true) :
    p.IsDelivered cachePath t t' copies := by
  refine ⟨hafter.toKeeps.isDirectory (isDirectory_of_unpackPackage hp.version h),
    fun hheld => ?_, fun hbare => ?_⟩
  · have hholds := hseen.resolve_left hheld
    obtain ⟨rfl, rfl⟩ := unpackPackage_of_holdsFiles (hbefore.toKeeps.holdsFiles hholds) h
    obtain ⟨top, hfind, -⟩ :=
      FileTree.isDirectory_iff.mp (FileTree.isDirectory_of_holdsFiles hholds)
    refine ⟨rfl, fun l hl => ?_⟩
    rw [entry?_of_adds hp hfits hother hafter (hbefore.toKeeps.find hfind) hl,
      entry?_of_adds hp hfits hother hbefore hfind hl]
  · have hturn : s.IsBare (packagePlace cachePath.place p.id) := fun names content hne hfile =>
      hbare names content hne ((hbefore.fileAt_iff (not_inFolder hother names)).mp hfile)
    obtain ⟨hcopies, hholds⟩ := holdsCopies_of_unpackPackage hp hturn h
    have hend : ∀ names content,
        t'.FileAt (packagePlace cachePath.place p.id ++ names) content ↔
          s'.FileAt (packagePlace cachePath.place p.id ++ names) content :=
      fun names content => hafter.fileAt_iff (not_inFolder hother names)
    by_cases hlate : (∀ top, t.find p.sources ≠ .ok top) ∧ ∃ top, s.find p.sources = .ok top
    · -- the path of the sources leads somewhere only since others were unpacked
      obtain ⟨hmissing, top, hfind⟩ := hlate
      have hlater : Adds (InFolder cachePath (p :: others)) (fun _ => True) s t' :=
        ((adds_of_fits hp h).mono (fun _ hbelow => ⟨p, List.mem_cons_self, hbelow⟩)
          fun _ _ => trivial).trans
        (hafter.mono (fun _ ⟨q, hq, hbelow⟩ => ⟨q, List.mem_cons_of_mem _ hq, hbelow⟩)
          fun _ _ => trivial)
      have hsame := hp.sourceFiles_eq hlater hfind
      exact ⟨t', Or.inr ⟨rfl, hmissing⟩, hsame ▸ hcopies, hholds.congr hsame
        (fun habsolute rest content => hlater.fileAt_iff (hp.not_inFolder habsolute rest)) hend⟩
    · have hsame : p.sourceFiles t = p.sourceFiles s := by
        by_cases hfound : ∃ top, t.find p.sources = .ok top
        · obtain ⟨top, hfind⟩ := hfound
          exact (hp.sourceFiles_eq hbefore hfind).symm
        · have hmissing := not_exists.mp hfound
          rw [Package.sourceFiles_eq_nil hmissing,
            Package.sourceFiles_eq_nil (not_exists.mp fun hturn => hlate ⟨hmissing, hturn⟩)]
      exact ⟨t, Or.inl rfl, hsame ▸ hcopies, hholds.congr hsame
        (fun habsolute rest content =>
          (hbefore.fileAt_iff (hp.not_inFolder habsolute rest)).symm) hend⟩

/-- **One package among others** that are unpacked before and after it. -/
theorem InTurn.isDelivered (h : InTurn cachePath (front ++ (p, copies) :: back) t t')
    (hfits : ∀ step ∈ front ++ (p, copies) :: back, step.1.Fits cachePath.place)
    (hother : ∀ step ∈ front ++ back, step.1.id ≠ p.id)
    (hseen : t.IsBare (packagePlace cachePath.place p.id) ∨
      t.holdsFiles (packageFolder cachePath p.id) = true) :
    p.IsDelivered cachePath t t' copies := by
  obtain ⟨s, hfront, hrest⟩ := h.split
  cases hrest with
  | cons first hback =>
    have hmem : ∀ {step}, step ∈ front ∨ step ∈ back → step.1 ∈ (front ++ back).map Prod.fst :=
      fun hstep => List.mem_map_of_mem (List.mem_append.mpr hstep)
    have hothers : ∀ q ∈ (front ++ back).map Prod.fst,
        q.Fits cachePath.place ∧ q.id ≠ p.id := fun q hq => by
      obtain ⟨step, hstep, rfl⟩ := List.mem_map.mp hq
      refine ⟨hfits step (List.mem_append.mpr ?_), hother step hstep⟩
      exact (List.mem_append.mp hstep).imp_right (List.mem_cons_of_mem _)
    have hfits' := fun q hq => (hothers q hq).1
    exact Package.isDelivered_of_adds
      (hfits (p, copies) (List.mem_append_right _ List.mem_cons_self)) hfits'
      (fun q hq => (hothers q hq).2)
      (hfront.adds (fun step hstep => hmem (Or.inl hstep)) hfits') first
      (hback.adds (fun step hstep => hmem (Or.inr hstep)) hfits') hseen

/-- Below a cache folder that is reached by going down, a package folder that holds a file is found
by its path. -/
theorem Package.Fits.isBare_or_holdsFiles (hfits : p.Fits cachePath.place)
    (hcache : cachePath.Descends cachePath.place) (t : FileTree) :
    t.IsBare (packagePlace cachePath.place p.id) ∨
      t.holdsFiles (packageFolder cachePath p.id) = true := by
  rw [FileTree.isBare_iff (descends_packageFolder hcache hfits.name hfits.version)]
  exact (Bool.eq_false_or_eq_true _).symm

/-! ## Unpacking a dependency -/

namespace Dependency

/-- What unpacking a dependency answers and leaves. -/
structure IsUnpacked (d : Dependency) (cachePath : Path) (before after : FileTree)
    (unpacked : List Unpacked) : Prop where
  /-- Each package of the tree is reported once, in the order in which they occur first. -/
  ids : unpacked.map Unpacked.id = (d.brought.map Package.id).eraseDups
  /-- Each folder was left alone or filled. -/
  folders : ∀ u ∈ unpacked, ∀ p ∈ d.brought, p.id = u.id →
    p.IsDelivered cachePath before after u.files
  /-- Elsewhere nothing has changed, but that directories were created on the way. -/
  elsewhere : Adds (InFolder cachePath d.brought) (OnWay cachePath d.brought) before after

/-- In a uniform tree there is one package of each name and version. -/
theorem IsUniform.eq_of_id {d : Dependency} (h : IsUniform d.parts) {p q : Package}
    (hp : p ∈ d.brought) (hq : q ∈ d.brought) (hid : p.id = q.id) : p = q := by
  rw [brought_eq_map_parts] at hp hq
  obtain ⟨x, hx, rfl⟩ := List.mem_map.mp hp
  obtain ⟨y, hy, rfl⟩ := List.mem_map.mp hq
  exact congrArg package (h x hx y hy hid)

/-- **What unpacking a dependency leaves**, if it succeeds. Of the path of the cache folder it is
only asked that a package folder which holds a file is found by its path. -/
theorem isUnpacked_unpack {d : Dependency} {unpacked : List Unpacked}
    (huniform : IsUniform d.parts) (hfits : ∀ p ∈ d.brought, p.Fits cachePath.place)
    (hseen : ∀ p ∈ d.brought, t.IsBare (packagePlace cachePath.place p.id) ∨
      t.holdsFiles (packageFolder cachePath p.id) = true)
    (h : d.unpack cachePath t = (t', .ok unpacked)) : d.IsUnpacked cachePath t t' unpacked := by
  have hids : unpacked.map Unpacked.id = d.packages := unpackAfter_ids d h
  obtain ⟨steps, hsteps, hunpacked, hbrought⟩ := exists_inTurn d h
  rw [List.nil_append] at hunpacked
  subst hunpacked
  refine ⟨hids.trans (packages_eq_eraseDups huniform), fun u hu p hp hid => ?_,
    hsteps.adds hbrought hfits⟩
  obtain ⟨step, hstep, rfl⟩ := List.mem_map.mp hu
  obtain rfl : p = step.1 := huniform.eq_of_id hp (hbrought step hstep) hid
  obtain ⟨front, back, rfl⟩ := List.append_of_mem hstep
  refine hsteps.isDelivered (fun step' hstep' => hfits _ (hbrought step' hstep')) ?_ (hseen _ hp)
  -- no package is reported twice
  have hnodup := hids ▸ nodup_packages d
  rw [List.map_map, List.map_append, List.map_cons, List.nodup_middle] at hnodup
  intro step' hstep' hsame
  refine (List.nodup_cons.mp hnodup).1 ?_
  rw [← List.map_append]
  exact List.mem_map.mpr ⟨step', hstep', hsame⟩

/-- A package that is installed in `/i`, with its sources in `s`. -/
def installed (name : Char) : Package :=
  ⟨⟨[name], ['1']⟩, ⟨['/', 'i', '/', name]⟩, ⟨['s']⟩, ⟨[], []⟩⟩

theorem fits_installed {name : Char} (hname : name = 'a' ∨ name = 'b' ∨ name = 'c') :
    (installed name).Fits [['k']] where
  name := by rcases hname with rfl | rfl | rfl <;> exact ⟨by decide, by decide, by decide⟩
  version := (⟨by decide, by decide, by decide⟩ : IsName ['1'])
  relative := (by decide : (⟨['s']⟩ : Path).isAbsolute = false)
  down := by
    have hwritten : (⟨['s']⟩ : Path).written = [['s']] := by cbv
    change ∀ s ∈ (⟨['s']⟩ : Path).written, IsName s
    rw [hwritten]
    exact List.forall_mem_singleton.mpr ⟨by decide, by decide, by decide⟩
  apart := fun _ => by
    have hplace : (installed name).sources.place = [['i'], [name], ['s']] := by
      rcases hname with rfl | rfl | rfl <;> cbv
    rw [hplace]
    constructor <;> simp

/-- A package that another brings as well: `c` is below `b`, and beside it. -/
def diamond : Dependency :=
  .mk (installed 'a') [.mk (installed 'b') [.mk (installed 'c') []], .mk (installed 'c') []]

/-- There are sources of `a` and `c`, none of `b`; and the folder of `c` holds a file. -/
def heldByOne : FileTree :=
  ((FileTree.empty.place ⟨"/i/a/s/T".toList⟩ (some (.text ['t']))).place
    ⟨"/i/c/s/U".toList⟩ (some (.text ['u']))).place ⟨"/k/c/1/V".toList⟩ (some (.text ['v']))

theorem isUniform_diamond : IsUniform diamond.parts := by
  intro x hx y hy hid
  simp only [diamond, parts, allParts, List.mem_cons, List.mem_append, List.not_mem_nil,
    or_false] at hx hy
  rcases hx with rfl | (rfl | rfl) | rfl <;> rcases hy with rfl | (rfl | rfl) | rfl <;>
    first | rfl | exact absurd hid (by decide)

theorem isUnpacked_diamond :
    ∃ t' unpacked, IsUniform diamond.parts ∧
      (∀ p ∈ diamond.brought, p.Fits (⟨"/k".toList⟩ : Path).place) ∧
      (∀ p ∈ diamond.brought,
        heldByOne.IsBare (packagePlace (⟨"/k".toList⟩ : Path).place p.id) ∨
          heldByOne.holdsFiles (packageFolder ⟨"/k".toList⟩ p.id) = true) ∧
      diamond.unpack ⟨"/k".toList⟩ heldByOne = (t', .ok unpacked) ∧
      diamond.IsUnpacked ⟨"/k".toList⟩ heldByOne t' unpacked := by
  have hplace : (⟨"/k".toList⟩ : Path).place = [['k']] := by cbv
  have hcache : (⟨"/k".toList⟩ : Path).Descends [['k']] :=
    ⟨by decide, ⟨0, by cbv⟩, List.forall_mem_singleton.mpr ⟨by decide, by decide, by decide⟩⟩
  have hbrought : diamond.brought =
    [installed 'a', installed 'b', installed 'c', installed 'c'] := rfl
  have hfits : ∀ p ∈ diamond.brought, p.Fits (⟨"/k".toList⟩ : Path).place := by
    rw [hbrought, hplace]
    simp only [List.forall_mem_cons, List.not_mem_nil, false_implies, implies_true, and_true]
    exact ⟨fits_installed (by simp), fits_installed (by simp), fits_installed (by simp),
      fits_installed (by simp)⟩
  have hseen := fun p hp => (hfits p hp).isBare_or_holdsFiles (hplace ▸ hcache) heldByOne
  have hok : (diamond.unpack ⟨"/k".toList⟩ heldByOne).2.isOk = true := by cbv
  cases hunpack : diamond.unpack ⟨"/k".toList⟩ heldByOne with
  | mk t' result =>
    cases result with
    | error e => rw [hunpack] at hok; cases hok
    | ok unpacked =>
      exact ⟨t', unpacked, isUniform_diamond, hfits, hseen, rfl,
        isUnpacked_unpack isUniform_diamond hfits hseen hunpack⟩

/-- The folder of `a` holds a file, and so do its sources. -/
def heldByAnother : FileTree :=
  (FileTree.empty.place ⟨"/i/a/s/T".toList⟩ (some (.text ['t']))).place
    ⟨"/k/a/1/V".toList⟩ (some (.text ['v']))

/-- **A folder that holds a file is copied into**, if the path of the cache folder leads nowhere
until a directory on its way is created: neither is the folder left alone, nor does it hold copies
and nothing else. -/
theorem not_delivered :
    ¬ ∀ (d : Dependency) (cachePath : Path) (t t' : FileTree) (unpacked : List Unpacked),
      IsUniform d.parts → (∀ p ∈ d.brought, p.Fits cachePath.place) →
      d.unpack cachePath t = (t', .ok unpacked) →
        ∀ u ∈ unpacked, ∀ p ∈ d.brought, p.id = u.id →
          (u.files = [] ∧ ∀ l : Location, packagePlace cachePath.place p.id <+: l.texts →
            t'.entry? l = t.entry? l) ∨
          ∃ source, (source = t ∨ source = t') ∧
            p.HoldsCopies source t' (packagePlace cachePath.place p.id) := by
  intro hall
  have hplace : (⟨"/x/../k".toList⟩ : Path).place = [['k']] := by cbv
  have hfits : ∀ p ∈ (Dependency.mk (installed 'a') []).brought,
      p.Fits (⟨"/x/../k".toList⟩ : Path).place := by
    rw [hplace]
    exact List.forall_mem_singleton.mpr (fits_installed (Or.inl rfl))
  have huniform : IsUniform (Dependency.mk (installed 'a') []).parts := fun x hx y hy _ =>
    (List.mem_singleton.mp hx).trans (List.mem_singleton.mp hy).symm
  have hreported : ((Dependency.mk (installed 'a') []).unpack ⟨"/x/../k".toList⟩
      heldByAnother).2.toOption.map (·.map fun u => (u.id, u.files.length)) =
        some [((installed 'a').id, 1)] := by cbv
  have hold : FileTree.entry? ((Dependency.mk (installed 'a') []).unpack ⟨"/x/../k".toList⟩
      heldByAnother).1 [⟨['k'], by decide⟩, ⟨['a'], by decide⟩, ⟨['1'], by decide⟩,
        ⟨['V'], by decide⟩] = some (.file (.text ['v'])) := by cbv
  cases hunpack : (Dependency.mk (installed 'a') []).unpack ⟨"/x/../k".toList⟩ heldByAnother with
  | mk t' result =>
    rw [hunpack] at hreported hold
    cases result with
    | error e => cases hreported
    | ok unpacked =>
      obtain ⟨u, rfl, hu⟩ := List.map_eq_singleton_iff.mp (Option.some.inj hreported)
      obtain ⟨hid, hlength⟩ := Prod.mk.inj hu
      rcases hall _ _ _ _ _ huniform hfits hunpack u List.mem_cons_self _ List.mem_cons_self
        hid.symm with ⟨hnone, -⟩ | ⟨source, -, hcopies⟩
      · rw [hnone] at hlength
        cases hlength
      · -- what was there is no copy
        rw [hplace] at hcopies
        obtain ⟨file, -, hnames, -⟩ :=
          (hcopies [['V']] (.text ['v']) (List.cons_ne_nil _ _)).mp ⟨_, rfl, hold⟩
        have hwritten : (installed 'a').contracts.written = [['s']] := by cbv
        rw [hwritten] at hnames
        cases hnames

end Dependency

end SolPlan
