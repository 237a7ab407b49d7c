import SolPlan.Proofs.Package.Filling

/-!
# Packages that are settled

Once a package was unpacked, there is nothing left to do for it: its folder is there, and it holds a
file, or else there was nothing to copy (`Package.Settled`). Whatever is added to the cache later,
this stays so, if the sources of the package are neither in the cache nor looked up through it.

Results:
* `settled_unpackPackage`: a package that was unpacked is settled, and the cache has only grown;
* `Package.Settled.grows`: it stays settled;
* **`unpackPackage_of_settled`**: unpacking a settled package changes nothing.
-/

namespace SolPlan

open FileTree (Grows)

variable {cachePath dest source : Path} {cache : List Text} {t t' : FileTree} {p : Package}

/-- A package that can be unpacked where it belongs, and whose sources are also looked up without
coming below the cache. -/
structure Package.FitsBeside (p : Package) (cache : List Text) : Prop extends p.Fits cache where
  avoids : p.sources.Avoids cache

/-- The sources of a package hold no file, or are not there. -/
def Package.IsEmpty (p : Package) (t : FileTree) : Prop :=
  ∀ top, t.find p.sources = .ok top → t.filesBelow top = []

/-- There is nothing left to do for a package. -/
structure Package.Settled (p : Package) (cachePath : Path) (cache : List Text) (t : FileTree) :
    Prop where
  folder : t.FolderAt (packagePlace cache p.id)
  filled : t.holdsFiles (packageFolder cachePath p.id) = true ∨ p.IsEmpty t

/-! ## Staying settled -/

/-- Where sources were empty, they are empty in a later tree. -/
theorem Package.IsEmpty.grows (h : p.IsEmpty t) (hgrows : Grows cache t t')
    (hfits : p.FitsBeside cache) : p.IsEmpty t' := fun top hfind => by
  have hapart := hfits.apart_of_find hfind
  have hplace : ¬ IsBelow cache p.sources.place := by
    rintro ⟨names, -, hnames⟩
    refine hapart [] names ?_
    rw [List.append_nil, FileTree.texts_of_find hfind, hnames]
  have hempty := h top (FileTree.find_of_grows hgrows hfits.avoids hplace hfind)
  refine List.eq_nil_iff_forall_not_mem.mpr fun names hnames => ?_
  obtain ⟨hne, content, l, hl, hentry⟩ := FileTree.mem_filesBelow.mp hnames
  have hsame : t'.entry? l = t.entry? l := hgrows.elsewhere l fun ⟨more, _, hmore⟩ =>
    hapart names.texts more (hl.symm.trans hmore)
  have hmem : names ∈ t.filesBelow top :=
    FileTree.mem_filesBelow.mpr ⟨hne, content, l, hl, hsame ▸ hentry⟩
  rw [hempty] at hmem
  cases hmem

/-- **A package stays settled.** -/
theorem Package.Settled.grows (h : p.Settled cachePath cache t) (hgrows : Grows cache t t')
    (hfits : p.FitsBeside cache) : p.Settled cachePath cache t' where
  folder := hgrows.folderAt h.folder
  filled := h.filled.imp hgrows.toKeeps.holdsFiles (·.grows hgrows hfits)

/-- **Unpacking a settled package changes nothing.** -/
theorem unpackPackage_of_settled (h : p.Settled cachePath cache t)
    (hcache : cachePath.Descends cache) (hfits : p.Fits cache) :
    unpackPackage cachePath p t = (t, .ok []) := by
  have hfill : fillFolder (packageFolder cachePath p.id) p t = (t, .ok []) := by
    unfold fillFolder
    split
    · rfl
    · rename_i hbare
      have hempty := h.filled.resolve_left hbare
      unfold copySources
      cases hfind : t.find p.sources with
      | error fault => rfl
      | ok top =>
        dsimp only
        rw [hempty top hfind]
        rfl
  have hmake := FileTree.makeDirectories_of_folderAt
    (descends_packageFolder hcache hfits.name hfits.version) h.folder
  unfold unpackPackage
  dsimp only
  rw [hfill]
  dsimp only
  rw [hmake]

/-! ## Becoming settled -/

theorem grows_unpackPackage {copies : List Path} (hcache : cachePath.Descends cache)
    (hfits : p.Fits cache) (hthere : t.FolderAt cache)
    (h : unpackPackage cachePath p t = (t', .ok copies)) : Grows cache t t' := by
  obtain rfl := hcache.place_eq
  refine (adds_of_fits hfits h).grows ?_ (fun q hpasses => ?_) hthere
  · rintro q ⟨names, -, rfl⟩
    exact ⟨[p.id.name, p.id.version] ++ names, by simp, List.append_assoc _ _ _⟩
  · exact prefix_or_isBelow
      (hpasses.prefix_of_descends (descends_packageFolder hcache hfits.name hfits.version))

theorem Package.isEmpty_of_sourceFiles (h : p.sourceFiles t = []) : p.IsEmpty t :=
  fun _ hfind => p.sourceFiles_of_find hfind ▸ h

/-- The sources of a package leave a file in its folder, unless they have none. -/
theorem Package.HoldsCopies.filled (h : p.HoldsCopies t t' (packagePlace cache p.id))
    (hcache : cachePath.Descends cache) (hfits : p.Fits cache) :
    t'.holdsFiles (packageFolder cachePath p.id) = true ∨ p.IsEmpty t := by
  by_cases hempty : p.sourceFiles t = []
  · exact Or.inr (Package.isEmpty_of_sourceFiles hempty)
  · obtain ⟨file, hmem⟩ := List.exists_mem_of_ne_nil _ hempty
    obtain ⟨-, hne, content, hfile⟩ := Package.fileAt_of_mem_sourceFiles hmem
    have hne := List.append_ne_nil_of_right_ne_nil p.contracts.written hne
    have hcopy := (h _ content hne).mpr ⟨file, hmem, rfl, hfile⟩
    exact Or.inl ((FileTree.holdsFiles_iff
      (descends_packageFolder hcache hfits.name hfits.version)).mpr ⟨_, content, hne, hcopy⟩)

/-- **A package that was unpacked is settled**, and the cache has only grown. -/
theorem settled_unpackPackage {copies : List Path} (hcache : cachePath.Descends cache)
    (hfits : p.FitsBeside cache) (hthere : t.FolderAt cache)
    (h : unpackPackage cachePath p t = (t', .ok copies)) :
    Grows cache t t' ∧ p.Settled cachePath cache t' := by
  have hgrows := grows_unpackPackage hcache hfits.toFits hthere h
  have hfolder := descends_packageFolder hcache hfits.name hfits.version
  refine ⟨hgrows, ?_, ?_⟩
  · obtain ⟨t₁, hmake, -⟩ := unpackPackage_ok h
    rw [← hfolder.place_eq]
    exact FileTree.folderAt_of_makeDirectories hfolder.isAbsolute hmake
  · by_cases hholds : t.holdsFiles (packageFolder cachePath p.id) = true
    · exact Or.inl (hgrows.toKeeps.holdsFiles hholds)
    · have hbare := (FileTree.isBare_iff hfolder).mpr (Bool.not_eq_true _ ▸ hholds)
      obtain rfl := hcache.place_eq
      exact ((holdsCopies_of_unpackPackage hfits.toFits hbare h).2.filled hcache
        hfits.toFits).imp_right (·.grows hgrows hfits)

end SolPlan
