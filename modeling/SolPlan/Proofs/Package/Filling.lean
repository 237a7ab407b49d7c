import SolPlan.Proofs.FileTree.Growth
import SolPlan.Proofs.Package.Unpack

/-!
# Unpacking a package that succeeds

If a package is unpacked without an error, its folder is there. It has been left alone, if it holds
a file; else all files of the sources were copied, and the answer lists their copies, in the order
in which the files come (`unpackPackage_ok`). Nothing is taken away, and what is new stands in the
folder, or is a directory on the way to it (`adds_unpackPackage`).

Results:
* `copyFiles_eq_map`: the answer lists all copies;
* `isDirectory_of_unpackPackage`: every package gets its folder;
* **`unpackPackage_ok`**: what was copied;
* **`adds_unpackPackage`**, `adds_of_fits`: what has been added.
-/

namespace SolPlan

open SolPlan.Path (IsName)
open FileTree (Adds Keeps)

variable {cachePath dest source : Path} {t t₁ t' : FileTree} {p : Package} {copies : List Path}

namespace Package

/-- The files of the sources, by their names from the source folder. There are none where the
folder is missing. -/
def sourceFiles (p : Package) (t : FileTree) : List Location :=
  match t.find p.sources with
  | .ok top => t.filesBelow top
  | .error _ => []

/-- The copy of a file of the sources. -/
def copyOf (p : Package) (cachePath : Path) (names : Location) : Path :=
  ((packageFolder cachePath p.id).join p.contracts).join (relativePath names)

theorem sourceFiles_of_find {top : Location} (h : t.find p.sources = .ok top) :
    p.sourceFiles t = t.filesBelow top := by
  unfold sourceFiles
  rw [h]

theorem fileAt_of_mem_sourceFiles {file : Location} (h : file ∈ p.sourceFiles t) :
    p.sources.isAbsolute = true ∧ file.texts ≠ [] ∧
      ∃ content, t.FileAt (p.sources.place ++ file.texts) content := by
  unfold sourceFiles at h
  split at h
  · rename_i top hfind
    obtain ⟨pieces, hsplit, -⟩ := FileTree.find_ok hfind
    obtain ⟨hne, hfile⟩ := FileTree.exists_mem_filesBelow.mp ⟨file, h, rfl⟩
    exact ⟨Path.isAbsolute_of_split hsplit, hne, FileTree.texts_of_find hfind ▸ hfile⟩
  · cases h

end Package

/-! ## What is answered -/

theorem copyFiles_eq_map {top : Location} {files : List Location}
    (h : copyFiles source top dest files t = (t', .ok copies)) :
    copies = files.map fun names => dest.join (relativePath names) := by
  induction files generalizing t copies with
  | nil =>
    cases h
    rfl
  | cons names files ih =>
    unfold copyFiles at h
    dsimp only at h
    split at h
    · cases h
    · split at h
      · cases h
      · split at h
        · rename_i hrest
          cases h
          rw [ih hrest, List.map_cons]
        · cases h

theorem copySources_ok (h : copySources p.sources dest t = (t', .ok copies)) :
    (t' = t ∧ p.sourceFiles t = []) ∨ ∃ top, t.find p.sources = .ok top ∧
      copyFiles p.sources top dest (t.filesBelow top) t = (t', .ok copies) := by
  unfold copySources at h
  unfold Package.sourceFiles
  split at h
  · rename_i fault hfind
    cases h
    rw [hfind]
    exact Or.inl ⟨rfl, rfl⟩
  · rename_i top hfind
    exact Or.inr ⟨top, hfind, h⟩

theorem eq_map_sourceFiles
    (h : copySources p.sources ((packageFolder cachePath p.id).join p.contracts) t =
      (t', .ok copies)) :
    copies = (p.sourceFiles t).map (p.copyOf cachePath) := by
  unfold copySources at h
  unfold Package.sourceFiles
  split at h
  · rename_i hfind
    cases h
    rw [hfind]
    rfl
  · rename_i top hfind
    rw [hfind]
    exact copyFiles_eq_map h

/-- **A package that was unpacked**: its folder was left alone, or given copies of all files of the
sources; and then the folder was created, if it was still missing. -/
theorem unpackPackage_ok (h : unpackPackage cachePath p t = (t', .ok copies)) :
    ∃ t₁, t₁.makeDirectories (packageFolder cachePath p.id) = (t', .ok ()) ∧
      ((t.holdsFiles (packageFolder cachePath p.id) = true ∧ t₁ = t ∧ copies = []) ∨
        (t.holdsFiles (packageFolder cachePath p.id) = false ∧
          copies = (p.sourceFiles t).map (p.copyOf cachePath) ∧
          copySources p.sources ((packageFolder cachePath p.id).join p.contracts) t =
            (t₁, .ok copies))) := by
  unfold unpackPackage at h
  dsimp only at h
  split at h
  · cases h
  rename_i t₁ copied hfill
  split at h
  · rename_i hmake
    cases h
    refine ⟨t₁, hmake, ?_⟩
    unfold fillFolder at hfill
    split at hfill
    · rename_i hholds
      cases hfill
      exact Or.inl ⟨hholds, rfl, rfl⟩
    · rename_i hbare
      split at hfill
      · rename_i hcopy
        cases hfill
        exact Or.inr ⟨Bool.not_eq_true _ ▸ hbare, eq_map_sourceFiles hcopy, hcopy⟩
      · cases hfill
  · cases h

/-- Every package gets its folder. -/
theorem isDirectory_of_unpackPackage (hversion : IsName p.id.version)
    (h : unpackPackage cachePath p t = (t', .ok copies)) :
    t'.isDirectory (packageFolder cachePath p.id) = true := by
  have htext : (packageFolder cachePath p.id).text ≠ [] :=
    Path.text_join_ne_nil _ hversion.ne_nil
  obtain ⟨t₁, hmake, -⟩ := unpackPackage_ok h
  exact FileTree.isDirectory_of_makeDirectories htext hmake

/-- A package whose folder holds a file is left alone. -/
theorem unpackPackage_of_holdsFiles (hholds : t.holdsFiles (packageFolder cachePath p.id) = true)
    (h : unpackPackage cachePath p t = (t', .ok copies)) : t' = t ∧ copies = [] := by
  obtain ⟨t₁, hmake, ⟨-, rfl, rfl⟩ | ⟨hbare, -⟩⟩ := unpackPackage_ok h
  · have hthere := FileTree.isDirectory_of_holdsFiles hholds
    rw [FileTree.makeDirectories_of_isDirectory hthere] at hmake
    exact ⟨(congrArg Prod.fst hmake).symm, rfl⟩
  · rw [hholds] at hbare
    cases hbare

/-! ## What is copied -/

/-- Below a place stand copies of all files of the sources, under the name of the source folder, and
no other files. -/
def Package.HoldsCopies (p : Package) (source after : FileTree) (place : List Text) : Prop :=
  ∀ names content, names ≠ [] → (after.FileAt (place ++ names) content ↔
    ∃ file ∈ p.sourceFiles source, names = p.contracts.written ++ file.texts ∧
      source.FileAt (p.sources.place ++ file.texts) content)

/-- If the path of the sources leads somewhere, their files are those below its place. -/
theorem Package.IsCopied.holdsCopies {place : List Text} {top : Location}
    (h : p.IsCopied t t' place) (hfind : t.find p.sources = .ok top) :
    p.HoldsCopies t t' place := fun names content hne => by
  have htop := FileTree.texts_of_find hfind
  rw [p.sourceFiles_of_find hfind, ← htop]
  refine (h names content hne).trans ⟨?_, ?_⟩
  · rintro ⟨rest, hrest, rfl, hfile⟩
    rw [← htop] at hfile
    obtain ⟨file, hmem, rfl⟩ := FileTree.exists_mem_filesBelow.mpr ⟨hrest, content, hfile⟩
    exact ⟨file, hmem, rfl, hfile⟩
  · rintro ⟨file, hmem, rfl, hfile⟩
    have hrest := (FileTree.exists_mem_filesBelow.mp ⟨file, hmem, rfl⟩).1
    exact ⟨file.texts, hrest, rfl, htop ▸ hfile⟩

/-- **A bare folder is filled** with copies of all files of the sources, which are reported. -/
theorem holdsCopies_of_unpackPackage (hfits : p.Fits cachePath.place)
    (hbare : t.IsBare (packagePlace cachePath.place p.id))
    (h : unpackPackage cachePath p t = (t', .ok copies)) :
    copies = (p.sourceFiles t).map (p.copyOf cachePath) ∧
      p.HoldsCopies t t' (packagePlace cachePath.place p.id) := by
  obtain ⟨t₁, hmake, ⟨hholds, -⟩ | ⟨-, hcopies, hcopy⟩⟩ := unpackPackage_ok h
  · obtain ⟨names, content, hne, hfile⟩ := FileTree.exists_fileAt_of_holdsFiles hholds
    rw [place_packageFolder cachePath hfits.name hfits.version] at hfile
    exact absurd hfile (hbare names content hne)
  refine ⟨hcopies, fun names content hne => ?_⟩
  have hsame := FileTree.sameFiles_makeDirectories t₁ (packageFolder cachePath p.id)
  rw [hmake] at hsame
  rw [hsame]
  obtain ⟨rfl, hnone⟩ | ⟨top, hfind, hcopied⟩ := copySources_ok hcopy
  · rw [hnone]
    exact ⟨fun hfile => absurd hfile (hbare names content hne), fun ⟨_, hfile, _⟩ => nomatch hfile⟩
  · have hcopied' := (copyFiles_sources rfl hfits hbare hfind).2
    rw [hcopied] at hcopied'
    exact (hcopied' rfl).holdsCopies hfind names content hne

/-! ## What is added -/

variable {inside way : List Text → Prop}

theorem adds_makeFolderOf {file : Path} (hfile : file.isAbsolute = true)
    (hway : ∀ place, file.Passes place → inside place ∨ way place) :
    Adds inside way t (makeFolderOf file t).1 := by
  unfold makeFolderOf
  split
  · exact Adds.refl inside way t
  · rename_i folder hfolder
    obtain ⟨habsolute, hwritten⟩ :=
      Path.written_of_mem_above hfile (List.mem_of_mem_head? hfolder)
    have h := FileTree.adds_makeDirectories (t := t) habsolute
      fun place hplace => hway place (hplace.mono hwritten)
    split
    · rename_i hmake
      rw [hmake] at h
      exact h
    · rename_i hmake
      rw [hmake] at h
      exact h

theorem adds_copyFiles {top : Location} {files : List Location}
    (hfiles : ∀ names ∈ files, (dest.join (relativePath names)).EndsInside inside way)
    (h : copyFiles source top dest files t = (t', .ok copies)) : Adds inside way t t' := by
  induction files generalizing t copies with
  | nil =>
    cases h
    exact Adds.refl inside way _
  | cons names files ih =>
    have hcopy := hfiles names List.mem_cons_self
    have hmake := adds_makeFolderOf (t := t) hcopy.isAbsolute hcopy.onWay
    unfold copyFiles at h
    dsimp only at h
    split at h
    · cases h
    · rename_i t₁ hfirst
      rw [hfirst] at hmake
      split at h
      · cases h
      · rename_i t₂ hcopied
        have hadds := hmake.trans (FileTree.adds_copyFile hcopied hcopy.here)
        split at h
        · rename_i hrest
          cases h
          exact hadds.trans (ih (fun names' hnames' =>
            hfiles names' (List.mem_cons_of_mem _ hnames')) hrest)
        · cases h

/-- **What is added when a package is unpacked**, if its folder is on the way and its copies are
inside. -/
theorem adds_unpackPackage (hcache : cachePath.isAbsolute = true)
    (hfolder : ∀ place, (packageFolder cachePath p.id).Passes place → inside place ∨ way place)
    (hcopies : ∀ names, names ≠ [] → (p.copyOf cachePath names).EndsInside inside way)
    (h : unpackPackage cachePath p t = (t', .ok copies)) : Adds inside way t t' := by
  obtain ⟨t₁, hmake, hfilled⟩ := unpackPackage_ok h
  have hmade := FileTree.adds_makeDirectories (t := t₁) (isAbsolute_packageFolder hcache p.id)
    hfolder
  rw [hmake] at hmade
  refine Adds.trans ?_ hmade
  obtain ⟨-, rfl, -⟩ | ⟨-, -, hcopy⟩ := hfilled
  · exact Adds.refl inside way _
  · obtain ⟨rfl, -⟩ | ⟨top, -, hcopied⟩ := copySources_ok hcopy
    · exact Adds.refl inside way _
    · exact adds_copyFiles (fun names hnames =>
        hcopies names (FileTree.mem_filesBelow.mp hnames).1) hcopied

/-- Whatever a package is, nothing is taken away when it is unpacked. -/
theorem keeps_unpackPackage (hcache : cachePath.isAbsolute = true)
    (h : unpackPackage cachePath p t = (t', .ok copies)) : Keeps t t' := by
  have hall : ∀ place, (fun _ : List Text => True) place ∨ (fun _ : List Text => True) place :=
    fun _ => Or.inl trivial
  have hfolder := Path.isAbsolute_join (isAbsolute_packageFolder hcache p.id) p.contracts
  exact (adds_unpackPackage hcache (fun place _ => hall place)
    (fun names _ => ⟨Path.isAbsolute_join hfolder _, trivial, fun place _ => hall place⟩)
    h).toKeeps

/-- Whoever gives a package its folder, the cache folder is given by an absolute path. -/
theorem isAbsolute_of_unpackPackage (hname : IsName p.id.name) (hversion : IsName p.id.version)
    (h : unpackPackage cachePath p t = (t', .ok copies)) : cachePath.isAbsolute = true := by
  obtain ⟨l, hfind, -⟩ := FileTree.isDirectory_iff.mp (isDirectory_of_unpackPackage hversion h)
  obtain ⟨pieces, hsplit, -⟩ := FileTree.find_ok hfind
  exact isAbsolute_of_packageFolder hname hversion (Path.isAbsolute_of_split hsplit)

/-- The copies of a package that can be unpacked are in its folder. -/
theorem Package.Fits.endsInside (hfits : p.Fits cachePath.place)
    (hcache : cachePath.isAbsolute = true) {names : Location} (hne : names ≠ []) :
    (p.copyOf cachePath names).EndsInside (IsBelow (packagePlace cachePath.place p.id))
      (packageFolder cachePath p.id).Passes := by
  obtain ⟨hrelative, hwritten⟩ := written_relativePath names
  have hfolder := place_packageFolder cachePath hfits.name hfits.version
  have hdown : ∀ s ∈ p.contracts.written ++ names.texts, IsName s := fun s hs =>
    (List.mem_append.mp hs).elim (hfits.down s) (Location.isName s)
  have hne : p.contracts.written ++ names.texts ≠ [] :=
    List.append_ne_nil_of_right_ne_nil _ fun hnil => hne (List.map_eq_nil_iff.mp hnil)
  have hcopy : (p.copyOf cachePath names).written =
      (packageFolder cachePath p.id).written ++ (p.contracts.written ++ names.texts) := by
    rw [Package.copyOf, Path.written_join _ hrelative, Path.written_join _ hfits.relative, hwritten,
      List.append_assoc]
  refine ⟨?_, ⟨_, hne, ?_⟩, fun place hpasses => ?_⟩
  · exact Path.isAbsolute_join (Path.isAbsolute_join (isAbsolute_packageFolder hcache _) _) _
  · rw [Path.place_eq_placeOf, hcopy, Path.placeOf_append _ hdown, ← Path.place_eq_placeOf, hfolder]
  · rcases hpasses.of_written hcopy hdown with hpasses | ⟨front, hfront, -, rfl⟩
    · exact Or.inr hpasses
    · exact Or.inl ⟨front, hfront, by rw [hfolder]⟩

/-- **A package that can be unpacked** adds to its folder, and the way to it. -/
theorem adds_of_fits (hfits : p.Fits cachePath.place)
    (h : unpackPackage cachePath p t = (t', .ok copies)) :
    Adds (IsBelow (packagePlace cachePath.place p.id)) (packageFolder cachePath p.id).Passes
      t t' := by
  have hcache := isAbsolute_of_unpackPackage hfits.name hfits.version h
  exact adds_unpackPackage hcache (fun _ hpasses => Or.inr hpasses)
    (fun _ hne => hfits.endsInside hcache hne) h

end SolPlan
