import SolPlan.Package.Unpack
import SolPlan.Proofs.FileTree.Edit

/-!
# What unpacking leaves in the cache

Unpacking a package changes files below the folder of the package and nowhere else. There it leaves
what it finds, or nothing, or a copy of all sources and nothing besides (`unpackPackage_spec`),
whether it fails or not: a copy is begun only where no file is, and what a failed copy has left is
discarded.

Results:
* `descends_packageFolder`: the folder of a package is reached by going down;
* `copyFiles_spec`: what copying files one by one leaves;
* **`unpackPackage_spec`**: what unpacking one package leaves;
* `unpackAfter_induction`: what every package keeps, unpacking a dependency keeps.
-/

namespace SolPlan

open SolPlan.Path (IsName)
open FileTree (SameFiles)

/-! ## Places in the cache -/

variable {cachePath dest source : Path} {cache place : List Text} {t t' : FileTree}

/-- The place of a package in a cache. -/
def packagePlace (cache : List Text) (id : PackageId) : List Text := cache ++ [id.name, id.version]

/-- The folders of two packages have nothing in common. -/
theorem packagePlace_append_inj {id id' : PackageId} {x y : List Text}
    (h : packagePlace cache id ++ x = packagePlace cache id' ++ y) : id = id' := by
  unfold packagePlace at h
  rw [List.append_assoc, List.append_assoc] at h
  have h := List.append_cancel_left h
  exact PackageId.ext (List.cons.inj h).1 (List.cons.inj (List.cons.inj h).2).1

theorem descends_packageFolder (hcache : cachePath.Descends cache) {id : PackageId}
    (hname : IsName id.name) (hversion : IsName id.version) :
    (packageFolder cachePath id).Descends (packagePlace cache id) := by
  have h := (hcache.join_name hname).join_name hversion
  rwa [List.append_assoc] at h

theorem isAbsolute_packageFolder (h : cachePath.isAbsolute = true) (id : PackageId) :
    (packageFolder cachePath id).isAbsolute = true :=
  Path.isAbsolute_join (Path.isAbsolute_join h _) _

theorem isAbsolute_of_packageFolder {id : PackageId} (hname : IsName id.name)
    (hversion : IsName id.version) (h : (packageFolder cachePath id).isAbsolute = true) :
    cachePath.isAbsolute = true :=
  Path.isAbsolute_of_join (Path.written_name hname).1
    (Path.isAbsolute_of_join (Path.written_name hversion).1 h)

theorem written_packageFolder (cachePath : Path) {id : PackageId} (hname : IsName id.name)
    (hversion : IsName id.version) :
    (packageFolder cachePath id).written = cachePath.written ++ [id.name, id.version] := by
  obtain ⟨hname, hwritten⟩ := Path.written_name hname
  obtain ⟨hversion, hwritten'⟩ := Path.written_name hversion
  rw [packageFolder, Path.written_join _ hversion, Path.written_join _ hname, hwritten, hwritten',
    List.append_assoc]
  rfl

theorem place_packageFolder (cachePath : Path) {id : PackageId} (hname : IsName id.name)
    (hversion : IsName id.version) :
    (packageFolder cachePath id).place = packagePlace cachePath.place id := by
  have hnames : ∀ s ∈ [id.name, id.version], IsName s :=
    List.forall_mem_cons.mpr ⟨hname, List.forall_mem_singleton.mpr hversion⟩
  rw [Path.place_eq_placeOf, written_packageFolder cachePath hname hversion,
    Path.placeOf_append _ hnames, ← Path.place_eq_placeOf]
  rfl

/-- The path of some names is relative, and writes these names. -/
theorem written_relativePath (names : Location) :
    (relativePath names).isAbsolute = false ∧ (relativePath names).written = names.texts :=
  Path.written_names Location.isName

theorem place_copy (dest : Path) (names : Location) :
    (dest.join (relativePath names)).place = dest.place ++ names.texts := by
  obtain ⟨hrelative, hwritten⟩ := written_relativePath names
  rw [Path.place_join dest hrelative (by rw [hwritten]; exact Location.isName), hwritten]

/-- Places of which neither is above the other have nothing in common. -/
theorem append_ne_append {a b : List Text} (hab : ¬ a <+: b) (hba : ¬ b <+: a) (x y : List Text) :
    a ++ x ≠ b ++ y := fun h =>
  (List.prefix_or_prefix_of_prefix (List.prefix_append a x) (h ▸ List.prefix_append b y)).elim hab
    hba

/-! ## Copying files -/

theorem sameFiles_makeFolderOf (file : Path) (t : FileTree) :
    SameFiles t (makeFolderOf file t).1 := by
  unfold makeFolderOf
  split
  · exact SameFiles.refl t
  · rename_i folder _
    have h := FileTree.sameFiles_makeDirectories t folder
    split
    · rename_i hmake
      rw [hmake] at h
      exact h
    · rename_i hmake
      rw [hmake] at h
      exact h

/-- Copying files stops at the first, and then no file has changed, or copies it and goes on. -/
theorem copyFiles_cons_cases {top names : Location} {held : Content} (source : Path)
    (files : List Location) (hdest : dest.place = place)
    (hapart : ∀ x y, top.texts ++ x ≠ place ++ y)
    (hheld : t.FileAt (top.texts ++ names.texts) held) :
    let r := copyFiles source top dest (names :: files) t
    (SameFiles t r.1 ∧ r.2.isOk = false) ∨
      ∃ t', t.Writes (place ++ names.texts) held t' ∧
        r.1 = (copyFiles source top dest files t').1 ∧
        r.2.isOk = (copyFiles source top dest files t').2.isOk := by
  have hplace : (dest.join (relativePath names)).place = place ++ names.texts :=
    hdest ▸ place_copy dest names
  have hfolder := sameFiles_makeFolderOf (dest.join (relativePath names)) t
  dsimp only
  rw [copyFiles]
  split
  · rename_i hmake
    rw [hmake] at hfolder
    exact Or.inl ⟨hfolder, rfl⟩
  rename_i t₁ hmake
  rw [hmake] at hfolder
  split
  · exact Or.inl ⟨hfolder, rfl⟩
  rename_i t₂ hcopy
  have hsource : t₁.FileAt (top ++ names).texts held := by
    rw [Location.texts_append]
    exact (hfolder _ _).mpr hheld
  have hfirst := FileTree.writes_copyFile hcopy hsource
    (by rw [Location.texts_append, hplace]; exact hapart _ _)
  rw [hplace] at hfirst
  refine Or.inr ⟨t₂, fun q content => by rw [hfirst, ← hfolder q content], ?_⟩
  split
  · rename_i hrest
    rw [hrest]
    exact ⟨rfl, rfl⟩
  · rename_i hrest
    rw [hrest]
    exact ⟨rfl, rfl⟩

/-- **Copying files** changes the copies alone, and if it succeeds, each of them holds what its
original does. -/
theorem copyFiles_spec (source : Path) {top : Location} (hdest : dest.place = place)
    (hapart : ∀ x y, top.texts ++ x ≠ place ++ y) {files : List Location}
    (hfiles : ∀ names ∈ files, ∃ content, t.FileAt (top.texts ++ names.texts) content) :
    (∀ q content, (∀ names ∈ files, q ≠ place ++ names.texts) →
      ((copyFiles source top dest files t).1.FileAt q content ↔ t.FileAt q content)) ∧
    ((copyFiles source top dest files t).2.isOk = true → ∀ names ∈ files, ∀ content,
      ((copyFiles source top dest files t).1.FileAt (place ++ names.texts) content ↔
        t.FileAt (top.texts ++ names.texts) content)) := by
  induction files generalizing t with
  | nil => exact ⟨fun _ _ _ => Iff.rfl, fun _ _ h => absurd h List.not_mem_nil⟩
  | cons names files ih =>
    obtain ⟨held, hheld⟩ := hfiles names List.mem_cons_self
    obtain ⟨hsame, hfail⟩ | ⟨t', hcopy, hrest, hok⟩ :=
      copyFiles_cons_cases source files hdest hapart hheld
    · exact ⟨fun q content _ => hsame q content, fun h => by rw [hfail] at h; cases h⟩
    rw [hrest, hok]
    -- the originals stand elsewhere
    have horiginal : ∀ x content,
        t'.FileAt (top.texts ++ x) content ↔ t.FileAt (top.texts ++ x) content :=
      fun x content => hcopy.elsewhere (hapart _ _)
    obtain ⟨hothers, hcopies⟩ := ih (t := t') fun names' hnames' => by
      obtain ⟨content, hcontent⟩ := hfiles names' (List.mem_cons_of_mem _ hnames')
      exact ⟨content, (horiginal _ _).mpr hcontent⟩
    refine ⟨fun q content hq => ?_, fun hdone names' hnames' content => ?_⟩
    · have hkept := hothers q content fun names' hnames' =>
        hq names' (List.mem_cons_of_mem _ hnames')
      exact hkept.trans (hcopy.elsewhere (hq names List.mem_cons_self))
    by_cases hlater : names' ∈ files
    · exact (hcopies hdone names' hlater content).trans (horiginal _ content)
    · -- the first is not copied over by the others
      obtain rfl : names' = names := (List.mem_cons.mp hnames').resolve_right hlater
      have hnew : ∀ other ∈ files, place ++ names'.texts ≠ place ++ other.texts :=
        fun other hother he => by
          rw [Location.texts_inj (List.append_cancel_left he)] at hlater
          exact hlater hother
      rw [hothers _ content hnew, hcopy.here]
      exact ⟨fun h => h ▸ hheld, fun h => h.unique hheld⟩

/-! ## Unpacking a package -/

/-- A package that can be unpacked where it belongs: its name and version are single steps, its
source folder is below where it is installed, and neither above nor below the cache. -/
structure Package.Fits (p : Package) (cache : List Text) : Prop where
  name : IsName p.id.name
  version : IsName p.id.version
  relative : p.contracts.isAbsolute = false
  down : ∀ s ∈ p.contracts.written, IsName s
  apart : p.sources.isAbsolute = true → ¬ cache <+: p.sources.place ∧ ¬ p.sources.place <+: cache

/-- Below a folder stand the files that the sources of a package have had, under the name of the
source folder, and no others. -/
def Package.IsCopied (p : Package) (before after : FileTree) (folder : List Text) : Prop :=
  ∀ names content, names ≠ [] → (after.FileAt (folder ++ names) content ↔
    ∃ rest, rest ≠ [] ∧ names = p.contracts.written ++ rest ∧
      before.FileAt (p.sources.place ++ rest) content)

/-- No file stands below a folder. -/
def FileTree.IsBare (t : FileTree) (folder : List Text) : Prop :=
  ∀ names content, names ≠ [] → ¬ t.FileAt (folder ++ names) content

theorem FileTree.isBare_iff {folder : Path} (h : folder.Descends place) :
    t.IsBare place ↔ t.holdsFiles folder = false := by
  rw [← Bool.not_eq_true, holdsFiles_iff h]
  constructor
  · rintro hbare ⟨names, content, hne, hfile⟩
    exact hbare names content hne hfile
  · exact fun hnone names content hne hfile => hnone ⟨names, content, hne, hfile⟩

theorem FileTree.IsBare.congr (h : t.IsBare place) (hsame : SameFiles t t') : t'.IsBare place :=
  fun names content hne hfile => h names content hne ((hsame _ _).mp hfile)

theorem Package.IsCopied.congr {p : Package} {before : FileTree}
    (h : p.IsCopied before t place) (hsame : SameFiles t t') : p.IsCopied before t' place :=
  fun names content hne => (hsame _ _).trans (h names content hne)

variable {p : Package}

theorem Package.Fits.apart_of_find (h : p.Fits cache) {top : Location}
    (hfind : t.find p.sources = .ok top) (x y : List Text) : top.texts ++ x ≠ cache ++ y := by
  obtain ⟨pieces, hsplit, -⟩ := FileTree.find_ok hfind
  obtain ⟨habove, hbelow⟩ := h.apart (Path.isAbsolute_of_split hsplit)
  rw [FileTree.texts_of_find hfind]
  exact append_ne_append hbelow habove x y

/-- When all files of the sources have been copied to a bare folder, it is a copy. -/
theorem isCopied_of_copies {top : Location} (htop : top.texts = p.sources.place)
    (hbare : t.IsBare place)
    (hothers : ∀ q content,
      (∀ file ∈ t.filesBelow top, q ≠ place ++ p.contracts.written ++ file.texts) →
        (t'.FileAt q content ↔ t.FileAt q content))
    (hcopies : ∀ file ∈ t.filesBelow top, ∀ content,
      (t'.FileAt (place ++ p.contracts.written ++ file.texts) content ↔
        t.FileAt (top.texts ++ file.texts) content)) :
    p.IsCopied t t' place := fun names content hne => by
  constructor
  · intro h
    by_cases hcopy : ∃ file ∈ t.filesBelow top, names = p.contracts.written ++ file.texts
    · obtain ⟨file, hfile, rfl⟩ := hcopy
      rw [← List.append_assoc, hcopies file hfile, htop] at h
      exact ⟨file.texts, (FileTree.exists_mem_filesBelow.mp ⟨file, hfile, rfl⟩).1, rfl, h⟩
    · refine absurd ((hothers _ content fun file hfile he => hcopy ⟨file, hfile, ?_⟩).mp h)
        (hbare names content hne)
      rw [List.append_assoc] at he
      exact List.append_cancel_left he
  · rintro ⟨rest, hrest, rfl, hfile⟩
    rw [← htop] at hfile
    obtain ⟨file, hmem, rfl⟩ := FileTree.exists_mem_filesBelow.mpr ⟨hrest, content, hfile⟩
    rw [← List.append_assoc, hcopies file hmem]
    exact hfile

/-- **Copying the files of the sources** to a bare folder changes no other files; if it succeeds,
the folder holds the copies. -/
theorem copyFiles_sources (hcache : cachePath.place = cache) (hfits : p.Fits cache)
    (hbare : t.IsBare (packagePlace cache p.id)) {top : Location}
    (hfind : t.find p.sources = .ok top) :
    let r := copyFiles p.sources top ((packageFolder cachePath p.id).join p.contracts)
      (t.filesBelow top) t
    (∀ q content, (∀ names, names ≠ [] → q ≠ packagePlace cache p.id ++ names) →
      (r.1.FileAt q content ↔ t.FileAt q content)) ∧
    (r.2.isOk = true → p.IsCopied t r.1 (packagePlace cache p.id)) := by
  have hdest : ((packageFolder cachePath p.id).join p.contracts).place =
      packagePlace cache p.id ++ p.contracts.written := by
    rw [Path.place_join _ hfits.relative hfits.down,
      place_packageFolder cachePath hfits.name hfits.version, hcache]
  have hapart : ∀ x y, top.texts ++ x ≠ packagePlace cache p.id ++ p.contracts.written ++ y :=
    fun x y => by
      rw [packagePlace, List.append_assoc, List.append_assoc]
      exact hfits.apart_of_find hfind _ _
  obtain ⟨hothers, hcopies⟩ := copyFiles_spec p.sources hdest hapart
    fun file (hfile : file ∈ t.filesBelow top) => (FileTree.mem_filesBelow.mp hfile).2
  refine ⟨fun q content hq => hothers q content fun file hfile => ?_, fun hok => ?_⟩
  · have hne := (FileTree.exists_mem_filesBelow.mp ⟨file, hfile, rfl⟩).1
    rw [List.append_assoc]
    exact hq _ (List.append_ne_nil_of_right_ne_nil _ hne)
  · exact isCopied_of_copies (FileTree.texts_of_find hfind) hbare hothers (hcopies hok)

/-- **Copying the sources of a package** to a bare folder changes no other files; if it succeeds,
the folder stays bare or holds the copies. -/
theorem copySources_spec (hcache : cachePath.place = cache) (hfits : p.Fits cache)
    (hbare : t.IsBare (packagePlace cache p.id)) :
    let r := copySources p.sources ((packageFolder cachePath p.id).join p.contracts) t
    (∀ q content, (∀ names, names ≠ [] → q ≠ packagePlace cache p.id ++ names) →
      (r.1.FileAt q content ↔ t.FileAt q content)) ∧
    (r.2.isOk = true → r.1.IsBare (packagePlace cache p.id) ∨
      p.sources.isAbsolute = true ∧ p.IsCopied t r.1 (packagePlace cache p.id)) := by
  unfold copySources
  split
  · exact ⟨fun _ _ _ => Iff.rfl, fun _ => Or.inl hbare⟩
  · rename_i top hfind
    obtain ⟨pieces, hsplit, -⟩ := FileTree.find_ok hfind
    exact (copyFiles_sources hcache hfits hbare hfind).imp_right
      fun hcopied hok => Or.inr ⟨Path.isAbsolute_of_split hsplit, hcopied hok⟩

/-- What can become of files when a package is unpacked: none has changed that is not below the
folder of the package, and there is what there was, or nothing, or a copy of the sources. -/
structure Package.Leaves (p : Package) (cache : List Text) (before after : FileTree) : Prop where
  others : ∀ q content, (∀ names, names ≠ [] → q ≠ packagePlace cache p.id ++ names) →
    (after.FileAt q content ↔ before.FileAt q content)
  folder : SameFiles before after ∨ after.IsBare (packagePlace cache p.id) ∨
    p.sources.isAbsolute = true ∧ p.IsCopied before after (packagePlace cache p.id)

theorem Package.Leaves.refl (p : Package) (cache : List Text) (t : FileTree) :
    p.Leaves cache t t :=
  ⟨fun _ _ _ => Iff.rfl, Or.inl (SameFiles.refl t)⟩

theorem Package.Leaves.congr {before : FileTree} (h : p.Leaves cache before t)
    (hsame : SameFiles t t') : p.Leaves cache before t' :=
  ⟨fun q content hq => (hsame q content).trans (h.others q content hq),
    h.folder.imp (·.trans hsame) (Or.imp (·.congr hsame) (And.imp_right (·.congr hsame)))⟩

theorem fillFolder_spec (hcache : cachePath.Descends cache) (hfits : p.Fits cache)
    (t : FileTree) :
    p.Leaves cache t (fillFolder (packageFolder cachePath p.id) p t).1 := by
  have hfolder := descends_packageFolder hcache hfits.name hfits.version
  unfold fillFolder
  split
  · exact Package.Leaves.refl p cache t
  · rename_i hbare
    obtain ⟨hothers, hcopied⟩ := copySources_spec hcache.place_eq hfits
      ((FileTree.isBare_iff hfolder).mpr (Bool.not_eq_true _ ▸ hbare))
    split
    · rename_i t₁ copies hcopy
      rw [hcopy] at hothers hcopied
      exact ⟨hothers, Or.inr (hcopied rfl)⟩
    · rename_i t₁ e hcopy
      rw [hcopy] at hothers
      -- part of a copy is taken away again
      have hdiscard := FileTree.fileAt_discard (t := t₁) hfolder (FileTree.endsInDots_join_name
        (Path.isAbsolute_join hcache.isAbsolute _) hfits.version)
      refine ⟨fun q content hq => ?_, Or.inr (Or.inl fun names content hne h => ?_)⟩
      · exact (hdiscard q content).trans ⟨fun h => (hothers q content hq).mp h.2,
          fun h => ⟨hq, (hothers q content hq).mpr h⟩⟩
      · exact ((hdiscard _ content).mp h).1 names hne rfl

/-- **What unpacking a package leaves**, whether it fails or not. -/
theorem unpackPackage_spec (hcache : cachePath.Descends cache) (hfits : p.Fits cache)
    (t : FileTree) : p.Leaves cache t (unpackPackage cachePath p t).1 := by
  have hfill := fillFolder_spec hcache hfits t
  unfold unpackPackage
  dsimp only
  split
  · rename_i hfilled
    rw [hfilled] at hfill
    exact hfill
  · rename_i t₁ copies hfilled
    rw [hfilled] at hfill
    have hsame := FileTree.sameFiles_makeDirectories t₁ (packageFolder cachePath p.id)
    split
    · rename_i hmake
      rw [hmake] at hsame
      exact hfill.congr hsame
    · rename_i hmake
      rw [hmake] at hsame
      exact hfill.congr hsame

/-! ## Unpacking dependencies -/

namespace Dependency

mutual

/-- The packages of a dependency and of all that it depends on. -/
def brought : Dependency → List Package
  | mk package dependencies => package :: allBrought dependencies

/-- The packages of several dependencies and of all that they depend on. -/
def allBrought : List Dependency → List Package
  | [] => []
  | d :: ds => brought d ++ allBrought ds

end

mutual

/-- A dependency that is found in another brings no other packages. -/
theorem brought_of_find? {id : PackageId} {found : Dependency} :
    ∀ d : Dependency, find? id d = some found → ∀ p ∈ found.brought, p ∈ d.brought
  | mk package dependencies, h => fun p hp => by
    unfold find? at h
    split at h
    · cases h
      exact hp
    · exact List.mem_cons_of_mem _ (brought_of_findIn? dependencies h p hp)

theorem brought_of_findIn? {id : PackageId} {found : Dependency} :
    ∀ ds : List Dependency, findIn? id ds = some found → ∀ p ∈ found.brought, p ∈ allBrought ds
  | [], h => by cases h
  | d :: ds, h => fun p hp => by
    unfold findIn? at h
    unfold allBrought
    split at h
    · rename_i hd
      cases h
      exact List.mem_append_left _ (brought_of_find? d hd p hp)
    · exact List.mem_append_right _ (brought_of_findIn? ds h p hp)

end

theorem allBrought_append (ds ds' : List Dependency) :
    allBrought (ds ++ ds') = allBrought ds ++ allBrought ds' := by
  induction ds with
  | nil => rfl
  | cons d ds ih => rw [List.cons_append, allBrought, ih, allBrought, List.append_assoc]

/-- What is declared is installed. -/
theorem allBrought_declared {r : Registry} :
    ∀ p ∈ allBrought r.declared, p ∈ allBrought r.installed := fun p hp => by
  rw [Registry.installed, allBrought_append]
  exact List.mem_append_left _ hp

variable {P : FileTree → Prop}

mutual

/-- What unpacking each of its packages keeps, unpacking a dependency keeps, whether it fails or
not. -/
theorem unpackAfter_induction {done : List Unpacked} {t : FileTree} :
    ∀ d : Dependency,
      (∀ p ∈ d.brought, ∀ t, P t → P (unpackPackage cachePath p t).1) → P t →
        P (unpackAfter cachePath done d t).1
  | mk package dependencies, hpackage, h => by
    unfold unpackAfter
    split
    · exact h
    · have hfirst := hpackage package List.mem_cons_self t h
      split
      · rename_i hunpack
        rw [hunpack] at hfirst
        exact hfirst
      · rename_i hunpack
        rw [hunpack] at hfirst
        exact unpackAllAfter_induction dependencies
          (fun p hp => hpackage p (List.mem_cons_of_mem _ hp)) hfirst

theorem unpackAllAfter_induction {done : List Unpacked} {t : FileTree} :
    ∀ ds : List Dependency,
      (∀ p ∈ allBrought ds, ∀ t, P t → P (unpackPackage cachePath p t).1) → P t →
        P (unpackAllAfter cachePath done ds t).1
  | [], _, h => h
  | d :: ds, hpackage, h => by
    unfold unpackAllAfter
    have hfirst : P (unpackAfter cachePath done d t).1 :=
      unpackAfter_induction d (fun p hp => hpackage p (List.mem_append_left _ hp)) h
    split
    · rename_i hunpack
      rw [hunpack] at hfirst
      exact hfirst
    · rename_i hunpack
      rw [hunpack] at hfirst
      exact unpackAllAfter_induction ds (fun p hp => hpackage p (List.mem_append_right _ hp)) hfirst

end

end Dependency

end SolPlan
