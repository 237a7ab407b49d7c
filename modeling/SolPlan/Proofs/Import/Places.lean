import SolPlan.Proofs.Import.Healing

/-!
# Where imports are looked for

An import that is not relative is looked for at up to six places, one after the other (`LooksAt`):
at its value, below the root and below the source folder; in the project in which the dependency of
its key is kept, at its value and at its literal without the key; and at its value completed with
the source folder of a package, below the root and below the source folder. It leads to the first
file among them, and stays unresolved if there is none.

Results:
* `keepsIn_iff`, `leaves_iff`, `completed?_eq_some_iff`: what stands at these places;
* `LooksAt.unique`, `FirstFile.unique`: one place for each rank, so one first file;
* `target_findTarget`: what is found, without a repair and with one;
* **`resolve_firstFile`**: which statements can be resolved, and where they lead.
-/

namespace SolPlan

/-- The first dependency of that name lives in another project. -/
def Config.KeepsIn (c : Config) (name : Text) (project : Path) : Prop :=
  ∃ before d after, c.named = before ++ d :: after ∧ (∀ e ∈ before, e.name ≠ name) ∧
    d.name = name ∧ d.project = some project

theorem Config.keepsIn_iff {c : Config} {name : Text} {project : Path} :
    c.KeepsIn name project ↔ (c.dependency? name).bind NamedDependency.project = some project := by
  unfold KeepsIn dependency?
  simp only [Option.bind_eq_some_iff, List.find?_eq_some_iff_append]
  constructor
  · rintro ⟨before, d, after, hnamed, hbefore, hname, hproject⟩
    exact ⟨d, ⟨by simpa using hname, before, after, hnamed, by simpa using hbefore⟩, hproject⟩
  · rintro ⟨d, ⟨hname, before, after, hnamed, hbefore⟩, hproject⟩
    exact ⟨before, d, after, hnamed, by simpa using hbefore, by simpa using hname, hproject⟩

namespace Import

variable {t : FileTree} {p : Project} {r : Registry} {table : RemappingTable} {importing : Path}
  {raw : Text} {i : Import} {path : Path}

/-- The literal starts with the key, and after it and the separators that follow there is a rest. -/
def Leaves (literal key rest : Text) : Prop :=
  ∃ separators, literal = key ++ (separators ++ rest) ∧ (∀ c ∈ separators, IsSeparator c) ∧
    ∀ c, rest.head? = some c → ¬ IsSeparator c

/-- After the first cache folder in it, the value names a known package, and does not go on into the
source folder of the package; the other value does. -/
def Completes (r : Registry) (value completed : Text) : Prop :=
  ∃ (place : CacheLocation) (d : Dependency),
    (cacheFolderName ∉ place.before ∧ place.package.name ≠ [] ∧ place.package.version ≠ [] ∧
      value.splitOn '/' = place.before ++
        cacheFolderName :: place.package.name :: place.package.version :: place.rest) ∧
    r.find? place.package = some d ∧ d.package.contractsName ≠ [] ∧
    place.rest.head? ≠ some d.package.contractsName ∧
    completed = joinSlash (joinSlash place.packagePath d.package.contractsName) place.suffix

/-- The places where an import is looked for, by their rank. -/
inductive LooksAt (p : Project) (r : Registry) (i : Import) : Nat → Path → Prop
  | root : LooksAt p r i 0 (p.rootPath.join ⟨i.value⟩)
  | contracts : LooksAt p r i 1 (p.contracts.join ⟨i.value⟩)
  | project {name old : Text} {project : Path} (hkey : i.remapping = some ('@' :: name, old))
      (hproject : p.config.KeepsIn name project) :
      LooksAt p r i 2 ((p.rootPath.join project).join ⟨i.value⟩)
  | unmapped {name old rest : Text} {project : Path} (hkey : i.remapping = some ('@' :: name, old))
      (hproject : p.config.KeepsIn name project) (hrest : Leaves i.literal ('@' :: name) rest) :
      LooksAt p r i 3 ((p.rootPath.join project).join ⟨rest⟩)
  | completedRoot {value : Text} (hvalue : Completes r i.value value) :
      LooksAt p r i 4 (p.rootPath.join ⟨value⟩)
  | completedContracts {value : Text} (hvalue : Completes r i.value value) :
      LooksAt p r i 5 (p.contracts.join ⟨value⟩)

/-- A file is there, and none at the places of lower rank. -/
def FirstFile (t : FileTree) (p : Project) (r : Registry) (i : Import) (path : Path) : Prop :=
  ∃ rank, LooksAt p r i rank path ∧ t.isFile path = true ∧
    ∀ rank' < rank, ∀ path', LooksAt p r i rank' path' → t.isFile path' = false

/-! ## One place for each rank -/

theorem isSeparator_iff (c : Char) : IsSeparator c ↔ (c == '/' || c == '\\') = true := by
  simp [IsSeparator]

theorem leaves_iff {literal key rest : Text} :
    Leaves literal key rest ↔ withoutKey? literal key = some rest := by
  unfold Leaves withoutKey?
  simp only [Option.map_eq_some_iff, Text.after?_eq_some_iff, isSeparator_iff]
  constructor
  · rintro ⟨separators, hliteral, hseparators, hrest⟩
    refine ⟨separators ++ rest, hliteral, ?_⟩
    rw [List.dropWhile_append_of_pos hseparators]
    cases rest with
    | nil => rfl
    | cons c rest => exact List.dropWhile_cons_of_neg (hrest c rfl)
  · rintro ⟨tail, hliteral, rfl⟩
    refine ⟨tail.takeWhile fun c => c == '/' || c == '\\', ?_, fun c hc => ?_, fun c hc => ?_⟩
    · rw [List.takeWhile_append_dropWhile, hliteral]
    · exact List.mem_takeWhile_imp (p := fun c => c == '/' || c == '\\') hc
    · have hnot := List.head?_dropWhile_not (fun c => c == '/' || c == '\\') tail
      rw [hc] at hnot
      simpa using hnot

/-- The value that goes on into the source folder of the package. -/
def completed? (r : Registry) (value : Text) : Option Text := do
  let place ← CacheLocation.ofText? value
  let d ← r.find? place.package
  let folder := d.package.contractsName
  if folder = [] ∨ place.rest.head? = some folder then none
  else return joinSlash (repairedPrefix place folder) place.suffix

theorem completed?_eq_some_iff {value completed : Text} :
    completed? r value = some completed ↔ Completes r value completed := by
  unfold completed? Completes repairedPrefix
  simp only [Option.bind_eq_bind, Option.bind_eq_some_iff, ← CacheLocation.ofText?_eq_some_iff]
  constructor
  · rintro ⟨place, hplace, d, hfind, h⟩
    split at h
    · cases h
    · rename_i hfolder
      cases h
      obtain ⟨hne, hrest⟩ := not_or.mp hfolder
      exact ⟨place, d, hplace, hfind, hne, hrest, rfl⟩
  · rintro ⟨place, d, hplace, hfind, hne, hrest, rfl⟩
    refine ⟨place, hplace, d, hfind, ?_⟩
    rw [if_neg (not_or.mpr ⟨hne, hrest⟩)]
    rfl

theorem LooksAt.unique {rank : Nat} {path' : Path} (h : LooksAt p r i rank path)
    (h' : LooksAt p r i rank path') : path = path' := by
  cases h with
  | root => cases h'; rfl
  | contracts => cases h'; rfl
  | project hkey hproject =>
    cases h' with
    | project hkey' hproject' =>
      obtain ⟨rfl, -⟩ : _ ∧ _ := by simpa using hkey.symm.trans hkey'
      rw [Config.keepsIn_iff] at hproject hproject'
      rw [Option.some.inj (hproject.symm.trans hproject')]
  | unmapped hkey hproject hrest =>
    cases h' with
    | unmapped hkey' hproject' hrest' =>
      obtain ⟨rfl, -⟩ : _ ∧ _ := by simpa using hkey.symm.trans hkey'
      rw [Config.keepsIn_iff] at hproject hproject'
      rw [leaves_iff] at hrest hrest'
      rw [Option.some.inj (hproject.symm.trans hproject'),
        Option.some.inj (hrest.symm.trans hrest')]
  | completedRoot hvalue =>
    cases h' with
    | completedRoot hvalue' =>
      rw [← completed?_eq_some_iff] at hvalue hvalue'
      rw [Option.some.inj (hvalue.symm.trans hvalue')]
  | completedContracts hvalue =>
    cases h' with
    | completedContracts hvalue' =>
      rw [← completed?_eq_some_iff] at hvalue hvalue'
      rw [Option.some.inj (hvalue.symm.trans hvalue')]

/-- There is one first file at most. -/
theorem FirstFile.unique {path' : Path} (h : FirstFile t p r i path)
    (h' : FirstFile t p r i path') : path = path' := by
  obtain ⟨rank, hlooks, hfile, hbefore⟩ := h
  obtain ⟨rank', hlooks', hfile', hbefore'⟩ := h'
  rcases Nat.lt_trichotomy rank rank' with hlt | rfl | hlt
  · rw [hbefore' rank hlt path hlooks] at hfile
    cases hfile
  · exact hlooks.unique hlooks'
  · rw [hbefore rank' hlt path' hlooks'] at hfile'
    cases hfile'

/-! ## What is found -/

theorem externalCandidates_of_keepsIn {name old : Text} {project : Path}
    (hkey : i.remapping = some ('@' :: name, old)) (hproject : p.config.KeepsIn name project) :
    externalCandidates p i = (p.rootPath.join project).join ⟨i.value⟩ ::
      ((withoutKey? i.literal ('@' :: name)).map fun rest =>
        (p.rootPath.join project).join ⟨rest⟩).toList := by
  have hnamed := Config.keepsIn_iff.mp hproject
  unfold externalCandidates
  simp only [hkey, hnamed]

theorem externalCandidates_eq_nil (h : ¬ ∃ name old project,
    i.remapping = some ('@' :: name, old) ∧ p.config.KeepsIn name project) :
    externalCandidates p i = [] := by
  unfold externalCandidates
  split
  · rename_i name old hkey
    split
    · rename_i project hproject
      exact absurd ⟨name, old, project, hkey, Config.keepsIn_iff.mpr hproject⟩ h
    · rfl
  · rfl

theorem looksAt_project_iff {name old : Text} {project : Path}
    (hkey : i.remapping = some ('@' :: name, old)) (hproject : p.config.KeepsIn name project) :
    LooksAt p r i 2 path ↔ (p.rootPath.join project).join ⟨i.value⟩ = path := by
  have hlooks : LooksAt p r i 2 ((p.rootPath.join project).join ⟨i.value⟩) :=
    .project hkey hproject
  constructor
  · exact fun h => hlooks.unique h
  · rintro rfl
    exact hlooks

theorem looksAt_unmapped_iff {name old : Text} {project : Path}
    (hkey : i.remapping = some ('@' :: name, old)) (hproject : p.config.KeepsIn name project) :
    LooksAt p r i 3 path ↔ ((withoutKey? i.literal ('@' :: name)).map fun rest =>
      (p.rootPath.join project).join ⟨rest⟩) = some path := by
  rw [Option.map_eq_some_iff]
  constructor
  · intro h
    cases h with
    | unmapped hkey' hproject' hrest =>
      obtain ⟨rfl, -⟩ : _ ∧ _ := by simpa using hkey.symm.trans hkey'
      rw [Config.keepsIn_iff] at hproject hproject'
      rw [Option.some.inj (hproject.symm.trans hproject')]
      exact ⟨_, leaves_iff.mp hrest, rfl⟩
  · rintro ⟨rest, hrest, rfl⟩
    exact .unmapped hkey hproject (leaves_iff.mpr hrest)

/-- The candidates in another project stand at two ranks. -/
theorem getElem?_externalCandidates {k : Nat} :
    (externalCandidates p i)[k]? = some path ↔ k < 2 ∧ LooksAt p r i (2 + k) path := by
  by_cases h : ∃ name old project,
      i.remapping = some ('@' :: name, old) ∧ p.config.KeepsIn name project
  · obtain ⟨name, old, project, hkey, hproject⟩ := h
    rw [externalCandidates_of_keepsIn hkey hproject]
    match k with
    | 0 =>
      rw [looksAt_project_iff hkey hproject]
      simp
    | 1 =>
      rw [looksAt_unmapped_iff hkey hproject, List.getElem?_cons_succ]
      cases (withoutKey? i.literal ('@' :: name)).map _ <;> simp
    | k + 2 => cases (withoutKey? i.literal ('@' :: name)).map _ <;> simp
  · rw [externalCandidates_eq_nil h]
    refine iff_of_false (by simp) fun ⟨hk, hlooks⟩ => ?_
    match k with
    | 0 => cases hlooks with
      | project hkey hproject => exact h ⟨_, _, _, hkey, hproject⟩
    | 1 => cases hlooks with
      | unmapped hkey hproject _ => exact h ⟨_, _, _, hkey, hproject⟩

/-- The places where an import is looked for without a repair. -/
theorem getElem?_places {k : Nat} :
    ((bases p).map (·.join ⟨i.value⟩) ++ externalCandidates p i)[k]? = some path ↔
      k < 4 ∧ LooksAt p r i k path := by
  match k with
  | 0 =>
    constructor
    · rintro h
      cases h
      exact ⟨by omega, .root⟩
    · rintro ⟨-, ⟨⟩⟩
      rfl
  | 1 =>
    constructor
    · rintro h
      cases h
      exact ⟨by omega, .contracts⟩
    · rintro ⟨-, ⟨⟩⟩
      rfl
  | k + 2 =>
    rw [List.getElem?_append_right (by simp [bases])]
    change (externalCandidates p i)[k]? = some path ↔ _
    rw [getElem?_externalCandidates (r := r), Nat.add_comm 2 k]
    exact and_congr_left fun _ => by omega

theorem findPath?_eq (hi : i.isRelative = false) :
    i.findPath? t p importing =
      ((bases p).map (·.join ⟨i.value⟩) ++ externalCandidates p i).find? t.isFile :=
  if_neg (by simp [hi])

/-- A repair looks for a file at the completed value. -/
theorem map_fst_repair? : (i.repair? t p r).map Prod.fst =
    (completed? r i.value).bind fun value =>
      ((bases p).map (·.join ⟨value⟩)).find? t.isFile := by
  unfold repair? completed?
  simp only [Option.bind_eq_bind, Option.map_bind, Option.bind_assoc, Function.comp_def]
  refine Option.bind_congr fun place _ => Option.bind_congr fun d _ => ?_
  split
  · rfl
  · simp

/-- What is found without a repair is the first file. -/
theorem firstFile_of_findPath? (hi : i.isRelative = false)
    (h : i.findPath? t p importing = some path) : FirstFile t p r i path := by
  rw [findPath?_eq hi] at h
  obtain ⟨hfile, k, hk, hpath, hbefore⟩ := List.find?_eq_some_iff_getElem.mp h
  obtain ⟨hrank, hlooks⟩ := (getElem?_places (r := r)).mp
    (List.getElem?_eq_some_iff.mpr ⟨hk, hpath⟩)
  refine ⟨k, hlooks, hfile, fun rank hlt path' hlooks' => ?_⟩
  obtain ⟨hk', rfl⟩ := List.getElem?_eq_some_iff.mp
    (getElem?_places.mpr ⟨Nat.lt_trans hlt hrank, hlooks'⟩)
  simpa using hbefore rank hlt

/-- If nothing is found without a repair, no file is at the places that are looked at for that. -/
theorem not_isFile_of_findPath? (hi : i.isRelative = false)
    (h : i.findPath? t p importing = none) {rank : Nat} (hrank : rank < 4)
    (hlooks : LooksAt p r i rank path) : t.isFile path = false := by
  rw [findPath?_eq hi, List.find?_eq_none] at h
  simpa using h path (List.mem_of_getElem? (getElem?_places.mpr ⟨hrank, hlooks⟩))

/-- If nothing is found without a repair, what a repair finds is the first file. -/
theorem firstFile_of_repair? (hi : i.isRelative = false) (hnone : i.findPath? t p importing = none)
    {c : Option Correction} (h : i.repair? t p r = some (path, c)) : FirstFile t p r i path := by
  have hfound : (i.repair? t p r).map Prod.fst = some path := by rw [h]; rfl
  rw [map_fst_repair?, Option.bind_eq_some_iff] at hfound
  obtain ⟨value, hvalue, hfound⟩ := hfound
  rw [completed?_eq_some_iff] at hvalue
  have hfile : t.isFile path = true := List.find?_some hfound
  by_cases hroot : t.isFile (p.rootPath.join ⟨value⟩) = true
  · obtain rfl : p.rootPath.join ⟨value⟩ = path := by simpa [bases, hroot] using hfound
    exact ⟨4, .completedRoot hvalue, hfile, fun rank hrank path' hlooks =>
      not_isFile_of_findPath? hi hnone hrank hlooks⟩
  · obtain ⟨-, rfl⟩ : _ ∧ p.contracts.join ⟨value⟩ = path := by simpa [bases, hroot] using hfound
    refine ⟨5, .completedContracts hvalue, hfile, fun rank hrank path' hlooks => ?_⟩
    by_cases hlast : rank = 4
    · subst hlast
      rw [hlooks.unique (.completedRoot hvalue)]
      simpa using hroot
    · exact not_isFile_of_findPath? hi hnone (by omega) hlooks

/-- If a repair finds nothing either, no file is at any of the places. -/
theorem not_isFile_of_repair? (hi : i.isRelative = false)
    (hnone : i.findPath? t p importing = none) (h : i.repair? t p r = none) {rank : Nat}
    (hlooks : LooksAt p r i rank path) : t.isFile path = false := by
  have hrepair : ∀ value, Completes r i.value value → ∀ base ∈ bases p,
      t.isFile (base.join ⟨value⟩) = false := fun value hvalue base hbase => by
    have hfound : (i.repair? t p r).map Prod.fst = none := by rw [h]; rfl
    rw [map_fst_repair?, completed?_eq_some_iff.mpr hvalue, Option.bind_some,
      List.find?_eq_none] at hfound
    simpa using hfound _ (List.mem_map_of_mem hbase)
  by_cases hrank : rank < 4
  · exact not_isFile_of_findPath? hi hnone hrank hlooks
  · cases hlooks with
    | completedRoot hvalue => exact hrepair _ hvalue _ List.mem_cons_self
    | completedContracts hvalue =>
      exact hrepair _ hvalue _ (List.mem_cons_of_mem _ List.mem_cons_self)
    | root | contracts | project | unmapped => omega

/-- The target of an expanded import is the first file, and there is none if no file is at any of
the places. -/
theorem target_findTarget (t : FileTree) (p : Project) (r : Registry) (importing : Path)
    (hi : i.isRelative = false) (htarget : i.target = none) :
    ((∀ rank path, LooksAt p r i rank path → t.isFile path = false) ∧
      (i.findTarget t p r importing).statement.target = none) ∨
    ∃ path, FirstFile t p r i path ∧ (i.findTarget t p r importing).statement.target =
      some ⟨SourceId.ofPath (t.resolve path) p.rootPath, t.resolve path⟩ := by
  unfold findTarget
  cases hpath : i.findPath? t p importing with
  | some path => exact .inr ⟨path, firstFile_of_findPath? hi hpath, rfl⟩
  | none =>
    cases hrepair : i.repair? t p r with
    | some found => exact .inr ⟨found.1, firstFile_of_repair? hi hpath hrepair, rfl⟩
    | none => exact .inl ⟨fun _ _ => not_isFile_of_repair? hi hpath hrepair, htarget⟩

/-- **An import that is not relative leads to the first file among its places**, under the path and
the id of that file, and stays unresolved exactly if there is none. Only a malformed statement is an
error. The table is read, and never written: a better value for a key is given back as a correction,
for the owner of the table. -/
theorem resolve_firstFile (t : FileTree) (p : Project) (r : Registry) (table : RemappingTable)
    (importing : Path) (raw : Text) :
    ((∃ e, Import.resolve t p r table importing raw = .error e) ↔ Malformed raw) ∧
    ∀ i, ofStatement importing raw = .ok i → i.isRelative = false →
      ∃ res, Import.resolve t p r table importing raw = .ok res ∧
        (res.statement.target = none ↔
          ∀ rank path, LooksAt p r (i.remap table) rank path → t.isFile path = false) ∧
        ∀ target, res.statement.target = some target ↔
          ∃ path l, FirstFile t p r (i.remap table) path ∧ t.find path = .ok l ∧
            target = ⟨SourceId.ofPath l.path p.rootPath, l.path⟩ := by
  refine ⟨⟨fun ⟨e, he⟩ => ?_, fun h => ⟨_, resolve_malformed h⟩⟩, fun i hi hrelative => ?_⟩
  · by_contra hnot
    obtain ⟨res, hres⟩ : ∃ res, Import.resolve t p r table importing raw = .ok res :=
      exists_resolve hnot
    rw [he] at hres
    cases hres
  · refine ⟨(i.remap table).findTarget t p r importing, ?_, ?_⟩
    · unfold Import.resolve
      rw [hi]
      rfl
    have hrelative' : (i.remap table).isRelative = false := (isRelative_remap i).trans hrelative
    have hnone : (i.remap table).target = none := (target_remap i).trans (ofStatement_ok hi).2.1
    rcases target_findTarget t p r importing hrelative' hnone with
      ⟨hnofile, htarget⟩ | ⟨path, hfirst, htarget⟩
    · rw [htarget]
      refine ⟨iff_of_true rfl hnofile, fun target => iff_of_false (by simp) ?_⟩
      rintro ⟨path, l, ⟨rank, hlooks, hfile, -⟩, -, -⟩
      rw [hnofile rank path hlooks] at hfile
      cases hfile
    · obtain ⟨rank, hlooks, hfile, -⟩ := id hfirst
      obtain ⟨l, -, hfind⟩ := FileTree.mem_entries_of_isFile hfile
      have hresolve : t.resolve path = l.path := by
        unfold FileTree.resolve
        rw [hfind]
      rw [htarget, hresolve]
      refine ⟨iff_of_false (by simp) fun hnofile => ?_, fun target => ?_⟩
      · rw [hnofile rank path hlooks] at hfile
        cases hfile
      · rw [Option.some.injEq]
        constructor
        · rintro rfl
          exact ⟨path, l, hfirst, hfind, rfl⟩
        · rintro ⟨path', l', hfirst', hfind', rfl⟩
          rw [hfirst'.unique hfirst, hfind] at hfind'
          cases hfind'
          rfl

/-- The dependency `d` of the project in the root directory lives in the project `x`. -/
def withKept : Project := ⟨[], ⟨[]⟩, ⟨[], [⟨['d'], none, some ⟨['x']⟩⟩]⟩⟩

/-- The other project has one file. -/
def keptTree : FileTree := FileTree.empty.place ⟨"/x/T".toList⟩ (some (.text []))

/-- An import of that file. -/
def keptImport : Import := ⟨'\'', '/', "@d/T".toList, none, none, none⟩

/-- The file is at the last place before a repair: in the project, at the literal without the
key. -/
theorem resolve_firstFile_kept :
    ofStatement ⟨"/A".toList⟩ "'@d/T'".toList = .ok keptImport ∧ keptImport.isRelative = false ∧
      ∃ res, Import.resolve keptTree withKept ⟨[], [], none⟩
          (.ofList [("@d".toList, ['q'])]) ⟨"/A".toList⟩ "'@d/T'".toList = .ok res ∧
        res.statement.target = some ⟨.ofText "x/T".toList, ⟨"/x/T".toList⟩⟩ := by
  have hi : ofStatement ⟨"/A".toList⟩ "'@d/T'".toList = .ok keptImport := by decide
  obtain ⟨res, hres, -, htarget⟩ := (resolve_firstFile keptTree withKept ⟨[], [], none⟩
    (.ofList [("@d".toList, ['q'])]) ⟨"/A".toList⟩ "'@d/T'".toList).2 keptImport hi rfl
  have hremap : keptImport.remap (.ofList [("@d".toList, ['q'])]) =
      keptImport.withEntry ("@d".toList, ['q']) := by cbv
  rw [hremap] at htarget
  have hkey : (keptImport.withEntry ("@d".toList, ['q'])).remapping =
      some ('@' :: ['d'], ['q']) := rfl
  have hproject : withKept.config.KeepsIn ['d'] ⟨['x']⟩ :=
    ⟨[], _, [], rfl, fun _ h => absurd h List.not_mem_nil, rfl, rfl⟩
  have hrest : Leaves (keptImport.withEntry ("@d".toList, ['q'])).literal ('@' :: ['d']) ['T'] := by
    refine ⟨['/'], rfl, fun c hc => .inl (List.mem_singleton.mp hc), fun c hc => ?_⟩
    cases hc
    unfold IsSeparator
    decide
  refine ⟨hi, rfl, res, hres, (htarget _).mpr
    ⟨⟨"/x/T".toList⟩, [⟨['x'], by decide⟩, ⟨['T'], by decide⟩], ⟨3, .unmapped hkey hproject hrest,
      by cbv, fun rank hrank path hlooks => ?_⟩, by cbv, rfl⟩⟩
  obtain rfl | rfl | rfl : rank = 0 ∨ rank = 1 ∨ rank = 2 := by omega
  · rw [hlooks.unique .root]
    cbv
  · rw [hlooks.unique .contracts]
    cbv
  · rw [hlooks.unique (.project hkey hproject)]
    cbv

end Import

end SolPlan
