import Mathlib.Data.List.TakeWhile
import SolPlan.FileTree.Edit
import SolPlan.Proofs.FileTree.Way

/-!
# What changes leave of files

Of a tree only the files matter here: where they are and what they hold (`FileAt`). Places are
given by texts, since a path says where it leads by its text alone. So each change has one effect on
files, whatever directories it finds or creates.

Results:
* `sameFiles_makeDirectories`: creating directories leaves all files alone;
* `writes_writeFile`, `writes_copyFile`: a file that is written is the only one that changes;
* `fileAt_discard`: discarding takes away what is below a place, and nothing else;
* `mem_filesBelow`, `holdsFiles_iff`: which files are found below a path.
-/

namespace SolPlan

open SolPlan.Path (upPiece IsName)

namespace FileTree

variable {t t' : FileTree} {l : Location} {p : Path} {place names : List Text}
  {content content' : Content}

/-- A file stands at a place, and this is what it holds. -/
def FileAt (t : FileTree) (place : List Text) (content : Content) : Prop :=
  ∃ l : Location, l.texts = place ∧ t.entry? l = some (.file content)

theorem fileAt_texts : t.FileAt l.texts content ↔ t.entry? l = some (.file content) := by
  constructor
  · rintro ⟨l', hl, h⟩
    rwa [← Location.texts_inj hl]
  · exact fun h => ⟨l, rfl, h⟩

theorem FileAt.unique (h : t.FileAt place content) (h' : t.FileAt place content') :
    content = content' := by
  obtain ⟨l, rfl, hl⟩ := h
  rw [fileAt_texts, hl] at h'
  cases h'
  rfl

/-! ## Files below a place -/

theorem below?_eq_some_iff {top l names : Location} :
    below? top l = some names ↔ l = top ++ names := by
  induction top generalizing l with
  | nil =>
    rw [below?, Option.some.injEq, List.nil_append]
  | cons n top ih =>
    cases l with
    | nil => simp [below?]
    | cons m l =>
      by_cases h : n = m
      · subst h
        simp [below?, ih]
      · simp [below?, h, Ne.symm h]

/-- The entry is a file below a location. -/
def isFileBelow (top l : Location) (e : Entry) : Bool :=
  e.isFile && (below? top l).any (· ≠ [])

theorem filesBelow_eq (t : FileTree) (top : Location) :
    t.filesBelow top =
      (t.entries.filter (isFileBelow top)).toList.filterMap fun entry => below? top entry.1 := by
  unfold filesBelow below isFileBelow
  rw [Std.ExtTreeMap.toList_filter, List.filterMap_filterMap, List.filterMap_filter]
  congr 1
  funext ⟨l, e⟩
  dsimp only
  cases below? top l with
  | none => simp
  | some names => cases names <;> cases e <;> rfl

/-- No file is listed twice. -/
theorem nodup_filesBelow (t : FileTree) (top : Location) : (t.filesBelow top).Nodup := by
  rw [filesBelow_eq]
  have hkeys := Std.ExtTreeMap.distinct_keys_toList (t := t.entries.filter (isFileBelow top))
  refine hkeys.filterMap _ ?_
  rintro a b hab names ha names' hb rfl
  refine hab (Std.LawfulEqCmp.compare_eq_iff_eq.mpr ?_)
  rw [below?_eq_some_iff.mp ha, below?_eq_some_iff.mp hb]

theorem getElem?_filter_isFileBelow {top l : Location} {e : Entry} :
    (t.entries.filter (isFileBelow top))[l]? = some e ↔
      ∃ names : Location, names ≠ [] ∧ l = top ++ names ∧
        ∃ content, e = .file content ∧ t.FileAt (top.texts ++ names.texts) content := by
  rw [Std.ExtTreeMap.getElem?_filter', Option.filter_eq_some_iff, isFileBelow, Bool.and_eq_true,
    Option.any_eq_true]
  constructor
  · rintro ⟨hl, hfile, names, hnames, hne⟩
    obtain rfl := below?_eq_some_iff.mp hnames
    have hne : names ≠ [] := of_decide_eq_true hne
    refine ⟨names, hne, rfl, ?_⟩
    cases e with
    | directory => cases hfile
    | file content =>
      refine ⟨content, rfl, ?_⟩
      rw [← Location.texts_append, fileAt_texts,
        entry?_eq_getElem? (List.append_ne_nil_of_right_ne_nil top hne)]
      exact hl
  · rintro ⟨names, hne, rfl, content, rfl, hfile⟩
    rw [← Location.texts_append, fileAt_texts,
      entry?_eq_getElem? (List.append_ne_nil_of_right_ne_nil top hne)] at hfile
    exact ⟨hfile, rfl, names, below?_eq_some_iff.mpr rfl, decide_eq_true hne⟩

theorem mem_filesBelow {top names : Location} :
    names ∈ t.filesBelow top ↔
      names ≠ [] ∧ ∃ content, t.FileAt (top.texts ++ names.texts) content := by
  rw [filesBelow_eq, List.mem_filterMap]
  simp only [Prod.exists, Std.ExtTreeMap.mem_toList_iff_getElem?_eq_some,
    getElem?_filter_isFileBelow]
  constructor
  · rintro ⟨l, e, ⟨found, hne, rfl, content, -, hfile⟩, hnames⟩
    obtain rfl := List.append_cancel_left (below?_eq_some_iff.mp hnames)
    exact ⟨hne, content, hfile⟩
  · rintro ⟨hne, content, hfile⟩
    exact ⟨top ++ names, .file content, ⟨names, hne, rfl, content, rfl, hfile⟩,
      below?_eq_some_iff.mpr rfl⟩

theorem exists_mem_filesBelow {top : Location} :
    (∃ file ∈ t.filesBelow top, file.texts = names) ↔
      names ≠ [] ∧ ∃ content, t.FileAt (top.texts ++ names) content := by
  constructor
  · rintro ⟨file, hfile, rfl⟩
    obtain ⟨hne, hcontent⟩ := mem_filesBelow.mp hfile
    exact ⟨fun hnil => hne (List.map_eq_nil_iff.mp hnil), hcontent⟩
  · rintro ⟨hne, content, hfile⟩
    have ⟨l, hl, _⟩ := hfile
    obtain ⟨-, file, -, -, rfl⟩ := Location.exists_of_texts_eq_append hl
    have hfound : file ≠ [] := fun hnil => hne (hnil ▸ rfl)
    exact ⟨file, mem_filesBelow.mpr ⟨hfound, content, hfile⟩, rfl⟩

/-- The files below a location are listed alike where they are the same. -/
theorem filesBelow_congr {top : Location}
    (h : ∀ names content, t'.FileAt (top.texts ++ names) content ↔
      t.FileAt (top.texts ++ names) content) : t'.filesBelow top = t.filesBelow top := by
  have hentries : t'.entries.filter (isFileBelow top) = t.entries.filter (isFileBelow top) := by
    refine Std.ExtTreeMap.ext_getElem? fun l => Option.ext fun e => ?_
    rw [getElem?_filter_isFileBelow, getElem?_filter_isFileBelow]
    simp only [h]
  rw [filesBelow_eq, filesBelow_eq, hentries]

/-- A path that goes down leads to the directory that holds a file. -/
theorem find_of_fileAt (hp : p.Descends place) (hne : names ≠ [])
    (h : t.FileAt (place ++ names) content) :
    ∃ l, l.texts = place ∧ t.entry? l = some .directory ∧ t.find p = .ok l := by
  obtain ⟨l, hl, he⟩ := h
  obtain ⟨top, below, rfl, rfl, rfl⟩ := Location.exists_of_texts_eq_append hl
  have hdirectory : t.entry? top = some .directory :=
    entry?_of_append (m := below) (by rw [he]; rfl) fun hnil => hne (by rw [hnil]; rfl)
  exact ⟨top, rfl, hdirectory, find_of_descends hp hdirectory⟩

/-- What a folder holds stands below its place. -/
theorem exists_fileAt_of_holdsFiles (h : t.holdsFiles p = true) :
    ∃ names content, names ≠ [] ∧ t.FileAt (p.place ++ names) content := by
  unfold holdsFiles at h
  split at h
  · rename_i l hfind
    obtain ⟨file, hfile⟩ := List.exists_mem_of_ne_nil _ (of_decide_eq_true h)
    obtain ⟨hne, content, hfile⟩ := exists_mem_filesBelow.mp ⟨file, hfile, rfl⟩
    exact ⟨file.texts, content, hne, texts_of_find hfind ▸ hfile⟩
  · cases h

/-- **What a folder holds** is what stands below its place, if the path goes down. -/
theorem holdsFiles_iff (hp : p.Descends place) :
    t.holdsFiles p = true ↔ ∃ names content, names ≠ [] ∧ t.FileAt (place ++ names) content := by
  refine ⟨fun h => hp.place_eq ▸ exists_fileAt_of_holdsFiles h, ?_⟩
  rintro ⟨names, content, hne, hfile⟩
  obtain ⟨l, rfl, -, hfind⟩ := find_of_fileAt hp hne hfile
  obtain ⟨file, hmem, -⟩ := exists_mem_filesBelow.mpr ⟨hne, content, hfile⟩
  unfold holdsFiles
  rw [hfind]
  exact decide_eq_true (List.ne_nil_of_mem hmem)

/-! ## Creating directories -/

theorem entry?_put {l' : Location} {e : Entry} (hl : l ≠ [])
    (hfolder : t.entry? l.dropLast = some .directory) (hfree : t.entry? l ≠ some .directory) :
    entry? (t.put l e) l' = if l' = l then some e else t.entry? l' := by
  unfold put
  rw [dif_pos ⟨hl, hfolder, hfree⟩]
  cases l' with
  | nil => rw [if_neg (Ne.symm hl)]; rfl
  | cons n l' =>
    change (t.entries.insert l e)[n :: l']? = if n :: l' = l then some e else t.entries[n :: l']?
    rw [Std.ExtTreeMap.getElem?_insert]
    by_cases h : n :: l' = l
    · rw [if_pos h, if_pos (Std.LawfulEqCmp.compare_eq_iff_eq.mpr h.symm)]
    · rw [if_neg h, if_neg fun hc => h (Std.LawfulEqCmp.compare_eq_iff_eq.mp hc).symm]

/-- The last piece, and those before it. Only empty ones follow it. -/
theorem lastPiece_spec {pieces before : List Text} {last : Text}
    (h : lastPiece pieces = some (last, before)) :
    last ≠ [] ∧ ∃ n, pieces = before ++ last :: List.replicate n [] := by
  unfold lastPiece at h
  split at h
  · cases h
  · rename_i found rest hdrop
    cases h
    have hsplit := List.takeWhile_append_dropWhile (p := (· == [])) (l := pieces.reverse)
    have hempty : ∀ s ∈ pieces.reverse.takeWhile (· == []), s = [] := fun s hs =>
      beq_iff_eq.mp (List.mem_takeWhile_imp (p := (· == [])) hs)
    have hne := List.head_dropWhile_not (p := (· == [])) (l := pieces.reverse) (by rw [hdrop]; simp)
    simp only [hdrop, List.head_cons, beq_eq_false_iff_ne] at hne
    rw [hdrop] at hsplit
    generalize pieces.reverse.takeWhile (· == []) = ends at hsplit hempty
    refine ⟨hne, ends.length, ?_⟩
    rw [← List.reverse_reverse pieces, ← hsplit, List.eq_replicate_iff.mpr ⟨rfl, hempty⟩]
    simp

theorem text_of_ofText? {text : Text} {name : FileName} (h : FileName.ofText? text = some name) :
    name.text = text := by
  unfold FileName.ofText? at h
  split at h
  · cases h
    rfl
  · cases h

/-- A slot is a name in a directory: what the path writes last, and what the rest leads to. -/
theorem slot_spec {special : FileFault} {folder : Location} {name : FileName}
    (h : t.slot p special = .ok (folder, name)) :
    ∃ pieces before, p.split = (.root, pieces) ∧ lastPiece pieces = some (name.text, before) ∧
      t.follow [] before = .ok folder ∧ t.entry? folder = some .directory := by
  unfold slot at h
  split at h
  · cases h
  · split at h
    · rename_i pieces hsplit
      split at h
      · cases h
      · rename_i last before hlast
        cases hfollow : t.follow [] before with
        | error fault => rw [hfollow] at h; cases h
        | ok directory =>
          simp only [hfollow, bind, Except.bind, throw, throwThe, MonadExceptOf.throw, pure,
            Except.pure] at h
          split at h
          · cases h
          · rename_i hdirectory
            split at h
            · cases h
            · split at h
              · cases h
              · rename_i found hname
                cases h
                rw [← text_of_ofText? hname] at hlast
                exact ⟨pieces, before, hsplit, hlast, hfollow, Decidable.not_not.mp hdirectory⟩
    · cases h

/-- A new entry gets its place from the path. -/
theorem texts_of_slot {special : FileFault} {folder : Location} {name : FileName}
    (h : t.slot p special = .ok (folder, name)) : (folder ++ [name]).texts = p.place := by
  obtain ⟨pieces, before, hsplit, hlast, hfollow, -⟩ := slot_spec h
  obtain ⟨-, n, hpieces⟩ := lastPiece_spec hlast
  have hwritten : p.written = (before ++ [name.text]).filter fun s => !Path.isVoid s := by
    unfold Path.written
    rw [Path.splitOn_of_split hsplit, hpieces]
    simp [Path.isVoid, List.filter_cons]
  refine (filter_steps_of_spells ?_).symm
  rw [Path.reverse_steps_eq, hwritten, Path.resolvePieces_filter, Path.resolvePieces_append,
    Path.resolvePieces_name name.isName, Location.texts_append, List.reverse_append]
  exact (follow_spells hfollow (Or.inl rfl)).imp (congrArg (name.text :: ·))
    (congrArg (name.text :: ·))

/-- A new entry in a slot is the only one that changes. -/
theorem entry?_put_slot {special : FileFault} {folder : Location} {name : FileName} {e : Entry}
    (h : t.slot p special = .ok (folder, name))
    (hfree : t.entry? (folder ++ [name]) ≠ some .directory) (l : Location) :
    entry? (t.put (folder ++ [name]) e) l =
      if l = folder ++ [name] then some e else t.entry? l := by
  obtain ⟨-, -, -, -, -, hfolder⟩ := slot_spec h
  exact entry?_put (by simp) (by rw [List.dropLast_concat]; exact hfolder) hfree

/-- Two trees have the same files. -/
def SameFiles (t t' : FileTree) : Prop :=
  ∀ place content, t'.FileAt place content ↔ t.FileAt place content

theorem SameFiles.refl (t : FileTree) : SameFiles t t := fun _ _ => Iff.rfl

theorem SameFiles.trans {t'' : FileTree} (h : SameFiles t t') (h' : SameFiles t' t'') :
    SameFiles t t'' :=
  fun place content => (h' place content).trans (h place content)

/-- A directory is created in a slot where nothing was. -/
theorem slot_of_makeDirectory (h : t.makeDirectory p = .ok t') :
    ∃ folder name, t.slot p .exists = .ok (folder, name) ∧ t.entry? (folder ++ [name]) = none ∧
      ∀ l, t'.entry? l = if l = folder ++ [name] then some .directory else t.entry? l := by
  unfold makeDirectory at h
  cases hslot : t.slot p .exists with
  | error fault => rw [hslot] at h; cases h
  | ok found =>
    obtain ⟨folder, name⟩ := found
    simp only [hslot, bind, Except.bind, throw, throwThe, MonadExceptOf.throw, pure,
      Except.pure] at h
    split at h
    · cases h
    · rename_i hfree
      cases h
      have hfree : t.entry? (folder ++ [name]) = none := by simpa using hfree
      exact ⟨folder, name, rfl, hfree, entry?_put_slot hslot (by rw [hfree]; simp)⟩

theorem entry?_makeDirectory (h : t.makeDirectory p = .ok t') :
    ∃ l : Location, l.texts = p.place ∧ t.entry? l = none ∧
      ∀ l', t'.entry? l' = if l' = l then some .directory else t.entry? l' := by
  obtain ⟨folder, name, hslot, hfree, hentry⟩ := slot_of_makeDirectory h
  exact ⟨folder ++ [name], texts_of_slot hslot, hfree, hentry⟩

/-- A directory that is created is no file, and there was none in its place. -/
theorem sameFiles_makeDirectory (h : t.makeDirectory p = .ok t') : SameFiles t t' := by
  obtain ⟨new, -, hfree, hentry⟩ := entry?_makeDirectory h
  rintro place content
  constructor
  · rintro ⟨l, rfl, hl⟩
    rw [hentry] at hl
    split at hl
    · cases hl
    · exact ⟨l, rfl, hl⟩
  · rintro ⟨l, rfl, hl⟩
    refine ⟨l, rfl, ?_⟩
    rw [hentry, if_neg, hl]
    rintro rfl
    rw [hfree] at hl
    cases hl

theorem sameFiles_makeFirst (paths : List Path) (t : FileTree) :
    SameFiles t (t.makeFirst paths).1 := by
  induction paths generalizing t with
  | nil => exact SameFiles.refl t
  | cons p above ih =>
    unfold makeFirst
    split
    · exact SameFiles.refl t
    · split
      · exact sameFiles_makeDirectory ‹_›
      · have habove := ih t
        split
        · rename_i t₁ fault hfirst
          rw [hfirst] at habove
          exact habove
        · rename_i t₁ hfirst
          rw [hfirst] at habove
          split
          · exact habove.trans (sameFiles_makeDirectory ‹_›)
          · exact habove
      · exact SameFiles.refl t

/-- **Creating directories leaves all files alone**, also if it fails. -/
theorem sameFiles_makeDirectories (t : FileTree) (p : Path) :
    SameFiles t (t.makeDirectories p).1 :=
  sameFiles_makeFirst _ t

/-! ## Writing files -/

/-- The file at a place gets this content, and no other file changes. -/
def Writes (t : FileTree) (place : List Text) (content : Content) (t' : FileTree) : Prop :=
  ∀ q content', t'.FileAt q content' ↔
    (q = place ∧ content' = content) ∨ (q ≠ place ∧ t.FileAt q content')

theorem Writes.here {content' : Content} (h : t.Writes place content t') :
    t'.FileAt place content' ↔ content' = content := by
  rw [h]
  simp

theorem Writes.elsewhere {q : List Text} {content' : Content} (h : t.Writes place content t')
    (hq : q ≠ place) : t'.FileAt q content' ↔ t.FileAt q content' := by
  rw [h]
  simp [hq]

/-- A file is written where no directory is. -/
theorem entry?_writeFile (h : t.writeFile p content = .ok t') :
    ∃ l : Location, l.texts = p.place ∧ t.entry? l ≠ some .directory ∧
      ∀ l', t'.entry? l' = if l' = l then some (.file content) else t.entry? l' := by
  unfold writeFile at h
  cases hslot : t.slot p .isADirectory with
  | error fault => rw [hslot] at h; cases h
  | ok found =>
    obtain ⟨folder, name⟩ := found
    simp only [hslot, bind, Except.bind, throw, throwThe, MonadExceptOf.throw, pure,
      Except.pure] at h
    split at h
    · cases h
    · rename_i hfree
      cases h
      exact ⟨folder ++ [name], texts_of_slot hslot, hfree, entry?_put_slot hslot hfree⟩

/-- **A file that is written** holds what was written, and no other file has changed. -/
theorem writes_writeFile (h : t.writeFile p content = .ok t') :
    t.Writes p.place content t' := fun q content' => by
  obtain ⟨new, hnew, -, hentry⟩ := entry?_writeFile h
  rw [← hnew]
  constructor
  · rintro ⟨l, rfl, hl⟩
    rw [hentry] at hl
    split at hl
    · rename_i hhere
      cases hl
      exact Or.inl ⟨congrArg Location.texts hhere, rfl⟩
    · rename_i hother
      exact Or.inr ⟨fun he => hother (Location.texts_inj he), l, rfl, hl⟩
  · rintro (⟨rfl, rfl⟩ | ⟨hother, l, rfl, hl⟩)
    · exact ⟨_, rfl, by rw [hentry, if_pos rfl]⟩
    · refine ⟨l, rfl, ?_⟩
      rw [hentry, if_neg, hl]
      rintro rfl
      exact hother rfl

/-- **A copy** of a file that stands elsewhere holds the same, and no other file has changed. -/
theorem writes_copyFile {source : Location} (h : t.copyFile source p = .ok t')
    (hsource : t.FileAt source.texts content) (helsewhere : source.texts ≠ p.place) :
    t.Writes p.place content t' := fun q content' => by
  unfold copyFile at h
  cases hempty : t.writeFile p (.text []) with
  | error fault => rw [hempty] at h; cases h
  | ok t₁ =>
    rw [hempty] at h
    have h : t₁.writeFile p (t₁.contentAt source) = .ok t' := h
    have hfirst := writes_writeFile hempty
    have hkept : t₁.FileAt source.texts content := (hfirst.elsewhere helsewhere).mpr hsource
    have hcontent : t₁.contentAt source = content := by
      unfold contentAt
      rw [fileAt_texts.mp hkept]
    rw [hcontent] at h
    rw [writes_writeFile h]
    exact or_congr_right (and_congr_right fun hq => hfirst.elsewhere hq)

/-! ## Discarding -/

theorem entry?_prune {gone : Location → Bool}
    {down : ∀ l n, gone l = true → gone (l ++ [n]) = true} (hl : l ≠ []) :
    entry? (t.prune gone down) l = if gone l = true then none else t.entry? l := by
  rw [entry?_eq_getElem? hl, entry?_eq_getElem? hl]
  change (t.entries.filter fun l _ => !gone l)[l]? = _
  rw [Std.ExtTreeMap.getElem?_filter']
  cases gone l with
  | false =>
    cases t.entries[l]? <;> rfl
  | true =>
    cases t.entries[l]? <;> rfl

/-- A path that ends in a name ends in no dots. -/
theorem endsInDots_join_name {s : Text} (hp : p.isAbsolute = true) (hs : IsName s) :
    endsInDots (p.join ⟨s⟩) = false := by
  obtain ⟨hrelative, -⟩ := Path.written_name hs
  obtain ⟨pieces, hsplit⟩ := Path.split_of_isAbsolute (Path.isAbsolute_join hp ⟨s⟩)
  obtain ⟨front, hfront, -⟩ := Path.splitOn_join p hrelative
  have hsingle : (List.intercalate ['/'] [s]).splitOn '/' = [s] :=
    List.splitOn_intercalate _ (fun s' hs' => List.mem_singleton.mp hs' ▸ hs.no_slash) (by simp)
  rw [List.intercalate_singleton] at hsingle
  rw [Path.splitOn_of_split hsplit, hsingle] at hfront
  obtain ⟨before, rfl⟩ : ∃ before, pieces = before ++ [s] := by
    cases front with
    | nil =>
      have hnil : s = [] := (List.cons.inj hfront).1.symm
      rw [hnil] at hs
      exact absurd hs.not_void (by decide)
    | cons piece front => exact ⟨front, (List.cons.inj hfront).2⟩
  have hne : s ≠ [] := fun hnil => absurd hs.not_void (by rw [hnil]; decide)
  have hhere : s ≠ ['.'] := fun hhere => absurd hs.not_void (by rw [hhere]; decide)
  have hup : s ≠ ['.', '.'] := hs.not_up
  have hlast : lastPiece (before ++ [s]) = some (s, before) := by
    unfold lastPiece
    simp [hne]
  unfold endsInDots
  rw [hsplit, hlast]
  simp [hhere, hup]

theorem fileAt_remove (hl : t.entry? l = some .directory) (place : List Text) (content : Content) :
    (t.remove l).FileAt place content ↔
      (∀ names, names ≠ [] → place ≠ l.texts ++ names) ∧ t.FileAt place content := by
  have hroot : ∀ {t : FileTree}, t.entry? [] ≠ some (.file content) := nofun
  constructor
  · rintro ⟨l', rfl, hl'⟩
    have hne : l' ≠ [] := fun hnil => hroot (hnil ▸ hl')
    unfold remove at hl'
    rw [entry?_prune hne] at hl'
    split at hl'
    · cases hl'
    · rename_i hgone
      refine ⟨fun names _ hnames => hgone ?_, l', rfl, hl'⟩
      obtain ⟨top, below, rfl, htop, -⟩ := Location.exists_of_texts_eq_append hnames
      rw [Location.texts_inj htop, below?_eq_some_iff.mpr rfl]
      rfl
  · rintro ⟨houtside, l', rfl, hl'⟩
    have hne : l' ≠ [] := fun hnil => hroot (hnil ▸ hl')
    refine ⟨l', rfl, ?_⟩
    unfold remove
    rw [entry?_prune hne, if_neg, hl']
    intro hgone
    obtain ⟨names, hnames⟩ := Option.isSome_iff_exists.mp hgone
    obtain rfl := below?_eq_some_iff.mp hnames
    cases names with
    | nil =>
      rw [List.append_nil, hl] at hl'
      cases hl'
    | cons n names =>
      exact houtside (Location.texts (n :: names)) (by simp [Location.texts])
        (Location.texts_append _ _)

/-- **Discarding a folder** takes away the files below it, and no others. -/
theorem fileAt_discard {folder : List Text} (hp : p.Descends folder) (hdots : endsInDots p = false)
    (place : List Text) (content : Content) :
    (t.discard p).FileAt place content ↔
      (∀ names, names ≠ [] → place ≠ folder ++ names) ∧ t.FileAt place content := by
  -- Files below the folder show that the path leads to a directory.
  have hkept : (∀ l, t.find p = .ok l → t.entry? l ≠ some .directory) →
      (t.FileAt place content ↔
        (∀ names, names ≠ [] → place ≠ folder ++ names) ∧ t.FileAt place content) := fun hnone => by
    refine ⟨fun h => ⟨fun names hne hplace => ?_, h⟩, And.right⟩
    obtain ⟨l, -, hdirectory, hfind⟩ := find_of_fileAt hp hne (hplace ▸ h)
    exact hnone l hfind hdirectory
  unfold discard
  cases hfind : t.find p with
  | error fault => exact hkept fun l hl => by rw [hfind] at hl; cases hl
  | ok l =>
    dsimp only
    by_cases hdirectory : t.entry? l = some .directory
    · rw [if_neg (by simp [hdirectory]), hdots, if_neg Bool.false_ne_true, fileAt_remove hdirectory,
        texts_of_find hfind, hp.place_eq]
    · rw [if_pos hdirectory]
      refine hkept fun l' hl' => ?_
      rw [hfind] at hl'
      cases hl'
      exact hdirectory

end FileTree

end SolPlan
