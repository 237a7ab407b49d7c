import SolPlan.FileTree

/-!
# Changing a file tree

Every change is a sequence of two steps: `put` writes an entry into a directory, and `prune` takes
locations out together with everything below them. Both keep every entry in a directory.

* `makeDirectory` and `makeDirectories` create one directory, and one with all that are missing
  above it (`create_dir_all`). The latter may fail after it has created some of them.
* `writeFile` and `copyFile` replace what a file holds; a directory is never overwritten.
* `discard` (`remove_dir_all`) removes a directory with all it holds. It leaves a file alone, and of
  a directory that is spelled with a last `.` or `..` it removes only what it holds.
-/

namespace SolPlan

namespace FileTree

/-- Write an entry into a directory. It replaces a file, and nothing else. -/
def put (t : FileTree) (l : Location) (e : Entry) : FileTree :=
  if h : l ≠ [] ∧ t.entry? l.dropLast = some .directory ∧ t.entry? l ≠ some .directory then
    { entries := t.entries.insert l e
      root_not_mem := by
        rw [Std.ExtTreeMap.mem_insert]
        rintro (hc | hm)
        · exact h.1 (Std.LawfulEqOrd.eq_of_compare hc)
        · exact t.root_not_mem hm
      closed := by
        intro l' n hm
        rw [Std.ExtTreeMap.mem_insert] at hm
        have hp : l' = [] ∨ t.entries[l']? = some .directory := by
          rcases hm with hc | hm
          · have hl : l = l' ++ [n] := Std.LawfulEqOrd.eq_of_compare hc
            have := h.2.1
            rw [hl, List.dropLast_concat] at this
            cases l' with
            | nil => exact .inl rfl
            | cons a l' => exact .inr this
          · exact t.closed l' n hm
        refine hp.imp_right fun hd => ?_
        rw [Std.ExtTreeMap.getElem?_insert]
        split
        · rename_i hc
          have hl : l = l' := Std.LawfulEqOrd.eq_of_compare hc
          refine absurd ?_ h.2.2
          subst hl
          cases l with
          | nil => rfl
          | cons a l => exact hd
        · exact hd }
  else t

/-- Take out locations, and with each everything below it. -/
def prune (t : FileTree) (gone : Location → Bool)
    (down : ∀ l n, gone l = true → gone (l ++ [n]) = true) : FileTree where
  entries := t.entries.filter fun l _ => !gone l
  root_not_mem hm := t.root_not_mem (Std.ExtTreeMap.mem_of_mem_filter hm)
  closed := by
    intro l n hm
    have hk := hm
    rw [← Std.ExtTreeMap.isSome_getElem?_iff_mem, Std.ExtTreeMap.getElem?_filter'] at hk
    obtain ⟨e, he⟩ := Option.isSome_iff_exists.mp hk
    rw [Option.filter_eq_some_iff] at he
    refine (t.closed l n (Std.ExtTreeMap.mem_of_mem_filter hm)).imp_right fun hd => ?_
    rw [Std.ExtTreeMap.getElem?_filter', hd, Option.filter_eq_some_iff]
    refine ⟨rfl, ?_⟩
    cases hg : gone l with
    | false => rfl
    | true => simp [down l n hg] at he

theorem below?_append {top l : Location} {names : Location} (h : below? top l = some names)
    (n : FileName) : below? top (l ++ [n]) = some (names ++ [n]) := by
  induction top generalizing l with
  | nil => simpa [below?] using h
  | cons a top ih =>
    cases l with
    | nil => cases h
    | cons b l =>
      simp only [below?, List.cons_append] at h ⊢
      split at h
      · rename_i hab
        rw [if_pos hab]
        exact ih h
      · cases h

/-- The tree without a location and everything below it. -/
def remove (t : FileTree) (top : Location) : FileTree :=
  t.prune (fun l => (below? top l).isSome) fun l n h => by
    obtain ⟨names, h⟩ := Option.isSome_iff_exists.mp h
    rw [below?_append h]
    rfl

/-- The tree without what stands below a location. -/
def clear (t : FileTree) (top : Location) : FileTree :=
  t.prune (fun l => (below? top l).any (· ≠ [])) fun l n h => by
    cases hb : below? top l with
    | none => simp [hb] at h
    | some names => simp [below?_append hb]

/-! ## Changes by path -/

/-- The pieces of a path without empty ones at the end: the last, and those before it. -/
def lastPiece (pieces : List Text) : Option (Text × List Text) :=
  match pieces.reverse.dropWhile (· == []) with
  | [] => none
  | last :: before => some (last, before.reverse)

/-- The directory and the name that a new entry at a path gets. -/
def slot (t : FileTree) (p : Path) (special : FileFault) :
    Except FileFault (Location × FileName) :=
  if p.text.any (fun c => c.toNat == 0) then .error .nullInName
  else
    match p.split with
    | (.root, pieces) =>
      match lastPiece pieces with
      | none => .error special
      | some (last, before) => do
        let directory ← t.follow [] before
        if t.entry? directory ≠ some .directory then throw .notADirectory
        if Path.isVoid last ∨ last = ['.', '.'] then throw special
        match FileName.ofText? last with
        | none => throw .nameTooLong
        | some name => return (directory, name)
    | _ => .error .notFound

/-- Create one directory. -/
def makeDirectory (t : FileTree) (p : Path) : Except FileFault FileTree := do
  let (directory, name) ← t.slot p .exists
  if (t.entry? (directory ++ [name])).isSome then throw .exists
  return t.put (directory ++ [name]) .directory

/-- Create the first of a list of directories, and those that follow it if they are missing. -/
def makeFirst (t : FileTree) : List Path → FileTree × Except FileFault Unit
  | [] => (t, .ok ())
  | p :: above =>
    if p.text = [] then (t, .ok ())
    else
      match t.makeDirectory p with
      | .ok t => (t, .ok ())
      | .error .notFound =>
        match t.makeFirst above with
        | (t, .error fault) => (t, .error fault)
        | (t, .ok ()) =>
          match t.makeDirectory p with
          | .ok t => (t, .ok ())
          | .error fault => (t, if t.isDirectory p then .ok () else .error fault)
      | .error fault => (t, if t.isDirectory p then .ok () else .error fault)

/-- Create a directory and all that are missing above it. -/
def makeDirectories (t : FileTree) (p : Path) : FileTree × Except FileFault Unit :=
  t.makeFirst (p :: p.above)

/-- Let a file hold a content. -/
def writeFile (t : FileTree) (p : Path) (content : Content) : Except FileFault FileTree := do
  let (directory, name) ← t.slot p .isADirectory
  if t.entry? (directory ++ [name]) = some .directory then throw .isADirectory
  return t.put (directory ++ [name]) (.file content)

/-- What the file at a location holds. -/
def contentAt (t : FileTree) (l : Location) : Content :=
  match t.entry? l with
  | some (.file content) => content
  | _ => .text []

/-- Let a file hold what another holds. The file is emptied first. -/
def copyFile (t : FileTree) (source : Location) (p : Path) : Except FileFault FileTree := do
  let t ← t.writeFile p (.text [])
  t.writeFile p (t.contentAt source)

/-- Does the path end in a `.` or `..`? -/
def endsInDots (p : Path) : Bool :=
  match lastPiece p.split.2 with
  | some (last, _) => last == ['.'] || last == ['.', '.']
  | none => true

/-- Remove the directory that a path leads to, with all it holds. -/
def discard (t : FileTree) (p : Path) : FileTree :=
  match t.find p with
  | .error _ => t
  | .ok l =>
    if t.entry? l ≠ some .directory then t
    else if endsInDots p then t.clear l
    else t.remove l

/-- Remove what a path leads to, a file or a directory with all it holds. -/
def removePath (t : FileTree) (p : Path) : FileTree :=
  match t.find p with
  | .error _ => t
  | .ok l => t.remove l

/-- Write a file, or a directory without content, and create the directories above it. What
stands in the way stays. -/
def place (t : FileTree) (p : Path) : Option Content → FileTree
  | none => (t.makeDirectories p).1
  | some content =>
    let t := match p.parent? with
      | some folder => (t.makeDirectories folder).1
      | none => t
    match t.writeFile p content with
    | .ok t => t
    | .error _ => t

end FileTree

end SolPlan
