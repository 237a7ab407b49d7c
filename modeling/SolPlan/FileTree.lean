import Std.Data.ExtTreeMap
import SolPlan.Error

/-!
# File trees

A file tree says what stands at each **location**, the list of names from the root down. Every entry
stands in a directory (`closed`), and the root is always there. Locations are ordered by their
names from the left, so the entries of a directory follow it, and come sorted by name.

A path is looked up piece by piece, as written (`find`): whatever is not the last piece must be a
directory, also before `.` and `..`, and what a `..` leaves must exist. Above the root is the
root.

Left out:
* symbolic links, and faults that come from permissions: what stands at a location can be read, and
  written to if it is a file;
* names that are no text (see `RawNames`);
* a working directory: `find` leads nowhere for a relative path. Paths are seen from the project
  root before they are looked up, and only the place where a package is installed is taken as it was
  given, so a relative one counts as missing here.
-/

namespace SolPlan

/-- Is the text the name of a file or directory: not empty, no `/` and no null character, neither
`.` nor `..`, and at most 255 bytes? -/
def isFileName (t : Text) : Bool :=
  t != [] && t.all (fun c => c != '/' && c.toNat != 0) && t != ['.'] && t != ['.', '.']
    && t.size ≤ 255

/-- The name of a file or directory. -/
structure FileName where
  text : Text
  valid : isFileName text = true
deriving DecidableEq

namespace FileName

@[ext] theorem ext {a b : FileName} (h : a.text = b.text) : a = b := by
  cases a; cases b; cases h; rfl

instance : Ord FileName := ⟨compareOn text⟩

instance : Std.TransOrd FileName := inferInstanceAs (Std.TransCmp (compareOn text))

instance : Std.LawfulEqOrd FileName where
  eq_of_compare h := ext (Std.LawfulEqOrd.eq_of_compare (α := Text) h)

/-- The name that a text spells, if it may be one. -/
def ofText? (t : Text) : Option FileName := if h : isFileName t then some ⟨t, h⟩ else none

end FileName

/-- A place in a file tree: the names from the root down. -/
abbrev Location := List FileName

/-- The absolute path of a location. -/
def Location.path (l : Location) : Path := Path.ofPieces .root (l.map FileName.text)

/-- What a file holds: text, or bytes that are no text. -/
inductive Content where
  | text (t : Text)
  | binary (bytes : List UInt8)
deriving DecidableEq

/-- Bytes as content: text, if they are UTF-8. -/
def Content.ofBytes (bytes : List UInt8) : Content :=
  match String.fromUTF8? ⟨bytes.toArray⟩ with
  | some s => .text s.toList
  | none => .binary bytes

/-- What stands at a location. -/
inductive Entry where
  | directory
  | file (content : Content)
deriving DecidableEq

/-- Is the entry a file? -/
def Entry.isFile : Entry → Bool
  | .directory => false
  | .file _ => true

/-- Every entry stands in a directory. -/
def Closed (entries : Std.ExtTreeMap Location Entry) : Prop :=
  ∀ l n, (l ++ [n]) ∈ entries → l = [] ∨ entries[l]? = some .directory

/-- What stands where, the root apart. -/
structure FileTree where
  entries : Std.ExtTreeMap Location Entry
  root_not_mem : [] ∉ entries
  closed : Closed entries

namespace FileTree

@[ext] theorem ext {s t : FileTree} (h : s.entries = t.entries) : s = t := by
  cases s; cases t; cases h; rfl

/-- The tree that holds the root alone. -/
def empty : FileTree where
  entries := ∅
  root_not_mem := by simp
  closed := by simp [Closed]

instance : Inhabited FileTree := ⟨empty⟩

/-- What stands at a location. -/
def entry? (t : FileTree) : Location → Option Entry
  | [] => some .directory
  | l => t.entries[l]?

/-! ## Looking up a path -/

/-- One more piece of a path, from a location that exists. -/
def step (t : FileTree) (l : Location) (piece : Text) : Except FileFault Location :=
  if t.entry? l ≠ some .directory then .error .notADirectory
  else if Path.isVoid piece then .ok l
  else if piece = ['.', '.'] then .ok l.dropLast
  else
    match FileName.ofText? piece with
    | none => .error .nameTooLong
    | some name =>
      match t.entry? (l ++ [name]) with
      | none => .error .notFound
      | some _ => .ok (l ++ [name])

/-- Follow the pieces of a path from a location. -/
def follow (t : FileTree) : Location → List Text → Except FileFault Location
  | l, [] => .ok l
  | l, piece :: pieces => do follow t (← t.step l piece) pieces

/-- The location of what a path leads to. Only absolute paths lead anywhere. -/
def find (t : FileTree) (p : Path) : Except FileFault Location :=
  if p.text.any (fun c => c.toNat == 0) then .error .nullInName
  else
    match p.split with
    | (.root, pieces) => t.follow [] pieces
    | _ => .error .notFound

/-- What a path leads to. -/
def lookup? (t : FileTree) (p : Path) : Option Entry :=
  match t.find p with
  | .ok l => t.entry? l
  | .error _ => none

/-- Does the path lead to a file? -/
def isFile (t : FileTree) (p : Path) : Bool := (t.lookup? p).any Entry.isFile

/-- Does the path lead to a directory? -/
def isDirectory (t : FileTree) (p : Path) : Bool := t.lookup? p == some .directory

/-- The path of what a path leads to; a path that leads nowhere is resolved lexically. -/
def resolve (t : FileTree) (p : Path) : Path :=
  match t.find p with
  | .ok l => l.path
  | .error _ => p.normalize

/-- The text of the file that a path leads to. -/
def readText (t : FileTree) (p : Path) : Except Error Text :=
  match t.find p with
  | .error fault => .error (.file p fault)
  | .ok l =>
    match t.entry? l with
    | some (.file (.text text)) => .ok text
    | some (.file (.binary _)) => .error (.file p .notText)
    | some .directory => .error (.file p .isADirectory)
    | none => .error (.file p .notFound)

/-! ## What stands below a location -/

/-- The names from one location down to another below it. -/
def below? : Location → Location → Option Location
  | [], l => some l
  | _ :: _, [] => none
  | n :: top, m :: l => if n = m then below? top l else none

/-- Everything below a location, by its names from there, a directory before what it holds. -/
def below (t : FileTree) (top : Location) : List (Location × Entry) :=
  t.entries.toList.filterMap fun (l, e) =>
    match below? top l with
    | none | some [] => none
    | some names => some (names, e)

/-- The files below a location, by their names from there. -/
def filesBelow (t : FileTree) (top : Location) : List Location :=
  (t.below top).filterMap fun (names, e) => if e.isFile then some names else none

/-- Does any file stand below what a path leads to? -/
def holdsFiles (t : FileTree) (p : Path) : Bool :=
  match t.find p with
  | .ok l => t.filesBelow l ≠ []
  | .error _ => false

end FileTree

end SolPlan
