import SolPlan.Text

/-!
# Places in the package cache

Unpacked packages live below a folder named `.cache`, each in `.cache/name/version`. A slash path
points into the cache when its **first** `.cache` segment is followed by a name and a version,
neither of them empty (`CacheLocation.ofText?`, for `cache_location`).

* `joinSlash` (`join_slash`) appends one slash path to another with exactly one `/` between them; an
  empty side adds nothing.
-/

namespace SolPlan

/-- The name of the folder, inside the contracts folder, that holds unpacked packages. -/
def cacheFolderName : Text := ".cache".toList

/-- A package: its name and its version, as they stand. -/
structure PackageId where
  name : Text
  version : Text
deriving DecidableEq, Repr, Inhabited

namespace PackageId

/-- The package's folder below the cache. -/
def folder (p : PackageId) : Text := p.name ++ '/' :: p.version

@[ext] theorem ext {a b : PackageId} (hn : a.name = b.name) (hv : a.version = b.version) :
    a = b := by
  cases a; cases b; cases hn; cases hv; rfl

instance : Ord PackageId := ⟨compareLex (compareOn name) (compareOn version)⟩

instance : Std.TransOrd PackageId :=
  inferInstanceAs (Std.TransCmp (compareLex (compareOn name) (compareOn version)))

instance : Std.LawfulEqOrd PackageId where
  eq_of_compare {a b} h := by
    have h : compareLex (compareOn name) (compareOn version) a b = .eq := h
    rw [compareLex_eq_eq] at h
    exact ext (Std.LawfulEqOrd.eq_of_compare (α := Text) h.1)
      (Std.LawfulEqOrd.eq_of_compare (α := Text) h.2)

end PackageId

/-- A slash path cut after the version of the package that it points into. -/
structure CacheLocation where
  /-- Everything up to the version. -/
  before : List Text
  package : PackageId
  /-- The segments after the version. -/
  rest : List Text
deriving DecidableEq, Repr

namespace CacheLocation

/-- Look for the cache folder, with the segments before it last first. -/
def find (before : List Text) : List Text → Option CacheLocation
  | [] => none
  | s :: segments =>
    if s = cacheFolderName then
      match segments with
      | name :: version :: rest =>
        if name = [] ∨ version = [] then none
        else some ⟨before.reverse, ⟨name, version⟩, rest⟩
      | _ => none
    else find (s :: before) segments

/-- The place in the cache that a slash path points to. -/
def ofText? (t : Text) : Option CacheLocation := find [] (t.splitOn '/')

/-- The path through the version. -/
def packagePath (l : CacheLocation) : Text :=
  Text.join '/' (l.before ++ [cacheFolderName, l.package.name, l.package.version])

/-- What follows the version. -/
def suffix (l : CacheLocation) : Text := Text.join '/' l.rest

end CacheLocation

/-- One slash path after the other. -/
def joinSlash (front back : Text) : Text :=
  match Text.dropEndWhile (· == '/') front, back.dropWhile (· == '/') with
  | [], b => b
  | f, [] => f
  | f, b => f ++ '/' :: b

end SolPlan
