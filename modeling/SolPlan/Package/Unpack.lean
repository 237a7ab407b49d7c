import SolPlan.Package

/-!
# Unpacking packages

The sources of a package are copied into `name/version` below a cache folder, under the name of its
source folder, and after them those of its dependencies (`unpack`).

* A package whose folder **holds a file** is left alone, and so is one that was unpacked before in
  the same run, with all its dependencies.
* When a copy fails, the whole package folder is discarded: part of a copy would pass for a
  finished one.
* Every package gets its folder, also one without sources.
-/

namespace SolPlan

/-- A package in the cache, and the files that were copied for it. -/
structure Unpacked where
  id : PackageId
  files : List Path
deriving DecidableEq

/-- The folder of a package below a cache folder. -/
def packageFolder (cache : Path) (id : PackageId) : Path :=
  (cache.join ⟨id.name⟩).join ⟨id.version⟩

/-- The relative path of some names. -/
def relativePath (names : Location) : Path := Path.ofPieces .none (names.map FileName.text)

/-- Create the folder of a file, and all that are missing above it. -/
def makeFolderOf (file : Path) (t : FileTree) : FileTree × Except Error Unit :=
  match file.parent? with
  | none => (t, .ok ())
  | some folder =>
    match t.makeDirectories folder with
    | (t, .ok ()) => (t, .ok ())
    | (t, .error fault) => (t, .error (.file folder fault))

/-- Copy files from below a location, which `source` leads to, to the same places below `dest`.
The answer lists the copies. -/
def copyFiles (source : Path) (top : Location) (dest : Path) :
    List Location → FileTree → FileTree × Except Error (List Path)
  | [], t => (t, .ok [])
  | names :: more, t =>
    let copy := dest.join (relativePath names)
    match makeFolderOf copy t with
    | (t, .error e) => (t, .error e)
    | (t, .ok ()) =>
      match t.copyFile (top ++ names) copy with
      | .error fault => (t, .error (.file (source.join (relativePath names)) fault))
      | .ok t =>
        match copyFiles source top dest more t with
        | (t, .ok copies) => (t, .ok (copy :: copies))
        | (t, .error e) => (t, .error e)

/-- Copy all files from below one folder to another. A folder that is not there has none. -/
def copySources (source dest : Path) (t : FileTree) : FileTree × Except Error (List Path) :=
  match t.find source with
  | .error _ => (t, .ok [])
  | .ok top => copyFiles source top dest (t.filesBelow top) t

/-- Copy the sources of a package to its folder, unless that holds a file. What a failed copy
leaves is discarded. -/
def fillFolder (folder : Path) (p : Package) (t : FileTree) :
    FileTree × Except Error (List Path) :=
  if t.holdsFiles folder then (t, .ok [])
  else
    match copySources p.sources (folder.join p.contracts) t with
    | (t, .ok copies) => (t, .ok copies)
    | (t, .error e) => (t.discard folder, .error e)

/-- Bring one package into the cache. The answer lists what was copied. -/
def unpackPackage (cache : Path) (p : Package) (t : FileTree) :
    FileTree × Except Error (List Path) :=
  let folder := packageFolder cache p.id
  match fillFolder folder p t with
  | (t, .error e) => (t, .error e)
  | (t, .ok copies) =>
    match t.makeDirectories folder with
    | (t, .ok ()) => (t, .ok copies)
    | (t, .error fault) => (t, .error (.file folder fault))

namespace Dependency

mutual

/-- Unpack a package and its dependencies after those that are `done`. -/
def unpackAfter (cache : Path) (done : List Unpacked) :
    Dependency → FileTree → FileTree × Except Error (List Unpacked)
  | mk package dependencies, t =>
    if done.any (·.id = package.id) then (t, .ok done)
    else
      match unpackPackage cache package t with
      | (t, .error e) => (t, .error e)
      | (t, .ok files) => unpackAllAfter cache (done ++ [⟨package.id, files⟩]) dependencies t

/-- Unpack packages and their dependencies after those that are `done`. -/
def unpackAllAfter (cache : Path) (done : List Unpacked) :
    List Dependency → FileTree → FileTree × Except Error (List Unpacked)
  | [], t => (t, .ok done)
  | d :: ds, t =>
    match unpackAfter cache done d t with
    | (t, .error e) => (t, .error e)
    | (t, .ok done) => unpackAllAfter cache done ds t

end

/-- Unpack a package and its dependencies into a cache folder. -/
def unpack (d : Dependency) (cache : Path) (t : FileTree) :
    FileTree × Except Error (List Unpacked) :=
  unpackAfter cache [] d t

end Dependency

end SolPlan
