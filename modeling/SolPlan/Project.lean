import SolPlan.Package.Unpack

/-!
# Projects

A project has a root directory, a folder for its sources, and a configuration. It translates
between paths and source ids, and knows where its packages are unpacked: in the folder `.cache` of
its source folder.

* `sourceId`, `pathOf`, `cacheId` and `packageOf?` are `source_id`, `path_of`, `cache_id` and
  `dependency_of`.
* `sourceFiles` (`source_files`) lists the sources, and `verifySources` (`verify_source_paths`)
  refuses paths that cannot be any.
-/

namespace SolPlan

/-- A project on disk. -/
structure Project where
  /-- The root directory. -/
  root : Location
  /-- The source folder, as configured; a relative one is seen from the root. -/
  folder : Path
  config : Config
deriving DecidableEq

namespace Project

/-- The project whose root is what a path leads to. -/
def atPath (t : FileTree) (root folder : Path) (config : Config) : Except Error Project :=
  match t.find root with
  | .ok l => .ok ⟨l, folder, config⟩
  | .error fault => .error (.file root fault)

/-- The path of the root. -/
def rootPath (p : Project) : Path := p.root.path

/-- The absolute path of the source folder. -/
def contracts (p : Project) : Path := (p.rootPath.join p.folder).normalize

/-- Where packages are unpacked. -/
def cacheFolder (p : Project) : Path := p.contracts.join ⟨cacheFolderName⟩

/-- The source folder seen from the root; empty if they coincide. -/
def contractsId (p : Project) : SourceId := SourceId.ofPath p.contracts p.rootPath

/-- Where a package is unpacked, below a source folder that is known by its id. -/
def cacheIdBelow (contracts : SourceId) (id : PackageId) : Text :=
  joinSlash contracts.text (cacheFolderName ++ '/' :: id.folder)

/-- Where a package is unpacked, seen from the root. -/
def cacheId (p : Project) (id : PackageId) : Text := cacheIdBelow p.contractsId id

/-- The id of a path; a relative one is seen from the root. -/
def sourceId (p : Project) (t : FileTree) (path : Path) : SourceId :=
  SourceId.ofPath (t.resolve (if path.isAbsolute then path else p.rootPath.join path)) p.rootPath

/-- The absolute path of an id. -/
def pathOf (p : Project) (id : SourceId) : Path := (p.rootPath.join id.path).normalize

/-- The package in whose cache folder an id lies. -/
def packageOf? (id : SourceId) : Option PackageId :=
  (CacheLocation.ofText? id.text).map CacheLocation.package

/-! ## Source files -/

/-- The extension of source files. -/
def sourceExtension : Text := "sol".toList

/-- Has the path the extension of source files? -/
def isSourcePath (path : Path) : Bool := path.extension? == some sourceExtension

/-- Is this a source file that can be reached without passing the cache? -/
def isOwnSource (names : Location) : Bool :=
  names.all (·.text != cacheFolderName) && isSourcePath (relativePath names)

/-- The paths of the source files below the source folder. A source folder that is itself called
`.cache` counts as a cache. -/
def sourcePaths (p : Project) (t : FileTree) : Except Error (List Path) :=
  match t.find p.contracts with
  | .error _ => .error (.file p.contracts .noContractsFolder)
  | .ok top =>
    if t.entry? top ≠ some .directory then .error (.file p.contracts .noContractsFolder)
    else if p.contracts.fileName? = some cacheFolderName then .ok []
    else .ok (((t.filesBelow top).filter isOwnSource).map fun names => Location.path (top ++ names))

/-- Ids in order. -/
def sortIds (ids : List SourceId) : List SourceId := ids.mergeSort fun a b => (compare a b).isLE

/-- The ids of the source files below the source folder, in order. -/
def sourceFiles (p : Project) (t : FileTree) : Except Error (List SourceId) :=
  (p.sourcePaths t).map fun paths => sortIds (paths.map fun path => SourceId.ofPath path p.rootPath)

/-- The name by which a path is cited: its file name, or the whole path. -/
def citedName (path : Path) : Text := path.fileName?.getD path.text

/-- Refuse paths that are no sources, all at once. -/
def verifySources (paths : List Path) : Except Error Unit :=
  match paths.filter (!isSourcePath ·) with
  | [] => .ok ()
  | invalid => .error (.notSources (invalid.map citedName))

end Project

end SolPlan
