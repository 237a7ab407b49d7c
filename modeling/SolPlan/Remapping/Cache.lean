import SolPlan.Remapping.CacheKey

/-!
# The cache of remapping tables

A cache (`RemappingCache`) keeps the last table built for each project root, with the corrections
made since, and the digest of the key it was built for. The table is reused while the key of the
project has that digest, the cache folder is there, and so is every package folder that a value of
the table points into (`cache_present`). Anything else builds the table again; a build that fails
leaves what is kept.

A digest does not tell all keys apart, so a cache that is asked with another key may take the old
table for the one asked for. `get`, `apply_corrections` and `invalidate` are `get`, `correct` and
`forget` here.
-/

namespace SolPlan

/-- A table that is kept, with the digest of the key it was built for. -/
structure KeptTable where
  key : UInt64
  table : RemappingTable
deriving DecidableEq

/-- The tables that are kept, by project root, and how keys are told apart. -/
structure RemappingCache where
  digest : CacheKey → UInt64
  kept : Std.ExtTreeMap Location KeptTable

namespace RemappingCache

/-- The cache that keeps nothing, and tells keys apart by a digest. -/
def blank (digest : CacheKey → UInt64) : RemappingCache := ⟨digest, ∅⟩

/-- The cache that keeps nothing. -/
def empty : RemappingCache := blank CacheKey.digest

/-- Keep a table for a root, instead of any other. -/
def keep (c : RemappingCache) (root : Location) (k : KeptTable) : RemappingCache :=
  { c with kept := c.kept.insert root k }

/-- How many tables are kept. -/
def size (c : RemappingCache) : Nat := c.kept.size

/-- Are the cache folder and the package folders that a table points into there? -/
def foldersPresent (p : Project) (t : FileTree) (table : RemappingTable) : Bool :=
  t.isDirectory p.cacheFolder &&
    (table.pairs.filterMap fun entry => CacheLocation.ofText? entry.2).all fun place =>
      t.isDirectory (p.rootPath.join ⟨place.packagePath⟩)

/-- The table kept for a project, if it can be reused. -/
def reusable? (c : RemappingCache) (p : Project) (r : Registry) (t : FileTree) :
    Option RemappingTable :=
  match c.kept[p.root]? with
  | none => none
  | some k =>
    if k.key = c.digest (.of p r) ∧ foldersPresent p t k.table then some k.table else none

/-- The table of a project, built if it cannot be reused. -/
def get (c : RemappingCache) (p : Project) (r : Registry) (depot : Depot) :
    RemappingCache × Depot × Except Error RemappingTable :=
  match c.reusable? p r depot.tree with
  | some table => (c, depot, .ok table)
  | none =>
    match RemappingTable.build p r depot with
    | (depot, .error e) => (c, depot, .error e)
    | (depot, .ok table) => (c.keep p.root ⟨c.digest (.of p r), table⟩, depot, .ok table)

/-- Correct the table kept for a project. -/
def correct (c : RemappingCache) (p : Project) (corrections : List Correction) : RemappingCache :=
  match c.kept[p.root]? with
  | none => c
  | some k =>
    c.keep p.root { k with table := corrections.foldl RemappingTable.correct k.table }

/-- Forget the table of a project. -/
def forget (c : RemappingCache) (p : Project) : RemappingCache :=
  { c with kept := c.kept.erase p.root }

end RemappingCache

end SolPlan
