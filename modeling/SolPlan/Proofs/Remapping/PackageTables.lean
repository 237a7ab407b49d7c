import SolPlan.Proofs.CacheId
import SolPlan.Proofs.Package.Delivery
import SolPlan.Proofs.Remapping.Building

/-!
# Where the tables of packages lead

The table for the sources of a package is made without a look at the disk: it takes the package's
own dependencies to be where the project unpacks them. They are there once the table of the project
was built. Building unpacks whatever is below what is declared, and takes nothing away; and though
it passes over packages that came before, and those below them, none is missed if all that have the
same name and version are the same dependency.

What a table says is seen from the root. Normalized it is the folder of the package; as it stands it
may go up from the root, which must then be there, and down again. It shows the source folder, whose
name has to be a text for that.

Results:
* `isDirectory_join_cacheId`: the id of a package, seen from the root, leads to its folder;
* `keeps_build`: a build that succeeds takes nothing away;
* `isDirectory_of_build`: all packages below what is declared have their folders then;
* `mem_ofPlaces`: what the table of a package leads to, but for its configured keys;
* **`isDirectory_of_ofDependency`**: the table of a package leads to directories.
-/

namespace SolPlan

open SolPlan.Path (IsName IsPlain upPiece)
open FileTree (Keeps)

variable {p : Project} {r : Registry} {id : PackageId} {t t' : FileTree} {cachePath : Path}

/-! ## Ids on disk -/

namespace Project

/-- The way from the root to the source folder goes up, and then down. -/
theorem exists_way (p : Project) : ∃ ups names,
    p.way = List.replicate ups upPiece ++ names ∧ ∀ s ∈ names, IsName s := by
  obtain ⟨names, hnames, hsteps | hsteps⟩ := p.contracts.grounded_steps.exists_names
  · obtain ⟨front, hfront, -⟩ := Path.dropCommon_spec p.contracts.steps p.rootPath.steps
    refine ⟨(Path.dropCommon p.contracts.steps p.rootPath.steps).2.length,
      (Path.dropCommon p.contracts.steps p.rootPath.steps).1, ?_, fun s hs => hnames s ?_⟩
    · rw [way, Path.wayPieces, List.map_const']
    · rw [← hsteps, hfront]
      exact List.mem_append_right front hs
  · refine ⟨p.rootPath.steps.length + 1, names, ?_, hnames⟩
    rw [way, hsteps, Path.wayPieces_upPiece p.isName_rootPath, List.map_const',
      List.replicate_succ', List.append_assoc]
    rfl

theorem isAbsolute_cacheFolder (p : Project) : p.cacheFolder.isAbsolute = true :=
  Path.isAbsolute_join p.isAbsolute_contracts _

theorem reached_contracts_of_folder (h : '\\' ∉ p.folder.text) :
    Path.Reached p.rootPath.steps p.contracts.steps := by
  have hslash : ∀ s ∈ p.folder.text.splitOn '/', '/' ∉ s := fun s hs =>
    Text.not_mem_of_mem_splitOn hs
  have hback : ∀ s ∈ p.folder.text.splitOn '/', '\\' ∉ s := fun s hs hmem =>
    h (Text.subset_of_mem_splitOn hs hmem)
  have hsteps : p.contracts.steps = (p.rootPath.join p.folder).steps := Path.steps_normalize _
  rw [hsteps, ← List.reverse_reverse (p.rootPath.join p.folder).steps]
  cases habsolute : p.folder.isAbsolute with
  | true =>
    have hjoin : p.rootPath.join p.folder = p.folder := if_pos habsolute
    have hstart : Path.Reached p.rootPath.steps ([] : List Text).reverse :=
      ⟨[], [], rfl, Or.inl List.nil_prefix, nofun⟩
    rw [hjoin, Path.reverse_steps]
    exact hstart.resolvePieces hslash hback
  | false =>
    have hstart : Path.Reached p.rootPath.steps p.rootPath.steps.reverse.reverse :=
      (List.reverse_reverse p.rootPath.steps).symm ▸ Path.reached_root _
    rw [Path.reverse_steps_join habsolute]
    exact hstart.resolvePieces hslash hback

/-- There is no backslash on the way to the source folder, if none is in the folder as it is
configured. -/
theorem backslash_not_mem_way (h : '\\' ∉ p.folder.text) :
    '\\' ∉ (p.contracts.relativeTo p.rootPath).text := by
  have hsegments := (reached_contracts_of_folder h).isSegment_wayPieces
  rw [relativeTo_contracts]
  intro hmem
  rcases Text.mem_join hmem with hslash | ⟨s, hs, hmem⟩
  · cases hslash
  · exact (hsegments s hs).no_backslash hmem

variable (hback : '\\' ∉ (p.contracts.relativeTo p.rootPath).text) (hname : IsPlain id.name)
  (hversion : IsPlain id.version)
include hback hname hversion

theorem written_join_cacheId : (p.rootPath.join ⟨p.cacheId id⟩).written =
    p.root.texts ++ (p.way ++ [cacheFolderName, id.name, id.version]) := by
  have hsegments := isSegment_pieces hback hname hversion
  have hid := cacheId_eq hback id
  unfold CacheLocation.packagePath at hid
  have hrelative : (⟨p.cacheId id⟩ : Path).isAbsolute = false :=
    hid ▸ Path.isAbsolute_ofSteps_false hsegments
  rw [Path.written_join _ hrelative, rootPath, p.root.written_path, hid, Path.written_pieces]
  exact fun s hs => ⟨(hsegments s hs).no_slash, (hsegments s hs).not_void⟩

theorem place_join_cacheId :
    (p.rootPath.join ⟨p.cacheId id⟩).place = (packageFolder p.cacheFolder id).place := by
  rw [← normalize_join_cacheId hback hname hversion, Path.place, Path.place, Path.steps_normalize]

/-- **The id of a package, seen from the root, leads to its folder** as it stands. -/
theorem isDirectory_join_cacheId (hroot : t.isDirectory p.rootPath = true)
    (hfolder : t.isDirectory (packageFolder p.cacheFolder id) = true) :
    t.isDirectory (p.rootPath.join ⟨p.cacheId id⟩) = true := by
  obtain ⟨ups, names, hway, hnames⟩ := p.exists_way
  have hwritten := written_join_cacheId hback hname hversion
  rw [hway, List.append_assoc, ← List.append_assoc] at hwritten
  have hdown : ∀ s ∈ names ++ [cacheFolderName, id.name, id.version], IsName s :=
    List.forall_mem_append.mpr ⟨hnames, fun s hs => (isPlain_folder hname hversion s hs).toIsName⟩
  refine FileTree.isDirectory_of_passes (Path.isAbsolute_join rfl _) fun place hpasses => ?_
  rcases hpasses.of_ups hwritten Location.isName hdown with habove | habove
  · have hroot := FileTree.folderAt_of_isDirectory hroot
    rw [rootPath, p.root.place_path] at hroot
    exact hroot.above habove
  · rw [place_join_cacheId hback hname hversion] at habove
    exact (FileTree.folderAt_of_isDirectory hfolder).above habove

end Project

/-! ## Unpacking -/

theorem InTurn.isDirectory {steps : List (Package × List Path)} {step : Package × List Path}
    (hcache : cachePath.isAbsolute = true) (h : InTurn cachePath steps t t') (hstep : step ∈ steps)
    (hversion : IsName step.1.id.version) :
    t'.isDirectory (packageFolder cachePath step.1.id) = true := by
  induction h with
  | nil => cases hstep
  | cons first rest ih =>
    rcases List.mem_cons.mp hstep with rfl | hstep
    · exact (rest.keeps hcache).isDirectory (isDirectory_of_unpackPackage hversion first)
    · exact ih hstep

namespace Dependency

variable {d : Dependency} {unpacked : List Unpacked}

theorem keeps_unpack (hcache : cachePath.isAbsolute = true)
    (h : d.unpack cachePath t = (t', .ok unpacked)) : Keeps t t' := by
  obtain ⟨steps, hsteps, -, -⟩ := exists_inTurn d h
  exact hsteps.keeps hcache

/-- All packages below a dependency get their folders, if they are not taken for others. -/
theorem isDirectory_of_unpack (hcache : cachePath.isAbsolute = true) (huniform : IsUniform d.parts)
    (h : d.unpack cachePath t = (t', .ok unpacked)) {q : Package} (hq : q ∈ d.brought)
    (hversion : IsName q.id.version) : t'.isDirectory (packageFolder cachePath q.id) = true := by
  have hids : unpacked.map Unpacked.id = d.packages := unpackAfter_ids d h
  obtain ⟨steps, hsteps, hunpacked, -⟩ := exists_inTurn d h
  have hmem : q.id ∈ unpacked.map Unpacked.id := by
    rw [hids, packages_eq_eraseDups huniform, List.mem_eraseDups]
    exact List.mem_map_of_mem hq
  obtain ⟨u, hu, hid⟩ := List.mem_map.mp hmem
  rw [hunpacked, List.nil_append] at hu
  obtain ⟨step, hstep, rfl⟩ := List.mem_map.mp hu
  have hid : step.1.id = q.id := hid
  rw [← hid] at hversion ⊢
  exact hsteps.isDirectory hcache hstep hversion

theorem IsUniform.mono {xs ys : List Dependency} (h : IsUniform ys) (hsub : xs ⊆ ys) :
    IsUniform xs := fun x hx y hy => h x (hsub hx) y (hsub hy)

/-- What a part depends on is a part. -/
theorem mem_allParts_of_mem_dependencies {n m : Dependency} {ds : List Dependency}
    (hn : n ∈ allParts ds) (hm : m ∈ n.dependencies) : m ∈ allParts ds := by
  refine mem_allParts_trans ?_ ds hn
  obtain ⟨package, dependencies⟩ := n
  exact List.mem_cons_of_mem _ (mem_allParts_of_mem hm)

end Dependency

/-! ## Building -/

namespace Draft

variable {d e : Draft} {dependency : Dependency} {dependencies : List Dependency}

theorem keeps_addDependency (h : d.addDependency p dependency = (e, .ok ())) :
    Keeps d.tree e.tree := by
  unfold addDependency at h
  split at h
  · cases h
  · rename_i hunpack
    cases h
    exact Dependency.keeps_unpack p.isAbsolute_cacheFolder hunpack

theorem keeps_addDependencies (h : addDependencies p dependencies d = (e, .ok ())) :
    Keeps d.tree e.tree := by
  induction dependencies generalizing d with
  | nil =>
    cases h
    exact Keeps.refl _
  | cons dependency dependencies ih =>
    unfold addDependencies at h
    split at h
    · cases h
    · exact (keeps_addDependency ‹_›).trans (ih h)

theorem keeps_addEntry {entry : RemapEntry} (h : d.addEntry p r entry = (e, .ok ())) :
    Keeps d.tree e.tree := by
  unfold addEntry at h
  split at h
  · cases h
    exact Keeps.refl _
  · exact (keeps_addDependency h :)

theorem keeps_addEntries {raws : List Text} (h : addEntries p r raws d = (e, .ok ())) :
    Keeps d.tree e.tree := by
  induction raws generalizing d with
  | nil =>
    cases h
    exact Keeps.refl _
  | cons raw raws ih =>
    unfold addEntries at h
    split at h
    · cases h
    · split at h
      · cases h
      · exact (keeps_addEntry ‹_›).trans (ih h)

/-- All packages below several dependencies get their folders. -/
theorem isDirectory_of_addDependencies
    (huniform : Dependency.IsUniform (Dependency.allParts dependencies))
    (h : addDependencies p dependencies d = (e, .ok ())) {q : Package}
    (hq : q ∈ Dependency.allBrought dependencies) (hversion : IsName q.id.version) :
    e.tree.isDirectory (packageFolder p.cacheFolder q.id) = true := by
  induction dependencies generalizing d with
  | nil => cases hq
  | cons dependency dependencies ih =>
    unfold addDependencies at h
    split at h
    · cases h
    · rename_i hfirst
      rcases List.mem_append.mp hq with hq | hq
      · refine (keeps_addDependencies h).isDirectory ?_
        unfold addDependency at hfirst
        split at hfirst
        · cases hfirst
        · rename_i hunpack
          cases hfirst
          exact Dependency.isDirectory_of_unpack p.isAbsolute_cacheFolder
            (huniform.mono (List.subset_append_left _ _)) hunpack hq hversion
      · exact ih (huniform.mono (List.subset_append_right _ _)) h hq

end Draft

namespace RemappingTable

variable {depot depot' : Depot} {built table : RemappingTable}

/-- **A build that succeeds takes nothing away.** -/
theorem keeps_build (h : build p r depot = (depot', .ok built)) : Keeps depot.tree depot'.tree := by
  obtain ⟨tree, draft, -, hmake, hall, rfl, -⟩ := build_ok h
  obtain ⟨d, hentries, hdeclared⟩ := Draft.addAll_ok hall
  have hmade := FileTree.keeps_makeDirectories p.isAbsolute_cacheFolder hmake
  exact (hmade.trans (Draft.keeps_addEntries hentries)).trans
    (Draft.keeps_addDependencies hdeclared)

/-- **All packages below what is declared have their folders** after a build. -/
theorem isDirectory_of_build
    (huniform : Dependency.IsUniform (Dependency.allParts r.declared))
    (h : build p r depot = (depot', .ok built)) {q : Package}
    (hq : q ∈ Dependency.allBrought r.declared) (hversion : IsName q.id.version) :
    depot'.tree.isDirectory (packageFolder p.cacheFolder q.id) = true := by
  obtain ⟨tree, draft, -, -, hall, rfl, -⟩ := build_ok h
  obtain ⟨d, -, hdeclared⟩ := Draft.addAll_ok hall
  exact Draft.isDirectory_of_addDependencies huniform hdeclared hq hversion

/-! ## What the table of a package says -/

section

variable {place : PackageId → Text}

/-- The keys that are written for the configured entries of a package are theirs. -/
theorem mem_addPackageEntries {dependencies : List Dependency} {raws claimed claimed' : List Text}
    {table' : RemappingTable} {entry : Text × Text}
    (h : addPackageEntries place dependencies raws table claimed = .ok (table', claimed'))
    (hentry : entry ∈ table'.pairs) :
    entry ∈ table.pairs ∨ entry.1 ∈ (readEntries raws).map RemapEntry.key := by
  induction raws generalizing table claimed with
  | nil =>
    cases h
    exact Or.inl hentry
  | cons raw raws ih =>
    unfold addPackageEntries at h
    cases hread : RemapEntry.ofText raw with
    | error fault =>
      rw [hread] at h
      cases h
    | ok e =>
      rw [hread] at h
      rw [readEntries_cons hread, List.map_cons]
      have hstep : ∀ value, entry ∈ (table.insert e.key value).pairs ∨
          entry.1 ∈ (readEntries raws).map RemapEntry.key →
            entry ∈ table.pairs ∨ entry.1 ∈ e.key :: (readEntries raws).map RemapEntry.key := by
        rintro value (hmem | hmem)
        · rcases Table.mem_of_mem_insert hmem with rfl | hmem
          · exact Or.inr List.mem_cons_self
          · exact Or.inl hmem
        · exact Or.inr (List.mem_cons_of_mem _ hmem)
      dsimp only [bind, Except.bind] at h
      split at h
      · exact hstep _ (ih h)
      · exact hstep _ (ih h)

theorem mem_registerDependency {claimed : List Text} {d : Dependency} {entry : Text × Text}
    (h : entry ∈ (registerDependency place claimed table d).pairs) :
    entry ∈ table.pairs ∨ entry.2 = place d.id := by
  unfold registerDependency at h
  split at h
  · exact Or.inl h
  · rcases Table.mem_of_mem_insertIfAbsent h with rfl | h
    · exact Or.inr rfl
    · rcases Table.mem_of_mem_insertIfAbsent h with rfl | h
      · exact Or.inr rfl
      · exact Or.inl h

theorem mem_foldl_registerDependency {claimed : List Text} {ds : List Dependency}
    {entry : Text × Text} (h : entry ∈ (ds.foldl (registerDependency place claimed) table).pairs) :
    entry ∈ table.pairs ∨ ∃ m ∈ ds, entry.2 = place m.id := by
  induction ds generalizing table with
  | nil => exact Or.inl h
  | cons d ds ih =>
    rcases ih h with h | ⟨m, hm, hvalue⟩
    · rcases mem_registerDependency h with h | hvalue
      · exact Or.inl h
      · exact Or.inr ⟨d, List.mem_cons_self, hvalue⟩
    · exact Or.inr ⟨m, List.mem_cons_of_mem _ hm, hvalue⟩

/-- **What the table of a package leads to**: but for its configured keys, its own dependencies. -/
theorem mem_ofPlaces {n : Dependency} {entry : Text × Text}
    (h : ofPlaces place n = .ok table) (hentry : entry ∈ table.pairs) :
    entry.1 ∈ (readEntries n.package.config.remappings).map RemapEntry.key ∨
      ∃ m ∈ n.dependencies, entry.2 = place m.id := by
  unfold ofPlaces at h
  cases hentries : addPackageEntries place n.dependencies n.package.config.remappings .empty [] with
  | error fault =>
    rw [hentries] at h
    cases h
  | ok result =>
    rw [hentries] at h
    cases h
    rcases mem_foldl_registerDependency hentry with hmem | hmem
    · exact Or.inl ((mem_addPackageEntries hentries hmem).resolve_left List.not_mem_nil)
    · exact Or.inr hmem

end

/-- **The tables of packages never dangle.** Where the table of a project was built, take any
package below what is declared. Each key of its table is one that it configures, or leads to one of
its own dependencies; and a value that is the id of one of these leads to a directory, normalized,
and also as it stands if the root was there. -/
theorem isDirectory_of_ofDependency {n : Dependency}
    (hback : '\\' ∉ (p.contracts.relativeTo p.rootPath).text)
    (hplain : ∀ q ∈ Dependency.allBrought r.declared, IsPlain q.id.name ∧ IsPlain q.id.version)
    (huniform : Dependency.IsUniform (Dependency.allParts r.declared))
    (hbuild : build p r depot = (depot', .ok built))
    (hn : n ∈ Dependency.allParts r.declared) (htable : ofDependency p n = .ok table) :
    ∀ entry ∈ table.pairs,
      (entry.1 ∈ (readEntries n.package.config.remappings).map RemapEntry.key ∨
        ∃ m ∈ n.dependencies, entry.2 = p.cacheId m.id) ∧
      ∀ m ∈ n.dependencies, entry.2 = p.cacheId m.id →
        depot'.tree.isDirectory (p.rootPath.join ⟨entry.2⟩).normalize = true ∧
        (depot.tree.isDirectory p.rootPath = true →
          depot'.tree.isDirectory (p.rootPath.join ⟨entry.2⟩) = true) := by
  intro entry hentry
  refine ⟨mem_ofPlaces htable hentry, fun m hm hvalue => ?_⟩
  have hbrought : m.package ∈ Dependency.allBrought r.declared := by
    rw [Dependency.allBrought_eq_map_allParts]
    exact List.mem_map_of_mem (Dependency.mem_allParts_of_mem_dependencies hn hm)
  have hplain : IsPlain m.id.name ∧ IsPlain m.id.version := hplain _ hbrought
  obtain ⟨hname, hversion⟩ := hplain
  have hfolder : depot'.tree.isDirectory (packageFolder p.cacheFolder m.id) = true :=
    isDirectory_of_build huniform hbuild hbrought hversion.toIsName
  rw [hvalue]
  refine ⟨?_, fun hroot => ?_⟩
  · rw [Project.normalize_join_cacheId hback hname hversion]
    exact hfolder
  · exact Project.isDirectory_join_cacheId hback hname hversion
      ((keeps_build hbuild).isDirectory hroot) hfolder

/-- `a` is declared, which needs `b` and `c`. -/
def needsTwo : Registry := ⟨[Dependency.diamond], [], none⟩

/-- The root is there, and some sources. -/
def rooted : Depot := ⟨Dependency.heldByOne.place ⟨"/r".toList⟩ none, 0⟩

theorem isPlain_needsTwo : ∀ q ∈ Dependency.allBrought needsTwo.declared,
    IsPlain q.id.name ∧ IsPlain q.id.version := by
  have hletter : ∀ {c : Char}, c = 'a' ∨ c = 'b' ∨ c = 'c' ∨ c = '1' → IsPlain [c] := by
    rintro c (rfl | rfl | rfl | rfl) <;> exact ⟨⟨by decide, by decide, by decide⟩, by decide⟩
  have hbrought : Dependency.allBrought needsTwo.declared = [Dependency.installed 'a',
    Dependency.installed 'b', Dependency.installed 'c', Dependency.installed 'c'] := rfl
  rw [hbrought]
  simp only [List.forall_mem_cons, List.not_mem_nil, false_implies, implies_true, and_true,
    Dependency.installed]
  simp only [hletter, true_or, or_true, and_self]

theorem isUniform_needsTwo : Dependency.IsUniform (Dependency.allParts needsTwo.declared) := by
  have hparts : Dependency.allParts needsTwo.declared = Dependency.diamond.parts :=
    List.append_nil _
  rw [hparts]
  exact Dependency.isUniform_diamond

theorem mem_allParts_needsTwo :
    .mk (Dependency.installed 'b') [.mk (Dependency.installed 'c') []] ∈
      Dependency.allParts needsTwo.declared :=
  Dependency.mem_allParts_of_mem_dependencies (Dependency.mem_allParts_of_mem List.mem_cons_self)
    List.mem_cons_self

/-- The table of `b` leads to the place of `c`. -/
theorem ofPlaces_needsTwo (place : PackageId → Text) :
    ∃ table, ofPlaces place (.mk (Dependency.installed 'b') [.mk (Dependency.installed 'c') []]) =
        .ok table ∧
      (['c'], place (Dependency.installed 'c').id) ∈ table.pairs :=
  ⟨_, rfl, List.mem_cons_of_mem _ List.mem_cons_self⟩

/-- What `b` depends on is reached from the root, though the cache lies beside it. -/
theorem isDirectory_of_ofDependency_diamond :
    ∃ depot built table, build Project.beside needsTwo rooted = (depot, .ok built) ∧
      ofDependency Project.beside (.mk (Dependency.installed 'b')
        [.mk (Dependency.installed 'c') []]) = .ok table ∧
      (['c'], "../lib/.cache/c/1".toList) ∈ table.pairs ∧
      depot.tree.isDirectory
        (Project.beside.rootPath.join ⟨"../lib/.cache/c/1".toList⟩) = true := by
  have hback : '\\' ∉ (Project.beside.contracts.relativeTo Project.beside.rootPath).text :=
    Project.backslash_not_mem_way (by decide)
  obtain ⟨depot, built, hbuild⟩ : ∃ depot built,
      build Project.beside needsTwo rooted = (depot, .ok built) :=
        exists_of_isOk (by decide +kernel)
  have hroot : rooted.tree.isDirectory Project.beside.rootPath = true := by decide +kernel
  have hid : Project.beside.cacheId (Dependency.installed 'c').id =
      "../lib/.cache/c/1".toList := by decide +kernel
  obtain ⟨table, htable, hmem⟩ := ofPlaces_needsTwo Project.beside.cacheId
  rw [hid] at hmem
  have hthere := (isDirectory_of_ofDependency hback isPlain_needsTwo isUniform_needsTwo hbuild
    mem_allParts_needsTwo htable _ hmem).2 _ List.mem_cons_self hid.symm
  exact ⟨depot, built, table, hbuild, htable, hmem, hthere.2 hroot⟩

/-- The same sources, but the root of the project is gone. -/
def rootless : Depot := ⟨Dependency.heldByOne, 0⟩

/-- **The table of a package may dangle.** If the root is gone, a way that goes up from it leads
nowhere. And a source folder whose name is no text is shown by another name, which is not there;
what is unpacked, and where, does not depend on how it is shown. -/
theorem not_isDirectory_of_ofDependency :
    ((∀ q ∈ Dependency.allBrought needsTwo.declared, IsPlain q.id.name ∧ IsPlain q.id.version) ∧
      Dependency.IsUniform (Dependency.allParts needsTwo.declared) ∧
      .mk (Dependency.installed 'b') [.mk (Dependency.installed 'c') []] ∈
        Dependency.allParts needsTwo.declared) ∧
    ('\\' ∉ (Project.beside.contracts.relativeTo Project.beside.rootPath).text ∧
      ∃ depot built table, build Project.beside needsTwo rootless = (depot, .ok built) ∧
        ofDependency Project.beside (.mk (Dependency.installed 'b')
          [.mk (Dependency.installed 'c') []]) = .ok table ∧
        (['c'], Project.beside.cacheId (Dependency.installed 'c').id) ∈ table.pairs ∧
        depot.tree.isDirectory (Project.beside.rootPath.join
          ⟨Project.beside.cacheId (Dependency.installed 'c').id⟩) = false) ∧
    ('\\' ∉ (Project.rawFolder.contracts.relativeTo Project.rawFolder.rootPath).text ∧
      ∃ depot built table, build Project.rawFolder needsTwo rooted = (depot, .ok built) ∧
        ofPlaces Project.rawFolder.rawCacheId (.mk (Dependency.installed 'b')
          [.mk (Dependency.installed 'c') []]) = .ok table ∧
        (['c'], Project.rawFolder.rawCacheId (Dependency.installed 'c').id) ∈ table.pairs ∧
        depot.tree.isDirectory (Project.rawFolder.rootPath.join
          ⟨(Project.rawFolder.rawCacheId (Dependency.installed 'c').id).stored⟩) = false) := by
  refine ⟨⟨isPlain_needsTwo, isUniform_needsTwo, mem_allParts_needsTwo⟩, ?_, ?_⟩
  · have hdangles : (build Project.beside needsTwo rootless).1.tree.isDirectory
        (Project.beside.rootPath.join
          ⟨Project.beside.cacheId (Dependency.installed 'c').id⟩) = false := by decide +kernel
    obtain ⟨depot, built, hbuild⟩ : ∃ depot built,
        build Project.beside needsTwo rootless = (depot, .ok built) :=
        exists_of_isOk (by decide +kernel)
    obtain ⟨table, htable, hmem⟩ := ofPlaces_needsTwo Project.beside.cacheId
    rw [hbuild] at hdangles
    exact ⟨Project.backslash_not_mem_way (by decide), depot, built, table, hbuild, htable, hmem,
      hdangles⟩
  · have hdangles : (build Project.rawFolder needsTwo rooted).1.tree.isDirectory
        (Project.rawFolder.rootPath.join
          ⟨(Project.rawFolder.rawCacheId (Dependency.installed 'c').id).stored⟩) = false := by
      decide +kernel
    obtain ⟨depot, built, hbuild⟩ : ∃ depot built,
        build Project.rawFolder needsTwo rooted = (depot, .ok built) :=
        exists_of_isOk (by decide +kernel)
    obtain ⟨table, htable, hmem⟩ := ofPlaces_needsTwo Project.rawFolder.rawCacheId
    rw [hbuild] at hdangles
    exact ⟨Project.backslash_not_mem_way (by decide), depot, built, table, hbuild, htable, hmem,
      hdangles⟩

end RemappingTable

end SolPlan
