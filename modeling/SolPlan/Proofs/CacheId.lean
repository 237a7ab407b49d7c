import Mathlib
import SolPlan.Proofs.CacheLocation
import SolPlan.Proofs.ImportGraph.Enterable
import SolPlan.Proofs.Path.Place
import SolPlan.RawNames

/-!
# Where a package is in the cache

The place of a package in the cache is known in three ways: as an id, which is the way from the root
to the source folder and then the cache, the name and the version; as what is read off a slash path
that goes through the cache; and as a path on disk below the cache folder. An id is made by
subtracting paths, read by looking for the first `.cache`, and realized by joining and normalizing.

They agree if neither the way to the source folder nor the package spells anything that is read
differently: the way has no `.cache` of its own, and there is no backslash, which an id takes for a
slash. The source folder may be the root, or lie outside of it. Its name is a text, since an id
shows anything else differently. The id of a path below the package is then the same, whether it is
made from the text or from the path on disk, unless the root lies in the cache itself: from there,
the way does not go through the cache folder (`not_cacheId_agrees`).

Results:
* `cacheId_eq`: the id of a package, as a path through its version;
* `normalize_join_cacheId`: on disk, it is the folder of the package;
* `ofPath_join_cacheId`: a path below it on disk has the id of its text;
* **`cacheId_agrees`**: all three ways, with anything after the version.
-/

namespace SolPlan

open SolPlan.Path (IsName IsPlain ofSteps wayPieces)

/-! ## Segments -/

/-- Segments joined by slashes do not end in one. -/
theorem exists_getLast?_join {pieces : List Text}
    (h : ∀ s ∈ pieces, '/' ∉ s ∧ Path.isVoid s = false) (hne : pieces ≠ []) :
    ∃ c, (Text.join '/' pieces).getLast? = some c ∧ c ≠ '/' := by
  obtain ⟨front, s, rfl⟩ := (List.eq_nil_or_concat pieces).resolve_left hne
  rw [List.concat_eq_append] at h ⊢
  obtain ⟨hslash, hvoid⟩ := h s List.mem_concat_self
  rcases List.eq_nil_or_concat s with rfl | ⟨t, c, rfl⟩
  · cases hvoid
  · rw [List.concat_eq_append] at hslash ⊢
    refine ⟨c, ?_, fun hc => hslash (hc ▸ List.mem_concat_self)⟩
    by_cases hnil : front = []
    · subst hnil
      simp [Text.join]
    · rw [Text.join_append hnil (List.cons_ne_nil _ _), Text.join, Text.join,
        List.intercalate_singleton, ← List.cons_append, ← List.append_assoc]
      exact List.getLast?_concat

theorem dropEndWhile_join {pieces : List Text} (h : ∀ s ∈ pieces, '/' ∉ s ∧ Path.isVoid s = false) :
    Text.dropEndWhile (· == '/') (Text.join '/' pieces) = Text.join '/' pieces := by
  by_cases hnil : pieces = []
  · subst hnil
    rfl
  · obtain ⟨c, hlast, hc⟩ := exists_getLast?_join h hnil
    obtain ⟨front, hfront⟩ := List.getLast?_eq_some_iff.mp hlast
    unfold Text.dropEndWhile
    rw [hfront, List.reverse_concat, List.dropWhile_cons_of_neg (by simp [hc]), List.reverse_cons,
      List.reverse_reverse]

namespace Path

/-- A name after an absolute path is one more step of it. -/
theorem ofSteps_join {steps : List Text} {s : Text} (h : ∀ s ∈ steps, '/' ∉ s ∧ isVoid s = false)
    (hs : IsName s) : (ofSteps true steps).join ⟨s⟩ = ofSteps true (steps ++ [s]) := by
  unfold join
  rw [if_neg (by simp [(written_name hs).1])]
  change (if '/' :: Text.join '/' steps = [] || ('/' :: Text.join '/' steps).getLast? = some '/'
    then (⟨'/' :: Text.join '/' steps ++ s⟩ : Path) else ⟨'/' :: Text.join '/' steps ++ '/' :: s⟩) =
      ⟨'/' :: Text.join '/' (steps ++ [s])⟩
  by_cases hnil : steps = []
  · subst hnil
    simp [Text.join]
  · obtain ⟨c, hlast, hc⟩ := exists_getLast?_join h hnil
    have hend : ¬ ('/' :: Text.join '/' steps = [] ||
        ('/' :: Text.join '/' steps).getLast? = some '/') := by
      rw [List.getLast?_cons, hlast]
      simpa using hc
    rw [if_neg hend, Text.join_append hnil (List.cons_ne_nil s [])]
    simp [Text.join]

end Path

namespace Project

variable {p : Project} {id : PackageId}

theorem isName_cacheFolderName : IsName cacheFolderName := ⟨by decide, by decide, by decide⟩

/-- The way from the root to the source folder. -/
def way (p : Project) : List Text := wayPieces p.contracts.steps p.rootPath.steps

theorem isAbsolute_contracts (p : Project) : p.contracts.isAbsolute = true := by
  unfold contracts Path.normalize
  rw [Path.isAbsolute_join rfl]
  rfl

theorem contracts_eq (p : Project) : p.contracts = ofSteps true p.contracts.steps := by
  unfold contracts
  rw [Path.steps_normalize, Path.normalize, Path.isAbsolute_join rfl]

theorem relativeTo_contracts (p : Project) :
    p.contracts.relativeTo p.rootPath = ofSteps false p.way :=
  Path.relativeTo_of_isAbsolute p.isAbsolute_contracts rfl

theorem solid_way (p : Project) : ∀ s ∈ p.way, '/' ∉ s ∧ Path.isVoid s = false :=
  Path.solid_wayPieces _ p.contracts.grounded_steps.solid

theorem written_relativeTo (p : Project) : (p.contracts.relativeTo p.rootPath).written = p.way := by
  rw [relativeTo_contracts]
  exact Path.written_pieces p.solid_way

/-- Names after the way to the source folder lead to below it. -/
theorem steps_join_way_append (p : Project) {names : List Text} (h : ∀ s ∈ names, IsName s) :
    (p.rootPath.join (ofSteps false (p.way ++ names))).steps = p.contracts.steps ++ names := by
  have hsolid : ∀ s ∈ p.way ++ names, '/' ∉ s ∧ Path.isVoid s = false :=
    List.forall_mem_append.mpr ⟨p.solid_way, fun s hs => ⟨(h s hs).no_slash, (h s hs).not_void⟩⟩
  have hway : Path.resolvePieces p.rootPath.steps.reverse p.way = p.contracts.steps.reverse :=
    p.contracts.grounded_steps.resolvePieces_wayPieces _
  rw [← List.reverse_inj, Path.reverse_steps_join (Path.isAbsolute_ofSteps_of_solid hsolid)]
  change Path.resolvePieces _ ((Text.join '/' (p.way ++ names)).splitOn '/') = _
  rw [Path.resolvePieces_join fun s hs => (hsolid s hs).1, Path.resolvePieces_append, hway,
    Path.resolvePieces_names h, List.reverse_append]

/-- The cache is one step below the source folder. -/
theorem steps_cacheFolder (p : Project) :
    p.cacheFolder.steps = p.contracts.steps ++ [cacheFolderName] := by
  rw [← List.reverse_inj, cacheFolder, Path.reverse_steps_join rfl, List.reverse_append]
  rfl

/-- The folder of a package on disk. -/
theorem packageFolder_eq (p : Project) {id : PackageId} (hname : IsName id.name)
    (hversion : IsName id.version) :
    packageFolder p.cacheFolder id =
      ofSteps true (p.contracts.steps ++ [cacheFolderName, id.name, id.version]) := by
  have hsolid : ∀ {steps : List Text} {s : Text}, (∀ s ∈ steps, '/' ∉ s ∧ Path.isVoid s = false) →
      IsName s → ∀ s' ∈ steps ++ [s], '/' ∉ s' ∧ Path.isVoid s' = false := fun h hs =>
    List.forall_mem_append.mpr ⟨h, List.forall_mem_singleton.mpr ⟨hs.no_slash, hs.not_void⟩⟩
  have hcontracts := p.contracts.grounded_steps.solid
  have hcache := hsolid hcontracts isName_cacheFolderName
  unfold packageFolder cacheFolder
  rw [contracts_eq, Path.ofSteps_join hcontracts isName_cacheFolderName,
    Path.ofSteps_join hcache hname, Path.ofSteps_join (hsolid hcache hname) hversion,
    ← contracts_eq]
  simp

section

variable (hback : '\\' ∉ (p.contracts.relativeTo p.rootPath).text)
include hback

theorem isSegment_way : ∀ s ∈ p.way, IsSegment s := by
  intro s hs
  obtain ⟨hslash, hvoid⟩ := p.solid_way s hs
  refine ⟨hslash, fun hmem => hback ?_, hvoid⟩
  rw [← written_relativeTo] at hs
  exact Text.subset_of_mem_splitOn (List.mem_filter.mp hs).1 hmem

theorem text_contractsId : p.contractsId.text = Text.join '/' p.way :=
  Path.text_ofPath p.isAbsolute_contracts rfl (isSegment_way hback)

/-- **The id of a package** is a path through its version. -/
theorem cacheId_eq (id : PackageId) : p.cacheId id = CacheLocation.packagePath ⟨p.way, id, []⟩ := by
  have hplace : Text.join '/' [cacheFolderName, id.name, id.version] =
      cacheFolderName ++ '/' :: id.folder := by
    simp [Text.join, PackageId.folder]
  unfold cacheId cacheIdBelow CacheLocation.packagePath
  rw [text_contractsId hback, ← hplace]
  by_cases hnil : p.way = []
  · rw [hnil, List.nil_append, hplace]
    rfl
  · have hne : Text.join '/' p.way ≠ [] := fun hempty => by
      obtain ⟨c, hlast, -⟩ := exists_getLast?_join p.solid_way hnil
      rw [hempty] at hlast
      cases hlast
    rw [joinSlash_of_ne (dropEndWhile_join p.solid_way) hne (by simp [hplace]),
      Text.join_append hnil (List.cons_ne_nil _ _)]
    rw [hplace, head?_cacheFolderName_append]
    decide

end

/-- The segments of the folder of a package below the cache. -/
theorem isPlain_folder (hname : IsPlain id.name) (hversion : IsPlain id.version) :
    ∀ s ∈ [cacheFolderName, id.name, id.version], IsPlain s := by
  intro s hs
  simp only [List.mem_cons, List.not_mem_nil, or_false] at hs
  rcases hs with rfl | rfl | rfl
  · exact ⟨isName_cacheFolderName, by decide⟩
  · exact hname
  · exact hversion

/-- A package in the cache, by names that an id keeps. -/
theorem isPlace_way (hcache : cacheFolderName ∉ p.way) (hname : IsPlain id.name)
    (hversion : IsPlain id.version) : CacheLocation.IsPlace ⟨p.way, id, []⟩ where
  first := hcache
  name := fun hnil => absurd (hnil ▸ hname.not_void) (by decide)
  version := fun hnil => absurd (hnil ▸ hversion.not_void) (by decide)
  segments := List.forall_mem_append.mpr
    ⟨fun s hs => (p.solid_way s hs).1, fun s hs => (isPlain_folder hname hversion s hs).no_slash⟩

section

variable (hback : '\\' ∉ (p.contracts.relativeTo p.rootPath).text) (hname : IsPlain id.name)
  (hversion : IsPlain id.version)
include hback hname hversion

theorem isSegment_pieces : ∀ s ∈ p.way ++ [cacheFolderName, id.name, id.version], IsSegment s :=
  List.forall_mem_append.mpr
    ⟨isSegment_way hback, fun s hs => (isPlain_folder hname hversion s hs).isSegment⟩

/-- **On disk, the id of a package is its folder** below the cache folder. -/
theorem normalize_join_cacheId :
    (p.rootPath.join ⟨p.cacheId id⟩).normalize = packageFolder p.cacheFolder id := by
  have hsteps := p.steps_join_way_append fun s hs => (isPlain_folder hname hversion s hs).toIsName
  rw [packageFolder_eq p hname.toIsName hversion.toIsName, cacheId_eq hback, ← hsteps,
    Path.normalize, Path.isAbsolute_join rfl]
  rfl

/-- The id of a path below a package leads to the package. -/
theorem packageOf?_ofText (hcache : cacheFolderName ∉ p.way) (rest : Text) :
    packageOf? (SourceId.ofText (p.cacheId id ++ '/' :: rest)) = some id := by
  have hsegments := isSegment_pieces hback hname hversion
  have htext : (SourceId.ofText (p.cacheId id ++ '/' :: rest)).text =
      Text.join '/' (p.way ++ [cacheFolderName, id.name, id.version] ++ segmentsOf rest) := by
    rw [SourceId.text_ofText, segmentsOf_append _ _ (.inl rfl), cacheId_eq hback,
      CacheLocation.packagePath, segmentsOf_join hsegments]
  have hall : ∀ s ∈ p.way ++ [cacheFolderName, id.name, id.version] ++ segmentsOf rest, '/' ∉ s :=
    List.forall_mem_append.mpr
      ⟨fun s hs => (hsegments s hs).no_slash, fun s hs => (isSegment_of_mem hs).no_slash⟩
  unfold packageOf? CacheLocation.ofText?
  rw [htext, Text.join, List.splitOn_intercalate _ hall (by simp),
    (isPlace_way hcache hname hversion).find_before]
  rfl

/-- **A path below a package has the id that its text has**, unless the root lies in the cache: then
the way to the package does not go through the cache folder. -/
theorem ofPath_join_cacheId (hroot : ¬ p.cacheFolder.steps <+: p.rootPath.steps) {suffix : Text}
    (hsuffix : ∀ s ∈ suffix.splitOn '/', IsName s) :
    SourceId.ofPath (p.rootPath.join ⟨p.cacheId id ++ '/' :: suffix⟩) p.rootPath =
      SourceId.ofText (p.cacheId id ++ '/' :: suffix) := by
  have hnames : ∀ s ∈ cacheFolderName :: [id.name, id.version] ++ suffix.splitOn '/', IsName s :=
    List.forall_mem_append.mpr
      ⟨fun s hs => (isPlain_folder hname hversion s hs).toIsName, hsuffix⟩
  have hsolid : ∀ s ∈ p.way ++ (cacheFolderName :: [id.name, id.version] ++ suffix.splitOn '/'),
      '/' ∉ s ∧ Path.isVoid s = false :=
    List.forall_mem_append.mpr
      ⟨p.solid_way, fun s hs => ⟨(hnames s hs).no_slash, (hnames s hs).not_void⟩⟩
  have htext : p.cacheId id ++ '/' :: suffix = Text.join '/'
      (p.way ++ (cacheFolderName :: [id.name, id.version] ++ suffix.splitOn '/')) := by
    have hsplit : Text.join '/' (suffix.splitOn '/') = suffix := List.intercalate_splitOn '/'
    rw [← List.append_assoc, Text.join_append (by simp) (List.splitOn_ne_nil _ _), hsplit,
      cacheId_eq hback]
    rfl
  unfold SourceId.ofPath
  rw [Path.relativeTo_of_isAbsolute (Path.isAbsolute_join rfl _) rfl, htext]
  change SourceId.ofText (ofSteps false (wayPieces (Path.steps (p.rootPath.join (ofSteps false _)))
    _)).slashed = _
  rw [p.steps_join_way_append hnames, List.cons_append,
    Path.wayPieces_append_cons (p.steps_cacheFolder ▸ hroot)]
  exact congrArg SourceId.ofText (Path.slashed_ofSteps hsolid)

end

/-- **The three ways to the place of a package in the cache agree**: its id leads on disk to its
folder; a path that goes on from its id is read as the path through its version and what follows;
and the id of such a path leads to the package, whether it is taken from the text or, if the root
does not lie in the cache and the path goes on by names, from the path on disk. -/
theorem cacheId_agrees (hback : '\\' ∉ (p.contracts.relativeTo p.rootPath).text)
    (hcache : cacheFolderName ∉ (p.contracts.relativeTo p.rootPath).written)
    (hname : IsPlain id.name) (hversion : IsPlain id.version) (suffix : Text) :
    (p.rootPath.join ⟨p.cacheId id⟩).normalize = packageFolder p.cacheFolder id ∧
      (∃ l, CacheLocation.ofText? (p.cacheId id ++ '/' :: suffix) = some l ∧
        l.packagePath = p.cacheId id ∧ l.package = id ∧ l.suffix = suffix) ∧
      packageOf? (SourceId.ofText (p.cacheId id ++ '/' :: suffix)) = some id ∧
      (¬ p.cacheFolder.steps <+: p.rootPath.steps → (∀ s ∈ suffix.splitOn '/', IsName s) →
        packageOf? (SourceId.ofPath (p.rootPath.join ⟨p.cacheId id ++ '/' :: suffix⟩) p.rootPath) =
          some id) := by
  rw [written_relativeTo] at hcache
  have hpackage := packageOf?_ofText hback hname hversion hcache suffix
  refine ⟨normalize_join_cacheId hback hname hversion, ?_, hpackage, fun hroot hsuffix => ?_⟩
  · rw [cacheId_eq hback]
    refine ⟨_, (isPlace_way hcache hname hversion).ofText?_packagePath_append suffix, rfl, rfl, ?_⟩
    exact List.intercalate_splitOn '/'
  · rw [ofPath_join_cacheId hback hname hversion hroot hsuffix, hpackage]

/-- A project whose source folder lies beside its root. -/
def beside : Project := ⟨[⟨['r'], by decide⟩], ⟨"../lib".toList⟩, ⟨[], []⟩⟩

/-- A package that is called like the cache. -/
def namesake : PackageId := ⟨cacheFolderName, ['1']⟩

theorem isPlain_namesake : IsPlain namesake.name ∧ IsPlain namesake.version :=
  ⟨⟨isName_cacheFolderName, by decide⟩, ⟨by decide, by decide, by decide⟩, by decide⟩

/-- The way to the source folder spells nothing that is read differently. -/
theorem way_beside : '\\' ∉ (beside.contracts.relativeTo beside.rootPath).text ∧
    cacheFolderName ∉ (beside.contracts.relativeTo beside.rootPath).written := by
  decide +kernel

/-- The cache is outside of the root. -/
theorem cacheId_agrees_beside :
    beside.cacheId namesake = "../lib/.cache/.cache/1".toList ∧
      (beside.rootPath.join ⟨beside.cacheId namesake⟩).normalize =
        packageFolder beside.cacheFolder namesake ∧
      packageOf? (.ofText (beside.cacheId namesake ++ '/' :: "s/T.sol".toList)) =
        some namesake ∧
      packageOf? (.ofPath (beside.rootPath.join
        ⟨beside.cacheId namesake ++ '/' :: "s/T.sol".toList⟩) beside.rootPath) = some namesake := by
  have hroot : ¬ beside.cacheFolder.steps <+: beside.rootPath.steps := by decide +kernel
  have hsplit : "s/T.sol".toList.splitOn '/' = [['s'], "T.sol".toList] := by decide
  have hnames : ∀ s ∈ "s/T.sol".toList.splitOn '/', IsName s := by
    rw [hsplit]
    exact List.forall_mem_cons.mpr ⟨⟨by decide, by decide, by decide⟩,
      List.forall_mem_singleton.mpr ⟨by decide, by decide, by decide⟩⟩
  obtain ⟨hback, hcache⟩ := way_beside
  obtain ⟨hname, hversion⟩ := isPlain_namesake
  obtain ⟨hfolder, -, hpackage, hpath⟩ :=
    cacheId_agrees hback hcache hname hversion "s/T.sol".toList
  exact ⟨by cbv, hfolder, hpackage, hpath hroot hnames⟩

/-- A project whose source folder is called by a byte that is no text. -/
def rawFolder : Project := ⟨[⟨['r'], by decide⟩], ⟨Text.ofBytes [0xFF]⟩, ⟨[], []⟩⟩

/-- A project whose root is the cache of its own source folder. -/
def insideCache : Project :=
  ⟨[⟨['r'], by decide⟩, ⟨cacheFolderName, by decide⟩], ⟨"..".toList⟩, ⟨[], []⟩⟩

/-- **The ways to a package part** in three cases. A source folder whose name is no text is shown in
the ids of packages by another name, and on disk they lead elsewhere than to the folders of the
packages. From a root that lies in the cache, the way to a package does not go through the cache.
And what goes up again from a package is not below it. -/
theorem not_cacheId_agrees :
    (IsPlain namesake.name ∧ IsPlain namesake.version) ∧
      ('\\' ∉ (rawFolder.contracts.relativeTo rawFolder.rootPath).text ∧
        cacheFolderName ∉ (rawFolder.contracts.relativeTo rawFolder.rootPath).written ∧
        (rawFolder.rootPath.join ⟨(rawFolder.rawCacheId namesake).stored⟩).normalize ≠
          packageFolder rawFolder.cacheFolder namesake) ∧
      ('\\' ∉ (insideCache.contracts.relativeTo insideCache.rootPath).text ∧
        cacheFolderName ∉ (insideCache.contracts.relativeTo insideCache.rootPath).written ∧
        packageOf? (.ofPath (insideCache.rootPath.join
          ⟨insideCache.cacheId namesake ++ '/' :: "T.sol".toList⟩) insideCache.rootPath) ≠
            some namesake) ∧
      ('\\' ∉ (beside.contracts.relativeTo beside.rootPath).text ∧
        cacheFolderName ∉ (beside.contracts.relativeTo beside.rootPath).written) ∧
      packageOf? (.ofPath (beside.rootPath.join
        ⟨beside.cacheId namesake ++ '/' :: "../T.sol".toList⟩) beside.rootPath) ≠ some namesake :=
  ⟨isPlain_namesake, by decide +kernel, by decide +kernel, way_beside, by decide +kernel⟩

end Project

end SolPlan
