import SolPlan.Proofs.CacheLocation
import SolPlan.Proofs.Remapping.Keys

/-!
# Which declared packages are reached

What is declared asks for its keys after all entries were added. By then every name that an entry
claims has its configured key, and that key has a value. So of what is declared only packages whose
names no entry claims take keys, and these are their own (`get?_declared`).

Entries claim packages by their names, whatever the version. If an entry names one version of a
package, another version that is declared gets no key.

Results:
* **`get?_declared`**: the value of every key of a table that was built;
* **`reached_or_taken`**: which declared packages have keys that lead to them.
-/

namespace SolPlan

namespace Table

variable {κ ν : Type} [DecidableEq κ]

theorem mem_of_get? {t : Table κ ν} {k : κ} {v : ν} (h : t.get? k = some v) : (k, v) ∈ t.pairs := by
  obtain ⟨front, back, hsplit, -⟩ := List.lookup_eq_some_iff.mp h
  rw [hsplit]
  exact List.mem_append_right _ List.mem_cons_self

end Table

/-- The id of a package ends with its folder. -/
theorem Project.exists_cacheId_eq (p : Project) :
    ∃ front, ∀ id, p.cacheId id = front ++ PackageId.folder id := by
  have hback : ∀ id : PackageId, (cacheFolderName ++ '/' :: id.folder).dropWhile (· == '/') =
      cacheFolderName ++ '/' :: id.folder := fun _ =>
    dropWhile_slash (by rw [head?_cacheFolderName_append]; decide)
  unfold cacheId cacheIdBelow joinSlash
  simp only [hback]
  cases Text.dropEndWhile (· == '/') p.contractsId.text with
  | nil => exact ⟨cacheFolderName ++ ['/'], fun id => by simp⟩
  | cons c front =>
    exact ⟨c :: front ++ '/' :: (cacheFolderName ++ ['/']), fun id => by simp⟩

theorem Project.folder_of_cacheId {p : Project} {id other : PackageId}
    (h : p.cacheId id = p.cacheId other) : id.folder = other.folder := by
  obtain ⟨front, hfront⟩ := p.exists_cacheId_eq
  rw [hfront, hfront] at h
  exact List.append_cancel_left h

/-- The names that entries claim. -/
def claimedNames (r : Registry) (entries : List RemapEntry) : List Text :=
  entries.filterMap fun e => (e.meaning r).map Prod.fst

theorem Registry.id_mem_declaredPackages {r : Registry} {d : Dependency} (hd : d ∈ r.declared) :
    d.id ∈ r.declaredPackages := by
  obtain ⟨below, hbelow⟩ := d.packages_eq_cons
  exact List.mem_flatMap.mpr ⟨d, hd, hbelow ▸ List.mem_cons_self⟩

namespace Sheet

variable {p : Project} {r : Registry} {s : Sheet} {claimed : List Text}

/-- The names that are claimed after some entries. -/
theorem HasClaimed.addAll (hclaimed : s.HasClaimed claimed) (entries : List RemapEntry) :
    (s.addAll p r entries).HasClaimed (claimedNames r entries ++ claimed) := by
  induction entries generalizing s claimed with
  | nil => exact hclaimed
  | cons e entries ih =>
    unfold claimedNames
    rw [List.filterMap_cons]
    cases hmeaning : e.meaning r with
    | none =>
      rw [addAll_cons_of_none hmeaning]
      exact ih hclaimed
    | some meaning =>
      obtain ⟨name, packages⟩ := meaning
      rw [addAll_cons_of_some hmeaning]
      intro other
      rw [← ih ((hclaimed.insert s.table name e.key).reachAll packages)]
      simp only [Option.map_some, List.mem_append, List.mem_cons]
      unfold claimedNames
      tauto

/-- Every key that claims a name has a value. -/
def Written (s : Sheet) : Prop :=
  ∀ name key, s.claims.get? name = some key → ∃ value, s.table.get? key = some value

/-- An entry that claims a name brings a package of that name, so its key gets a value. -/
theorem Written.addAll (h : s.Written) (entries : List RemapEntry) :
    (s.addAll p r entries).Written := by
  induction entries generalizing s with
  | nil => exact h
  | cons e entries ih =>
    cases hmeaning : e.meaning r with
    | none =>
      rw [addAll_cons_of_none hmeaning]
      refine ih fun name key hclaim => ?_
      obtain ⟨value, hvalue⟩ := h name key hclaim
      rw [Table.get?_insert]
      split
      · exact ⟨_, rfl⟩
      · exact ⟨value, hvalue⟩
    | some meaning =>
      obtain ⟨name, packages⟩ := meaning
      obtain ⟨id, below, rfl, rfl⟩ := RemapEntry.exists_of_meaning hmeaning
      rw [addAll_cons_of_some hmeaning]
      refine ih fun other key hclaim => ?_
      rw [claims_reachAll, Table.get?_insert] at hclaim
      split at hclaim
      · cases hclaim
        rw [get?_reachAll_claim]
        cases s.table.get? e.key with
        | none => exact ⟨_, rfl⟩
        | some value => exact ⟨value, rfl⟩
      · obtain ⟨value, hvalue⟩ := h other key hclaim
        exact ⟨value, by rw [get?_reachAll, hvalue, Option.some_or]⟩

theorem written_empty : empty.Written := fun name _ h => absurd h (claims_empty name)

end Sheet

namespace RemappingTable

variable {p : Project} {r : Registry} {depot depot' : Depot} {table : RemappingTable}

/-- The table of the configured entries. -/
def configured (p : Project) (r : Registry) : RemappingTable :=
  (Sheet.empty.addAll p r (readEntries p.config.remappings)).table

/-- The names that the configured entries claim. -/
def configuredNames (p : Project) (r : Registry) : List Text :=
  claimedNames r (readEntries p.config.remappings)

/-- The packages that are unpacked for what is declared, as far as no entry claims their names. -/
def freePackages (p : Project) (r : Registry) : List PackageId :=
  r.declaredPackages.filter (·.isFree (configuredNames p r))

theorem mem_freePackages_iff {id : PackageId} :
    id ∈ freePackages p r ↔ id ∈ r.declaredPackages ∧ id.name ∉ configuredNames p r := by
  unfold freePackages
  rw [List.mem_filter, PackageId.isFree_iff]

/-- Some key leads to a package. -/
def Reaches (p : Project) (table : RemappingTable) (id : PackageId) : Prop :=
  ∃ key, table.get? key = some (p.cacheId id)

/-- The own keys of a package are there, but lead elsewhere. -/
def Taken (p : Project) (table : RemappingTable) (id : PackageId) : Prop :=
  ∀ key ∈ id.ownKeys, key ∈ table.keys ∧ table.get? key ≠ some (p.cacheId id)

theorem reaches_iff {id : PackageId} :
    Reaches p table id ↔ p.cacheId id ∈ table.pairs.map Prod.snd := by
  constructor
  · rintro ⟨key, hkey⟩
    exact List.mem_map.mpr ⟨_, Table.mem_of_get? hkey, rfl⟩
  · intro hmem
    obtain ⟨⟨key, _⟩, he, rfl⟩ := List.mem_map.mp hmem
    exact ⟨key, Table.get?_of_mem he⟩

/-- **The value of a key**: what the entries have given it, or the first package that takes it as its
own, of those whose names no entry claims. -/
theorem get?_declared (h : build p r depot = (depot', .ok table)) (key : Text) :
    table.get? key = ((configured p r).get? key).or
      (((freePackages p r).find? (·.owns key)).map p.cacheId) := by
  have hclaimed := Sheet.hasClaimed_empty.addAll (p := p) (r := r) (readEntries p.config.remappings)
  have hwritten := Sheet.written_empty.addAll (p := p) (r := r) (readEntries p.config.remappings)
  rw [List.append_nil] at hclaimed
  rw [eq_reachAll_of_build h, Sheet.get?_reachAll]
  unfold configured
  cases hget : (Sheet.empty.addAll p r (readEntries p.config.remappings)).table.get? key with
  | some value => rfl
  | none =>
    -- a key without a value claims no name
    rw [Sheet.find?_keysFor hclaimed, freePackages, configuredNames]
    intro name hclaim
    obtain ⟨value, hvalue⟩ := hwritten name key hclaim
    rw [hget] at hvalue
    cases hvalue

/-- What no entry claims finds its own keys with some value. -/
theorem mem_keys_of_free (h : build p r depot = (depot', .ok table)) {id : PackageId}
    (hid : id ∈ freePackages p r) {key : Text} (hkey : key ∈ id.ownKeys) : key ∈ table.keys := by
  have hasked : ((freePackages p r).find? (·.owns key)).isSome = true :=
    List.find?_isSome.mpr ⟨id, hid, PackageId.owns_iff.mpr hkey⟩
  obtain ⟨first, hfirst⟩ := Option.isSome_iff_exists.mp hasked
  have hvalue := get?_declared h key
  rw [hfirst, Option.map_some] at hvalue
  cases hconfigured : (configured p r).get? key with
  | some value => exact Table.mem_keys_of_get? (hvalue.trans (by rw [hconfigured, Option.some_or]))
  | none => exact Table.mem_keys_of_get? (hvalue.trans (by rw [hconfigured, Option.none_or]))

theorem Reaches.of_configured (h : build p r depot = (depot', .ok table)) {id : PackageId}
    (hreaches : Reaches p (configured p r) id) : Reaches p table id := by
  obtain ⟨key, hkey⟩ := hreaches
  exact ⟨key, by rw [get?_declared h, hkey, Option.some_or]⟩

/-- **Which declared packages are reached.** One whose name no entry claims is reached, unless its
own keys are taken. One whose name is claimed is reached if the entries lead to it, and only then,
as long as its folder is not that of a package with another name. -/
theorem reached_or_taken (h : build p r depot = (depot', .ok table)) :
    ∀ d ∈ r.declared,
      (d.id.name ∉ configuredNames p r → Reaches p table d.id ∨ Taken p table d.id) ∧
      (Reaches p (configured p r) d.id → Reaches p table d.id) ∧
      (d.id.name ∈ configuredNames p r →
        (∀ id ∈ r.declaredPackages, id.folder = d.id.folder → id.name = d.id.name) →
          Reaches p table d.id → Reaches p (configured p r) d.id) := by
  intro d hd
  have hdeclared := Registry.id_mem_declaredPackages hd
  refine ⟨fun hname => ?_, Reaches.of_configured h, fun hname hfolders hreaches => ?_⟩
  · have hfree := mem_freePackages_iff.mpr ⟨hdeclared, hname⟩
    by_cases hreaches : Reaches p table d.id
    · exact .inl hreaches
    · exact .inr fun key hkey =>
        ⟨mem_keys_of_free h hfree hkey, fun hvalue => hreaches ⟨key, hvalue⟩⟩
  · obtain ⟨key, hkey⟩ := hreaches
    rw [get?_declared h, Option.or_eq_some_iff] at hkey
    rcases hkey with hkey | ⟨-, hkey⟩
    · exact ⟨key, hkey⟩
    · obtain ⟨id, hid, hplace⟩ := Option.map_eq_some_iff.mp hkey
      obtain ⟨hmem, hfree⟩ := mem_freePackages_iff.mp (List.mem_of_find?_eq_some hid)
      rw [hfolders id hmem (Project.folder_of_cacheId hplace)] at hfree
      exact absurd hname hfree

/-- The project declares version 2 of `v`, `w` and `u`. Configured are version 1 of `v`, and `u`. -/
def otherVersion : Project × Registry :=
  (projectWith ["@x=v/1", "k=u/1"],
    ⟨[.mk (bare 'v' '2') [], .mk (bare 'w' '1') [], .mk (bare 'u' '1') []], [.mk (bare 'v' '1') []],
      none⟩)

theorem build_otherVersion :
    ∃ depot table, build otherVersion.1 otherVersion.2 noFiles = (depot, .ok table) :=
  exists_of_isOk (by cbv)

theorem configuredNames_otherVersion :
    configuredNames otherVersion.1 otherVersion.2 = [['v'], ['u']] := by cbv

theorem places_otherVersion :
    (configured otherVersion.1 otherVersion.2).pairs.map Prod.snd =
      ["c/.cache/v/1".toList, "c/.cache/u/1".toList] := by cbv

/-- Version 2 of `v` is not reached. -/
theorem reached_or_taken_otherVersion :
    ∃ depot table, build otherVersion.1 otherVersion.2 noFiles = (depot, .ok table) ∧
      ¬ Reaches otherVersion.1 table ⟨['v'], ['2']⟩ ∧
      (Reaches otherVersion.1 table ⟨['w'], ['1']⟩ ∨ Taken otherVersion.1 table ⟨['w'], ['1']⟩) ∧
      Reaches otherVersion.1 table ⟨['u'], ['1']⟩ := by
  obtain ⟨depot, table, hbuild⟩ := build_otherVersion
  have hdeclared := reached_or_taken hbuild
  rw [configuredNames_otherVersion] at hdeclared
  have hv : otherVersion.1.cacheId ⟨['v'], ['2']⟩ = "c/.cache/v/2".toList := by cbv
  have hu : otherVersion.1.cacheId ⟨['u'], ['1']⟩ = "c/.cache/u/1".toList := by cbv
  refine ⟨depot, table, hbuild, fun hreaches => ?_, ?_, ?_⟩
  · have hpackages : otherVersion.2.declaredPackages =
      [⟨['v'], ['2']⟩, ⟨['w'], ['1']⟩, ⟨['u'], ['1']⟩] := by cbv
    have hfolders : ∀ id ∈ otherVersion.2.declaredPackages,
        id.folder = PackageId.folder ⟨['v'], ['2']⟩ → id.name = ['v'] := by
      rw [hpackages]
      decide
    have hconfigured := (hdeclared (.mk (bare 'v' '2') []) (by simp [otherVersion])).2.2
      (by decide) hfolders hreaches
    rw [reaches_iff, places_otherVersion] at hconfigured
    change otherVersion.1.cacheId ⟨['v'], ['2']⟩ ∈ _ at hconfigured
    rw [hv] at hconfigured
    exact absurd hconfigured (by decide)
  · exact (hdeclared (.mk (bare 'w' '1') []) (by simp [otherVersion])).1 (by decide)
  · refine (hdeclared (.mk (bare 'u' '1') []) (by simp [otherVersion])).2.1 ?_
    rw [reaches_iff, places_otherVersion]
    change otherVersion.1.cacheId ⟨['u'], ['1']⟩ ∈ _
    rw [hu]
    decide

/-- A declared package can be left without a key, although its own keys are free. -/
theorem not_reached_or_taken :
    ¬ ∀ (p : Project) (r : Registry) (depot depot' : Depot) (table : RemappingTable),
      build p r depot = (depot', .ok table) →
        ∀ d ∈ r.declared, Reaches p table d.id ∨ Taken p table d.id := by
  intro hall
  obtain ⟨depot, table, hbuild⟩ := build_otherVersion
  have hpairs : ((build otherVersion.1 otherVersion.2 noFiles).2.toOption.map Table.pairs) =
      some [("@x".toList, "c/.cache/v/1".toList), (['k'], "c/.cache/u/1".toList),
        ("@w".toList, "c/.cache/w/1".toList), (['w'], "c/.cache/w/1".toList)] := by cbv
  rw [hbuild] at hpairs
  replace hpairs : table.pairs = _ := Option.some.inj hpairs
  have hv : otherVersion.1.cacheId ⟨['v'], ['2']⟩ = "c/.cache/v/2".toList := by cbv
  rcases hall _ _ _ _ _ hbuild (.mk (bare 'v' '2') []) (by simp [otherVersion]) with h | h
  · rw [reaches_iff, hpairs] at h
    change otherVersion.1.cacheId ⟨['v'], ['2']⟩ ∈ _ at h
    rw [hv] at h
    exact absurd h (by decide)
  · have hkey := (h ['v'] (by decide)).1
    unfold Table.keys at hkey
    rw [hpairs] at hkey
    exact absurd hkey (by decide)

end RemappingTable

end SolPlan
