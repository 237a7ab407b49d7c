import Mathlib
import SolPlan.Proofs.Remapping.Building

/-!
# Which packages keys lead to

Every package that is unpacked asks for keys: for the configured key that claims its **name**, or,
if none does so far, for its own (`keysFor`). It gets those that have no value yet. A configured key
that means no package is written, whatever it stood for.

So a configured key leads to the package that its entry means, unless a package that was unpacked
for an earlier entry has asked for the same key as one of its own (`namesake?`).

Results:
* `get?_reachAll`: the value of a key after some packages have asked for keys;
* `get?_addAll_of_not_mem`: the value of a key after some entries that do not have it;
* **`get?_configured`**: the values of the configured keys.
-/

namespace SolPlan

/-- The keys that a package asks for if no configured key claims its name. -/
def PackageId.ownKeys (id : PackageId) : List Text := ['@' :: id.name, id.name]

/-- Is it one of its own keys? -/
def PackageId.owns (id : PackageId) (key : Text) : Bool := id.ownKeys.contains key

/-- Is its name none of these? -/
def PackageId.isFree (claimed : List Text) (id : PackageId) : Bool := !claimed.contains id.name

theorem PackageId.owns_iff {id : PackageId} {key : Text} :
    id.owns key = true ↔ key ∈ id.ownKeys := List.contains_iff_mem

theorem PackageId.isFree_iff {claimed : List Text} {id : PackageId} :
    id.isFree claimed = true ↔ id.name ∉ claimed := by
  unfold isFree
  rw [Bool.not_eq_true', ← Bool.not_eq_true, List.contains_iff_mem]

namespace Dependency

mutual

theorem prefix_packagesAfter (done : List PackageId) :
    ∀ d : Dependency, done <+: packagesAfter done d
  | mk package dependencies => by
    unfold packagesAfter
    split
    · exact List.prefix_rfl
    · exact (List.prefix_append _ _).trans (prefix_allPackagesAfter _ dependencies)

theorem prefix_allPackagesAfter (done : List PackageId) :
    ∀ ds : List Dependency, done <+: allPackagesAfter done ds
  | [] => List.prefix_rfl
  | d :: ds => (prefix_packagesAfter done d).trans (prefix_allPackagesAfter _ ds)

end

/-- A dependency brings itself first. -/
theorem packages_eq_cons (d : Dependency) : ∃ below, d.packages = d.id :: below := by
  obtain ⟨package, dependencies⟩ := d
  obtain ⟨below, h⟩ := prefix_allPackagesAfter ([] ++ [package.id]) dependencies
  refine ⟨below, ?_⟩
  unfold packages packagesAfter
  rw [if_neg List.not_mem_nil, ← h]
  rfl

mutual

/-- What is found has the name and version that were asked for. -/
theorem id_of_find? {id : PackageId} {found : Dependency} :
    ∀ d : Dependency, find? id d = some found → found.id = id
  | mk package dependencies, h => by
    unfold find? at h
    split at h
    · rename_i hid
      cases h
      exact hid
    · exact id_of_findIn? dependencies h

theorem id_of_findIn? {id : PackageId} {found : Dependency} :
    ∀ ds : List Dependency, findIn? id ds = some found → found.id = id
  | [], h => by
    unfold findIn? at h
    cases h
  | d :: ds, h => by
    unfold findIn? at h
    split at h
    · rename_i hfound
      cases h
      exact id_of_find? d hfound
    · exact id_of_findIn? ds h

end

end Dependency

namespace RemapEntry

variable {r : Registry} {e : RemapEntry}

/-- An entry means a package iff what it names is known. -/
theorem meaning_of_found {id : PackageId} {d : Dependency}
    (htarget : e.target? r.installed = some id) (hfound : r.find? id = some d) :
    ∃ below, e.meaning r = some (id.name, id :: below) := by
  obtain ⟨below, hpackages⟩ := d.packages_eq_cons
  rw [Dependency.id_of_findIn? _ hfound] at hpackages
  refine ⟨below, ?_⟩
  unfold meaning
  rw [htarget, Option.bind_some, hfound, Option.map_some, hpackages,
    Dependency.id_of_findIn? _ hfound]

theorem meaning_eq_none_iff : e.meaning r = none ↔ (e.target? r.installed).bind r.find? = none := by
  unfold meaning
  exact Option.map_eq_none_iff

/-- What an entry means is a package with what is below it. -/
theorem exists_of_meaning {name : Text} {packages : List PackageId}
    (h : e.meaning r = some (name, packages)) :
    ∃ id below, id.name = name ∧ packages = id :: below := by
  obtain ⟨d, -, hd⟩ := Option.map_eq_some_iff.mp h
  obtain ⟨below, hpackages⟩ := d.packages_eq_cons
  obtain ⟨rfl, rfl⟩ := Prod.mk.inj hd
  exact ⟨d.id, below, rfl, hpackages⟩

end RemapEntry

/-- The packages that entries bring while no entry claims their names; some names are claimed from
the start. -/
def unclaimed (r : Registry) (claimed : List Text) : List RemapEntry → List PackageId
  | [] => []
  | e :: entries =>
    match e.meaning r with
    | none => unclaimed r claimed entries
    | some (name, packages) =>
      packages.filter (·.isFree (name :: claimed)) ++ unclaimed r (name :: claimed) entries

/-- The first package that takes a key as its own while some entries are added. -/
def namesake? (r : Registry) (entries : List RemapEntry) (key : Text) : Option PackageId :=
  (unclaimed r [] entries).find? (·.owns key)

namespace Table

variable {κ ν : Type} [DecidableEq κ]

theorem exists_get?_of_mem_keys {t : Table κ ν} {k : κ} (h : k ∈ t.keys) :
    ∃ v, t.get? k = some v := by
  obtain ⟨⟨_, v⟩, he, rfl⟩ := List.mem_map.mp h
  exact ⟨v, get?_of_mem he⟩

/-- A key that is absent gets the value, and any other keeps its own. -/
theorem get?_insertIfAbsent_eq_or (t : Table κ ν) (k : κ) (v : ν) (q : κ) :
    (t.insertIfAbsent k v).get? q = (t.get? q).or (if q = k then some v else none) := by
  rw [get?_insertIfAbsent]
  by_cases hq : q = k
  · subst hq
    by_cases hmem : q ∈ t.keys
    · obtain ⟨w, hw⟩ := exists_get?_of_mem_keys hmem
      simp [hmem, hw]
    · have hnone : t.get? q = none :=
        Option.eq_none_iff_forall_ne_some.mpr fun w hw => hmem (mem_keys_of_get? hw)
      simp [hmem, hnone]
  · simp [hq]

end Table

namespace Sheet

variable {p : Project} {r : Registry} {s : Sheet} {e : RemapEntry} {entries : List RemapEntry}
  {packages : List PackageId} {id : PackageId} {key name : Text} {claimed : List Text}

/-- The keys that a package asks for. -/
def keysFor (s : Sheet) (id : PackageId) : List Text :=
  match s.claims.get? id.name with
  | some key => [key]
  | none => id.ownKeys

/-- Let packages ask for their keys. -/
def reachAll (p : Project) (s : Sheet) (packages : List PackageId) : Sheet :=
  (reachSteps p packages).foldl take s

/-- Add entries. -/
def addAll (p : Project) (r : Registry) (s : Sheet) (entries : List RemapEntry) : Sheet :=
  (entries.flatMap (entrySteps p r)).foldl take s

/-- These are the names that are claimed. -/
def HasClaimed (s : Sheet) (claimed : List Text) : Prop :=
  ∀ name, name ∈ claimed ↔ (s.claims.get? name).isSome = true

/-! ## What packages ask for -/

theorem get?_reach (s : Sheet) (id : PackageId) (place key : Text) :
    (s.take (.reach id place)).table.get? key =
      (s.table.get? key).or (if key ∈ s.keysFor id then some place else none) := by
  unfold take keysFor PackageId.ownKeys
  dsimp only
  cases s.claims.get? id.name with
  | some own => simp [Table.get?_insertIfAbsent_eq_or]
  | none =>
    simp only [Table.get?_insertIfAbsent_eq_or, Option.or_assoc, List.mem_cons, List.not_mem_nil,
      or_false]
    by_cases hat : key = '@' :: id.name <;> simp [hat]

@[simp] theorem claims_reachAll (s : Sheet) (packages : List PackageId) :
    (s.reachAll p packages).claims = s.claims := by
  induction packages generalizing s with
  | nil => rfl
  | cons id packages ih => exact ih _

/-- **A key after some packages have asked for keys**: what it was, or the first of them that has
asked for it. -/
theorem get?_reachAll (s : Sheet) (packages : List PackageId) (key : Text) :
    (s.reachAll p packages).table.get? key =
      (s.table.get? key).or ((packages.find? (key ∈ s.keysFor ·)).map p.cacheId) := by
  induction packages generalizing s with
  | nil => simp [reachAll, reachSteps]
  | cons id packages ih =>
    have hstep : s.reachAll p (id :: packages) =
      (s.take (.reach id (p.cacheId id))).reachAll p packages := rfl
    have hkeys : (s.take (.reach id (p.cacheId id))).keysFor = s.keysFor := rfl
    rw [hstep, ih, get?_reach, Option.or_assoc, List.find?_cons, hkeys]
    by_cases hkey : key ∈ s.keysFor id <;> simp [hkey]

/-- A key that claims no name is only asked for as an own key. -/
theorem mem_keysFor_iff (hclaimed : s.HasClaimed claimed)
    (hkey : ∀ name, s.claims.get? name ≠ some key) :
    key ∈ s.keysFor id ↔ id.name ∉ claimed ∧ key ∈ id.ownKeys := by
  rw [hclaimed]
  unfold keysFor
  cases hclaim : s.claims.get? id.name with
  | some own =>
    have : key ≠ own := fun h => hkey id.name (h ▸ hclaim)
    simp [this]
  | none => simp

theorem find?_keysFor (hclaimed : s.HasClaimed claimed)
    (hkey : ∀ name, s.claims.get? name ≠ some key) :
    packages.find? (key ∈ s.keysFor ·) =
      (packages.filter (·.isFree claimed)).find? (·.owns key) := by
  rw [List.find?_filter]
  congr 1
  funext id
  rw [Bool.eq_iff_iff, decide_eq_true_iff, mem_keysFor_iff hclaimed hkey, decide_eq_true_iff,
    PackageId.isFree_iff, PackageId.owns_iff]

/-! ## What entries do -/

theorem addAll_cons_of_none (h : e.meaning r = none) :
    s.addAll p r (e :: entries) = addAll p r ⟨s.table.insert e.key e.value, s.claims⟩ entries := by
  unfold addAll
  rw [List.flatMap_cons, List.foldl_append, entrySteps, h]
  rfl

theorem addAll_cons_of_some (h : e.meaning r = some (name, packages)) :
    s.addAll p r (e :: entries) =
      (reachAll p ⟨s.table, s.claims.insert name e.key⟩ packages).addAll p r entries := by
  unfold addAll reachAll
  rw [List.flatMap_cons, List.foldl_append, entrySteps, h]
  rfl

/-- A package that a key claims has that key, if it is the first to ask for it. -/
theorem get?_reachAll_claim (s : Sheet) (id : PackageId) (key : Text) (below : List PackageId) :
    (reachAll p ⟨s.table, s.claims.insert id.name key⟩ (id :: below)).table.get? key =
      (s.table.get? key).or (some (p.cacheId id)) := by
  have hkeys : keysFor ⟨s.table, s.claims.insert id.name key⟩ id = [key] := by
    unfold keysFor
    dsimp only
    rw [Table.get?_insert, if_pos rfl]
  rw [get?_reachAll, List.find?_cons_of_pos (by simp [hkeys]), Option.map_some]

theorem HasClaimed.insert (hclaimed : s.HasClaimed claimed) (table : RemappingTable)
    (name key : Text) : HasClaimed ⟨table, s.claims.insert name key⟩ (name :: claimed) := by
  intro other
  rw [List.mem_cons, Table.get?_insert]
  by_cases h : other = name
  · simp [h]
  · simp [h, hclaimed other]

theorem HasClaimed.reachAll (hclaimed : s.HasClaimed claimed) (packages : List PackageId) :
    (s.reachAll p packages).HasClaimed claimed := by
  unfold HasClaimed
  rw [claims_reachAll]
  exact hclaimed

theorem addAll_append (s : Sheet) (front back : List RemapEntry) :
    s.addAll p r (front ++ back) = (s.addAll p r front).addAll p r back := by
  unfold addAll
  rw [List.flatMap_append, List.foldl_append]

/-- A key that has a value keeps it until an entry is written to it. -/
theorem get?_addAll_of_get? {value : Text} (hkey : key ∉ entries.map RemapEntry.key)
    (hget : s.table.get? key = some value) :
    (s.addAll p r entries).table.get? key = some value := by
  induction entries generalizing s with
  | nil => exact hget
  | cons e entries ih =>
    have hne : key ≠ e.key := List.ne_of_not_mem_cons hkey
    replace hkey := List.not_mem_of_not_mem_cons hkey
    cases hmeaning : e.meaning r with
    | none =>
      rw [addAll_cons_of_none hmeaning]
      refine ih hkey ?_
      rw [Table.get?_insert, if_neg hne, hget]
    | some meaning =>
      obtain ⟨name, packages⟩ := meaning
      rw [addAll_cons_of_some hmeaning]
      refine ih hkey ?_
      rw [get?_reachAll, hget, Option.some_or]

/-- **A key that no entry has** is only written for a package that takes it as its own. -/
theorem get?_addAll_of_not_mem (hkey : key ∉ entries.map RemapEntry.key)
    (hclaims : ∀ name, s.claims.get? name ≠ some key) (hclaimed : s.HasClaimed claimed) :
    (s.addAll p r entries).table.get? key =
      (s.table.get? key).or
        (((unclaimed r claimed entries).find? (·.owns key)).map p.cacheId) := by
  induction entries generalizing s claimed with
  | nil => exact (Option.or_none).symm
  | cons e entries ih =>
    have hne : key ≠ e.key := List.ne_of_not_mem_cons hkey
    replace hkey := List.not_mem_of_not_mem_cons hkey
    unfold unclaimed
    cases hmeaning : e.meaning r with
    | none =>
      rw [addAll_cons_of_none hmeaning,
        ih (s := ⟨s.table.insert e.key e.value, s.claims⟩) hkey hclaims hclaimed,
        Table.get?_insert, if_neg hne]
    | some meaning =>
      obtain ⟨name, packages⟩ := meaning
      have hclaims' : ∀ other, (s.claims.insert name e.key).get? other ≠ some key := by
        intro other
        rw [Table.get?_insert]
        split
        · exact fun h => hne (Option.some.inj h).symm
        · exact hclaims other
      have hclaimed' := hclaimed.insert s.table name e.key
      rw [addAll_cons_of_some hmeaning,
        ih hkey (by rwa [claims_reachAll]) (hclaimed'.reachAll packages), get?_reachAll,
        find?_keysFor hclaimed' hclaims', Option.or_assoc, List.find?_append, Option.map_or]

/-- The sheet on which nothing is written. -/
def empty : Sheet := ⟨.empty, .empty⟩

theorem claims_empty (name : Text) : empty.claims.get? name ≠ some key :=
  fun h => by cases h

theorem hasClaimed_empty : empty.HasClaimed [] := fun _ =>
  ⟨fun h => absurd h List.not_mem_nil, fun h => absurd h Bool.false_ne_true⟩

end Sheet

/-! ## Tables that were built -/

/-- The packages that are unpacked for what is declared. -/
def Registry.declaredPackages (r : Registry) : List PackageId :=
  r.declared.flatMap Dependency.packages

/-- All entries can be read if a table is built. -/
theorem Draft.ofText_of_addEntries {p : Project} {r : Registry} {raws : List Text} {d e : Draft}
    (h : addEntries p r raws d = (e, .ok ())) :
    raws.map RemapEntry.ofText = (readEntries raws).map .ok := by
  induction raws generalizing d with
  | nil => rfl
  | cons raw raws ih =>
    unfold addEntries at h
    split at h
    · cases h
    · rename_i entry hentry
      split at h
      · cases h
      · rw [List.map_cons, ih h, readEntries_cons hentry, List.map_cons, hentry]

namespace RemappingTable

variable {p : Project} {r : Registry} {depot depot' : Depot} {table : RemappingTable}

theorem ofText_of_build (h : build p r depot = (depot', .ok table)) :
    p.config.remappings.map RemapEntry.ofText = (readEntries p.config.remappings).map .ok := by
  obtain ⟨tree, e, -, -, hall, -⟩ := build_ok h
  obtain ⟨d, hentries, -⟩ := Draft.addAll_ok hall
  exact Draft.ofText_of_addEntries hentries

/-- What is declared asks for its keys after all entries. -/
theorem eq_reachAll_of_build (h : build p r depot = (depot', .ok table)) :
    table = ((Sheet.empty.addAll p r (readEntries p.config.remappings)).reachAll p
      r.declaredPackages).table := by
  rw [table_of_build h]
  unfold ofSteps recipe Sheet.addAll Sheet.reachAll
  rw [List.foldl_append]
  unfold reachSteps Registry.declaredPackages
  rw [List.map_flatMap, List.flatMap_map]
  rfl

/-- **What the configured keys stand for.** All entries can be read. If their keys are distinct, the
key of an entry that means no known package stands for the value, and that of any other for the
place of its package, or of the one that has taken the key before. -/
theorem get?_configured (h : build p r depot = (depot', .ok table)) :
    p.config.remappings.map RemapEntry.ofText = (readEntries p.config.remappings).map .ok ∧
      (((readEntries p.config.remappings).map RemapEntry.key).Nodup →
        ∀ front e back, readEntries p.config.remappings = front ++ e :: back →
          ((e.target? r.installed).bind r.find? = none → table.get? e.key = some e.value) ∧
          ∀ id d, e.target? r.installed = some id → r.find? id = some d →
            table.get? e.key = some (p.cacheId ((namesake? r front e.key).getD id))) := by
  refine ⟨ofText_of_build h, fun hnodup front e back hentries => ?_⟩
  rw [eq_reachAll_of_build h]
  rw [hentries, List.map_append, List.map_cons, List.nodup_append] at hnodup
  rw [hentries, Sheet.addAll_append]
  obtain ⟨-, hback, hdisjoint⟩ := hnodup
  have hfront : e.key ∉ front.map RemapEntry.key := fun hmem =>
    hdisjoint e.key hmem e.key List.mem_cons_self rfl
  have hkeep : ∀ {s : Sheet} {value : Text}, s.table.get? e.key = some value →
      ((s.addAll p r back).reachAll p r.declaredPackages).table.get? e.key = some value := by
    intro s value hvalue
    rw [Sheet.get?_reachAll, Sheet.get?_addAll_of_get? (List.nodup_cons.mp hback).1 hvalue,
      Option.some_or]
  constructor
  · intro hnone
    rw [Sheet.addAll_cons_of_none (RemapEntry.meaning_eq_none_iff.mpr hnone)]
    refine hkeep ?_
    rw [Table.get?_insert, if_pos rfl]
  · intro id d htarget hfound
    obtain ⟨below, hmeaning⟩ := RemapEntry.meaning_of_found htarget hfound
    rw [Sheet.addAll_cons_of_some hmeaning]
    refine hkeep ?_
    rw [Sheet.get?_reachAll_claim, Sheet.get?_addAll_of_not_mem hfront Sheet.claims_empty
      Sheet.hasClaimed_empty]
    unfold namesake?
    cases (unclaimed r [] front).find? (·.owns e.key) <;> rfl

/-- A package without sources, installed in the root directory. -/
def bare (name version : Char) : Package := ⟨⟨[name], [version]⟩, ⟨['/']⟩, ⟨['s']⟩, ⟨[], []⟩⟩

/-- The project in the root directory, with its sources in `c`, and these entries. -/
def projectWith (entries : List String) : Project := ⟨[], ⟨['c']⟩, ⟨entries.map String.toList, []⟩⟩

/-- There are no files. -/
def noFiles : Depot := ⟨.empty, 0⟩

/-- The key `@b` is configured for `o`, after `a`, which depends on `b`. -/
def shadowed : Project × Registry :=
  (projectWith ["@a=a/1", "@b=o/2", "l=x/y/z"],
    ⟨[.mk (bare 'a' '1') [.mk (bare 'b' '1') []], .mk (bare 'o' '2') []], [], none⟩)

theorem build_shadowed :
    ∃ depot table, build shadowed.1 shadowed.2 noFiles = (depot, .ok table) :=
  exists_of_isOk (by cbv)

theorem readEntries_shadowed : readEntries shadowed.1.config.remappings =
    [⟨"@a".toList, "a/1".toList⟩, ⟨"@b".toList, "o/2".toList⟩, ⟨"l".toList, "x/y/z".toList⟩] := by
  cbv

/-- The keys of `a` and of the path stand for what is configured, but `@b` has come to stand for the
package that `a` depends on. -/
theorem get?_configured_shadowed :
    ∃ depot table, build shadowed.1 shadowed.2 noFiles = (depot, .ok table) ∧
      table.get? "@a".toList = some (shadowed.1.cacheId ⟨['a'], ['1']⟩) ∧
      table.get? "@b".toList = some (shadowed.1.cacheId ⟨['b'], ['1']⟩) ∧
      table.get? "l".toList = some "x/y/z".toList := by
  obtain ⟨depot, table, hbuild⟩ := build_shadowed
  obtain ⟨-, hvalues⟩ := get?_configured hbuild
  rw [readEntries_shadowed] at hvalues
  replace hvalues := hvalues (by decide)
  refine ⟨depot, table, hbuild, ?_, ?_, ?_⟩
  · exact (hvalues [] _ _ rfl).2 ⟨['a'], ['1']⟩ _ (by cbv) rfl
  · have hb := (hvalues [_] _ _ rfl).2 ⟨['o'], ['2']⟩ _ (by cbv) rfl
    have hnamesake : namesake? shadowed.2 [⟨"@a".toList, "a/1".toList⟩] "@b".toList =
      some ⟨['b'], ['1']⟩ := by cbv
    rw [hnamesake] at hb
    exact hb
  · exact (hvalues [_, _] _ [] rfl).1 (by cbv)

/-- A configured key need not lead to the package that is configured. -/
theorem not_get?_configured :
    ¬ ∀ (p : Project) (r : Registry) (depot depot' : Depot) (table : RemappingTable),
      build p r depot = (depot', .ok table) →
        ((readEntries p.config.remappings).map RemapEntry.key).Nodup →
          ∀ e ∈ readEntries p.config.remappings, ∀ id d, e.target? r.installed = some id →
            r.find? id = some d → table.get? e.key = some (p.cacheId id) := by
  intro hall
  obtain ⟨depot, table, hbuild⟩ := build_shadowed
  have hvalue : ((build shadowed.1 shadowed.2 noFiles).2.toOption.bind
      (·.get? "@b".toList)) = some (shadowed.1.cacheId ⟨['b'], ['1']⟩) := by cbv
  have hb := hall _ _ _ _ _ hbuild (by rw [readEntries_shadowed]; decide)
    ⟨"@b".toList, "o/2".toList⟩ (by rw [readEntries_shadowed]; decide) ⟨['o'], ['2']⟩ _ (by cbv) rfl
  rw [hbuild] at hvalue
  have hdiffer : shadowed.1.cacheId ⟨['o'], ['2']⟩ ≠ shadowed.1.cacheId ⟨['b'], ['1']⟩ := by
    cbv
    decide
  exact hdiffer (Option.some.inj (hb.symm.trans hvalue))

end RemappingTable

end SolPlan
