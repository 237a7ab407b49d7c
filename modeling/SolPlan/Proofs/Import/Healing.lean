import SolPlan.FileTree.Edit
import SolPlan.Proofs.CacheId
import SolPlan.Proofs.FileTree.Slashes
import SolPlan.Proofs.Import.Resolve

/-!
# Imports that were repaired

An import that points into the cache, but leaves out the source folder of the package, is repaired:
the folder is put after the version, and the value of its key is corrected (`Repaired`). The repair
works on the expanded literal; from then on the corrected value stands for the key, wherever it is
in a literal.

So the import leads to the same target again, without a repair, if its key stands at the start of
the literal and a separator follows it there (`Fits`). A key that has the separator in itself does
not fit: the corrected value ends without a slash, and the folder runs into what follows.

Results:
* `longestMatch_correct`: a corrected table finds the same key;
* `Repaired.find_value`: where the corrected value leads;
* **`resolve_again`**: an import that was repaired, resolved with the corrected table.
-/

namespace SolPlan

/-! ## Corrected tables -/

/-- In the place of a key that is there, a value replaces the one before. -/
theorem Table.put_of_mem {κ ν : Type} [DecidableEq κ] {k : κ} {pairs : List (κ × ν)}
    (hnodup : (pairs.map Prod.fst).Nodup) (h : k ∈ pairs.map Prod.fst) (v : ν) :
    put k v pairs = pairs.map fun e => if e.1 = k then (k, v) else e := by
  induction pairs with
  | nil => exact absurd h List.not_mem_nil
  | cons e pairs ih =>
    obtain ⟨hnew, hnodup⟩ := List.nodup_cons.mp hnodup
    unfold put
    rw [List.map_cons]
    split
    · rename_i hk
      -- no other pair has the key
      have hrest : ∀ e' ∈ pairs, (if e'.1 = k then (k, v) else e') = e' := fun e' he' =>
        if_neg fun hk' : e'.1 = k => hnew (hk ▸ hk' ▸ List.mem_map_of_mem he')
      rw [List.map_congr_left hrest, List.map_id']
    · rename_i hk
      rw [ih hnodup ((List.mem_cons.mp h).resolve_left (Ne.symm hk))]

/-- What a correction makes of an entry. -/
def Correction.overwrite (c : Correction) (e : Text × Text) : Text × Text :=
  if e.1 = c.key then (c.key, c.value) else e

theorem Correction.fst_overwrite (c : Correction) (e : Text × Text) : (c.overwrite e).1 = e.1 := by
  unfold overwrite
  split
  · rename_i hkey
    exact hkey.symm
  · rfl

namespace RemappingTable

variable {table : RemappingTable} {c : Correction}

theorem pairs_correct (h : c.key ∈ table.keys) :
    (table.correct c).pairs = table.pairs.map c.overwrite :=
  Table.put_of_mem table.nodup h c.value

/-- Which entry is better depends on the keys. -/
theorem foldl_better_overwrite (c : Correction) (l : List (Text × Text))
    (best : Option (Text × Text)) :
    (l.map c.overwrite).foldl better (best.map c.overwrite) =
      (l.foldl better best).map c.overwrite := by
  induction l generalizing best with
  | nil => rfl
  | cons e l ih =>
    have hstep : better (best.map c.overwrite) (c.overwrite e) =
        (better best e).map c.overwrite := by
      cases best with
      | none => rfl
      | some b =>
        unfold better
        simp only [Option.map_some, Correction.fst_overwrite]
        split <;> rfl
    rw [List.map_cons, List.foldl_cons, List.foldl_cons, hstep, ih]

/-- **A corrected table finds the same key**, with the corrected value. -/
theorem longestMatch_correct (h : c.key ∈ table.keys) (text : Text) :
    (table.correct c).longestMatch text = (table.longestMatch text).map c.overwrite := by
  have hoccurs : (fun e => decide (Occurs e.1 text)) ∘ c.overwrite =
      fun e => decide (Occurs e.1 text) := by
    funext e
    rw [Function.comp, c.fst_overwrite]
  unfold longestMatch
  rw [pairs_correct h, List.filter_map, hoccurs]
  exact foldl_better_overwrite c _ none

end RemappingTable

namespace Import

variable {t : FileTree} {p : Project} {r : Registry} {table : RemappingTable} {importing : Path}
  {raw : Text} {res : Resolution} {i : Import} {c : Correction}

/-- The import, expanded with an entry. -/
def withEntry (i : Import) (e : Text × Text) : Import := { i with remapping := some e }

/-- The text with `/` as separator, as the import writes it. -/
def toSlash (i : Import) (text : Text) : Text :=
  if i.separator = '\\' then Text.replaceChar '\\' '/' text else text

theorem toSlash_append (i : Import) (a b : Text) :
    i.toSlash (a ++ b) = i.toSlash a ++ i.toSlash b := by
  unfold toSlash Text.replaceChar
  split
  · exact List.map_append
  · rfl

theorem length_toSlash (i : Import) (a : Text) : (i.toSlash a).length = a.length := by
  unfold toSlash Text.replaceChar
  split
  · exact List.length_map _
  · rfl

theorem toSlash_eq_self {a : Text} (h : i.separator = '\\' → '\\' ∉ a) : i.toSlash a = a := by
  unfold toSlash Text.replaceChar
  split
  · rename_i hseparator
    have hsame : ∀ x ∈ a, (if x = '\\' then '/' else x) = x := fun x hx =>
      if_neg fun hback : x = '\\' => h hseparator (hback ▸ hx)
    rw [List.map_congr_left hsame, List.map_id']
  · rfl

theorem toSlash_separator {s : Char} (hs : s = '/' ∨ s = '\\')
    (hseparator : s = '\\' → i.separator = '\\') : i.toSlash [s] = ['/'] := by
  unfold toSlash Text.replaceChar
  rcases hs with rfl | rfl
  · split <;> rfl
  · rw [if_pos (hseparator rfl)]
    rfl

theorem mem_toSlash {x : Char} {a : Text} (hx : x ∈ a) (hback : x ≠ '\\') : x ∈ i.toSlash a := by
  unfold toSlash Text.replaceChar
  split
  · exact List.mem_map.mpr ⟨x, hx, if_neg hback⟩
  · exact hx

/-- The value of an import whose literal starts with the key. -/
theorem value_withEntry {key value rest : Text} (hkey : key ≠ [])
    (hliteral : i.literal = key ++ rest) :
    (i.withEntry (key, value)).value = i.toSlash value ++ i.toSlash rest := by
  have hexpanded : (i.withEntry (key, value)).expanded = value ++ rest := by
    change Text.replaceFirst key value i.literal = value ++ rest
    rw [hliteral]
    exact Text.replaceFirst_append (a := []) hkey fun a' _ _ => Nat.zero_le _
  rw [← toSlash_append, ← hexpanded]
  rfl

/-- How an import was repaired: the value with which it was expanded, the place in the cache that
this points to, the package whose source folder was missing, and the path that was found then. -/
structure Repaired (t : FileTree) (p : Project) (table : RemappingTable) (i : Import) (old : Text)
    (place : CacheLocation) (package : Package) (path : Path) (c : Correction) : Prop where
  absolute : i.isRelative = false
  expanded : table.longestMatch i.literal = some (c.key, old)
  place_eq : CacheLocation.ofText? (i.withEntry (c.key, old)).value = some place
  ends : Text.dropEndWhile (· == '/') old = place.packagePath
  value_eq : c.value = repairedPrefix place package.contractsName
  found : ((bases p).map (·.join ⟨joinSlash c.value place.suffix⟩)).find? t.isFile = some path

/-- An import that is expanded has its longest key. -/
theorem remap_eq_of_remapping (hi : i.remapping = none) {e : Text × Text}
    (h : (i.remap table).remapping = some e) :
    i.isRelative = false ∧ table.longestMatch i.literal = some e ∧
      i.remap table = i.withEntry e := by
  unfold remap at h ⊢
  split at h
  · rw [hi] at h
    cases h
  · rename_i hrelative
    rw [if_neg hrelative]
    have hmatch : table.longestMatch i.literal = some e := h
    exact ⟨by simpa using hrelative, hmatch, by rw [hmatch, withEntry]⟩

theorem exists_repaired (h : Import.resolve t p r table importing raw = .ok res)
    (hc : res.correction = some c) :
    ∃ i old place package path, ofStatement importing raw = .ok i ∧
      Repaired t p table i old place package path c ∧
      res.statement = (i.withEntry (c.key, c.value)).locate t p path := by
  obtain ⟨i, path, hi, hrepair, hstatement⟩ := exists_repair h hc
  obtain ⟨place, d, hplace, -, -, hfound, hcorrection⟩ := repair?_ok hrepair
  obtain ⟨old, hremapping, hends, hvalue⟩ := correction?_ok hcorrection
  obtain ⟨hrelative, hmatch, hremap⟩ := remap_eq_of_remapping (ofStatement_ok hi).1 hremapping
  rw [← hvalue] at hfound
  rw [hremap] at hplace hstatement
  exact ⟨i, old, place, d.package, path, hi,
    ⟨hrelative, hmatch, hplace, hends, hvalue, hfound⟩, hstatement⟩

/-- A character that separates the pieces of a literal. -/
def IsSeparator (c : Char) : Prop := c = '/' ∨ c = '\\'

/-- What stands after a key ends there, or goes on after a separator with more than separators. -/
def Continues (rest : Text) : Prop :=
  rest = [] ∨ ∃ s more, rest = s :: more ∧ IsSeparator s ∧ ∃ c ∈ more, ¬ IsSeparator c

/-- In an import, the corrected value can stand for the key: the literal starts with the key and goes
on as a path, and the value has no backslash that would be taken for a separator. -/
structure Fits (i : Import) (c : Correction) : Prop where
  literal : ∃ rest, i.literal = c.key ++ rest ∧ Continues rest
  plain : i.separator = '\\' → '\\' ∉ c.value

namespace Repaired

variable {old rest : Text} {place : CacheLocation} {package : Package} {path : Path}

theorem key_ne_nil (h : Repaired t p table i old place package path c) : c.key ≠ [] :=
  (RemappingTable.occurs_of_longestMatch h.expanded).1

/-- What follows the version is what follows the key, slashes at the start aside. -/
theorem dropWhile_suffix (h : Repaired t p table i old place package path c)
    (hliteral : i.literal = c.key ++ rest) :
    place.suffix.dropWhile (· == '/') = (i.toSlash rest).dropWhile (· == '/') := by
  have hold : place.packagePath ++ old.rtakeWhile (· == '/') = old :=
    h.ends ▸ List.rdropWhile_append_rtakeWhile
  have hslash : ∀ x ∈ old.rtakeWhile (· == '/'), (x == '/') = true := fun x hx =>
    List.mem_rtakeWhile_imp (p := fun c => c == '/') hx
  have hslashes : i.toSlash (old.rtakeWhile (· == '/')) = old.rtakeWhile (· == '/') :=
    toSlash_eq_self fun _ hback => absurd (hslash _ hback) (by decide)
  have hvalue : (i.withEntry (c.key, old)).value =
      i.toSlash place.packagePath ++ (old.rtakeWhile (· == '/') ++ i.toSlash rest) := by
    have holds : i.toSlash old = i.toSlash place.packagePath ++ old.rtakeWhile (· == '/') :=
      calc i.toSlash old
        _ = i.toSlash (place.packagePath ++ old.rtakeWhile (· == '/')) := by rw [hold]
        _ = i.toSlash place.packagePath ++ old.rtakeWhile (· == '/') := by
          rw [toSlash_append, hslashes]
    rw [value_withEntry h.key_ne_nil hliteral, holds, List.append_assoc]
  -- the place is cut off at the same length, whatever the separators are
  have htail : ∀ tail, (i.withEntry (c.key, old)).value = place.packagePath ++ tail →
      tail.dropWhile (· == '/') = (i.toSlash rest).dropWhile (· == '/') := fun tail h => by
    obtain ⟨-, htail⟩ := List.append_inj (hvalue.symm.trans h) (i.length_toSlash _)
    rw [← htail, List.dropWhile_append_of_pos hslash]
  rcases CacheLocation.eq_packagePath_of_ofText? h.place_eq with ⟨hends, hsuffix⟩ | hgoes
  · rw [hsuffix]
    exact htail [] (by rw [hends, List.append_nil])
  · rw [← htail _ hgoes, List.dropWhile_cons_of_pos (by decide)]

theorem dropEndWhile_value (h : Repaired t p table i old place package path c) :
    Text.dropEndWhile (· == '/') c.value = c.value := by
  obtain ⟨pieces, hpieces, hfolder⟩ := package.contracts.exists_dropWhile_slashed
  rw [h.value_eq]
  refine dropEndWhile_joinSlash ?_ ?_
  · rw [← h.ends]
    exact List.rdropWhile_idempotent _ _
  · exact hfolder ▸ dropEndWhile_join hpieces

theorem value_ne_nil (h : Repaired t p table i old place package path c) : c.value ≠ [] := by
  intro hnil
  obtain ⟨rest, hrest⟩ :=
    (CacheLocation.ofText?_spec h.place_eq).ofText?_joinSlash h.ends package.contractsName
  have hvalue : joinSlash place.packagePath package.contractsName = [] := h.value_eq.symm.trans hnil
  rw [hvalue] at hrest
  cases hrest

/-- **The corrected value leads where the repair has led.** -/
theorem find_value (h : Repaired t p table i old place package path c)
    (hliteral : i.literal = c.key ++ rest) (hrest : Continues rest)
    (hseparator : '\\' ∈ i.literal → i.separator = '\\') (base : Path) :
    t.find (base.join ⟨c.value ++ i.toSlash rest⟩) =
      t.find (base.join ⟨joinSlash c.value place.suffix⟩) := by
  have hsuffix := h.dropWhile_suffix hliteral
  rcases hrest with rfl | ⟨s, more, rfl, hs, x, hx, hplain⟩
  · have hnil : i.toSlash [] = [] := List.length_eq_zero_iff.mp (i.length_toSlash [])
    rw [hnil] at hsuffix ⊢
    rw [joinSlash_congr hsuffix, joinSlash_nil h.dropEndWhile_value, List.append_nil]
  · obtain ⟨hslash, hback⟩ := not_or.mp hplain
    have hmem : s ∈ i.literal := hliteral ▸ List.mem_append_right _ List.mem_cons_self
    have hmore : i.toSlash (s :: more) = '/' :: i.toSlash more := by
      rw [← List.singleton_append, toSlash_append,
        toSlash_separator hs fun hback => hseparator (hback ▸ hmem)]
      rfl
    have hne : (i.toSlash more).dropWhile (· == '/') ≠ [] := fun hnil =>
      hslash (beq_iff_eq.mp (List.dropWhile_eq_nil_iff.mp hnil x (mem_toSlash hx hback)))
    rw [hmore, List.dropWhile_cons_of_pos (by decide)] at hsuffix
    rw [hmore, joinSlash_congr hsuffix,
      joinSlash_of_dropWhile_ne h.dropEndWhile_value h.value_ne_nil hne]
    exact FileTree.find_join_slashes base h.value_ne_nil _

/-- With the corrected value, the import leads to the same place without a repair. -/
theorem exists_findPath? (h : Repaired t p table i old place package path c) (hfits : Fits i c)
    (hseparator : '\\' ∈ i.literal → i.separator = '\\') (importing : Path) :
    ∃ path', (i.withEntry (c.key, c.value)).findPath? t p importing = some path' ∧
      t.resolve path' = t.resolve path := by
  obtain ⟨⟨rest, hliteral, hrest⟩, hplain⟩ := hfits
  have hfind := h.find_value hliteral hrest hseparator
  have hvalue : (i.withEntry (c.key, c.value)).value = c.value ++ i.toSlash rest := by
    rw [value_withEntry h.key_ne_nil hliteral, toSlash_eq_self hplain]
  have hfound := h.found
  rw [List.find?_map] at hfound
  obtain ⟨base, hbase, rfl⟩ := Option.map_eq_some_iff.mp hfound
  have hsame : t.isFile ∘ (fun b : Path => b.join ⟨c.value ++ i.toSlash rest⟩) =
      t.isFile ∘ fun b : Path => b.join ⟨joinSlash c.value place.suffix⟩ := by
    funext b
    unfold Function.comp FileTree.isFile FileTree.lookup?
    rw [hfind]
  refine ⟨base.join ⟨c.value ++ i.toSlash rest⟩, ?_, ?_⟩
  · have hrelative : (i.withEntry (c.key, c.value)).isRelative = false := h.absolute
    unfold findPath?
    rw [if_neg (by simp [hrelative]), hvalue, List.find?_append, List.find?_map, hsame, hbase]
    rfl
  · have hfile : t.isFile (base.join ⟨joinSlash c.value place.suffix⟩) = true :=
      List.find?_some h.found
    obtain ⟨l, -, hl⟩ := FileTree.mem_entries_of_isFile hfile
    unfold FileTree.resolve
    rw [hfind, hl]

end Repaired

/-- The target of an import is where its path leads to. -/
theorem locate_congr {path path' : Path} (h : t.resolve path = t.resolve path') :
    i.locate t p path = i.locate t p path' := by
  unfold locate
  rw [h]

/-- An import that was repaired is expanded with the corrected value when it is resolved again. -/
theorem remap_correct (hi : i.isRelative = false) {old : Text}
    (h : table.longestMatch i.literal = some (c.key, old)) :
    i.remap (table.correct c) = i.withEntry (c.key, c.value) := by
  have hkey : c.key ∈ table.keys :=
    List.mem_map.mpr ⟨_, RemappingTable.mem_of_longestMatch h, rfl⟩
  unfold remap withEntry
  rw [if_neg (by simp [hi]), RemappingTable.longestMatch_correct hkey, h, Option.map_some,
    Correction.overwrite, if_pos rfl]

/-- **An import that was repaired is not repaired again.** When the statement is resolved with the
corrected table, it is expanded with the corrected value; if the key fits the value, this leads to
the same target, and nothing is corrected. -/
theorem resolve_again (h : Import.resolve t p r table importing raw = .ok res)
    (hc : res.correction = some c) :
    (∃ i, ofStatement importing raw = .ok i ∧
      Import.resolve t p r (table.correct c) importing raw =
        .ok ((i.withEntry (c.key, c.value)).findTarget t p r importing)) ∧
    (Fits res.statement c →
      Import.resolve t p r (table.correct c) importing raw = .ok ⟨res.statement, none⟩) := by
  obtain ⟨i, old, place, package, path, hi, hrepaired, hstatement⟩ := exists_repaired h hc
  have hagain : Import.resolve t p r (table.correct c) importing raw =
      .ok ((i.withEntry (c.key, c.value)).findTarget t p r importing) := by
    unfold Import.resolve
    rw [hi, ← remap_correct hrepaired.absolute hrepaired.expanded]
    rfl
  refine ⟨⟨i, hi, hagain⟩, fun hfits => ?_⟩
  rw [hstatement] at hfits ⊢
  obtain ⟨-, -, hseparator⟩ := ofStatement_ok hi
  obtain ⟨path', hpath', hsame⟩ :=
    hrepaired.exists_findPath? ⟨hfits.literal, hfits.plain⟩ hseparator importing
  rw [hagain]
  unfold findTarget
  rw [hpath', ← locate_congr hsame]

/-- The project in the root directory has its sources there; the package `v` has them in `s`. -/
def withVendor : Project × Registry :=
  (⟨[], ⟨[]⟩, ⟨[], []⟩⟩,
    ⟨[.mk ⟨⟨['v'], ['1']⟩, ⟨"/p".toList⟩, ⟨['s']⟩, ⟨[], []⟩⟩ []], [], none⟩)

/-- The package is unpacked, and has one file. -/
def unpackedVendor : FileTree :=
  FileTree.empty.place ⟨"/.cache/v/1/s/T".toList⟩ (some (.text []))

/-- Resolve an import of that file. -/
def resolveVendor (table : RemappingTable) : Except Error Resolution :=
  Import.resolve unpackedVendor withVendor.1 withVendor.2 table ⟨"/A".toList⟩ "'v/T'".toList

/-- The folder of the package, and the one of its sources. -/
def vendorFolders : Text × Text := (".cache/v/1".toList, ".cache/v/1/s".toList)

/-- The import of the file with a corrected key. -/
def vendorImport (key : Text) : Import :=
  ⟨'\'', '/', "v/T".toList, some (key, vendorFolders.2),
    some ⟨.ofText ".cache/v/1/s/T".toList, ⟨"/.cache/v/1/s/T".toList⟩⟩, some ⟨['v'], ['1']⟩⟩

theorem resolveVendor_name : resolveVendor (.ofList [(['v'], vendorFolders.1)]) =
    .ok ⟨vendorImport ['v'], some ⟨['v'], vendorFolders.2⟩⟩ := by
  cbv

/-- The import of the file is corrected once. -/
theorem resolve_again_vendor :
    Fits (vendorImport ['v']) ⟨['v'], vendorFolders.2⟩ ∧
      resolveVendor (.correct (.ofList [(['v'], vendorFolders.1)]) ⟨['v'], vendorFolders.2⟩) =
        .ok ⟨vendorImport ['v'], none⟩ := by
  have hfits : Fits (vendorImport ['v']) ⟨['v'], vendorFolders.2⟩ := by
    refine ⟨⟨"/T".toList, rfl, .inr ⟨'/', ['T'], rfl, .inl rfl, 'T', List.mem_cons_self, ?_⟩⟩, ?_⟩
    · unfold IsSeparator
      decide
    · exact fun h => absurd h (by decide)
  exact ⟨hfits, (resolve_again resolveVendor_name rfl).2 hfits⟩

/-- With a slash at the end of the key, the import is corrected, and then leads nowhere. -/
theorem resolveVendor_slash :
    resolveVendor (.ofList [("v/".toList, vendorFolders.1 ++ ['/'])]) =
      .ok ⟨vendorImport "v/".toList, some ⟨"v/".toList, vendorFolders.2⟩⟩ := by
  cbv

theorem resolveVendor_corrected :
    (resolveVendor (.correct (.ofList [("v/".toList, vendorFolders.1 ++ ['/'])])
      ⟨"v/".toList, vendorFolders.2⟩)).toOption.map (·.statement.isResolved) = some false := by
  cbv

/-- An import need not lead to the same file when its key was corrected for it. -/
theorem not_resolve_again :
    ¬ ∀ (t : FileTree) (p : Project) (r : Registry) (table : RemappingTable) (importing : Path)
      (raw : Text) (res : Resolution) (c : Correction),
      Import.resolve t p r table importing raw = .ok res → res.correction = some c →
        ∃ res', Import.resolve t p r (table.correct c) importing raw = .ok res' ∧
          res'.statement.target.map Target.id = res.statement.target.map Target.id ∧
          res'.correction = none := by
  intro hall
  obtain ⟨res', hres', htarget, -⟩ := hall _ _ _ _ _ _ _ _ resolveVendor_slash rfl
  have hagain := resolveVendor_corrected
  unfold resolveVendor at hagain
  rw [hres'] at hagain
  have hunresolved : res'.statement.target.isSome = false := Option.some.inj hagain
  rw [← Option.isSome_map, htarget] at hunresolved
  cases hunresolved

end Import

end SolPlan
