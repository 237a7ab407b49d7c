import Mathlib.Data.List.MinMax
import SolPlan.Import.Resolve

/-!
# Where imports lead

An import is expanded with an entry of the table, or not at all (`mem_of_remap`). It leads to a
file, unless it is relative: then it leads to its place seen from the importing file, whatever is
there.

Results:
* `resolve_malformed`, `exists_resolve`: which statements can be resolved;
* `mem_of_resolve`: with what an import was expanded;
* `exists_repair`, `repair?_ok`: where a correction comes from;
* **`target_of_resolve`**: where an import leads.
-/

namespace SolPlan

namespace RemappingTable

variable {table : RemappingTable} {text : Text} {e : Text × Text}

/-- The longest match is the first of the longest keys that occur. -/
theorem longestMatch_eq_argmax (table : RemappingTable) (text : Text) :
    table.longestMatch text =
      (table.pairs.filter fun entry => Occurs entry.1 text).argmax fun entry => entry.1.size := by
  unfold longestMatch List.argmax
  congr 1
  funext best entry
  cases best <;> rfl

theorem mem_filter_of_longestMatch (h : table.longestMatch text = some e) :
    e ∈ table.pairs.filter fun entry => Occurs entry.1 text := by
  rw [longestMatch_eq_argmax] at h
  exact List.argmax_mem h

/-- A match is an entry of the table. -/
theorem mem_of_longestMatch (h : table.longestMatch text = some e) : e ∈ table.pairs :=
  (List.mem_filter.mp (mem_filter_of_longestMatch h)).1

theorem occurs_of_longestMatch (h : table.longestMatch text = some e) : Occurs e.1 text :=
  of_decide_eq_true (List.mem_filter.mp (mem_filter_of_longestMatch h)).2

end RemappingTable

namespace Import

variable {t : FileTree} {p : Project} {r : Registry} {table : RemappingTable} {importing : Path}
  {raw : Text} {res : Resolution}

/-- Of what a statement that can be read is made. -/
theorem ofStatement_eq_ok_iff {i : Import} : ofStatement importing raw = .ok i ↔
    ∃ front back, raw = front ++ i.quote :: (i.literal ++ i.quote :: back) ∧
      i.quote ∉ front ∧ i.quote ∉ i.literal ∧
      i = ⟨if '"' ∈ raw then '"' else '\'', if '\\' ∈ raw then '\\' else '/', i.literal,
        none, none, none⟩ := by
  unfold ofStatement
  dsimp only
  constructor
  · intro h
    split at h
    · rename_i literal back hliteral
      cases h
      obtain ⟨⟨front, rest⟩, hfirst, hsecond⟩ := Option.bind_eq_some_iff.mp hliteral
      obtain ⟨hraw, hfront⟩ := Text.cut?_eq_some_iff.mp hfirst
      obtain ⟨rfl, hquote⟩ := Text.cut?_eq_some_iff.mp hsecond
      exact ⟨front, back, hraw, hfront, hquote, rfl⟩
    · cases h
  · rintro ⟨front, back, hraw, hfront, hliteral, hi⟩
    have hquote : (if '"' ∈ raw then '"' else '\'') = i.quote := by rw [hi]
    have hfirst := Text.cut?_eq_some_iff.mpr ⟨hraw, hfront⟩
    have hsecond : Text.cut? i.quote (i.literal ++ i.quote :: back) = some (i.literal, back) :=
      Text.cut?_eq_some_iff.mpr ⟨rfl, hliteral⟩
    rw [hquote, hfirst, Option.bind_some, hsecond]
    rw [hquote] at hi
    exact congrArg _ hi.symm

theorem mem_of_mem_literal {i : Import} (h : ofStatement importing raw = .ok i) {c : Char}
    (hc : c ∈ i.literal) : c ∈ raw := by
  obtain ⟨front, back, hraw, -⟩ := ofStatement_eq_ok_iff.mp h
  rw [hraw]
  exact List.mem_append_right _ (List.mem_cons_of_mem _ (List.mem_append_left _ hc))

/-- What a statement writes is not expanded yet, and has `/` as separator unless it holds a
backslash. -/
theorem ofStatement_ok {i : Import} (h : ofStatement importing raw = .ok i) :
    i.remapping = none ∧ i.target = none ∧ ('\\' ∈ i.literal → i.separator = '\\') := by
  obtain ⟨front, back, -, -, -, hi⟩ := ofStatement_eq_ok_iff.mp h
  refine ⟨by rw [hi], by rw [hi], fun hback => ?_⟩
  have hmem := mem_of_mem_literal h hback
  rw [hi]
  exact if_pos hmem

/-- Resolving a statement that can be read expands it, and then looks for its target. -/
theorem resolve_ok (h : Import.resolve t p r table importing raw = .ok res) :
    ∃ i, ofStatement importing raw = .ok i ∧ res = (i.remap table).findTarget t p r importing := by
  unfold Import.resolve at h
  cases hi : ofStatement importing raw with
  | error e => rw [hi] at h; cases h
  | ok i =>
    rw [hi] at h
    cases h
    exact ⟨i, rfl, rfl⟩

/-- The statement has no literal: the quote that would enclose it is not there twice. -/
def Malformed (raw : Text) : Prop := raw.count (if '"' ∈ raw then '"' else '\'') < 2

instance (raw : Text) : Decidable (Malformed raw) := by
  unfold Malformed
  infer_instance

/-- A text with less than two of a character cannot be cut there twice. -/
theorem cut?_twice_eq_none_iff {c : Char} {text : Text} :
    ((Text.cut? c text).bind fun (_, rest) => Text.cut? c rest) = none ↔ text.count c < 2 := by
  cases hfirst : Text.cut? c text with
  | none =>
    have hcount : text.count c = 0 := List.count_eq_zero.mpr (Text.cut?_eq_none_iff.mp hfirst)
    simp [hcount]
  | some parts =>
    obtain ⟨front, rest⟩ := parts
    obtain ⟨rfl, hfront⟩ := Text.cut?_eq_some_iff.mp hfirst
    have hcount : (front ++ c :: rest).count c = rest.count c + 1 := by
      rw [List.count_append, List.count_eq_zero.mpr hfront, List.count_cons_self, Nat.zero_add]
    rw [Option.bind_some, Text.cut?_eq_none_iff, hcount, ← List.count_eq_zero]
    omega

/-- A statement without a literal cannot be resolved. -/
theorem resolve_malformed (h : Malformed raw) :
    Import.resolve t p r table importing raw = .error (.unreadableImport importing raw) := by
  unfold Import.resolve ofStatement
  dsimp only
  rw [cut?_twice_eq_none_iff.mpr h]
  rfl

/-- All others can. -/
theorem exists_resolve (h : ¬ Malformed raw) :
    ∃ res, Import.resolve t p r table importing raw = .ok res := by
  unfold Import.resolve ofStatement
  dsimp only
  cases hliteral : (Text.cut? (if '"' ∈ raw then '"' else '\'') raw).bind fun (_, rest) =>
      Text.cut? (if '"' ∈ raw then '"' else '\'') rest with
  | none => exact absurd (cut?_twice_eq_none_iff.mp hliteral) h
  | some parts => exact ⟨_, rfl⟩

/-! ## With what an import is expanded -/

@[simp] theorem isRelative_remap (i : Import) : (i.remap table).isRelative = i.isRelative := by
  unfold remap
  split <;> rfl

@[simp] theorem literal_remap (i : Import) : (i.remap table).literal = i.literal := by
  unfold remap
  split <;> rfl

@[simp] theorem separator_remap (i : Import) : (i.remap table).separator = i.separator := by
  unfold remap
  split <;> rfl

@[simp] theorem target_remap (i : Import) : (i.remap table).target = i.target := by
  unfold remap
  split <;> rfl

/-- An import is expanded with an entry of the table. -/
theorem mem_of_remap {i : Import} (hi : ofStatement importing raw = .ok i) {e : Text × Text}
    (he : (i.remap table).remapping = some e) : e ∈ table.pairs := by
  unfold remap at he
  split at he
  · rw [(ofStatement_ok hi).1] at he
    cases he
  · exact RemappingTable.mem_of_longestMatch he

/-- Unless the table is corrected, an import stays expanded with an entry of it. -/
theorem mem_of_resolve (h : Import.resolve t p r table importing raw = .ok res)
    (hquiet : res.correction = none) {e : Text × Text} (he : res.statement.remapping = some e) :
    e ∈ table.pairs := by
  obtain ⟨i, hi, rfl⟩ := resolve_ok h
  refine mem_of_remap hi ?_
  unfold findTarget at hquiet he
  cases hfound : (i.remap table).findPath? t p importing with
  | some path =>
    rw [hfound] at he
    exact he
  | none =>
    rw [hfound] at hquiet he
    cases hrepair : (i.remap table).repair? t p r with
    | none =>
      rw [hrepair] at he
      exact he
    | some found =>
      obtain ⟨path, correction⟩ := found
      rw [hrepair] at hquiet he
      obtain rfl : correction = none := hquiet
      exact he

/-! ## The target of an import -/

theorem backslash_not_mem_value {i : Import} (hremapping : i.remapping = none)
    (hseparator : '\\' ∈ i.literal → i.separator = '\\') : '\\' ∉ i.value := by
  unfold value expanded
  rw [hremapping]
  split
  · exact not_mem_replaceChar (by decide) _
  · exact fun hmem => ‹¬ i.separator = '\\'› (hseparator hmem)

theorem head?_value {i : Import} (hremapping : i.remapping = none)
    (hrelative : i.isRelative = true) : i.value.head? ≠ some '/' := by
  unfold isRelative at hrelative
  unfold value expanded
  rw [hremapping]
  cases hliteral : i.literal with
  | nil => rw [hliteral] at hrelative; cases hrelative
  | cons c literal =>
    rw [hliteral] at hrelative
    have hc : c = '.' := by simpa using hrelative
    subst hc
    split
    · simp [Text.replaceChar]
    · simp

/-- Where an import leads: to a file, or to a place seen from the importing file. -/
structure LeadsTo (t : FileTree) (p : Project) (importing : Path) (target : Target) (path : Path) :
    Prop where
  target_eq : target = ⟨SourceId.ofPath (t.resolve path) p.rootPath, t.resolve path⟩
  place : t.isFile path = true ∨ ∃ folder value, importing.parent? = some folder ∧
    path = folder.join ⟨value⟩ ∧ value.head? ≠ some '/' ∧ '\\' ∉ value

/-- What a repair has found: a file in the source folder of the package that the value points to. -/
theorem repair?_ok {i : Import} {path : Path} {c : Option Correction}
    (h : i.repair? t p r = some (path, c)) :
    ∃ (place : CacheLocation) (d : Dependency),
      CacheLocation.ofText? i.value = some place ∧ r.find? place.package = some d ∧
      d.package.contractsName ≠ [] ∧
      ((bases p).map (·.join ⟨joinSlash (repairedPrefix place d.package.contractsName)
        place.suffix⟩)).find? t.isFile = some path ∧
      i.correction? place d.package.contractsName = c := by
  unfold repair? at h
  simp only [Option.bind_eq_bind, Option.bind_eq_some_iff] at h
  obtain ⟨place, hplace, d, hfind, h⟩ := h
  split at h
  · cases h
  · rename_i hfolder
    simp only [Option.pure_def, Option.bind_eq_some_iff, Option.some.injEq, Prod.mk.injEq] at h
    obtain ⟨_, hfound, rfl, hc⟩ := h
    exact ⟨place, d, hplace, hfind, fun hnil => hfolder (.inl hnil), hfound, hc⟩

/-- A correction puts the source folder after the version at which the value has ended. -/
theorem correction?_ok {i : Import} {place : CacheLocation} {folder : Text} {c : Correction}
    (h : i.correction? place folder = some c) :
    ∃ old, i.remapping = some (c.key, old) ∧
      Text.dropEndWhile (· == '/') old = place.packagePath ∧
      c.value = repairedPrefix place folder := by
  unfold correction? at h
  split at h
  · rename_i key old hremapping
    split at h
    · rename_i hends
      cases h
      exact ⟨old, hremapping, hends, rfl⟩
    · cases h
  · cases h

/-- A correction comes from a repair, and the import keeps the corrected value. -/
theorem exists_repair {c : Correction} (h : Import.resolve t p r table importing raw = .ok res)
    (hc : res.correction = some c) :
    ∃ i path, ofStatement importing raw = .ok i ∧
      (i.remap table).repair? t p r = some (path, some c) ∧
      res.statement = ((i.remap table).corrected (some c)).locate t p path := by
  obtain ⟨i, hi, rfl⟩ := resolve_ok h
  refine ⟨i, ?_⟩
  unfold findTarget at hc ⊢
  cases hpath : (i.remap table).findPath? t p importing with
  | some path => rw [hpath] at hc; cases hc
  | none =>
    rw [hpath] at hc
    cases hrepair : (i.remap table).repair? t p r with
    | none => rw [hrepair] at hc; cases hc
    | some repair =>
      obtain ⟨path, correction⟩ := repair
      rw [hrepair] at hc
      obtain rfl : correction = some c := hc
      exact ⟨path, hi, rfl, rfl⟩

theorem isFile_of_repair? {i : Import} {path : Path} {c : Option Correction}
    (h : i.repair? t p r = some (path, c)) : t.isFile path = true := by
  obtain ⟨_, _, -, -, -, hfound, -⟩ := repair?_ok h
  exact List.find?_some hfound

/-- **An import leads to a file, or to its place seen from the importing file.** -/
theorem target_of_resolve (h : Import.resolve t p r table importing raw = .ok res)
    {target : Target} (htarget : res.statement.target = some target) :
    ∃ path, LeadsTo t p importing target path := by
  obtain ⟨i, hi, rfl⟩ := resolve_ok h
  obtain ⟨hremapping, hnone, hseparator⟩ := ofStatement_ok hi
  unfold findTarget at htarget
  split at htarget
  · rename_i path hpath
    refine ⟨path, (Option.some.inj htarget).symm, ?_⟩
    unfold findPath? at hpath
    split at hpath
    · rename_i hrelative
      have hi : i.remap table = i := by
        unfold remap at hrelative ⊢
        split
        · rfl
        · rename_i hnot
          rw [if_neg hnot] at hrelative
          exact absurd hrelative hnot
      rw [hi] at hpath hrelative
      obtain ⟨folder, hfolder, rfl⟩ := Option.map_eq_some_iff.mp hpath
      exact Or.inr ⟨folder, i.value, hfolder, rfl, head?_value hremapping hrelative,
        backslash_not_mem_value hremapping hseparator⟩
    · exact Or.inl (List.find?_some hpath)
  · split at htarget
    · rename_i path correction hrepair
      exact ⟨path, (Option.some.inj htarget).symm, Or.inl (isFile_of_repair? hrepair)⟩
    · rw [target_remap, hnone] at htarget
      cases htarget

end Import

end SolPlan
