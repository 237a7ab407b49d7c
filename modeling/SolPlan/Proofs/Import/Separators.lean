import SolPlan.Proofs.Import.Places

/-!
# Imports that are written with backslashes

A literal may be written with `\` for `/`. Keys are written with `/` alone, and they are looked for
in the literal as it stands: so a key with a separator in it is not found in such a literal
(`longestMatch_backslashed`). From the expanded literal on the separators are the same again, but
what remains of it without the key, in another project, keeps its backslashes.

Apart from that the two ways to write an import come to the same (`Alike`).

Results:
* `longestMatch_backslashed`: the key of a literal with backslashes;
* `value_backslashed`: its value;
* **`resolve_respelled`**: an import that is written with backslashes;
* `not_resolve_respelled`: it need not lead to the same file.
-/

namespace SolPlan

namespace Text

variable {key value text : Text}

/-- The text with `\` for each `/`. -/
def backslashed (text : Text) : Text := replaceChar '/' '\\' text

theorem slash_not_mem_backslashed (text : Text) : '/' ∉ backslashed text :=
  not_mem_replaceChar (by decide) text

theorem backslashed_of_not_mem (h : '/' ∉ text) : backslashed text = text :=
  replaceChar_of_not_mem h

theorem replaceChar_backslashed (h : '\\' ∉ text) :
    replaceChar '\\' '/' (backslashed text) = text := by
  unfold backslashed replaceChar
  rw [List.map_map]
  refine (List.map_congr_left fun c hc => ?_).trans (List.map_id text)
  by_cases hslash : c = '/'
  · subst hslash
    rfl
  · have hback : c ≠ '\\' := fun hback => h (hback ▸ hc)
    simp [hslash, hback]

theorem mem_backslashed {c : Char} (hslash : c ≠ '/') (hback : c ≠ '\\') :
    c ∈ backslashed text ↔ c ∈ text := by
  unfold backslashed replaceChar
  rw [List.mem_map]
  constructor
  · rintro ⟨d, hd, hc⟩
    split at hc
    · exact absurd hc.symm hback
    · exact hc ▸ hd
  · exact fun hc => ⟨c, hc, if_neg hslash⟩

theorem backslash_mem_backslashed (h : '\\' ∉ text) : '\\' ∈ backslashed text ↔ '/' ∈ text := by
  constructor
  · intro hmem
    by_contra hslash
    rw [backslashed_of_not_mem hslash] at hmem
    exact h hmem
  · exact fun hmem => List.mem_map.mpr ⟨'/', hmem, rfl⟩

/-- A key without a separator is at the start of a text, however this is written. -/
theorem after?_backslashed (hslash : '/' ∉ key) (hback : '\\' ∉ key) (text : Text) :
    after? key (backslashed text) = (after? key text).map backslashed := by
  induction key generalizing text with
  | nil => rfl
  | cons c key ih =>
    rw [List.mem_cons, not_or] at hslash hback
    cases text with
    | nil => rfl
    | cons d text =>
      have hsame : (c = if d = '/' then '\\' else d) ↔ c = d := by
        split
        · rename_i hd
          subst hd
          exact iff_of_false (Ne.symm hback.1) (Ne.symm hslash.1)
        · exact Iff.rfl
      change after? (c :: key) ((if d = '/' then '\\' else d) :: backslashed text) = _
      unfold after?
      rw [ih hslash.2 hback.2]
      by_cases hd : c = d
      · rw [if_pos (hsame.mpr hd), if_pos hd]
      · rw [if_neg (mt hsame.mp hd), if_neg hd]
        rfl

/-- Expanding a text with a key without a separator, and then writing it with `/`. -/
theorem replaceFirst_backslashed (hslash : '/' ∉ key) (hback : '\\' ∉ key) (h : '\\' ∉ text) :
    replaceChar '\\' '/' (replaceFirst key value (backslashed text)) =
      replaceFirst key (replaceChar '\\' '/' value) text := by
  induction text with
  | nil =>
    change replaceChar '\\' '/' (if key = [] then value else []) = if key = [] then _ else []
    split <;> rfl
  | cons c text ih =>
    have hafter := after?_backslashed hslash hback (c :: text)
    change replaceChar '\\' '/' (replaceFirst key value (_ :: backslashed text)) = _
    change after? key (_ :: backslashed text) = _ at hafter
    unfold replaceFirst
    rw [hafter]
    cases hrest : after? key (c :: text) with
    | none =>
      have hhead : replaceChar '\\' '/' (backslashed [c]) = [c] :=
        replaceChar_backslashed fun hc => h (List.mem_singleton.mp hc ▸ List.mem_cons_self)
      have htail := ih fun htext => h (List.mem_cons_of_mem c htext)
      exact congrArg₂ (· ++ ·) hhead htail
    | some rest =>
      have hplain : '\\' ∉ rest := fun hmem =>
        h (after?_eq_some_iff.mp hrest ▸ List.mem_append_right key hmem)
      exact List.map_append.trans (congrArg _ (replaceChar_backslashed hplain))

end Text

namespace RemappingTable

variable {table : RemappingTable} {literal : Text} {e : Text × Text}

/-- Every key is the key of an entry that was read. -/
def FromEntries (table : RemappingTable) : Prop :=
  ∀ key ∈ table.keys, ∃ text e, RemapEntry.ofText text = .ok e ∧ e.key = key

theorem FromEntries.backslash_not_mem (h : table.FromEntries) {key : Text}
    (hkey : key ∈ table.keys) : '\\' ∉ key := by
  obtain ⟨text, e, he, rfl⟩ := h key hkey
  unfold RemapEntry.ofText at he
  split at he
  · split at he
    · cases he
    · cases he
      exact not_mem_replaceChar (by decide) _
  · cases he

/-- The keys without a separator. -/
def withoutSlashes (table : RemappingTable) : RemappingTable where
  pairs := table.pairs.filter fun e => '/' ∉ e.1
  nodup := table.nodup.sublist (List.filter_sublist.map Prod.fst)

/-- A key occurs in a text with backslashes if it has no separator, and occurs in the text. -/
theorem occurs_backslashed {key : Text} (hkey : '\\' ∉ key) (hliteral : '\\' ∉ literal) :
    Occurs key (Text.backslashed literal) ↔ Occurs key literal ∧ '/' ∉ key := by
  unfold Occurs
  constructor
  · rintro ⟨hne, hpart⟩
    have hback := hpart.map fun c => if c = '\\' then '/' else c
    change Text.replaceChar '\\' '/' key <:+: Text.replaceChar '\\' '/' (Text.backslashed literal)
      at hback
    rw [replaceChar_of_not_mem hkey, Text.replaceChar_backslashed hliteral] at hback
    exact ⟨⟨hne, hback⟩, fun hslash => Text.slash_not_mem_backslashed _ (hpart.subset hslash)⟩
  · rintro ⟨⟨hne, hpart⟩, hslash⟩
    have hback := hpart.map fun c => if c = '/' then '\\' else c
    change Text.backslashed key <:+: Text.backslashed literal at hback
    rw [Text.backslashed_of_not_mem hslash] at hback
    exact ⟨hne, hback⟩

/-- **In a literal with backslashes, only the keys without a separator are found.** -/
theorem longestMatch_backslashed (hkeys : table.FromEntries) (hliteral : '\\' ∉ literal) :
    table.longestMatch (Text.backslashed literal) = table.withoutSlashes.longestMatch literal := by
  unfold longestMatch withoutSlashes
  rw [List.filter_filter]
  congr 1
  refine List.filter_congr fun e he => ?_
  have hkey := hkeys.backslash_not_mem (List.mem_map_of_mem he)
  rw [← Bool.decide_and, decide_eq_decide]
  exact occurs_backslashed hkey hliteral

/-- The first greatest element is also the first greatest of those that are kept with it. -/
theorem argmax_filter {α : Type} {f : α → Nat} {q : α → Bool} {l : List α} {m : α}
    (h : l.argmax f = some m) (hm : q m = true) : (l.filter q).argmax f = some m := by
  induction l with
  | nil => cases h
  | cons a l ih =>
    rw [List.argmax_cons] at h
    cases hrest : l.argmax f with
    | none =>
      rw [hrest] at h
      cases h
      rw [List.argmax_eq_none.mp hrest, List.filter_cons_of_pos hm]
      rfl
    | some c =>
      rw [hrest] at h ih
      dsimp only at h
      -- `m` is in the rest, or it is `a`, and nothing that is kept of the rest is greater
      split at h
      · rename_i hlt
        cases h
        have hkept := ih rfl
        by_cases ha : q a = true
        · rw [List.filter_cons_of_pos ha, List.argmax_cons, hkept]
          exact if_pos hlt
        · rw [List.filter_cons_of_neg ha, hkept]
      · rename_i hle
        cases h
        rw [List.filter_cons_of_pos hm, List.argmax_cons]
        cases hkept : (l.filter q).argmax f with
        | none => rfl
        | some b =>
          have hb : f b ≤ f c :=
            List.le_of_mem_argmax (List.mem_filter.mp (List.argmax_mem hkept)).1 hrest
          exact if_neg (by omega)

/-- The longest key is also the longest of those without a separator, if it has none itself. -/
theorem longestMatch_withoutSlashes (h : table.longestMatch literal = some e) (he : '/' ∉ e.1) :
    table.withoutSlashes.longestMatch literal = some e := by
  rw [longestMatch_eq_argmax] at h ⊢
  unfold withoutSlashes
  rw [List.filter_comm]
  exact argmax_filter h (by simpa using he)

theorem longestMatch_withoutSlashes_of_none (h : table.longestMatch literal = none) :
    table.withoutSlashes.longestMatch literal = none := by
  rw [longestMatch_eq_argmax, List.argmax_eq_none, List.filter_eq_nil_iff] at h ⊢
  exact fun e he => h e (List.mem_filter.mp he).1

end RemappingTable

namespace Import

variable {t : FileTree} {p : Project} {r : Registry} {table : RemappingTable} {importing : Path}
  {raw : Text} {i : Import}

/-! ## Writing a statement with backslashes -/

/-- The import with `\` for each `/` of its literal. -/
def backslashed (i : Import) : Import :=
  { i with
    separator := if '/' ∈ i.literal then '\\' else i.separator
    literal := Text.backslashed i.literal }

/-- The statement with `\` for each `/` of its literal. -/
def respelled (raw : Text) : Text :=
  let quote := if '"' ∈ raw then '"' else '\''
  match Text.cut? quote raw with
  | none => raw
  | some (front, rest) =>
    match Text.cut? quote rest with
    | none => raw
    | some (literal, back) => front ++ quote :: (Text.backslashed literal ++ quote :: back)

theorem ofStatement_respelled (hraw : '\\' ∉ raw) (hi : ofStatement importing raw = .ok i) :
    ofStatement importing (respelled raw) = .ok i.backslashed := by
  obtain ⟨front, back, hparts, hfront, hliteral, heq⟩ := ofStatement_eq_ok_iff.mp hi
  have hquote : (if '"' ∈ raw then '"' else '\'') = i.quote := by rw [heq]
  have hrespelled : respelled raw =
      front ++ i.quote :: (Text.backslashed i.literal ++ i.quote :: back) := by
    unfold respelled
    dsimp only
    rw [hquote, Text.cut?_eq_some_iff.mpr ⟨hparts, hfront⟩]
    dsimp only
    rw [Text.cut?_eq_some_iff.mpr ⟨rfl, hliteral⟩]
  -- the quote and the separator are read off the whole statement
  have hdouble : '"' ∈ respelled raw ↔ '"' ∈ raw := by
    rw [hrespelled, hparts]
    simp only [List.mem_append, List.mem_cons,
      Text.mem_backslashed (c := '"') (by decide) (by decide)]
  have hback : '\\' ∈ respelled raw ↔ '/' ∈ i.literal := by
    have hparts' := hraw
    rw [hparts] at hparts'
    simp only [List.mem_append, List.mem_cons, not_or] at hparts'
    obtain ⟨hfront', hquote', hliteral', -, hback'⟩ := hparts'
    rw [hrespelled]
    simp [hfront', hquote', hback', Text.backslash_mem_backslashed hliteral']
  have hkind : i.quote ≠ '/' ∧ i.quote ≠ '\\' := by
    rw [← hquote]
    split <;> decide
  refine ofStatement_eq_ok_iff.mpr ⟨front, back, hrespelled, hfront, ?_, ?_⟩
  · exact fun hmem => hliteral ((Text.mem_backslashed hkind.1 hkind.2).mp hmem)
  · have hseparator : i.separator = '/' := by rw [heq]; exact if_neg hraw
    unfold backslashed
    simp only [hdouble, hback, hquote, hseparator]
    rw [heq]

/-! ## Resolving it -/

/-- It does not matter how the separators of the literal are written: the key has none, its value
has no backslash, and what remains of the literal without the key is written alike, or is no file
in the other project. -/
structure Alike (t : FileTree) (p : Project) (i : Import) : Prop where
  key : ∀ key value, i.remapping = some (key, value) → '/' ∉ key ∧ '\\' ∉ value
  rest : ∀ name value project rest, i.remapping = some ('@' :: name, value) →
    p.config.KeepsIn name project → Leaves i.literal ('@' :: name) rest → '/' ∉ rest ∨
      t.isFile ((p.rootPath.join project).join ⟨rest⟩) = false ∧
      t.isFile ((p.rootPath.join project).join ⟨Text.backslashed rest⟩) = false

/-- An import as it is read from a statement without a backslash, and expanded. -/
structure Slashed (i : Import) : Prop where
  separator : i.separator = '/'
  literal : '\\' ∉ i.literal
  key : ∀ key value, i.remapping = some (key, value) → '\\' ∉ key

theorem backslashed_eq_self (h : '/' ∉ i.literal) : i.backslashed = i := by
  unfold backslashed
  rw [if_neg h, Text.backslashed_of_not_mem h]

theorem isRelative_backslashed (i : Import) : i.backslashed.isRelative = i.isRelative := by
  unfold isRelative backslashed Text.backslashed Text.replaceChar
  cases i.literal with
  | nil => rfl
  | cons c literal =>
    rw [List.map_cons, List.head?_cons, List.head?_cons]
    split
    · rename_i hc
      subst hc
      rfl
    · rfl

/-- The value is written with `/` again. -/
theorem value_backslashed (hi : i.Slashed) (halike : Alike t p i) :
    i.backslashed.value = i.value := by
  by_cases hslash : '/' ∈ i.literal
  · have hvalue : i.backslashed.value = Text.replaceChar '\\' '/' i.backslashed.expanded :=
      if_pos (if_pos hslash)
    have hplain : i.value = i.expanded := if_neg (by rw [hi.separator]; decide)
    rw [hvalue, hplain]
    unfold expanded backslashed
    dsimp only
    cases hkey : i.remapping with
    | none => exact Text.replaceChar_backslashed hi.literal
    | some e =>
      obtain ⟨key, value⟩ := e
      obtain ⟨hkeySlash, hvalueBack⟩ := halike.key key value hkey
      dsimp only
      rw [Text.replaceFirst_backslashed hkeySlash (hi.key key value hkey) hi.literal,
        replaceChar_of_not_mem hvalueBack]
  · rw [backslashed_eq_self hslash]

theorem withoutKey?_backslashed {literal key : Text} (hslash : '/' ∉ key) (hback : '\\' ∉ key) :
    withoutKey? (Text.backslashed literal) key =
      (withoutKey? literal key).map Text.backslashed := by
  unfold withoutKey?
  rw [Text.after?_backslashed hslash hback, Option.map_map, Option.map_map]
  congr 1
  funext rest
  have hseparator : (fun c : Char => c == '/' || c == '\\') ∘
      (fun c => if c = '/' then '\\' else c) = fun c => c == '/' || c == '\\' := by
    funext c
    by_cases hc : c = '/' <;> simp [hc]
  unfold Function.comp Text.backslashed Text.replaceChar
  dsimp only
  rw [List.dropWhile_map, hseparator]

theorem find?_externalCandidates_backslashed (hi : i.Slashed) (halike : Alike t p i) :
    (externalCandidates p i.backslashed).find? t.isFile =
      (externalCandidates p i).find? t.isFile := by
  by_cases h : ∃ name old project,
      i.remapping = some ('@' :: name, old) ∧ p.config.KeepsIn name project
  · obtain ⟨name, old, project, hkey, hproject⟩ := h
    have hkey' : i.backslashed.remapping = some ('@' :: name, old) := hkey
    have hliteral : withoutKey? i.backslashed.literal ('@' :: name) =
        (withoutKey? i.literal ('@' :: name)).map Text.backslashed :=
      withoutKey?_backslashed (halike.key _ _ hkey).1 (hi.key _ _ hkey)
    rw [externalCandidates_of_keepsIn hkey hproject, externalCandidates_of_keepsIn hkey' hproject,
      value_backslashed hi halike, hliteral]
    cases hrest : withoutKey? i.literal ('@' :: name) with
    | none => rfl
    | some rest =>
      rcases halike.rest name old project rest hkey hproject (leaves_iff.mpr hrest) with
        hslash | ⟨hfile, hfile'⟩
      · rw [Option.map_some, Text.backslashed_of_not_mem hslash]
      · simp [List.find?_cons, hfile, hfile']
  · have hkept : ¬ ∃ name old project, i.backslashed.remapping = some ('@' :: name, old) ∧
        p.config.KeepsIn name project := h
    rw [externalCandidates_eq_nil h, externalCandidates_eq_nil hkept]

theorem findPath?_backslashed (hi : i.Slashed) (halike : Alike t p i) :
    i.backslashed.findPath? t p importing = i.findPath? t p importing := by
  unfold findPath?
  rw [isRelative_backslashed, value_backslashed hi halike, List.find?_append, List.find?_append,
    find?_externalCandidates_backslashed hi halike]

theorem repair?_backslashed (hi : i.Slashed) (halike : Alike t p i) :
    i.backslashed.repair? t p r = i.repair? t p r := by
  unfold repair?
  rw [value_backslashed hi halike]
  rfl

/-- An import is expanded alike with backslashes, if its key has no separator. -/
theorem remap_backslashed (hkeys : table.FromEntries) (hliteral : '\\' ∉ i.literal)
    (hkey : ∀ key value, (i.remap table).remapping = some (key, value) → '/' ∉ key) :
    i.backslashed.remap table = (i.remap table).backslashed := by
  unfold remap at hkey ⊢
  rw [isRelative_backslashed]
  by_cases hrelative : i.isRelative = true
  · rw [if_pos hrelative, if_pos hrelative]
  · rw [if_neg hrelative] at hkey ⊢
    rw [if_neg hrelative]
    have hmatch : table.longestMatch (Text.backslashed i.literal) =
        table.longestMatch i.literal := by
      rw [RemappingTable.longestMatch_backslashed hkeys hliteral]
      cases hfound : table.longestMatch i.literal with
      | none => exact RemappingTable.longestMatch_withoutSlashes_of_none hfound
      | some e => exact RemappingTable.longestMatch_withoutSlashes hfound (hkey e.1 e.2 hfound)
    exact congrArg (fun remapping => { i.backslashed with remapping }) hmatch

theorem findTarget_backslashed (hi : i.Slashed) (halike : Alike t p i) :
    i.backslashed.findTarget t p r importing =
      ⟨(i.findTarget t p r importing).statement.backslashed,
        (i.findTarget t p r importing).correction⟩ := by
  unfold findTarget
  rw [findPath?_backslashed hi halike, repair?_backslashed hi halike]
  cases i.findPath? t p importing with
  | some path => rfl
  | none =>
    cases i.repair? t p r with
    | none => rfl
    | some found =>
      obtain ⟨path, correction⟩ := found
      cases correction <;> rfl

theorem slashed_remap (hkeys : table.FromEntries) (hraw : '\\' ∉ raw)
    (hi : ofStatement importing raw = .ok i) : (i.remap table).Slashed := by
  obtain ⟨-, -, -, -, -, heq⟩ := ofStatement_eq_ok_iff.mp hi
  refine ⟨?_, ?_, fun key value hkey => ?_⟩
  · rw [separator_remap, heq]
    exact if_neg hraw
  · rw [literal_remap]
    exact fun hback => hraw (mem_of_mem_literal hi hback)
  · exact hkeys.backslash_not_mem (List.mem_map_of_mem (mem_of_remap hi hkey))

/-- **An import that is written with backslashes** is expanded with the longest key that has no
separator. If this makes no difference, it is resolved as the one with slashes: it leads to the
same target, with the same remapping and the same correction. -/
theorem resolve_respelled (hkeys : table.FromEntries) (hraw : '\\' ∉ raw)
    (hi : ofStatement importing raw = .ok i) (t : FileTree) (p : Project) (r : Registry) :
    ofStatement importing (respelled raw) = .ok i.backslashed ∧
    (i.isRelative = false → (i.backslashed.remap table).remapping =
      table.withoutSlashes.longestMatch i.literal) ∧
    (Alike t p (i.remap table) → ∃ res, Import.resolve t p r table importing raw = .ok res ∧
      Import.resolve t p r table importing (respelled raw) =
        .ok ⟨res.statement.backslashed, res.correction⟩) := by
  have hrespelled := ofStatement_respelled hraw hi
  have hliteral : '\\' ∉ i.literal := fun hback => hraw (mem_of_mem_literal hi hback)
  refine ⟨hrespelled, fun hrelative => ?_, fun halike => ?_⟩
  · unfold remap
    rw [isRelative_backslashed, if_neg (by simp [hrelative])]
    exact RemappingTable.longestMatch_backslashed hkeys hliteral
  · refine ⟨(i.remap table).findTarget t p r importing, by unfold Import.resolve; rw [hi]; rfl, ?_⟩
    rw [← findTarget_backslashed (slashed_remap hkeys hraw hi) halike,
      ← remap_backslashed hkeys hliteral fun key value hkey => (halike.key key value hkey).1]
    unfold Import.resolve
    rw [hrespelled]
    rfl

/-- The table of one entry that was read. -/
theorem fromEntries_singleton (text : Text) {e : RemapEntry} (h : RemapEntry.ofText text = .ok e)
    (value : Text) : RemappingTable.FromEntries (.ofList [(e.key, value)]) := by
  intro key hkey
  exact ⟨text, e, h, (List.mem_singleton.mp hkey).symm⟩

/-- An import that is repaired is repaired alike when it is written with a backslash. -/
theorem resolve_respelled_vendor :
    RemappingTable.FromEntries (.ofList [(['v'], vendorFolders.1)]) ∧
      respelled "'v/T'".toList = "'v\\T'".toList ∧
      Import.resolve unpackedVendor withVendor.1 withVendor.2 (.ofList [(['v'], vendorFolders.1)])
        ⟨"/A".toList⟩ "'v\\T'".toList =
          .ok ⟨(vendorImport ['v']).backslashed, some ⟨['v'], vendorFolders.2⟩⟩ := by
  have hentry : RemapEntry.ofText "v=v/1".toList = .ok ⟨['v'], "v/1".toList⟩ := by cbv
  have hkeys : RemappingTable.FromEntries (.ofList [(['v'], vendorFolders.1)]) :=
    fromEntries_singleton "v=v/1".toList hentry vendorFolders.1
  have hi : ofStatement ⟨"/A".toList⟩ "'v/T'".toList =
      .ok ⟨'\'', '/', "v/T".toList, none, none, none⟩ := by decide
  obtain ⟨-, -, hresolve⟩ :=
    resolve_respelled hkeys (by decide) hi unpackedVendor withVendor.1 withVendor.2
  have hremap : (Import.remap (.ofList [(['v'], vendorFolders.1)])
      ⟨'\'', '/', "v/T".toList, none, none, none⟩).remapping = some (['v'], vendorFolders.1) := by
    cbv
  obtain ⟨res, hres, hrespelled⟩ := hresolve
    ⟨fun key value hkey => by cases hremap.symm.trans hkey; decide,
      fun name value project rest hkey => by cases hremap.symm.trans hkey⟩
  cases hres.symm.trans resolveVendor_name
  exact ⟨hkeys, by decide, hrespelled⟩

/-- Resolve an import of the file `T` in the directory `b`, for which the key is written `v/s`. -/
def resolveRemapped (raw : Text) : Except Error Resolution :=
  Import.resolve (FileTree.empty.place ⟨"/b/T".toList⟩ (some (.text []))) ⟨[], ⟨[]⟩, ⟨[], []⟩⟩
    ⟨[], [], none⟩ (.ofList [("v/s".toList, ['b'])]) ⟨"/A".toList⟩ raw

theorem resolveRemapped_slash : resolveRemapped "'v/s/T'".toList =
    .ok ⟨⟨'\'', '/', "v/s/T".toList, some ("v/s".toList, ['b']),
      some ⟨.ofText "b/T".toList, ⟨"/b/T".toList⟩⟩, none⟩, none⟩ := by
  rfl

theorem resolveRemapped_backslash : resolveRemapped "'v\\s\\T'".toList =
    .ok ⟨⟨'\'', '\\', "v\\s\\T".toList, none, none, none⟩, none⟩ := by
  rfl

/-- Written with backslashes, an import need not lead to the same file. -/
theorem not_resolve_respelled :
    ¬ ∀ (t : FileTree) (p : Project) (r : Registry) (table : RemappingTable) (importing : Path)
      (raw : Text) (res res' : Resolution), table.FromEntries → '\\' ∉ raw →
      Import.resolve t p r table importing raw = .ok res →
      Import.resolve t p r table importing (respelled raw) = .ok res' →
        res'.statement.target.map Target.id = res.statement.target.map Target.id := by
  intro hall
  have hentry : RemapEntry.ofText "v/s=b".toList = .ok ⟨"v/s".toList, ['b']⟩ := by cbv
  have hkeys : RemappingTable.FromEntries (.ofList [("v/s".toList, ['b'])]) :=
    fromEntries_singleton "v/s=b".toList hentry ['b']
  have hsame := hall _ _ _ _ _ _ _ _ hkeys (by decide) resolveRemapped_slash
    (resolveRemapped_backslash : resolveRemapped (respelled "'v/s/T'".toList) = _)
  cases hsame

end Import

end SolPlan
