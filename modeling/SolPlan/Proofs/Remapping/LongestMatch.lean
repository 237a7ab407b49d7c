import SolPlan.Proofs.Import.Resolve
import SolPlan.Remapping.Table

/-!
# Longest matches

A remapping table is what its writes have made of it: new values, values for keys that had none, and
corrections (`TableWrite`). Which entry a literal is expanded with is told by the writes alone. Of
the keys that occur in the literal it has the longest, of several that long the one that was
written first, however often since, and its value is the one that counts now (`IsMatch`). There is
at most one such entry, and the table finds it.

Results:
* `pairwise_keys_written`: the keys of a table stand in the order of their first writes;
* `get?_written_iff`: what a key is read as after some writes;
* `exists_writes`: every table comes about by writes;
* **`longestMatch_written`**: which entry a literal is expanded with, if any.
-/

namespace SolPlan

namespace Table

variable {κ ν : Type} [DecidableEq κ]

theorem keys_insertIfAbsent (t : Table κ ν) (k : κ) (v : ν) :
    (t.insertIfAbsent k v).keys = if k ∈ t.keys then t.keys else t.keys ++ [k] := by
  unfold insertIfAbsent contains
  by_cases h : k ∈ t.keys <;> simp [h, keys_insert]

theorem put_of_not_mem {k : κ} {pairs : List (κ × ν)} (h : k ∉ pairs.map Prod.fst) (v : ν) :
    put k v pairs = pairs ++ [(k, v)] := by
  induction pairs with
  | nil => rfl
  | cons e pairs ih =>
    rw [List.map_cons, List.mem_cons, not_or] at h
    rw [put, if_neg (Ne.symm h.1), ih h.2]
    rfl

end Table

/-- A write to a remapping table. -/
inductive TableWrite where
  | insert (key value : Text)
  | insertIfAbsent (key value : Text)
  | correct (c : Correction)

namespace TableWrite

/-- The key that is written to. -/
def key : TableWrite → Text
  | .insert key _ => key
  | .insertIfAbsent key _ => key
  | .correct c => c.key

/-- The value that is written. -/
def value : TableWrite → Text
  | .insert _ value => value
  | .insertIfAbsent _ value => value
  | .correct c => c.value

/-- Is the value written also if the key has one? -/
def overwrites : TableWrite → Bool
  | .insert _ _ => true
  | .insertIfAbsent _ _ => false
  | .correct _ => true

/-- How many writes come before the first one to a key. -/
def first (writes : List TableWrite) (key : Text) : Nat := writes.findIdx fun w => w.key == key

/-- The value of a key that counts: it was written by one that overwrites or was the first, and was
not overwritten since. -/
def Counts (writes : List TableWrite) (key value : Text) : Prop :=
  ∃ before w since, writes = before ++ w :: since ∧ w.key = key ∧ w.value = value ∧
    (w.overwrites = true ∨ ∀ u ∈ before, u.key ≠ key) ∧
    ∀ u ∈ since, u.key = key → u.overwrites = false

variable {writes : List TableWrite} {key value : Text}

theorem first_lt_length (h : ∃ w ∈ writes, w.key = key) : first writes key < writes.length := by
  obtain ⟨w, hw, hkey⟩ := h
  exact List.findIdx_lt_length_of_exists ⟨w, hw, beq_iff_eq.mpr hkey⟩

/-- The first write to a key is one to the key. -/
theorem key_get_first (h : ∃ w ∈ writes, w.key = key) :
    (writes.get ⟨first writes key, first_lt_length h⟩).key = key :=
  eq_of_beq (List.findIdx_getElem (p := fun w : TableWrite => w.key == key))

/-- The value that counts is the last one if that was written, and the one before otherwise. -/
theorem counts_append_singleton {w : TableWrite} : Counts (writes ++ [w]) key value ↔
    (w.key = key ∧ w.value = value ∧ (w.overwrites = true ∨ ∀ u ∈ writes, u.key ≠ key)) ∨
      (w.key = key → w.overwrites = false) ∧ Counts writes key value := by
  constructor
  · rintro ⟨before, w', since, hwrites, hkey, hvalue, hwritten, hsince⟩
    rcases List.eq_nil_or_concat since with rfl | ⟨since, u, rfl⟩
    · obtain ⟨rfl, rfl⟩ := List.append_singleton_inj.mp hwrites
      exact Or.inl ⟨hkey, hvalue, hwritten⟩
    · rw [List.concat_eq_append, ← List.cons_append, ← List.append_assoc] at hwrites
      obtain ⟨rfl, rfl⟩ := List.append_singleton_inj.mp hwrites
      rw [List.concat_eq_append, List.forall_mem_append] at hsince
      exact Or.inr ⟨hsince.2 w List.mem_cons_self,
        before, w', since, rfl, hkey, hvalue, hwritten, hsince.1⟩
  · rintro (⟨hkey, hvalue, hwritten⟩ |
      ⟨hkept, before, w', since, rfl, hkey, hvalue, hwritten, hsince⟩)
    · exact ⟨writes, w, [], rfl, hkey, hvalue, hwritten, by simp⟩
    · refine ⟨before, w', since ++ [w], by simp, hkey, hvalue, hwritten, ?_⟩
      exact List.forall_mem_append.mpr ⟨hsince, List.forall_mem_singleton.mpr hkept⟩

theorem Counts.exists_mem (h : Counts writes key value) : ∃ w ∈ writes, w.key = key := by
  obtain ⟨before, w, since, rfl, hkey, -⟩ := h
  exact ⟨w, by simp, hkey⟩

end TableWrite

namespace RemappingTable

open TableWrite (first Counts)

/-- One more write. -/
def write (t : RemappingTable) : TableWrite → RemappingTable
  | .insert key value => t.insert key value
  | .insertIfAbsent key value => t.insertIfAbsent key value
  | .correct c => t.correct c

/-- The table after some writes. -/
def written (writes : List TableWrite) : RemappingTable := writes.foldl write .empty

/-- The entry that a literal is expanded with, told by the writes: its key occurs and is the longest
that does, of those of its length it was written first, and its value is the one that counts. -/
structure IsMatch (writes : List TableWrite) (literal key value : Text) : Prop where
  counts : Counts writes key value
  occurs : Occurs key literal
  longest : ∀ w ∈ writes, Occurs w.key literal → w.key.size ≤ key.size
  earliest : ∀ w ∈ writes, Occurs w.key literal → w.key.size = key.size →
    first writes key ≤ first writes w.key

variable {t : RemappingTable} {writes : List TableWrite} {literal key value : Text}

theorem written_append_singleton (writes : List TableWrite) (w : TableWrite) :
    written (writes ++ [w]) = (written writes).write w := List.foldl_concat ..

/-! ## Keys -/

theorem keys_write (t : RemappingTable) (w : TableWrite) :
    (t.write w).keys = if w.key ∈ t.keys then t.keys else t.keys ++ [w.key] := by
  by_cases h : w.key ∈ t.keys
  · rw [if_pos h]
    cases w with
    | insert key value => exact (Table.keys_insert t key value).trans (if_pos h)
    | insertIfAbsent key value => exact (Table.keys_insertIfAbsent t key value).trans (if_pos h)
    | correct c => exact (Table.keys_insert t c.key c.value).trans (if_pos h)
  · rw [if_neg h]
    cases w with
    | insert key value => exact (Table.keys_insert t key value).trans (if_neg h)
    | insertIfAbsent key value => exact (Table.keys_insertIfAbsent t key value).trans (if_neg h)
    | correct c => exact (Table.keys_insert t c.key c.value).trans (if_neg h)

theorem mem_keys_written : key ∈ (written writes).keys ↔ ∃ w ∈ writes, w.key = key := by
  induction writes using List.reverseRecOn with
  | nil => simp [written, Table.empty, Table.keys]
  | append_singleton writes w ih =>
    rw [written_append_singleton, keys_write]
    simp only [List.mem_append, List.mem_singleton, or_and_right, exists_or, exists_eq_left, ← ih]
    split
    · rename_i hw
      refine (or_iff_left_of_imp ?_).symm
      rintro rfl
      exact hw
    · rw [List.mem_append, List.mem_singleton, eq_comm (a := key)]

/-- A later write does not move a key. -/
theorem first_append (h : key ∈ (written writes).keys) (more : List TableWrite) :
    first (writes ++ more) key = first writes key := by
  have hlt := TableWrite.first_lt_length (mem_keys_written.mp h)
  unfold first at hlt ⊢
  rw [List.findIdx_append, if_pos hlt]

/-- **The keys stand in the order of their first writes.** -/
theorem pairwise_keys_written (writes : List TableWrite) :
    (written writes).keys.Pairwise fun a b => first writes a < first writes b := by
  induction writes using List.reverseRecOn with
  | nil => exact .nil
  | append_singleton writes w ih =>
    have hold : (written writes).keys.Pairwise fun a b =>
        first (writes ++ [w]) a < first (writes ++ [w]) b :=
      ih.imp_of_mem fun ha hb h => by rwa [first_append ha, first_append hb]
    rw [written_append_singleton, keys_write]
    split
    · exact hold
    · rename_i hnew
      refine List.pairwise_append.mpr ⟨hold, List.pairwise_singleton _ _, fun a ha b hb => ?_⟩
      obtain rfl := List.mem_singleton.mp hb
      have hlast : writes.length ≤ first (writes ++ [w]) w.key := by
        refine Nat.le_of_not_lt fun hlt => hnew (mem_keys_written.mpr ?_)
        unfold first at hlt
        have hkey := List.findIdx_getElem (w := Nat.lt_of_lt_of_le hlt (by simp))
        rw [List.getElem_append_left hlt] at hkey
        exact ⟨_, List.getElem_mem hlt, eq_of_beq hkey⟩
      rw [first_append ha]
      exact Nat.lt_of_lt_of_le (TableWrite.first_lt_length (mem_keys_written.mp ha)) hlast

/-! ## Values -/

theorem get?_write (t : RemappingTable) (w : TableWrite) (key : Text) : (t.write w).get? key =
    if w.key = key ∧ (w.overwrites = true ∨ key ∉ t.keys) then some w.value else t.get? key := by
  have hsame : ∀ k : Text, (key = k) = (k = key) := fun k => propext eq_comm
  cases w with
  | insert k v =>
    refine (Table.get?_insert t k v key).trans ?_
    simp [TableWrite.key, TableWrite.value, TableWrite.overwrites, hsame]
  | correct c =>
    refine (Table.get?_insert t c.key c.value key).trans ?_
    simp [TableWrite.key, TableWrite.value, TableWrite.overwrites, hsame]
  | insertIfAbsent k v =>
    refine (Table.get?_insertIfAbsent t k v key).trans ?_
    by_cases h : k = key
    · subst h
      simp [TableWrite.key, TableWrite.value, TableWrite.overwrites]
    · simp [TableWrite.key, TableWrite.overwrites, hsame, h]

/-- **A key is read as the value that counts.** -/
theorem get?_written_iff : (written writes).get? key = some value ↔ Counts writes key value := by
  induction writes using List.reverseRecOn with
  | nil => simp [written, Table.empty, Table.get?, Counts]
  | append_singleton writes w ih =>
    have hkeys : key ∉ (written writes).keys ↔ ∀ u ∈ writes, u.key ≠ key := by
      rw [mem_keys_written]
      simp
    rw [written_append_singleton, get?_write, TableWrite.counts_append_singleton]
    simp only [hkeys]
    split
    · rename_i hnew
      refine ⟨fun h => Or.inl ⟨hnew.1, Option.some.inj h, hnew.2⟩, ?_⟩
      rintro (⟨-, rfl, -⟩ | ⟨hkept, hcounts⟩)
      · rfl
      · obtain ⟨u, hu, hkey⟩ := hcounts.exists_mem
        rcases hnew.2 with hover | hnone
        · simp [hkept hnew.1] at hover
        · exact absurd hkey (hnone u hu)
    · rename_i hold
      rw [ih]
      refine ⟨fun h => Or.inr ⟨fun hkey => ?_, h⟩, ?_⟩
      · exact Bool.eq_false_iff.mpr fun hover => hold ⟨hkey, Or.inl hover⟩
      · rintro (⟨hkey, -, hwritten⟩ | ⟨-, h⟩)
        · exact absurd ⟨hkey, hwritten⟩ hold
        · exact h

/-! ## Every table -/

/-- Every table comes about by writes: its entries, one after the other. -/
theorem exists_writes (t : RemappingTable) : ∃ writes, written writes = t := by
  suffices h : ∀ pairs : List (Text × Text), (pairs.map Prod.fst).Nodup →
      (written (pairs.map fun e => .insert e.1 e.2)).pairs = pairs from
    ⟨_, Table.ext (h t.pairs t.nodup)⟩
  intro pairs hnodup
  induction pairs using List.reverseRecOn with
  | nil => rfl
  | append_singleton pairs e ih =>
    rw [List.map_append, List.map_singleton] at hnodup
    obtain ⟨hfront, -, hnew⟩ := List.nodup_append.mp hnodup
    rw [List.map_append, List.map_singleton, written_append_singleton]
    change Table.put e.1 e.2 (written _).pairs = _
    rw [ih hfront, Table.put_of_not_mem fun hmem => hnew _ hmem _ List.mem_cons_self rfl]

/-! ## The match -/

/-- There is one entry to expand a literal with. -/
theorem IsMatch.unique {key' value' : Text} (h : IsMatch writes literal key value)
    (h' : IsMatch writes literal key' value') : key = key' ∧ value = value' := by
  obtain ⟨w, hw, rfl⟩ := h.counts.exists_mem
  obtain ⟨w', hw', rfl⟩ := h'.counts.exists_mem
  have hsize : w.key.size = w'.key.size :=
    Nat.le_antisymm (h'.longest w hw h.occurs) (h.longest w' hw' h'.occurs)
  have hfirst : first writes w.key = first writes w'.key :=
    Nat.le_antisymm (h.earliest w' hw' h'.occurs hsize.symm) (h'.earliest w hw h.occurs hsize)
  have hkey : w.key = w'.key := by
    have hhere := TableWrite.key_get_first ⟨w, hw, rfl⟩
    have hthere := TableWrite.key_get_first ⟨w', hw', rfl⟩
    simp only [← hfirst] at hthere
    exact hhere.symm.trans hthere
  have hvalue := get?_written_iff.mpr h.counts
  rw [hkey, get?_written_iff.mpr h'.counts] at hvalue
  exact ⟨hkey, (Option.some.inj hvalue).symm⟩

/-- In an ordered list, what stands first is the lesser. -/
theorem rel_of_idxOf_le {α : Type} [DecidableEq α] {R : α → α → Prop} {l : List α} {a b : α}
    (h : l.Pairwise R) (ha : a ∈ l) (hb : b ∈ l) (hle : l.idxOf a ≤ l.idxOf b) : a = b ∨ R a b := by
  have hia := List.idxOf_lt_length_of_mem ha
  have hib := List.idxOf_lt_length_of_mem hb
  rcases Nat.lt_or_eq_of_le hle with hlt | heq
  · have hrel := List.pairwise_iff_getElem.mp h _ _ hia hib hlt
    rw [List.getElem_idxOf, List.getElem_idxOf] at hrel
    exact Or.inr hrel
  · refine Or.inl ?_
    rw [← List.getElem_idxOf hia, ← List.getElem_idxOf hib]
    simp only [heq]

theorem isMatch_of_longestMatch {e : Text × Text}
    (h : (written writes).longestMatch literal = some e) : IsMatch writes literal e.1 e.2 := by
  have hpairs : ∀ w ∈ writes, ∃ e ∈ (written writes).pairs, e.1 = w.key := fun w hw =>
    List.mem_map.mp (mem_keys_written.mpr ⟨w, hw, rfl⟩)
  have hmem := mem_of_longestMatch h
  have hfilter := mem_filter_of_longestMatch h
  rw [longestMatch_eq_argmax] at h
  obtain ⟨-, hlongest, hearliest⟩ := List.argmax_eq_some_iff.mp h
  have hordered := (List.pairwise_map.mp (pairwise_keys_written writes)).filter
    fun entry => Occurs entry.1 literal
  refine ⟨get?_written_iff.mp (Table.get?_of_mem hmem),
    of_decide_eq_true (List.mem_filter.mp hfilter).2, fun w hw hoccurs => ?_,
    fun w hw hoccurs hsize => ?_⟩
  · obtain ⟨a, ha, hkey⟩ := hpairs w hw
    rw [← hkey] at hoccurs ⊢
    exact hlongest a (List.mem_filter.mpr ⟨ha, decide_eq_true hoccurs⟩)
  · obtain ⟨a, ha, hkey⟩ := hpairs w hw
    rw [← hkey] at hoccurs hsize ⊢
    have hmatch : a ∈ (written writes).pairs.filter fun entry => Occurs entry.1 literal :=
      List.mem_filter.mpr ⟨ha, decide_eq_true hoccurs⟩
    rcases rel_of_idxOf_le hordered hfilter hmatch
      (hearliest a hmatch (Nat.le_of_eq hsize.symm)) with rfl | hlt
    · exact Nat.le_refl _
    · exact Nat.le_of_lt hlt

/-- **A literal is expanded with the longest key that occurs in it**, the first that was written of
several, and with the value of that key that counts. Every table comes about by writes, and its keys
are those that were written to. -/
theorem longestMatch_written (literal : Text) :
    (∀ t : RemappingTable, ∃ writes, written writes = t) ∧ ∀ writes : List TableWrite,
      (∀ key, key ∈ (written writes).keys ↔ ∃ w ∈ writes, w.key = key) ∧
      ((written writes).longestMatch literal = none ↔ ∀ w ∈ writes, ¬ Occurs w.key literal) ∧
      ∀ key value, (written writes).longestMatch literal = some (key, value) ↔
        IsMatch writes literal key value := by
  refine ⟨exists_writes, fun writes => ⟨fun key => mem_keys_written, ?_, fun key value => ?_⟩⟩
  · rw [longestMatch_eq_argmax, List.argmax_eq_none, List.filter_eq_nil_iff]
    constructor
    · intro h w hw hoccurs
      obtain ⟨e, he, hkey⟩ := List.mem_map.mp (mem_keys_written.mpr ⟨w, hw, rfl⟩)
      exact h e he (decide_eq_true (hkey ▸ hoccurs))
    · intro h e he hoccurs
      obtain ⟨w, hw, hkey⟩ := mem_keys_written.mp (List.mem_map_of_mem he)
      exact h w hw (hkey ▸ of_decide_eq_true hoccurs)
  · refine ⟨fun h => isMatch_of_longestMatch h, fun h => ?_⟩
    cases hmatch : (written writes).longestMatch literal with
    | some e =>
      obtain ⟨rfl, rfl⟩ := h.unique (isMatch_of_longestMatch hmatch)
      rfl
    | none =>
      obtain ⟨w, hw, rfl⟩ := h.counts.exists_mem
      rw [longestMatch_eq_argmax, List.argmax_eq_none, List.filter_eq_nil_iff] at hmatch
      obtain ⟨e, he, hkey⟩ := List.mem_map.mp (mem_keys_written.mpr ⟨w, hw, rfl⟩)
      exact absurd (decide_eq_true (hkey ▸ h.occurs)) (hmatch e he)

/-- The value of a nested key that was corrected, though the key around it was written since. -/
example : (written [.insert "@v".toList ['a'], .insertIfAbsent "@v/s".toList ['b'],
    .correct ⟨"@v/s".toList, ['c']⟩, .insert "@v".toList ['d'],
    .insertIfAbsent "@v/s".toList ['e']]).longestMatch "@v/s/F".toList =
      some ("@v/s".toList, ['c']) := by decide

end RemappingTable

end SolPlan
