/-!
# Tables

A table is a finite map that keeps its keys in the order in which they first came. Writing to a
key that is there replaces the value **in its place**. Nothing is ever taken out, so a key's place
never changes. A table is the list of its pairs (`ext`). Remapping tables (`RemappingTable`) and
tables of constraints (`PragmaTable`) are such maps.

* `get?_insert`: reading after a write.
* `keys_insert`: the keys after a write.
-/

namespace SolPlan

/-- Pairs with pairwise distinct keys, in the order in which the keys first came. -/
structure Table (κ ν : Type) where
  pairs : List (κ × ν)
  nodup : (pairs.map Prod.fst).Nodup
deriving DecidableEq

namespace Table

variable {κ ν : Type}

@[ext] theorem ext {s t : Table κ ν} (h : s.pairs = t.pairs) : s = t := by
  cases s; cases t; cases h; rfl

/-- The table without keys. -/
def empty : Table κ ν := ⟨[], .nil⟩

instance : Inhabited (Table κ ν) := ⟨empty⟩

/-- The keys, in order. -/
def keys (t : Table κ ν) : List κ := t.pairs.map Prod.fst

/-- The number of keys. -/
def size (t : Table κ ν) : Nat := t.pairs.length

variable [DecidableEq κ]

/-- The value of a key. -/
def get? (t : Table κ ν) (k : κ) : Option ν := t.pairs.lookup k

/-- Has the key a value? -/
def contains (t : Table κ ν) (k : κ) : Bool := k ∈ t.keys

/-- The pairs with one more write: in the key's place, or at the end. -/
def put (k : κ) (v : ν) : List (κ × ν) → List (κ × ν)
  | [] => [(k, v)]
  | p :: pairs => if p.1 = k then (k, v) :: pairs else p :: put k v pairs

theorem map_fst_put (k : κ) (v : ν) (pairs : List (κ × ν)) :
    (put k v pairs).map Prod.fst =
      if k ∈ pairs.map Prod.fst then pairs.map Prod.fst else pairs.map Prod.fst ++ [k] := by
  induction pairs with
  | nil => simp [put]
  | cons p pairs ih =>
    by_cases h : p.1 = k
    · simp [put, h]
    · have h' : k ≠ p.1 := Ne.symm h
      simp only [put, h, if_false, List.map_cons, ih, List.mem_cons, h', false_or]
      split <;> rfl

/-- The table with a value written to a key. -/
def insert (t : Table κ ν) (k : κ) (v : ν) : Table κ ν where
  pairs := put k v t.pairs
  nodup := by
    rw [map_fst_put]
    split
    · exact t.nodup
    · rename_i h
      refine List.nodup_append.mpr ⟨t.nodup, by simp, fun a ha b hb => ?_⟩
      rw [List.mem_singleton.mp hb]
      exact fun e => h (e ▸ ha)

/-- The table with a value written to a key that has none. -/
def insertIfAbsent (t : Table κ ν) (k : κ) (v : ν) : Table κ ν :=
  if t.contains k then t else t.insert k v

/-- The table of a list of writes: the last write to a key counts, in the place of the first. -/
def ofList (pairs : List (κ × ν)) : Table κ ν := pairs.foldl (fun t p => t.insert p.1 p.2) empty

/-- The same keys with the same values, in any order. -/
def SameEntries [DecidableEq ν] (s t : Table κ ν) : Prop :=
  s.size = t.size ∧ ∀ p ∈ s.pairs, t.get? p.1 = some p.2

instance [DecidableEq ν] (s t : Table κ ν) : Decidable (SameEntries s t) :=
  inferInstanceAs (Decidable (_ ∧ _))

/-! ## Lemmas -/

/-- **The keys after a write.** -/
theorem keys_insert (t : Table κ ν) (k : κ) (v : ν) :
    (t.insert k v).keys = if k ∈ t.keys then t.keys else t.keys ++ [k] :=
  map_fst_put k v t.pairs

theorem lookup_cons (a : κ) (b : ν) (pairs : List (κ × ν)) (q : κ) :
    ((a, b) :: pairs).lookup q = if q = a then some b else pairs.lookup q := by
  rw [List.lookup_cons]
  by_cases h : q = a
  · subst h; simp
  · simp [beq_eq_false_iff_ne.mpr h, h]

theorem lookup_put (k : κ) (v : ν) (pairs : List (κ × ν)) (q : κ) :
    (put k v pairs).lookup q = if q = k then some v else pairs.lookup q := by
  induction pairs with
  | nil => simp [put, lookup_cons]
  | cons p pairs ih =>
    obtain ⟨a, b⟩ := p
    by_cases h : a = k
    · subst h
      by_cases hq : q = a <;> simp [put, lookup_cons, hq]
    · by_cases hq : q = a
      · subst hq; simp [put, h]
      · simp [put, lookup_cons, h, hq, ih]

/-- **Reading after a write.** -/
theorem get?_insert (t : Table κ ν) (k : κ) (v : ν) (q : κ) :
    (t.insert k v).get? q = if q = k then some v else t.get? q :=
  lookup_put k v t.pairs q

theorem mem_of_mem_put {k : κ} {v : ν} {pairs : List (κ × ν)} {e : κ × ν}
    (h : e ∈ put k v pairs) : e = (k, v) ∨ e ∈ pairs := by
  induction pairs with
  | nil => exact Or.inl (List.mem_singleton.mp h)
  | cons p pairs ih =>
    unfold put at h
    split at h
    · exact (List.mem_cons.mp h).imp_right (List.mem_cons_of_mem _)
    · rcases List.mem_cons.mp h with rfl | h
      · exact Or.inr List.mem_cons_self
      · exact (ih h).imp_right (List.mem_cons_of_mem _)

/-- After a write a pair is the new one or was there before. -/
theorem mem_of_mem_insert {t : Table κ ν} {k : κ} {v : ν} {e : κ × ν}
    (h : e ∈ (t.insert k v).pairs) : e = (k, v) ∨ e ∈ t.pairs := mem_of_mem_put h

theorem mem_of_mem_insertIfAbsent {t : Table κ ν} {k : κ} {v : ν} {e : κ × ν}
    (h : e ∈ (t.insertIfAbsent k v).pairs) : e = (k, v) ∨ e ∈ t.pairs := by
  unfold insertIfAbsent at h
  split at h
  · exact Or.inr h
  · exact mem_of_mem_insert h

/-- A pair of the table is what its key is read as. -/
theorem get?_of_mem {t : Table κ ν} {k : κ} {v : ν} (h : (k, v) ∈ t.pairs) : t.get? k = some v := by
  obtain ⟨pairs, hnodup⟩ := t
  unfold get?
  dsimp only at h ⊢
  induction pairs with
  | nil => exact absurd h List.not_mem_nil
  | cons e pairs ih =>
    obtain ⟨hnew, hrest⟩ := List.nodup_cons.mp hnodup
    obtain ⟨a, b⟩ := e
    rw [lookup_cons]
    rcases List.mem_cons.mp h with h | h
    · cases h
      rw [if_pos rfl]
    · rw [if_neg, ih hrest h]
      intro hk
      exact hnew (List.mem_map.mpr ⟨(k, v), h, hk⟩)

theorem mem_keys_of_get? {t : Table κ ν} {k : κ} {v : ν} (h : t.get? k = some v) : k ∈ t.keys := by
  obtain ⟨e, he, hk⟩ := List.lookup_isSome_iff.mp (Option.isSome_iff_exists.mpr ⟨v, h⟩)
  exact List.mem_map.mpr ⟨e, he, (eq_of_beq hk).symm⟩

theorem get?_insertIfAbsent (t : Table κ ν) (k : κ) (v : ν) (q : κ) :
    (t.insertIfAbsent k v).get? q =
      if k ∉ t.keys ∧ q = k then some v else t.get? q := by
  unfold insertIfAbsent contains
  by_cases h : k ∈ t.keys <;> simp [h, get?_insert]

end Table

end SolPlan
