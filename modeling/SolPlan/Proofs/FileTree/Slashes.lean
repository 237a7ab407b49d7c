import SolPlan.Proofs.CacheLocation
import SolPlan.Proofs.Path.Place

/-!
# Slashes in paths

Where a path leads depends on its pieces, and an empty piece before others changes nothing. So
slashes that follow a slash do not matter. When slash paths are appended, the slashes between them
become one, and those at the end of the second stay.

Results:
* **`find_slashes`**, `find_join_slashes`: slashes after a slash;
* `eq_packagePath_of_ofText?`: a path into the cache is the one through the version, and a suffix;
* `joinSlash_congr`, `dropEndWhile_joinSlash`: slash paths appended.
-/

namespace SolPlan

/-! ## Looking up -/

/-- What a path is joined to stands before it. -/
theorem Path.exists_join_append (base : Path) {a : Text} (ha : a ≠ []) :
    ∃ front, ∀ b, base.join ⟨a ++ b⟩ = ⟨front ++ a ++ b⟩ := by
  have habsolute : ∀ b, Path.isAbsolute ⟨a ++ b⟩ = Path.isAbsolute ⟨a⟩ := fun b => by
    unfold isAbsolute
    dsimp only
    rw [List.head?_append_of_ne_nil _ ha]
  unfold join
  simp only [habsolute]
  split
  · exact ⟨[], fun b => rfl⟩
  · split
    · exact ⟨base.text, fun b => by rw [List.append_assoc]⟩
    · exact ⟨base.text ++ ['/'], fun b => by simp⟩

namespace FileTree

variable {t : FileTree}

/-- An empty piece before others changes nothing. -/
theorem follow_nil_cons (l : Location) {pieces : List Text} (h : pieces ≠ []) :
    t.follow l ([] :: pieces) = t.follow l pieces := by
  obtain ⟨piece, pieces, rfl⟩ := List.exists_cons_of_ne_nil h
  by_cases hdirectory : t.entry? l ≠ some .directory
  · have hstep : ∀ piece, t.step l piece = .error .notADirectory := fun piece => if_pos hdirectory
    rw [follow, follow, hstep, hstep]
    rfl
  · have hstep : t.step l [] = .ok l := if_neg hdirectory
    rw [follow, hstep]
    rfl

/-- A relative path leads nowhere. -/
theorem find_of_isAbsolute_eq_false {p : Path} (h : p.isAbsolute = false) :
    t.find p =
      if p.text.any (fun c => c.toNat == 0) then .error .nullInName else .error .notFound := by
  unfold find
  split
  · rfl
  · split
    · rename_i hsplit
      rw [Path.isAbsolute_of_split hsplit] at h
      cases h
    · rfl

/-- One slash after another changes nothing. -/
theorem find_slash_slash (a b : Text) :
    t.find ⟨a ++ '/' :: '/' :: b⟩ = t.find ⟨a ++ '/' :: b⟩ := by
  have hnull : (a ++ '/' :: '/' :: b).any (fun c => c.toNat == 0) =
      (a ++ '/' :: b).any fun c => c.toNat == 0 := by
    simp only [List.any_append, List.any_cons, ← Bool.or_assoc, Bool.or_self]
  have hpieces : ('/' :: b).splitOn '/' = [] :: b.splitOn '/' := Path.splitOn_slash_cons b
  cases a with
  | nil =>
    unfold find
    rw [hnull]
    change (if _ then _ else t.follow [] (('/' :: b).splitOn '/')) =
      if _ then _ else t.follow [] (b.splitOn '/')
    rw [hpieces, follow_nil_cons [] (List.splitOn_ne_nil '/' b)]
  | cons c a =>
    by_cases hc : c = '/'
    · subst hc
      unfold find
      rw [hnull]
      change (if _ then _ else t.follow [] ((a ++ '/' :: '/' :: b).splitOn '/')) =
        if _ then _ else t.follow [] ((a ++ '/' :: b).splitOn '/')
      rw [List.splitOn_append_cons_self, List.splitOn_append_cons_self, hpieces, follow_append,
        follow_append]
      congr 2
      funext l
      exact follow_nil_cons l (List.splitOn_ne_nil '/' b)
    · have hrelative : ∀ d, Path.isAbsolute ⟨c :: a ++ d⟩ = false := fun d => by
        simpa [Path.isAbsolute] using hc
      rw [find_of_isAbsolute_eq_false (hrelative _), find_of_isAbsolute_eq_false (hrelative _),
        hnull]

/-- **Slashes after a slash change nothing.** -/
theorem find_slashes (a b : Text) :
    t.find ⟨a ++ '/' :: b⟩ = t.find ⟨a ++ '/' :: b.dropWhile (· == '/')⟩ := by
  induction b with
  | nil => rfl
  | cons c b ih =>
    by_cases hc : c = '/'
    · subst hc
      rw [find_slash_slash, ih, List.dropWhile_cons_of_pos (by simp)]
    · rw [List.dropWhile_cons_of_neg (by simpa using hc)]

/-- Slashes after a slash change nothing, below a directory either. -/
theorem find_join_slashes (base : Path) {a : Text} (ha : a ≠ []) (b : Text) :
    t.find (base.join ⟨a ++ '/' :: b⟩) =
      t.find (base.join ⟨a ++ '/' :: b.dropWhile (· == '/')⟩) := by
  obtain ⟨front, hfront⟩ := base.exists_join_append ha
  rw [hfront, hfront, find_slashes]

end FileTree

/-! ## Appending -/

namespace CacheLocation

/-- A slash path into the cache ends at the version, or goes on after a slash. -/
theorem eq_packagePath_of_ofText? {text : Text} {l : CacheLocation} (h : ofText? text = some l) :
    (text = l.packagePath ∧ l.suffix = []) ∨ text = l.packagePath ++ '/' :: l.suffix := by
  obtain ⟨-, -, -, hsegments⟩ := ofText?_eq_some_iff.mp h
  have hjoin : Text.join '/' (text.splitOn '/') = text := List.intercalate_splitOn '/'
  rw [hsegments] at hjoin
  unfold packagePath suffix
  by_cases hrest : l.rest = []
  · rw [hrest] at hjoin ⊢
    exact .inl ⟨hjoin.symm, rfl⟩
  · refine .inr ?_
    rw [← Text.join_append (by simp) hrest, ← hjoin]
    simp

end CacheLocation

/-- Slashes at the start aside, a slash path is made of pieces that are not void. -/
theorem Path.exists_dropWhile_slashed (p : Path) :
    ∃ pieces, (∀ s ∈ pieces, '/' ∉ s ∧ isVoid s = false) ∧
      p.slashed.dropWhile (· == '/') = Text.join '/' pieces := by
  have hpieces : ∀ s ∈ (p.text.splitOn '/').filter (fun s => !isVoid s),
      '/' ∉ s ∧ isVoid s = false := fun s hs => by
    obtain ⟨hs, hvoid⟩ := List.mem_filter.mp hs
    exact ⟨Text.not_mem_of_mem_splitOn hs, by simpa using hvoid⟩
  have hjoin := dropWhile_slash (head?_join hpieces)
  refine ⟨_, hpieces, ?_⟩
  unfold slashed
  rw [texts_components]
  cases p.isAbsolute with
  | false => exact hjoin
  | true => exact (List.dropWhile_cons_of_pos (by decide)).trans hjoin

/-- Appending depends on what follows the slashes. -/
theorem joinSlash_congr {front back back' : Text}
    (h : back.dropWhile (· == '/') = back'.dropWhile (· == '/')) :
    joinSlash front back = joinSlash front back' := by
  unfold joinSlash
  rw [h]

theorem joinSlash_nil {front : Text} (h : Text.dropEndWhile (· == '/') front = front) :
    joinSlash front [] = front := by
  unfold joinSlash
  rw [h]
  cases front <;> rfl

/-- Slash paths without slashes at their ends are joined to one without. -/
theorem dropEndWhile_joinSlash {front back : Text}
    (hfront : Text.dropEndWhile (· == '/') front = front)
    (hback : Text.dropEndWhile (· == '/') (back.dropWhile (· == '/')) =
      back.dropWhile (· == '/')) :
    Text.dropEndWhile (· == '/') (joinSlash front back) = joinSlash front back := by
  unfold joinSlash
  rw [hfront]
  split
  · exact hback
  · exact hfront
  · rename_i hne
    refine List.rdropWhile_eq_self_iff.mpr fun hnil => ?_
    rw [List.getLast_append_of_ne_nil hnil (List.cons_ne_nil _ _), List.getLast_cons hne]
    exact List.rdropWhile_eq_self_iff.mp hback hne

end SolPlan
