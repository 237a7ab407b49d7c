import Mathlib.Data.List.DropRight
import SolPlan.CacheLocation

/-!
# Paths into the cache of one package

A slash path into the cache goes through its first `.cache` segment, and what follows the version
does not change the package that it points to. So `packagePath` is the part of a path that matters:
whatever is appended to it after a slash points to the same place.

Results:
* `ofText?_eq_some_iff`, `ofText?_spec`: where a path points to, and what that is made of
  (`IsPlace`);
* **`ofText?_packagePath_append`**: appending to the path through the version;
* `ofText?_of_dropEndWhile` and `ofText?_joinSlash`: the same for slashes at the end, and for
  another slash path.
-/

namespace SolPlan

theorem dropWhile_slash {text : Text} (h : text.head? ≠ some '/') :
    text.dropWhile (· == '/') = text := by
  cases text with
  | nil => rfl
  | cons c text => exact List.dropWhile_cons_of_neg fun hc => h (by simpa using hc)

/-- One slash stands between what comes before the slashes and what comes after them. -/
theorem joinSlash_of_dropWhile_ne {front back : Text}
    (hfront : Text.dropEndWhile (· == '/') front = front) (hne : front ≠ [])
    (hback : back.dropWhile (· == '/') ≠ []) :
    joinSlash front back = front ++ '/' :: back.dropWhile (· == '/') := by
  unfold joinSlash
  rw [hfront]
  split
  · exact absurd rfl hne
  · exact absurd ‹_› hback
  · rfl

theorem joinSlash_of_ne {front back : Text}
    (hfront : Text.dropEndWhile (· == '/') front = front) (hne : front ≠ []) (hback : back ≠ [])
    (hhead : back.head? ≠ some '/') : joinSlash front back = front ++ '/' :: back := by
  have hdrop := dropWhile_slash hhead
  rw [joinSlash_of_dropWhile_ne hfront hne (by rwa [hdrop]), hdrop]

/-- A path into the cache does not begin with a slash. -/
theorem head?_cacheFolderName_append (t : Text) : (cacheFolderName ++ t).head? = some '.' := by
  have hhead : cacheFolderName.head? = some '.' := by decide
  rw [List.head?_append, hhead, Option.some_or]

namespace CacheLocation

/-- What is found in segments: the first cache folder, and a name and a version after it. -/
structure IsPlace (l : CacheLocation) : Prop where
  first : cacheFolderName ∉ l.before
  name : l.package.name ≠ []
  version : l.package.version ≠ []
  segments : ∀ s ∈ l.before ++ [cacheFolderName, l.package.name, l.package.version], '/' ∉ s

theorem find_append (before : List Text) {front : List Text} {package : PackageId}
    (rest : List Text) (hfront : cacheFolderName ∉ front) (hname : package.name ≠ []) (hversion : package.version ≠ []) :
    find before (front ++ cacheFolderName :: package.name :: package.version :: rest) =
      some ⟨before.reverse ++ front, package, rest⟩ := by
  induction front generalizing before with
  | nil => simp [find, hname, hversion]
  | cons s front ih =>
    obtain ⟨hs, hfront⟩ := not_or.mp (fun h => hfront (List.mem_cons.mpr h))
    rw [List.cons_append]
    unfold find
    rw [if_neg (Ne.symm hs), ih _ hfront]
    simp

theorem find_spec {before segments : List Text} {l : CacheLocation}
    (h : find before segments = some l) :
    ∃ front, l.before = before.reverse ++ front ∧ cacheFolderName ∉ front ∧
      segments = front ++ cacheFolderName :: l.package.name :: l.package.version :: l.rest ∧
      l.package.name ≠ [] ∧ l.package.version ≠ [] := by
  induction segments generalizing before with
  | nil => cases h
  | cons s segments ih =>
    unfold find at h
    split at h
    · rename_i hs
      split at h
      · rename_i name version rest
        split at h
        · cases h
        · rename_i hempty
          cases h
          obtain ⟨hname, hversion⟩ := not_or.mp hempty
          exact ⟨[], by simp, List.not_mem_nil, by rw [hs]; rfl, hname, hversion⟩
      · cases h
    · rename_i hs
      obtain ⟨front, hbefore, hfront, hsegments, hnonempty⟩ := ih h
      refine ⟨s :: front, by rw [hbefore]; simp, ?_, by rw [hsegments]; rfl, hnonempty⟩
      rw [List.mem_cons, not_or]
      exact ⟨Ne.symm hs, hfront⟩

/-- **Where a slash path points to**: its first cache folder is followed by a name and a version. -/
theorem ofText?_eq_some_iff {t : Text} {l : CacheLocation} :
    ofText? t = some l ↔ cacheFolderName ∉ l.before ∧ l.package.name ≠ [] ∧ l.package.version ≠ [] ∧
      t.splitOn '/' =
        l.before ++ cacheFolderName :: l.package.name :: l.package.version :: l.rest := by
  constructor
  · intro h
    obtain ⟨front, hbefore, hfront, hsegments, hname, hversion⟩ := find_spec h
    rw [List.reverse_nil, List.nil_append] at hbefore
    rw [hbefore]
    exact ⟨hfront, hname, hversion, hsegments⟩
  · rintro ⟨hfront, hname, hversion, hsegments⟩
    unfold ofText?
    rw [hsegments, find_append [] l.rest hfront hname hversion]
    rfl

/-- What a path into the cache is made of. -/
theorem ofText?_spec {t : Text} {l : CacheLocation} (h : ofText? t = some l) : IsPlace l := by
  obtain ⟨hfirst, hname, hversion, hsegments⟩ := ofText?_eq_some_iff.mp h
  refine ⟨hfirst, hname, hversion, fun s hs => Text.not_mem_of_mem_splitOn (t := t) ?_⟩
  rw [hsegments]
  simp only [List.mem_append, List.mem_cons, List.not_mem_nil, or_false] at hs ⊢
  rcases hs with hs | hs | hs | hs
  · exact Or.inl hs
  · exact Or.inr (Or.inl hs)
  · exact Or.inr (Or.inr (Or.inl hs))
  · exact Or.inr (Or.inr (Or.inr (Or.inl hs)))

namespace IsPlace

variable {l : CacheLocation}

theorem splitOn_packagePath (h : IsPlace l) :
    l.packagePath.splitOn '/' = l.before ++ [cacheFolderName, l.package.name, l.package.version] :=
  List.splitOn_intercalate _ h.segments (by simp)

theorem find_before (h : IsPlace l) (rest : List Text) :
    find [] (l.before ++ [cacheFolderName, l.package.name, l.package.version] ++ rest) =
      some { l with rest } := by
  have hfind := find_append [] rest h.first h.name h.version
  simpa using hfind

theorem ofText?_packagePath (h : IsPlace l) : ofText? l.packagePath = some { l with rest := [] } := by
  have := h.find_before []
  rwa [List.append_nil, ← h.splitOn_packagePath] at this

/-- **What is appended after the version does not change the place.** -/
theorem ofText?_packagePath_append (h : IsPlace l) (b : Text) :
    ofText? (l.packagePath ++ '/' :: b) = some { l with rest := b.splitOn '/' } := by
  unfold ofText?
  rw [List.splitOn_append_cons_self, h.splitOn_packagePath]
  exact h.find_before _

/-- Slashes at the end do not change the place, and put nothing after it. -/
theorem ofText?_of_dropEndWhile (h : IsPlace l) {t : Text}
    (ht : Text.dropEndWhile (· == '/') t = l.packagePath) :
    ∃ rest, ofText? t = some { l with rest } ∧ ∀ s ∈ rest, s = [] := by
  have hsplit : l.packagePath ++ t.rtakeWhile (· == '/') = t :=
    ht ▸ List.rdropWhile_append_rtakeWhile
  have hslash : ∀ c ∈ t.rtakeWhile (· == '/'), c = '/' := fun c hc =>
    beq_iff_eq.mp (List.mem_rtakeWhile_imp (p := fun c => c == '/') hc)
  cases hslashes : t.rtakeWhile (· == '/') with
  | nil =>
    rw [hslashes, List.append_nil] at hsplit
    exact ⟨[], hsplit ▸ h.ofText?_packagePath, fun _ hs => absurd hs List.not_mem_nil⟩
  | cons c slashes =>
    rw [hslashes] at hsplit hslash
    rw [hslash c List.mem_cons_self] at hsplit
    refine ⟨_, hsplit ▸ h.ofText?_packagePath_append slashes, fun s hs => ?_⟩
    refine List.eq_nil_iff_forall_not_mem.mpr fun c hc => Text.not_mem_of_mem_splitOn hs ?_
    rw [← hslash c (List.mem_cons_of_mem _ (Text.subset_of_mem_splitOn hs hc))]
    exact hc

theorem packagePath_ne_nil (h : IsPlace l) : l.packagePath ≠ [] := fun hnil => by
  have hlength := congrArg List.length h.splitOn_packagePath
  rw [hnil] at hlength
  simp at hlength

/-- A slash path that is put after the version does not change the place. -/
theorem ofText?_joinSlash (h : IsPlace l) {t : Text}
    (ht : Text.dropEndWhile (· == '/') t = l.packagePath) (back : Text) :
    ∃ rest, ofText? (joinSlash l.packagePath back) = some { l with rest } := by
  have hdrop : Text.dropEndWhile (· == '/') l.packagePath = l.packagePath := by
    rw [← ht]
    exact List.rdropWhile_idempotent _ _
  unfold joinSlash
  rw [hdrop]
  split
  · rename_i hnil
    exact absurd hnil h.packagePath_ne_nil
  · exact ⟨_, h.ofText?_packagePath⟩
  · exact ⟨_, h.ofText?_packagePath_append _⟩

end IsPlace

end CacheLocation

end SolPlan
