import SolPlan.Proofs.FileTree.Adding

/-!
# Trees that grow below a place

Unpacking adds to the cache and changes nothing else. So a later tree has all that an earlier one
has, and what it has besides stands below one place (`Grows`). Of a file only that it is there
matters, since a copy may be written again.

A path leads to the same in both trees if it does not come below that place. It is not enough that
it ends elsewhere: looked up piece by piece, a path such as `cache/name/../../source` leads nowhere
until `cache/name` is there. So the condition is on the whole way (`Path.Avoids`).

Results:
* `Path.Descends.avoids`: a path that only goes down avoids whatever is not on its way;
* `Adds.grows`: what is added below a place that is there;
* `makeDirectories_of_folderAt`: a directory that is there is not created again;
* **`find_of_grows`**: what a path leads to in the later tree, it leads to in the earlier.
-/

namespace SolPlan

/-- The place is strictly below another. -/
def IsBelow (place q : List Text) : Prop := ∃ names, names ≠ [] ∧ q = place ++ names

/-- What is on the way to below a place is above the place or below it. -/
theorem prefix_or_isBelow {place names q : List Text} (h : q <+: place ++ names) :
    q <+: place ∨ IsBelow place q := by
  rcases Path.prefix_append_cases h with habove | ⟨more, -, rfl⟩
  · exact Or.inl habove
  · by_cases hnil : more = []
    · exact Or.inl ⟨[], by rw [hnil, List.append_nil, List.append_nil]⟩
    · exact Or.inr ⟨more, hnil, rfl⟩

/-- On its way, up to a slash, the path does not come below a place. -/
def Path.Avoids (p : Path) (place : List Text) : Prop :=
  ∀ front back : Text, p.text = front ++ '/' :: back → ¬ IsBelow place (⟨front⟩ : Path).place

/-- A path that goes down avoids every place that is not on its way. -/
theorem Path.Descends.avoids {p : Path} {place names : List Text} (h : p.Descends names)
    (hplace : ¬ place <+: names) : p.Avoids place := by
  rintro front back htext ⟨more, -, hmore⟩
  have hpart : (⟨front⟩ : Path).written <+: p.written := by
    rw [Path.written, Path.written, htext, List.splitOn_append_cons_self, List.filter_append]
    exact List.prefix_append _ _
  have habove := ((⟨front⟩ : Path).passes_place.mono hpart).prefix_of_descends h
  rw [hmore] at habove
  exact hplace ((List.prefix_append place more).trans habove)

namespace FileTree

variable {t t' t'' : FileTree} {l l' : Location} {p : Path} {place names : List Text}

/-- The later tree has all that the earlier one has, and is the same but for what is below a
place. -/
structure Grows (place : List Text) (t t' : FileTree) : Prop extends Keeps t t' where
  elsewhere : ∀ l : Location, ¬ IsBelow place l.texts → t'.entry? l = t.entry? l

namespace Grows

theorem refl (place : List Text) (t : FileTree) : Grows place t t :=
  ⟨Keeps.refl t, fun _ _ => rfl⟩

theorem trans (h : Grows place t t') (h' : Grows place t' t'') : Grows place t t'' :=
  ⟨h.toKeeps.trans h'.toKeeps, fun l hl => (h'.elsewhere l hl).trans (h.elsewhere l hl)⟩

theorem folderAt {folder : List Text} (h : Grows place t t') (hfolder : t.FolderAt folder) :
    t'.FolderAt folder := by
  obtain ⟨l, rfl, hl⟩ := hfolder
  exact ⟨l, rfl, h.directory l hl⟩

end Grows

/-- **What is added below a place that is there**: the way to it is there, too. -/
theorem Adds.grows {inside way : List Text → Prop} (h : Adds inside way t t')
    (hinside : ∀ q, inside q → IsBelow place q)
    (hway : ∀ q, way q → q <+: place ∨ IsBelow place q) (hplace : t.FolderAt place) :
    Grows place t t' := by
  refine ⟨h.toKeeps, fun l hl => ?_⟩
  refine (h.outside l fun hl' => hl (hinside _ hl')).resolve_right ?_
  rintro ⟨hnone, -, hl'⟩
  have hthere := hplace.above ((hway _ hl').resolve_right hl)
  rw [folderAt_texts, hnone] at hthere
  cases hthere

/-! ## Directories that are there -/

/-- What was created is there. -/
theorem folderAt_of_makeDirectories (hp : p.isAbsolute = true)
    (h : t.makeDirectories p = (t', .ok ())) : t'.FolderAt p.place := by
  have htext : p.text ≠ [] := fun hnil => by
    unfold Path.isAbsolute at hp
    rw [hnil] at hp
    cases hp
  exact folderAt_of_isDirectory (isDirectory_of_makeDirectories htext h)

/-- A directory that is there is not created again. -/
theorem makeDirectories_of_folderAt (hp : p.Descends place) (h : t.FolderAt place) :
    t.makeDirectories p = (t, .ok ()) := by
  obtain ⟨l, rfl, hl⟩ := h
  exact makeDirectories_of_isDirectory (isDirectory_iff.mpr ⟨l, find_of_descends hp hl, hl⟩)

/-! ## Paths that lead to the same -/

/-- A step that finds the same finds the same again. -/
theorem step_congr {piece : Text} (h : t'.step l piece = .ok l')
    (hl : t'.entry? l = t.entry? l) (hl' : t'.entry? l' = t.entry? l') :
    t.step l piece = .ok l' := by
  unfold step at h ⊢
  rw [← hl]
  split at h
  · cases h
  · rename_i hdirectory
    rw [if_neg hdirectory]
    split at h
    · rename_i hvoid
      rwa [if_pos hvoid]
    · rename_i hvoid
      rw [if_neg hvoid]
      split at h
      · rename_i hup
        rwa [if_pos hup]
      · rename_i hup
        rw [if_neg hup]
        split at h
        · cases h
        · split at h
          · cases h
          · rename_i e he
            cases h
            rw [he] at hl'
            rw [← hl']

theorem follow_of_grows {pieces : List Text} (hgrows : Grows place t t')
    (hway : ∀ front m, front <+: pieces → t'.follow l front = .ok m → ¬ IsBelow place m.texts)
    (h : t'.follow l pieces = .ok l') : t.follow l pieces = .ok l' := by
  induction pieces generalizing l with
  | nil => exact h
  | cons piece pieces ih =>
    obtain ⟨next, hstep, hfollow⟩ := follow_cons_ok h
    have hhere : t'.entry? l = t.entry? l :=
      hgrows.elsewhere l (hway [] l List.nil_prefix rfl)
    have hnext : t'.entry? next = t.entry? next :=
      hgrows.elsewhere next (hway [piece] next (by simp) (by rw [follow, hstep]; rfl))
    rw [follow, step_congr hstep hhere hnext]
    refine ih (fun front m hfront hm => hway (piece :: front) m ?_ ?_) hfollow
    · exact List.cons_prefix_cons.mpr ⟨rfl, hfront⟩
    · rw [follow, hstep]
      exact hm

/-- What a path leads to up to one of its pieces. -/
theorem texts_eq_place_join {front : List Text} (h : t.follow [] front = .ok l)
    (hslash : ∀ s ∈ front, '/' ∉ s) :
    l.texts = (⟨Text.join '/' ([] :: front)⟩ : Path).place := by
  have hpieces : ∀ s ∈ [] :: front, '/' ∉ s :=
    List.forall_mem_cons.mpr ⟨List.not_mem_nil, hslash⟩
  rw [texts_of_follow h, Path.place_eq_placeOf, Path.written, Text.join,
    List.splitOn_intercalate _ hpieces (List.cons_ne_nil _ _), List.filter_cons_of_neg (by decide)]

/-- **A path that avoids a place** leads to nothing new where a tree has grown below the place. -/
theorem find_of_grows (hgrows : Grows place t t') (havoids : p.Avoids place)
    (hp : ¬ IsBelow place p.place) (hfind : t'.find p = .ok l) : t.find p = .ok l := by
  have htexts := texts_of_find hfind
  unfold find at hfind ⊢
  split at hfind
  · cases hfind
  · rename_i hnull
    rw [if_neg hnull]
    split at hfind
    · rename_i pieces hsplit
      have hpieces := Path.splitOn_of_split hsplit
      refine follow_of_grows hgrows (fun front m hfront hm => ?_) hfind
      obtain ⟨back, rfl⟩ := hfront
      have hslash : ∀ s ∈ front, '/' ∉ s := fun s hs => Text.not_mem_of_mem_splitOn
        (hpieces ▸ List.mem_cons_of_mem _ (List.mem_append_left back hs))
      by_cases hnil : back = []
      · rw [hnil, List.append_nil, hm] at hfind
        cases hfind
        rwa [htexts]
      · rw [texts_eq_place_join hm hslash]
        refine havoids _ (Text.join '/' back) ?_
        rw [← Text.join_append (List.cons_ne_nil _ _) hnil, List.cons_append, ← hpieces]
        exact (List.intercalate_splitOn '/').symm
    · cases hfind

end FileTree

end SolPlan
