import SolPlan.FileTree
import SolPlan.Proofs.Path.Steps

/-!
# Looking up paths

A path that leads somewhere leads to something that is in the tree (`isSome_entry?_find`). If its
steps are resolved, they are the names of the place, with a `..` before them if the path leaves the
root directory; there that leads back to the root.

Results:
* `find_ofSteps`, `find_ofSteps_up`: where resolved steps lead;
* **`mem_entries_of_isFile`**: the place of a file is an entry of the tree, which the path spells.
-/

namespace SolPlan

open SolPlan.Path (IsName upPiece ofSteps)

theorem FileName.isName (n : FileName) : IsName n.text := by
  have hvalid := n.valid
  simp only [isFileName, Bool.and_eq_true, bne_iff_ne, ne_eq, List.all_eq_true,
    decide_eq_true_eq] at hvalid
  obtain ⟨⟨⟨⟨hnil, hchars⟩, hhere⟩, hup⟩, -⟩ := hvalid
  refine ⟨fun hslash => (hchars _ hslash).1 rfl, ?_, hup⟩
  simp [Path.isVoid, hnil, hhere]

/-- The texts of the names. -/
def Location.texts (l : Location) : List Text := l.map FileName.text

theorem Location.isName {l : Location} : ∀ s ∈ l.texts, IsName s := fun s hs => by
  obtain ⟨n, -, rfl⟩ := List.mem_map.mp hs
  exact n.isName

theorem Location.path_eq (l : Location) : l.path = ofSteps true l.texts := rfl

theorem Location.steps_path (l : Location) : l.path.steps = l.texts :=
  (Path.reached_root l.texts).steps_ofSteps Location.isName

namespace FileTree

variable {t : FileTree} {l l' : Location} {p : Path}

/-! ## Entries -/

theorem entry?_eq_getElem? (h : l ≠ []) : t.entry? l = t.entries[l]? := by
  cases l with
  | nil => exact absurd rfl h
  | cons n l => rfl

theorem mem_entries_of_entry? {e : Entry} (h : t.entry? l = some e) : l = [] ∨ l ∈ t.entries := by
  by_cases hnil : l = []
  · exact Or.inl hnil
  · rw [entry?_eq_getElem? hnil] at h
    exact Or.inr (Std.ExtTreeMap.mem_iff_isSome_getElem?.mpr (h ▸ rfl))

/-- What holds an entry is there. -/
theorem isSome_entry?_dropLast (h : (t.entry? l).isSome = true) :
    (t.entry? l.dropLast).isSome = true := by
  rcases List.eq_nil_or_concat l with rfl | ⟨l, n, rfl⟩
  · exact h
  · rw [List.concat_eq_append] at h ⊢
    rw [List.dropLast_concat]
    obtain ⟨e, he⟩ := Option.isSome_iff_exists.mp h
    rcases mem_entries_of_entry? he with hnil | hmem
    · simp at hnil
    · rcases t.closed l n hmem with rfl | hdirectory
      · rfl
      · by_cases hnil : l = []
        · rw [hnil]
          rfl
        · rw [entry?_eq_getElem? hnil, hdirectory]
          rfl

/-! ## Pieces -/

/-- A step stays where it is, goes to the directory above, or to an entry of the directory. -/
theorem step_ok {piece : Text} (h : t.step l piece = .ok l') :
    (Path.isVoid piece = true ∧ l' = l) ∨ (piece = upPiece ∧ l' = l.dropLast) ∨
      ∃ n : FileName, n.text = piece ∧ l' = l ++ [n] ∧ (t.entry? l').isSome = true := by
  unfold step FileName.ofText? at h
  split at h
  · cases h
  · split at h
    · rename_i hvoid
      cases h
      exact Or.inl ⟨hvoid, rfl⟩
    · split at h
      · rename_i hup
        cases h
        exact Or.inr (Or.inl ⟨hup, rfl⟩)
      · split at h
        · cases h
        · rename_i n hn
          split at hn
          · split at h
            · cases h
            · rename_i e he
              cases hn
              cases h
              exact Or.inr (Or.inr ⟨_, rfl, rfl, he ▸ rfl⟩)
          · cases hn

theorem step_void {piece : Text} (h : t.step l piece = .ok l') (hvoid : Path.isVoid piece = true) :
    l' = l := by
  rcases step_ok h with ⟨-, rfl⟩ | ⟨rfl, -⟩ | ⟨n, rfl, -⟩
  · rfl
  · exact absurd hvoid (by decide)
  · exact absurd hvoid (by simp [n.isName.not_void])

theorem step_up (h : t.step l upPiece = .ok l') : l' = l.dropLast := by
  rcases step_ok h with ⟨hvoid, -⟩ | ⟨-, rfl⟩ | ⟨n, hn, -⟩
  · exact absurd hvoid (by decide)
  · rfl
  · exact absurd hn n.isName.not_up

theorem step_name {piece : Text} (h : t.step l piece = .ok l') (hname : IsName piece) :
    ∃ n : FileName, n.text = piece ∧ l' = l ++ [n] := by
  rcases step_ok h with ⟨hvoid, -⟩ | ⟨rfl, -⟩ | ⟨n, hn, hl, -⟩
  · exact absurd hvoid (by simp [hname.not_void])
  · exact absurd rfl hname.not_up
  · exact ⟨n, hn, hl⟩

/-- The name of an entry leads from its directory to it. -/
theorem step_entry {n : FileName} (hl : t.entry? l = some .directory)
    (hn : (t.entry? (l ++ [n])).isSome = true) : t.step l n.text = .ok (l ++ [n]) := by
  have hup : n.text ≠ ['.', '.'] := n.isName.not_up
  have hname : FileName.ofText? n.text = some n := dif_pos n.valid
  obtain ⟨e, he⟩ := Option.isSome_iff_exists.mp hn
  unfold step
  rw [if_neg (by simp [hl]), if_neg (by simp [n.isName.not_void]), if_neg hup, hname]
  dsimp only
  rw [he]

theorem isSome_entry?_step {piece : Text} (h : t.step l piece = .ok l')
    (hl : (t.entry? l).isSome = true) : (t.entry? l').isSome = true := by
  rcases step_ok h with ⟨-, rfl⟩ | ⟨-, rfl⟩ | ⟨n, -, -, hn⟩
  · exact hl
  · exact isSome_entry?_dropLast hl
  · exact hn

theorem follow_cons_ok {piece : Text} {pieces : List Text} {last : Location}
    (h : t.follow l (piece :: pieces) = .ok last) :
    ∃ next, t.step l piece = .ok next ∧ t.follow next pieces = .ok last := by
  rw [follow] at h
  cases hstep : t.step l piece with
  | error e => rw [hstep] at h; cases h
  | ok next =>
    rw [hstep] at h
    exact ⟨next, rfl, h⟩

theorem follow_append (l : Location) (front back : List Text) :
    t.follow l (front ++ back) = (t.follow l front).bind fun l => t.follow l back := by
  induction front generalizing l with
  | nil => rfl
  | cons piece front ih =>
    rw [List.cons_append, follow, follow]
    cases t.step l piece with
    | error e => rfl
    | ok next => exact ih next

theorem follow_append_ok {front back : List Text} {last : Location}
    (h : t.follow l (front ++ back) = .ok last) :
    ∃ next, t.follow l front = .ok next ∧ t.follow next back = .ok last := by
  induction front generalizing l with
  | nil => exact ⟨l, rfl, h⟩
  | cons piece front ih =>
    obtain ⟨next, hstep, hfollow⟩ := follow_cons_ok h
    obtain ⟨middle, hfront, hback⟩ := ih hfollow
    refine ⟨middle, ?_, hback⟩
    rw [follow, hstep]
    exact hfront

theorem isSome_entry?_follow {pieces : List Text} (h : t.follow l pieces = .ok l')
    (hl : (t.entry? l).isSome = true) : (t.entry? l').isSome = true := by
  induction pieces generalizing l with
  | nil => cases h; exact hl
  | cons piece pieces ih =>
    obtain ⟨next, hstep, hfollow⟩ := follow_cons_ok h
    exact ih hfollow (isSome_entry?_step hstep hl)

theorem follow_names {names : List Text} (h : t.follow l names = .ok l')
    (hnames : ∀ s ∈ names, IsName s) : l'.texts = l.texts ++ names := by
  induction names generalizing l with
  | nil => cases h; simp
  | cons s names ih =>
    obtain ⟨next, hstep, hfollow⟩ := follow_cons_ok h
    obtain ⟨n, rfl, rfl⟩ := step_name hstep (hnames s List.mem_cons_self)
    rw [ih hfollow fun s hs => hnames s (List.mem_cons_of_mem _ hs)]
    simp [Location.texts]

/-! ## Paths -/

theorem find_ok (h : t.find p = .ok l) :
    ∃ pieces, p.split = (.root, pieces) ∧ t.follow [] pieces = .ok l := by
  unfold find at h
  split at h
  · cases h
  · split at h
    · rename_i pieces hsplit
      exact ⟨pieces, hsplit, h⟩
    · cases h

/-- What a path leads to is in the tree. -/
theorem isSome_entry?_find (h : t.find p = .ok l) : (t.entry? l).isSome = true := by
  obtain ⟨pieces, -, hfollow⟩ := find_ok h
  exact isSome_entry?_follow hfollow rfl

theorem follow_of_find_ofSteps {steps : List Text} (h : t.find (ofSteps true steps) = .ok l)
    (hslash : ∀ s ∈ steps, '/' ∉ s) : t.follow [] steps = .ok l := by
  obtain ⟨pieces, hsplit, hfollow⟩ := find_ok h
  have hpieces : (Text.join '/' steps).splitOn '/' = pieces := congrArg Prod.snd hsplit
  by_cases hnil : steps = []
  · subst hnil
    subst hpieces
    obtain ⟨next, hstep, hfollow⟩ := follow_cons_ok hfollow
    rw [step_void hstep rfl] at hfollow
    exact hfollow
  · rw [Text.join, List.splitOn_intercalate _ hslash hnil] at hpieces
    rw [hpieces]
    exact hfollow

/-- Names lead to the place that they spell. -/
theorem find_ofSteps {names : List Text} (h : t.find (ofSteps true names) = .ok l)
    (hnames : ∀ s ∈ names, IsName s) : l.texts = names :=
  follow_names (follow_of_find_ofSteps h fun s hs => (hnames s hs).no_slash) hnames

/-- Above the root is the root. -/
theorem find_ofSteps_up {names : List Text} (h : t.find (ofSteps true (upPiece :: names)) = .ok l)
    (hnames : ∀ s ∈ names, IsName s) : l.texts = names := by
  have hfollow := follow_of_find_ofSteps h fun s hs => by
    rcases List.mem_cons.mp hs with rfl | hs
    · exact Path.isSegment_upPiece.no_slash
    · exact (hnames s hs).no_slash
  obtain ⟨next, hstep, hfollow⟩ := follow_cons_ok hfollow
  rw [step_up hstep] at hfollow
  exact follow_names hfollow hnames

/-- **The place of a file is an entry of the tree**, and the path leads to it. -/
theorem mem_entries_of_isFile (h : t.isFile p = true) : ∃ l ∈ t.entries, t.find p = .ok l := by
  unfold isFile lookup? at h
  split at h
  · rename_i l hfind
    cases he : t.entry? l with
    | none => rw [he] at h; cases h
    | some e =>
      rcases mem_entries_of_entry? he with rfl | hmem
      · cases he
        cases h
      · exact ⟨l, hmem, hfind⟩
  · cases h

end FileTree

end SolPlan
