import SolPlan.Proofs.Path.Place

/-!
# The way of a path

A path is looked up step by step, and comes to whatever its first steps lead to (`Path.Passes`). If
it goes up again, this need not be above the place to which it leads. It leads to a directory if
there are directories all the way; and if it leads anywhere, all on its way is there.

Results:
* `Passes.of_written`: the way to what is below a path;
* `Passes.prefix_of_descends`, `Passes.of_ups`: the way of a path that goes down, and of one that
  goes down, up and down again;
* **`isDirectory_of_passes`**: a path leads to a directory if there are directories all the way;
* `find_path`: the path of what is in the tree leads to it;
* `find_of_descends`: a path that goes down leads to the directory at its place;
* `exists_of_passes`: all on the way of a path that leads somewhere is there.
-/

namespace SolPlan

open SolPlan.Path (upPiece IsName placeOf)

theorem Location.texts_append (l m : Location) : (l ++ m).texts = l.texts ++ m.texts :=
  List.map_append

/-- A location is spelled by its names. -/
theorem Location.texts_inj {l m : Location} (h : l.texts = m.texts) : l = m :=
  (List.map_inj_right fun _ _ => FileName.ext).mp h

/-- A part of a place, from the start or up to its end, is spelled by a part of the location. -/
theorem Location.exists_of_texts_eq_append {l : Location} {front back : List Text}
    (h : l.texts = front ++ back) :
    ∃ top names : Location, l = top ++ names ∧ top.texts = front ∧ names.texts = back := by
  obtain ⟨top, names, rfl, hfront, hback⟩ := List.map_eq_append_iff.mp h
  exact ⟨top, names, rfl, hfront, hback⟩

namespace Path

variable {p q : Path} {place names : List Text}

/-- On its way the path comes to a place: its first steps lead there. -/
def Passes (p : Path) (place : List Text) : Prop :=
  ∃ front, front <+: p.written ∧ placeOf front = place

theorem passes_place (p : Path) : p.Passes p.place :=
  ⟨p.written, List.prefix_rfl, p.place_eq_placeOf.symm⟩

theorem Passes.mono (h : p.Passes place) (hpq : p.written <+: q.written) : q.Passes place := by
  obtain ⟨front, hfront, rfl⟩ := h
  exact ⟨front, hfront.trans hpq, rfl⟩

/-- A path that goes down comes to nothing but what is above its end. -/
theorem Passes.prefix_of_descends (h : p.Passes place) (hp : p.Descends names) :
    place <+: names := by
  obtain ⟨front, hfront, rfl⟩ := h
  obtain ⟨ups, hwritten⟩ := hp.written
  rw [hwritten] at hfront
  obtain ⟨names', ups', rfl, hnames'⟩ := prefix_replicate_append hfront
  rw [placeOf_append _ fun s hs => hp.isName s (hnames'.subset hs), placeOf_ups]
  exact hnames'

/-- On the way to what is below a path is the way of the path, and then what is below. -/
theorem Passes.of_written (h : p.Passes place) (hwritten : p.written = q.written ++ names)
    (hnames : ∀ s ∈ names, IsName s) :
    q.Passes place ∨ ∃ front, front ≠ [] ∧ front <+: names ∧ place = q.place ++ front := by
  obtain ⟨first, hfirst, rfl⟩ := h
  rw [hwritten] at hfirst
  rcases prefix_append_cases hfirst with h | ⟨front, hfront, rfl⟩
  · exact Or.inl ⟨first, h, rfl⟩
  · by_cases hnil : front = []
    · exact Or.inl ⟨q.written, List.prefix_rfl, by rw [hnil, List.append_nil]⟩
    · refine Or.inr ⟨front, hnil, hfront, ?_⟩
      rw [placeOf_append _ fun s hs => hnames s (hfront.subset hs), place_eq_placeOf]

/-- A path that goes down, up and down again comes to nothing but what is above the place where it
turns up, and what is above its end. -/
theorem Passes.of_ups {front back : List Text} {ups : Nat} (h : p.Passes place)
    (hwritten : p.written = front ++ List.replicate ups upPiece ++ back)
    (hfront : ∀ s ∈ front, IsName s) (hback : ∀ s ∈ back, IsName s) :
    place <+: front ∨ place <+: p.place := by
  obtain ⟨first, hfirst, rfl⟩ := h
  have hplace : placeOf front = front := placeOf_append [] hfront
  rw [hwritten] at hfirst
  rcases prefix_append_cases hfirst with hturn | ⟨rest, hrest, rfl⟩
  · refine Or.inl ?_
    rcases prefix_append_cases hturn with hdown | ⟨rest, hrest, rfl⟩
    · have hnames := placeOf_append [] fun s hs => hfront s (hdown.subset hs)
      exact hnames ▸ hdown
    · have hups := prefix_placeOf_ups (fun s hs => (hfront s hs).no_slash) rest.length
      rwa [hplace, ← (List.prefix_replicate_iff.mp hrest).2] at hups
  · refine Or.inr ?_
    rw [place_eq_placeOf, hwritten, placeOf_append _ hback,
      placeOf_append _ fun s hs => hback s (hrest.subset hs)]
    exact (List.prefix_append_right_inj _).mpr hrest

end Path

namespace FileTree

variable {t : FileTree} {l : Location} {p : Path} {place : List Text}

/-! ## Directories at places -/

/-- A path leads to a directory. -/
theorem isDirectory_iff :
    t.isDirectory p = true ↔ ∃ l, t.find p = .ok l ∧ t.entry? l = some .directory := by
  unfold isDirectory lookup?
  cases t.find p with
  | error fault => exact ⟨nofun, fun ⟨_, h, _⟩ => by cases h⟩
  | ok l =>
    refine beq_iff_eq.trans ⟨fun h => ⟨l, rfl, h⟩, ?_⟩
    rintro ⟨l', hl', h⟩
    cases hl'
    exact h

/-- A directory stands at a place. -/
def FolderAt (t : FileTree) (place : List Text) : Prop :=
  ∃ l : Location, l.texts = place ∧ t.entry? l = some .directory

theorem folderAt_texts : t.FolderAt l.texts ↔ t.entry? l = some .directory := by
  constructor
  · rintro ⟨l', hl, h⟩
    rwa [← Location.texts_inj hl]
  · exact fun h => ⟨l, rfl, h⟩

theorem folderAt_of_isDirectory (h : t.isDirectory p = true) : t.FolderAt p.place := by
  obtain ⟨l, hfind, hl⟩ := isDirectory_iff.mp h
  exact ⟨l, texts_of_find hfind, hl⟩

/-- What stands above a directory is a directory. -/
theorem FolderAt.above {front : List Text} (h : t.FolderAt place) (hfront : front <+: place) :
    t.FolderAt front := by
  obtain ⟨back, rfl⟩ := hfront
  obtain ⟨l, hl, he⟩ := h
  obtain ⟨top, below, rfl, rfl, -⟩ := Location.exists_of_texts_eq_append hl
  rw [folderAt_texts]
  by_cases hnil : below = []
  · rwa [hnil, List.append_nil] at he
  · exact entry?_of_append (by rw [he]; rfl) hnil

/-! ## All the way -/

theorem follow_of_passes {pieces : List Text} (hslash : ∀ s ∈ pieces, '/' ∉ s)
    (h : ∀ front, front <+: (pieces.filter fun s => !Path.isVoid s) → t.FolderAt (placeOf front)) :
    ∃ l, t.follow [] pieces = .ok l ∧ t.entry? l = some .directory := by
  induction pieces using List.reverseRecOn with
  | nil => exact ⟨[], rfl, rfl⟩
  | append_singleton pieces piece ih =>
    rw [List.filter_append] at h
    obtain ⟨l, hfollow, hl⟩ := ih (fun s hs => hslash s (List.mem_append_left _ hs))
      fun front hfront => h front (hfront.trans (List.prefix_append _ _))
    have hnext : ∃ l', t.step l piece = .ok l' ∧ t.entry? l' = some .directory := by
      rcases Path.void_or_up_or_name (hslash piece List.mem_concat_self) with hvoid | rfl | hname
      · refine ⟨l, ?_, hl⟩
        unfold step
        rw [if_neg (by simp [hl]), if_pos hvoid]
      · refine ⟨l.dropLast, ?_, folderAt_texts.mp ?_⟩
        · unfold step
          rw [if_neg (by simp [hl])]
          rfl
        · refine FolderAt.above (folderAt_texts.mpr hl) ?_
          exact (List.dropLast_prefix l).map _
      · -- the name leads to what the path comes to next
        have hpiece : [piece].filter (fun s => !Path.isVoid s) = [piece] :=
          List.filter_cons_of_pos (by simp [hname.not_void])
        obtain ⟨l', htexts, hl'⟩ := h _ List.prefix_rfl
        rw [hpiece, Path.placeOf_append _ (List.forall_mem_singleton.mpr hname),
          ← texts_of_follow hfollow] at htexts
        obtain ⟨top, below, rfl, htop, hbelow⟩ := Location.exists_of_texts_eq_append htexts
        obtain rfl := Location.texts_inj htop
        obtain ⟨n, rfl, rfl⟩ := List.map_eq_singleton_iff.mp hbelow
        exact ⟨top ++ [n], step_entry hl (hl' ▸ rfl), hl'⟩
    obtain ⟨l', hstep, hl'⟩ := hnext
    refine ⟨l', ?_, hl'⟩
    rw [follow_append, hfollow]
    change t.follow l [piece] = _
    rw [follow, hstep]
    rfl

/-- No text of a name holds the null character. -/
theorem toNat_ne_zero_of_mem {n : FileName} {c : Char} (hc : c ∈ n.text) : c.toNat ≠ 0 := by
  have hvalid := n.valid
  simp only [isFileName, Bool.and_eq_true, bne_iff_ne, ne_eq, List.all_eq_true,
    decide_eq_true_eq] at hvalid
  exact (hvalid.1.1.1.2 c hc).2

/-- A path holds no null character if the names that it writes are names of entries. -/
theorem any_toNat_eq_false
    (h : ∀ s ∈ p.written, s = upPiece ∨ ∃ n : FileName, n.text = s) :
    p.text.any (fun c => c.toNat == 0) = false := by
  rw [List.any_eq_false]
  intro c hc hzero
  have hzero : c.toNat = 0 := beq_iff_eq.mp hzero
  have hjoin : Text.join '/' (p.text.splitOn '/') = p.text := List.intercalate_splitOn '/'
  rw [← hjoin] at hc
  rcases Text.mem_join hc with rfl | ⟨piece, hpiece, hc⟩
  · cases hzero
  · cases hvoid : Path.isVoid piece with
    | true =>
      simp only [Path.isVoid, Bool.or_eq_true, beq_iff_eq] at hvoid
      rcases hvoid with rfl | rfl
      · exact absurd hc List.not_mem_nil
      · rw [List.mem_singleton.mp hc] at hzero
        cases hzero
    | false =>
      rcases h piece (List.mem_filter.mpr ⟨hpiece, by rw [hvoid]; rfl⟩) with rfl | ⟨n, rfl⟩
      · have hdot : c = '.' := by simpa [upPiece] using hc
        rw [hdot] at hzero
        cases hzero
      · exact toNat_ne_zero_of_mem hc hzero

/-- **A path leads to a directory** if there are directories all the way. -/
theorem isDirectory_of_passes (hp : p.isAbsolute = true)
    (h : ∀ place, p.Passes place → t.FolderAt place) : t.isDirectory p = true := by
  obtain ⟨pieces, hsplit⟩ := Path.split_of_isAbsolute hp
  have hslash : ∀ s ∈ pieces, '/' ∉ s := fun s hs =>
    Text.not_mem_of_mem_splitOn (Path.splitOn_of_split hsplit ▸ List.mem_cons_of_mem _ hs)
  have hwritten := Path.written_of_split hsplit
  have hnames : ∀ s ∈ p.written, s = upPiece ∨ ∃ n : FileName, n.text = s := fun s hs => by
    have hmem := List.mem_filter.mp (hwritten ▸ hs)
    rcases Path.void_or_up_or_name (hslash s hmem.1) with hvoid | hup | hname
    · simp [hvoid] at hmem
    · exact Or.inl hup
    · obtain ⟨front, back, hfront⟩ := List.append_of_mem hs
      obtain ⟨l, htexts, -⟩ := h (placeOf (front ++ [s])) ⟨front ++ [s], by simp [hfront], rfl⟩
      rw [Path.placeOf_append _ (List.forall_mem_singleton.mpr hname)] at htexts
      obtain ⟨n, -, hn⟩ := List.mem_map.mp (htexts ▸ List.mem_concat_self : s ∈ l.texts)
      exact Or.inr ⟨n, hn⟩
  obtain ⟨l, hfollow, hl⟩ := follow_of_passes hslash fun front hfront =>
    h _ ⟨front, hwritten ▸ hfront, rfl⟩
  refine isDirectory_iff.mpr ⟨l, ?_, hl⟩
  unfold find
  rw [any_toNat_eq_false hnames, hsplit]
  exact hfollow

/-- A path that goes down leads to the directory at its place. -/
theorem find_of_descends (hp : p.Descends l.texts) (h : t.entry? l = some .directory) :
    t.find p = .ok l := by
  obtain ⟨l', hfind, -⟩ := isDirectory_iff.mp (isDirectory_of_passes hp.isAbsolute
    fun place hplace => (folderAt_texts.mpr h).above (hplace.prefix_of_descends hp))
  have htexts := texts_of_find hfind
  rw [hp.place_eq] at htexts
  rw [hfind, Location.texts_inj htexts]

/-- All on the way of a path that leads somewhere is there. -/
theorem exists_of_passes (hfind : t.find p = .ok l) (hp : p.Passes place) :
    ∃ m : Location, m.texts = place ∧ (t.entry? m).isSome = true := by
  obtain ⟨front, ⟨back, hback⟩, rfl⟩ := hp
  obtain ⟨pieces, hsplit, hfollow⟩ := find_ok hfind
  rw [Path.written_of_split hsplit] at hback
  obtain ⟨first, rest, rfl, rfl, -⟩ := List.filter_eq_append_iff.mp hback.symm
  obtain ⟨m, hm, -⟩ := follow_append_ok hfollow
  exact ⟨m, texts_of_follow hm, isSome_entry?_follow hm rfl⟩

end FileTree

end SolPlan
