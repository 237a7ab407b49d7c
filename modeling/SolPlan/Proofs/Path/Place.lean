import Mathlib.Data.List.Induction
import SolPlan.Project
import SolPlan.Proofs.FileTree.Lookup

/-!
# Places of paths

Wherever a path leads in a file tree, its text says where that is: its steps without the `..` that
leaves the root directory (`place`). Whether it leads anywhere depends on what is there. Some paths
only go down, after steps upwards at their start if any (`Descends`); they are those that are
normalized, and what is below them.

Results:
* `placeOf_append`, `placeOf_up`: where a step more leads;
* **`texts_of_find`**: a path leads to its place, if it leads anywhere;
* `descends_cacheFolder`: the cache folder of a project is reached by going down.
-/

namespace SolPlan

namespace Path

/-- The steps that a path writes. -/
def written (p : Path) : List Text := (p.text.splitOn '/').filter fun s => !isVoid s

/-- The names from the root down to where a path leads. Above the root is the root. -/
def place (p : Path) : List Text := p.steps.filter (· ≠ upPiece)

/-- The path starts at the root, may try to go above it, and then goes down. -/
structure Descends (p : Path) (names : List Text) : Prop where
  isAbsolute : p.isAbsolute = true
  written : ∃ ups, p.written = List.replicate ups upPiece ++ names
  isName : ∀ s ∈ names, IsName s

variable {p q : Path} {names : List Text}

/-! ## The steps that are written -/

/-- The pieces of a path that starts at the root. -/
theorem splitOn_of_split {pieces : List Text} (h : p.split = (.root, pieces)) :
    p.text.splitOn '/' = [] :: pieces := by
  unfold split at h
  split at h
  · rename_i body hbody
    cases h
    rw [hbody, splitOn_slash_cons]
  · split at h <;> cases congrArg Prod.fst h

theorem written_of_split {pieces : List Text} (h : p.split = (.root, pieces)) :
    p.written = pieces.filter fun s => !isVoid s := by
  rw [written, splitOn_of_split h, List.filter_cons_of_neg (by decide)]

theorem isAbsolute_of_split {pieces : List Text} (h : p.split = (.root, pieces)) :
    p.isAbsolute = true := by
  unfold split at h
  unfold isAbsolute
  split at h
  · rename_i body hbody
    rw [hbody]
    rfl
  · split at h <;> cases congrArg Prod.fst h

theorem split_of_isAbsolute (h : p.isAbsolute = true) : ∃ pieces, p.split = (.root, pieces) := by
  unfold isAbsolute at h
  unfold split
  cases htext : p.text with
  | nil => rw [htext] at h; cases h
  | cons c body =>
    rw [htext] at h
    obtain rfl : c = '/' := by simpa using h
    exact ⟨_, rfl⟩

theorem resolvePieces_filter (kept pieces : List Text) :
    resolvePieces kept (pieces.filter fun s => !isVoid s) = resolvePieces kept pieces := by
  induction pieces generalizing kept with
  | nil => rfl
  | cons s pieces ih =>
    cases hvoid : isVoid s with
    | true =>
      rw [List.filter_cons_of_neg (by simp [hvoid]), resolvePieces_cons, resolvePieces_void hvoid]
      exact ih kept
    | false =>
      rw [List.filter_cons_of_pos (by simp [hvoid]), resolvePieces_cons kept s (pieces.filter _),
        resolvePieces_cons kept s pieces]
      exact ih _

theorem reverse_steps_eq (p : Path) : p.steps.reverse = resolvePieces [] p.written := by
  rw [reverse_steps, written, resolvePieces_filter]

/-- A path seen from another has its pieces after those of the other, but for an empty one at the
end. -/
theorem splitOn_join (p : Path) (hq : q.isAbsolute = false) :
    ∃ front, (p.join q).text.splitOn '/' = front ++ q.text.splitOn '/' ∧
      (front.filter fun s => !isVoid s) = p.written := by
  unfold written join
  rw [if_neg (by simp [hq])]
  split
  · rename_i hend
    rw [Bool.or_eq_true, decide_eq_true_eq, decide_eq_true_eq] at hend
    rcases hend with hnil | hlast
    · exact ⟨[], by rw [hnil]; rfl, by rw [hnil]; rfl⟩
    · obtain ⟨front, hfront⟩ := List.getLast?_eq_some_iff.mp hlast
      refine ⟨front.splitOn '/', ?_, ?_⟩
      · rw [hfront, List.append_assoc, List.singleton_append, List.splitOn_append_cons_self]
      · rw [hfront, List.splitOn_append_cons_self, List.splitOn_nil, List.filter_append]
        simp [isVoid]
  · exact ⟨p.text.splitOn '/', List.splitOn_append_cons_self _ _, rfl⟩

/-- A path seen from another writes its steps after those of the other. -/
theorem written_join (p : Path) (hq : q.isAbsolute = false) :
    (p.join q).written = p.written ++ q.written := by
  obtain ⟨front, hsplit, hfront⟩ := splitOn_join p hq
  rw [written, hsplit, List.filter_append, hfront]
  rfl

/-- Pieces that are not void are written as they are. -/
theorem written_pieces {pieces : List Text} (h : ∀ s ∈ pieces, '/' ∉ s ∧ isVoid s = false) :
    (⟨Text.join '/' pieces⟩ : Path).written = pieces := by
  unfold written
  by_cases hnil : pieces = []
  · subst hnil
    rfl
  · rw [Text.join, List.splitOn_intercalate _ (fun s hs => (h s hs).1) hnil]
    exact List.filter_eq_self.mpr fun s hs => by rw [(h s hs).2]; rfl

/-- Names joined by slashes write these names. -/
theorem written_names (h : ∀ s ∈ names, IsName s) :
    (⟨Text.join '/' names⟩ : Path).isAbsolute = false ∧
      (⟨Text.join '/' names⟩ : Path).written = names := by
  have hsolid : ∀ s ∈ names, '/' ∉ s ∧ isVoid s = false := fun s hs =>
    ⟨(h s hs).no_slash, (h s hs).not_void⟩
  refine ⟨?_, written_pieces hsolid⟩
  simpa [isAbsolute] using head?_join hsolid

theorem written_name {s : Text} (h : IsName s) :
    (⟨s⟩ : Path).isAbsolute = false ∧ (⟨s⟩ : Path).written = [s] := by
  have hnames := written_names fun s' (hs' : s' ∈ [s]) => List.mem_singleton.mp hs' ▸ h
  rwa [Text.join, List.intercalate_singleton] at hnames

/-- The pieces of a path that starts at the root are written, but for those that are void. -/
theorem written_root {pieces : List Text} (h : ∀ s ∈ pieces, '/' ∉ s) :
    (ofPieces .root pieces).written = pieces.filter fun s => !isVoid s := by
  change (('/' :: Text.join '/' pieces).splitOn '/').filter (fun s => !isVoid s) = _
  rw [splitOn_slash_cons, List.filter_cons_of_neg (by decide)]
  by_cases hnil : pieces = []
  · subst hnil
    rfl
  · rw [Text.join, List.splitOn_intercalate _ h hnil]

/-- Steps from the root are written as they are. -/
theorem written_ofSteps {steps : List Text} (h : ∀ s ∈ steps, '/' ∉ s ∧ isVoid s = false) :
    (ofSteps true steps).written = steps := by
  refine (written_root fun s hs => (h s hs).1).trans (List.filter_eq_self.mpr ?_)
  exact fun s hs => by rw [(h s hs).2]; rfl

theorem suffix_of_mem_shorten {kept pieces : List Text} (h : kept ∈ shorten pieces) :
    kept <:+ pieces := by
  induction pieces with
  | nil =>
    obtain rfl : kept = [] := List.mem_singleton.mp h
    exact List.suffix_rfl
  | cons s pieces ih =>
    unfold shorten at h
    split at h
    · exact (ih h).trans (List.suffix_cons s pieces)
    · rcases List.mem_cons.mp h with rfl | h
      · exact List.suffix_rfl
      · exact (ih h).trans (List.suffix_cons s pieces)

/-- What is above a path writes the first of its steps. -/
theorem written_of_mem_above (hp : p.isAbsolute = true) (hq : q ∈ p.above) :
    q.isAbsolute = true ∧ q.written <+: p.written := by
  obtain ⟨pieces, hsplit⟩ := split_of_isAbsolute hp
  have hslash : ∀ s ∈ pieces, '/' ∉ s := fun s hs =>
    Text.not_mem_of_mem_splitOn (splitOn_of_split hsplit ▸ List.mem_cons_of_mem _ hs)
  unfold Path.above at hq
  rw [hsplit] at hq
  obtain ⟨kept, hkept, rfl⟩ := List.mem_map.mp hq
  have habove : kept.reverse <+: pieces := by
    rw [← List.reverse_reverse pieces, List.reverse_prefix]
    exact suffix_of_mem_shorten (List.mem_of_mem_tail hkept)
  refine ⟨rfl, ?_⟩
  rw [written_root fun s hs => hslash s (habove.subset hs), written_of_split hsplit]
  exact habove.filter _

/-- The start of one list and then another. -/
theorem prefix_append_cases {α : Type} {a b c : List α} (h : a <+: b ++ c) :
    a <+: b ∨ ∃ c', c' <+: c ∧ a = b ++ c' := by
  rcases List.prefix_or_prefix_of_prefix h (List.prefix_append b c) with hfront | ⟨c', rfl⟩
  · exact Or.inl hfront
  · exact Or.inr ⟨c', (List.prefix_append_right_inj b).mp h, rfl⟩

theorem prefix_replicate_append {α : Type} {x : α} {n : Nat} {a b : List α}
    (h : a <+: List.replicate n x ++ b) :
    ∃ b' n', a = List.replicate n' x ++ b' ∧ b' <+: b := by
  rcases prefix_append_cases h with hfront | ⟨b', hb', rfl⟩
  · refine ⟨[], a.length, ?_, List.nil_prefix⟩
    rw [List.append_nil, ← (List.prefix_replicate_iff.mp hfront).2]
  · exact ⟨b', n, rfl, hb'⟩

/-! ## Where steps lead -/

/-- The place that steps lead to from the root. -/
def placeOf (steps : List Text) : List Text :=
  (resolvePieces [] steps).reverse.filter (· ≠ upPiece)

theorem place_eq_placeOf (p : Path) : p.place = placeOf p.written := by
  unfold place placeOf
  rw [← reverse_steps_eq, List.reverse_reverse]

/-- Names lead down from wherever the steps before them lead. -/
theorem placeOf_append (steps : List Text) (hnames : ∀ s ∈ names, IsName s) :
    placeOf (steps ++ names) = placeOf steps ++ names := by
  have hkept : names.filter (· ≠ upPiece) = names :=
    List.filter_eq_self.mpr fun s hs => decide_eq_true (hnames s hs).not_up
  unfold placeOf
  rw [resolvePieces_append, resolvePieces_names hnames, List.reverse_append, List.reverse_reverse,
    List.filter_append, hkept]

/-- A path of names leads down from where the path leads that it is seen from. -/
theorem place_join (p : Path) (hq : q.isAbsolute = false) (hnames : ∀ s ∈ q.written, IsName s) :
    (p.join q).place = p.place ++ q.written := by
  rw [place_eq_placeOf, written_join p hq, placeOf_append _ hnames, ← place_eq_placeOf]

/-- A step upwards leads to the directory above. Above the root is the root. -/
theorem placeOf_up {steps : List Text} (hslash : ∀ s ∈ steps, '/' ∉ s) :
    placeOf (steps ++ [upPiece]) = (placeOf steps).dropLast := by
  obtain ⟨names, hnames, hkept⟩ := grounded_resolvePieces hslash
  unfold placeOf
  rw [resolvePieces_append]
  cases names with
  | nil => rcases hkept with hkept | hkept <;> rw [hkept] <;> rfl
  | cons n names =>
    have hn : n ≠ upPiece := (hnames n List.mem_cons_self).not_up
    rcases hkept with hkept | hkept <;> rw [hkept] <;> simp [resolvePieces_up, hn]

/-- Steps upwards lead to what is above. -/
theorem prefix_placeOf_ups {steps : List Text} (hslash : ∀ s ∈ steps, '/' ∉ s) (n : Nat) :
    placeOf (steps ++ List.replicate n upPiece) <+: placeOf steps := by
  induction n with
  | zero => exact (List.append_nil steps).symm ▸ List.prefix_rfl
  | succ n ih =>
    have hsteps : ∀ s ∈ steps ++ List.replicate n upPiece, '/' ∉ s :=
      List.forall_mem_append.mpr ⟨hslash, fun s hs =>
        (List.mem_replicate.mp hs).2 ▸ isSegment_upPiece.no_slash⟩
    rw [List.replicate_succ', ← List.append_assoc, placeOf_up hsteps]
    exact (List.dropLast_prefix _).trans ih

/-- From the root, steps upwards lead nowhere but to the root. -/
theorem placeOf_ups (n : Nat) : placeOf (List.replicate n upPiece) = [] := by
  have hroot : placeOf ([] ++ List.replicate n upPiece) <+: placeOf [] :=
    prefix_placeOf_ups (fun _ hs => absurd hs List.not_mem_nil) n
  exact List.prefix_nil.mp hroot

/-! ## Going down -/

theorem place_of_written {ups : Nat} (h : p.written = List.replicate ups upPiece ++ names)
    (hnames : ∀ s ∈ names, IsName s) : p.place = names := by
  rw [place_eq_placeOf, h, placeOf_append _ hnames, placeOf_ups, List.nil_append]

namespace Descends

theorem place_eq (h : Descends p names) : p.place = names :=
  h.written.elim fun _ hwritten => place_of_written hwritten h.isName

theorem join (h : Descends p names) (hq : q.isAbsolute = false)
    (hnames : ∀ s ∈ q.written, IsName s) : Descends (p.join q) (names ++ q.written) := by
  obtain ⟨ups, hwritten⟩ := h.written
  refine ⟨isAbsolute_join h.isAbsolute q, ⟨ups, ?_⟩, fun s hs => ?_⟩
  · rw [written_join p hq, hwritten, List.append_assoc]
  · rcases List.mem_append.mp hs with hs | hs
    · exact h.isName s hs
    · exact hnames s hs

theorem join_name {s : Text} (h : Descends p names) (hs : IsName s) :
    Descends (p.join ⟨s⟩) (names ++ [s]) := by
  obtain ⟨hrelative, hwritten⟩ := written_name hs
  have := h.join hrelative fun s' hs' => List.mem_singleton.mp (hwritten ▸ hs') ▸ hs
  rwa [hwritten] at this

/-- What is above a path that goes down is reached by going down a part of the way. -/
theorem above (h : Descends p names) (hq : q ∈ p.above) :
    ∃ front, front <+: names ∧ Descends q front := by
  obtain ⟨ups, hwritten⟩ := h.written
  obtain ⟨habsolute, hpart⟩ := written_of_mem_above h.isAbsolute hq
  rw [hwritten] at hpart
  obtain ⟨front, ups', hwritten', hfront⟩ := prefix_replicate_append hpart
  exact ⟨front, hfront, habsolute, ⟨ups', hwritten'⟩, fun s hs => h.isName s (hfront.subset hs)⟩

end Descends

/-! ## Normalized paths go down -/

/-- What is normalized goes down from the root. -/
theorem exists_descends_normalize (h : p.isAbsolute = true) :
    ∃ names, Descends p.normalize names := by
  obtain ⟨names, hnames, hsteps⟩ := p.grounded_steps.exists_names
  have hups : ∃ ups, p.steps = List.replicate ups upPiece ++ names :=
    hsteps.elim (fun hsteps => ⟨0, hsteps⟩) fun hsteps => ⟨1, hsteps⟩
  refine ⟨names, ?_, ?_, hnames⟩
  · unfold normalize
    rw [h]
    rfl
  · unfold normalize
    rwa [h, written_ofSteps p.grounded_steps.solid]

end Path

open SolPlan.Path (upPiece IsName)

theorem Location.written_path (l : Location) : l.path.written = l.texts :=
  Path.written_ofSteps fun s hs => ⟨(isName s hs).no_slash, (isName s hs).not_void⟩

theorem Location.place_path (l : Location) : l.path.place = l.texts := by
  rw [Path.place_eq_placeOf, l.written_path]
  exact Path.placeOf_append [] isName

/-- The cache folder of a project is reached by going down. -/
theorem Project.descends_cacheFolder (p : Project) :
    ∃ names, p.cacheFolder.Descends names := by
  obtain ⟨names, hnames⟩ := Path.exists_descends_normalize
    (Path.isAbsolute_join (p := p.rootPath) rfl p.folder)
  exact ⟨_, hnames.join_name (s := cacheFolderName) ⟨by decide, by decide, by decide⟩⟩

/-! ## Places in a tree -/

namespace FileTree

variable {t : FileTree} {l l' : Location} {p : Path} {names : List Text}

/-- The pieces that lead on from a location are the steps from there. At the root there may be a
step upwards that was not taken. -/
theorem follow_spells {pieces kept : List Text} (h : t.follow l pieces = .ok l')
    (hkept : kept = l.texts.reverse ∨ kept = l.texts.reverse ++ [upPiece]) :
    Path.resolvePieces kept pieces = l'.texts.reverse ∨
      Path.resolvePieces kept pieces = l'.texts.reverse ++ [upPiece] := by
  induction pieces generalizing l kept with
  | nil =>
    cases h
    exact hkept
  | cons piece pieces ih =>
    obtain ⟨next, hstep, hfollow⟩ := follow_cons_ok h
    rw [Path.resolvePieces_cons]
    refine ih hfollow ?_
    rcases step_ok hstep with ⟨hvoid, rfl⟩ | ⟨rfl, rfl⟩ | ⟨n, rfl, rfl, -⟩
    · rw [Path.resolvePieces_void hvoid]
      exact hkept
    · rcases List.eq_nil_or_concat l with rfl | ⟨l, n, rfl⟩
      · rcases hkept with rfl | rfl
        · exact Or.inr rfl
        · exact Or.inl rfl
      · rw [List.concat_eq_append, List.dropLast_concat]
        rw [List.concat_eq_append, Location.texts, List.map_append, List.map_singleton,
          List.reverse_append] at hkept
        rcases hkept with rfl | rfl
        · exact Or.inl rfl
        · exact Or.inr rfl
    · rw [Path.resolvePieces_name n.isName, Location.texts, List.map_append, List.map_singleton,
        List.reverse_append]
      exact hkept.imp (congrArg (n.text :: ·)) (congrArg (n.text :: ·))

theorem filter_steps_of_spells {steps : List Text}
    (h : steps.reverse = l.texts.reverse ∨ steps.reverse = l.texts.reverse ++ [upPiece]) :
    steps.filter (· ≠ upPiece) = l.texts := by
  have hnames : l.texts.filter (· ≠ upPiece) = l.texts :=
    List.filter_eq_self.mpr fun s hs => decide_eq_true (Location.isName s hs).not_up
  rcases h with h | h
  · rw [List.reverse_inj.mp h, hnames]
  · rw [← List.reverse_reverse steps, h, List.reverse_append, List.reverse_reverse,
      List.filter_append, hnames]
    rfl

/-- Pieces lead from the root to the place of the steps that they write. -/
theorem texts_of_follow {pieces : List Text} (h : t.follow [] pieces = .ok l) :
    l.texts = Path.placeOf (pieces.filter fun s => !Path.isVoid s) := by
  refine (filter_steps_of_spells ?_).symm
  rw [List.reverse_reverse, Path.resolvePieces_filter]
  exact follow_spells h (Or.inl rfl)

/-- **A path leads to its place**, if it leads anywhere. -/
theorem texts_of_find (h : t.find p = .ok l) : l.texts = p.place := by
  obtain ⟨pieces, hsplit, hfollow⟩ := find_ok h
  rw [texts_of_follow hfollow, Path.place_eq_placeOf, Path.written_of_split hsplit]

/-- What stands above an entry is a directory. -/
theorem entry?_of_append {m : Location} (h : (t.entry? (l ++ m)).isSome = true) (hm : m ≠ []) :
    t.entry? l = some .directory := by
  induction m using List.reverseRecOn with
  | nil => exact absurd rfl hm
  | append_singleton m n ih =>
    have habove : t.entry? (l ++ m) = some .directory := by
      obtain ⟨e, he⟩ := Option.isSome_iff_exists.mp h
      rw [← List.append_assoc] at he
      rcases mem_entries_of_entry? he with hnil | hmem
      · simp at hnil
      · by_cases hroot : l ++ m = []
        · rw [hroot]
          rfl
        · rw [entry?_eq_getElem? hroot]
          exact (t.closed _ n hmem).resolve_left hroot
    by_cases hnil : m = []
    · rw [hnil, List.append_nil] at habove
      exact habove
    · exact ih (habove ▸ rfl) hnil

end FileTree

end SolPlan
