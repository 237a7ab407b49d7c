import Mathlib.Data.List.Infix
import SolPlan.Proofs.Import.Resolve
import SolPlan.Proofs.Path.Place

/-!
# Relative imports

Where a relative import leads is looked up in the file tree if something is there, and read off the
text of the path otherwise. A path that never goes above the root directory (`Climbs`) gives the
same either way: its steps are names, and each `..` takes away the name before it, whether that is a
directory or not. So one file never gets two ids.

Results:
* `resolvePieces_of_not_climbs`: the steps of a path that does not climb;
* `resolve_eq_normalize`: looked up or not, it leads to the normalized path;
* **`resolve_relative`**: where a relative import leads, in every tree and with every table.
-/

namespace SolPlan

namespace Path

variable {p : Path} {pieces : List Text}

/-- Up to some point, more than half of the steps go up: the path leaves the root directory. -/
def Climbs (p : Path) : Prop :=
  ∃ front, front <+: p.written ∧ front.length < 2 * front.count upPiece

instance (p : Path) : Decidable p.Climbs :=
  decidable_of_iff (∃ front ∈ p.written.inits, front.length < 2 * front.count upPiece) <| by
    unfold Climbs
    simp only [List.mem_inits]

/-- Up to each point there is a name for each step upwards, so what remains are names, as many as
there are more of them. -/
theorem resolvePieces_of_not_climbs (hsolid : ∀ s ∈ pieces, '/' ∉ s ∧ isVoid s = false)
    (h : ∀ front, front <+: pieces → 2 * front.count upPiece ≤ front.length) :
    (∀ s ∈ resolvePieces [] pieces, IsName s) ∧
      (resolvePieces [] pieces).length + 2 * pieces.count upPiece = pieces.length := by
  induction pieces using List.reverseRecOn with
  | nil => exact ⟨fun _ hs => absurd hs List.not_mem_nil, rfl⟩
  | append_singleton pieces s ih =>
    obtain ⟨hnames, hlength⟩ := ih (fun s' hs' => hsolid s' (List.mem_append_left _ hs'))
      fun front hfront => h front (hfront.trans (List.prefix_append _ _))
    have hends := h _ List.prefix_rfl
    obtain ⟨hslash, hvoid⟩ := hsolid s (List.mem_append_right _ List.mem_cons_self)
    rw [List.count_append, List.length_append, List.length_singleton] at hends ⊢
    rw [resolvePieces_append]
    by_cases hup : s = upPiece
    · subst hup
      rw [List.count_singleton_self] at hends ⊢
      cases hkept : resolvePieces [] pieces with
      | nil =>
        -- no name is left that the step upwards could take away
        rw [hkept, List.length_nil] at hlength
        omega
      | cons s kept =>
        rw [hkept, List.length_cons] at hlength
        rw [hkept] at hnames
        rw [resolvePieces_up]
        exact ⟨fun s' hs' => hnames s' (List.mem_cons_of_mem s hs'), by omega⟩
    · have hname : IsName s := ⟨hslash, hvoid, hup⟩
      have hcount : [s].count upPiece = 0 := List.count_eq_zero.mpr (by simpa using Ne.symm hup)
      rw [resolvePieces_name hname, hcount, List.length_cons]
      refine ⟨fun s' hs' => ?_, by omega⟩
      rcases List.mem_cons.mp hs' with rfl | hs'
      · exact hname
      · exact hnames s' hs'

/-- The steps of a path that does not climb do not go up. -/
theorem up_not_mem_steps (h : ¬ p.Climbs) : upPiece ∉ p.steps := by
  have hsolid : ∀ s ∈ p.written, '/' ∉ s ∧ isVoid s = false := fun s hs => by
    obtain ⟨hs, hvoid⟩ := List.mem_filter.mp hs
    exact ⟨Text.not_mem_of_mem_splitOn hs, by simpa using hvoid⟩
  obtain ⟨hnames, -⟩ := resolvePieces_of_not_climbs hsolid fun front hfront =>
    Nat.le_of_not_lt fun hlt => h ⟨front, hfront, hlt⟩
  intro hup
  rw [← List.mem_reverse, reverse_steps_eq] at hup
  exact (hnames _ hup).not_up rfl

theorem isAbsolute_of_parent? {folder : Path} (hp : p.isAbsolute = true)
    (h : p.parent? = some folder) : folder.isAbsolute = true :=
  (written_of_mem_above hp (List.mem_of_mem_head? h)).1

end Path

/-- **A path that does not climb leads to the normalized path**, whatever is there. -/
theorem FileTree.resolve_eq_normalize {p : Path} (hp : p.isAbsolute = true) (h : ¬ p.Climbs)
    (t : FileTree) : t.resolve p = p.normalize := by
  unfold FileTree.resolve
  cases hfind : t.find p with
  | error fault => rfl
  | ok l =>
    have hplace : p.place = p.steps := List.filter_eq_self.mpr fun s hs =>
      decide_eq_true fun hup => Path.up_not_mem_steps h (hup ▸ hs)
    dsimp only
    rw [Location.path_eq, texts_of_find hfind, hplace]
    unfold Path.normalize
    rw [hp]

namespace Import

variable {importing folder : Path} {raw : Text} {i : Import}

/-- **A relative import leads to its place seen from the importing file**, spelled out by the two
paths alone: with every table and every registry, and whatever is in the tree. It is not expanded,
and nothing is corrected. -/
theorem resolve_relative (hi : ofStatement importing raw = .ok i) (hrelative : i.isRelative = true)
    (habsolute : importing.isAbsolute = true) (hfolder : importing.parent? = some folder)
    (hclimbs : ¬ (folder.join ⟨i.value⟩).Climbs) (t : FileTree) (p : Project) (r : Registry)
    (table : RemappingTable) :
    ∃ res, Import.resolve t p r table importing raw = .ok res ∧
      res.statement.target =
        some ⟨SourceId.ofPath (folder.join ⟨i.value⟩).normalize p.rootPath,
          (folder.join ⟨i.value⟩).normalize⟩ ∧
      res.statement.remapping = none ∧ res.correction = none := by
  have hremap : i.remap table = i := if_pos hrelative
  have hpath : i.findPath? t p importing = some (folder.join ⟨i.value⟩) := by
    unfold findPath?
    rw [if_pos hrelative, hfolder]
    rfl
  have hfound : i.findTarget t p r importing = ⟨i.locate t p (folder.join ⟨i.value⟩), none⟩ := by
    unfold findTarget
    rw [hpath]
  refine ⟨_, by unfold Import.resolve; rw [hi]; rfl, ?_⟩
  rw [hremap, hfound]
  refine ⟨?_, (ofStatement_ok hi).1, rfl⟩
  unfold locate
  rw [FileTree.resolve_eq_normalize
    (Path.isAbsolute_join (Path.isAbsolute_of_parent? habsolute hfolder) _) hclimbs]

/-- An import that goes up, and spells its way with empty and void pieces. -/
def siblingImport : Import := ⟨'\'', '/', "../c//./B".toList, none, none, none⟩

/-- The import of a file that is there, below a file where a directory should be, and nowhere. -/
theorem resolve_relative_sibling :
    ofStatement ⟨"/a/b/A".toList⟩ "import '../c//./B';".toList = .ok siblingImport ∧
      ¬ (Path.join ⟨"/a/b".toList⟩ ⟨siblingImport.value⟩).Climbs ∧
      ∀ t ∈ [FileTree.empty.place ⟨"/a/c/B".toList⟩ (some (.text [])),
          FileTree.empty.place ⟨"/a/c".toList⟩ (some (.text [])), FileTree.empty],
        ∃ res, Import.resolve t ⟨[], ⟨[]⟩, ⟨[], []⟩⟩ ⟨[], [], none⟩ .empty ⟨"/a/b/A".toList⟩
            "import '../c//./B';".toList = .ok res ∧
          res.statement.target = some ⟨.ofText "a/c/B".toList, ⟨"/a/c/B".toList⟩⟩ ∧
          res.statement.remapping = none ∧ res.correction = none := by
  have hi : ofStatement ⟨"/a/b/A".toList⟩ "import '../c//./B';".toList = .ok siblingImport := by
    decide
  have hclimbs : ¬ (Path.join ⟨"/a/b".toList⟩ ⟨siblingImport.value⟩).Climbs := by decide
  exact ⟨hi, hclimbs, fun t _ => resolve_relative hi rfl rfl rfl hclimbs t _ _ _⟩

end Import

end SolPlan
