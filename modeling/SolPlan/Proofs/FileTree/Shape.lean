import SolPlan.Proofs.FileTree.Edit

/-!
# Trees of one shape

Two trees have the same shape if the same files and directories are in both, whatever the files
hold. Looking up a path reads nothing but the shape, and so does resolving it; writing to a file
that is there does not change it.

Results:
* `find_eq`, `isFile_eq`, `resolve_eq`: what is looked up in trees of one shape;
* `sameShape_put`: a file with another content.
-/

namespace SolPlan

namespace FileTree

variable {t t' : FileTree}

/-- The same files and directories are in both trees. -/
def SameShape (t t' : FileTree) : Prop :=
  ∀ l, (t.entry? l).map Entry.isFile = (t'.entry? l).map Entry.isFile

namespace SameShape

theorem entry?_isSome (h : SameShape t t') (l : Location) :
    (t.entry? l).isSome = (t'.entry? l).isSome := by
  have := congrArg Option.isSome (h l)
  simpa using this

theorem entry?_eq_directory_iff (h : SameShape t t') (l : Location) :
    t.entry? l = some .directory ↔ t'.entry? l = some .directory := by
  have hiff : ∀ e : Option Entry, e = some .directory ↔ e.map Entry.isFile = some false := by
    rintro (_ | _ | _) <;> simp [Entry.isFile]
  rw [hiff, hiff, h l]

theorem step_eq (h : SameShape t t') (l : Location) (piece : Text) :
    t.step l piece = t'.step l piece := by
  unfold step
  simp only [ne_eq, h.entry?_eq_directory_iff l]
  cases FileName.ofText? piece with
  | none => rfl
  | some name =>
    have hnext := h.entry?_isSome (l ++ [name])
    cases hn : t.entry? (l ++ [name]) <;> cases hn' : t'.entry? (l ++ [name]) <;>
      simp_all

theorem follow_eq (h : SameShape t t') (l : Location) (pieces : List Text) :
    t.follow l pieces = t'.follow l pieces := by
  induction pieces generalizing l with
  | nil => rfl
  | cons piece pieces ih =>
    unfold follow
    rw [h.step_eq]
    exact bind_congr fun l' => ih l'

/-- A path leads to the same place in trees of one shape. -/
theorem find_eq (h : SameShape t t') (p : Path) : t.find p = t'.find p := by
  unfold find
  simp only [h.follow_eq]

theorem resolve_eq (h : SameShape t t') (p : Path) : t.resolve p = t'.resolve p := by
  unfold resolve
  rw [h.find_eq]

theorem isFile_eq (h : SameShape t t') (p : Path) : t.isFile p = t'.isFile p := by
  have hany : ∀ e : Option Entry, e.any Entry.isFile = (e.map Entry.isFile == some true) := by
    rintro (_ | _ | _) <;> rfl
  unfold isFile lookup?
  rw [h.find_eq]
  split
  · rw [hany, hany, h]
  · rfl

end SameShape

/-- A file that is written again keeps the shape. -/
theorem sameShape_put {l : Location} {content content' : Content}
    (h : t.entry? l = some (.file content)) : SameShape t (t.put l (.file content')) := fun l' => by
  have hl : l ≠ [] := by
    rintro rfl
    cases h
  have hfolder : t.entry? l.dropLast = some .directory :=
    entry?_of_append (m := [l.getLast hl]) (by rw [List.dropLast_concat_getLast hl, h]; rfl)
      (List.cons_ne_nil _ _)
  rw [entry?_put hl hfolder (by simp [h])]
  by_cases hl' : l' = l
  · rw [if_pos hl', hl', h]
    rfl
  · rw [if_neg hl']

end FileTree

end SolPlan
