import SolPlan.Path

/-!
# Source ids

A source file is known by its way from the project root, written with `/`. The written form is
**canonical** (`canonical_canonical`): no backslash, no empty segment and no `.` segment. Two
spellings give one id exactly when their segments agree (`SourceId.ofText_eq_iff`). Ids are
ordered as texts. `SourceId.ofText` is `new`, and `SourceId.ofPath` is `from_path`.
-/

namespace SolPlan

/-- The segments of a text: backslashes count as `/`, empty and `.` segments are dropped. -/
def segmentsOf (t : Text) : List Text :=
  ((Text.replaceChar '\\' '/' t).splitOn '/').filter fun s => !Path.isVoid s

/-- The canonical spelling of a text: its segments with a single `/` between them. -/
def canonical (t : Text) : Text := Text.join '/' (segmentsOf t)

/-- What a segment is made of. -/
structure IsSegment (s : Text) : Prop where
  no_slash : '/' ∉ s
  no_backslash : '\\' ∉ s
  not_void : Path.isVoid s = false

theorem not_mem_replaceChar {old new : Char} (h : new ≠ old) (t : Text) :
    old ∉ Text.replaceChar old new t := by
  intro hmem
  obtain ⟨c, -, hc⟩ := List.mem_map.mp hmem
  split at hc
  · exact h hc
  · exact ‹c ≠ old› hc

theorem isSegment_of_mem {t s : Text} (h : s ∈ segmentsOf t) : IsSegment s := by
  simp only [segmentsOf, List.mem_filter, Bool.not_eq_true'] at h
  exact ⟨Text.not_mem_of_mem_splitOn h.1,
    fun hb => not_mem_replaceChar (by decide) t (Text.subset_of_mem_splitOn h.1 hb), h.2⟩

theorem replaceChar_of_not_mem {old new : Char} {t : Text} (h : old ∉ t) :
    Text.replaceChar old new t = t := by
  induction t with
  | nil => rfl
  | cons c t ih =>
    simp only [List.mem_cons, not_or] at h
    simp [Text.replaceChar, Ne.symm h.1] at ih ⊢
    exact ih h.2

/-- Segments are read back from their joined text. -/
theorem segmentsOf_join {segments : List Text} (h : ∀ s ∈ segments, IsSegment s) :
    segmentsOf (Text.join '/' segments) = segments := by
  have hr : Text.replaceChar '\\' '/' (Text.join '/' segments) = Text.join '/' segments :=
    replaceChar_of_not_mem fun hm => by
      rcases Text.mem_join hm with hc | ⟨s, hs, hc⟩
      · cases hc
      · exact (h s hs).no_backslash hc
  unfold segmentsOf
  rw [hr]
  by_cases hn : segments = []
  · subst hn; decide
  · rw [Text.join, List.splitOn_intercalate _ (fun s hs => (h s hs).no_slash) hn]
    exact List.filter_eq_self.mpr fun s hs => by simp [(h s hs).not_void]

theorem segmentsOf_canonical (t : Text) : segmentsOf (canonical t) = segmentsOf t :=
  segmentsOf_join fun _ hs => isSegment_of_mem hs

theorem canonical_canonical (t : Text) : canonical (canonical t) = canonical t := by
  rw [canonical, segmentsOf_canonical, canonical]

/-- A canonical way from the project root to a source file. -/
structure SourceId where
  text : Text
  canonical_text : canonical text = text
deriving DecidableEq

namespace SourceId

/-- The id that a text spells. -/
def ofText (t : Text) : SourceId := ⟨canonical t, canonical_canonical t⟩

instance : Inhabited SourceId := ⟨ofText []⟩

/-- The id of a path seen from a root. What lies outside gets leading `..` segments. -/
def ofPath (p root : Path) : SourceId := ofText (p.relativeTo root).slashed

/-- The id as a path. -/
def path (id : SourceId) : Path := ⟨id.text⟩

/-- The parts between the slashes; the empty id has one, which is empty. -/
def segments (id : SourceId) : List Text := id.text.splitOn '/'

/-- Does the last segment end in this extension? -/
def hasExtension (id : SourceId) (extension : Text) : Bool := id.path.extension? == some extension

/-- The id with its kind named. -/
def label (id : SourceId) : Text := "SourceId(".toList ++ id.text ++ ")".toList

@[ext] theorem ext {a b : SourceId} (h : a.text = b.text) : a = b := by
  cases a; cases b; cases h; rfl

theorem ofText_text (id : SourceId) : ofText id.text = id := ext id.canonical_text

/-- **Two spellings give one id exactly when their segments agree.** -/
theorem ofText_eq_iff {s t : Text} : ofText s = ofText t ↔ segmentsOf s = segmentsOf t := by
  constructor
  · intro h
    have : canonical s = canonical t := congrArg SourceId.text h
    rw [← segmentsOf_canonical s, this, segmentsOf_canonical]
  · intro h
    exact ext (congrArg (Text.join '/') h)

/-! ## Order -/

instance : Ord SourceId := ⟨compareOn SourceId.text⟩

instance : Std.TransOrd SourceId :=
  inferInstanceAs (Std.TransCmp (compareOn SourceId.text))

instance : Std.LawfulEqOrd SourceId where
  eq_of_compare h := ext (Std.LawfulEqOrd.eq_of_compare (α := Text) h)

end SourceId

end SolPlan
