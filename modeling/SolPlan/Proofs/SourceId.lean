import SolPlan.SourceId

/-!
# Canonical ids

A text is cut into pieces at its slashes and backslashes (`IsCutInto`). The pieces that are neither
empty nor `.` are the segments that it spells (`Spells`); a text spells one list of segments, and a
separator between two texts puts their segments one after the other.

An id is written with its segments and single slashes (`IsCanonical`). Each list of segments has one
such spelling, and each text that is spelled so is an id as it stands.

Results:
* `spells_iff`: the segments that are read are those that the text spells;
* `segmentsOf_append`: two texts with a separator between them;
* `canonical_eq_self_iff`: the texts that are ids;
* **`ofText_canonicalForm`**: ids as the canonical forms of texts.
-/

namespace SolPlan

/-! ## Cutting a text at its separators -/

/-- The text is these pieces, which hold no separator, with a slash or a backslash between any two. -/
inductive IsCutInto : Text → List Text → Prop
  | last {piece : Text} (hslash : '/' ∉ piece) (hback : '\\' ∉ piece) : IsCutInto piece [piece]
  | more {piece rest : Text} {pieces : List Text} {c : Char} (hslash : '/' ∉ piece)
      (hback : '\\' ∉ piece) (hc : c = '/' ∨ c = '\\') (h : IsCutInto rest pieces) :
      IsCutInto (piece ++ c :: rest) (piece :: pieces)

/-- The segments of a text: the pieces that are neither empty nor `.`. -/
def Spells (t : Text) (segments : List Text) : Prop :=
  ∃ pieces, IsCutInto t pieces ∧ pieces.filter (fun s => s ≠ [] ∧ s ≠ ['.']) = segments

variable {t : Text} {pieces segments : List Text} {c : Char}

theorem exists_isCutInto (t : Text) : ∃ pieces, IsCutInto t pieces := by
  induction t with
  | nil => exact ⟨_, .last List.not_mem_nil List.not_mem_nil⟩
  | cons c t ih =>
    obtain ⟨pieces, h⟩ := ih
    by_cases hc : c = '/' ∨ c = '\\'
    · exact ⟨_, .more List.not_mem_nil List.not_mem_nil hc h⟩
    · obtain ⟨hslash, hback⟩ := not_or.mp hc
      have hcons : ∀ {x : Char} {piece : Text}, c ≠ x → x ∉ piece → x ∉ c :: piece :=
        fun hne hx => List.not_mem_cons_of_ne_of_not_mem hne.symm hx
      -- the character belongs to the first piece of what follows it
      cases h with
      | last hs hb => exact ⟨_, .last (hcons hslash hs) (hcons hback hb)⟩
      | more hs hb hd h => exact ⟨_, .more (hcons hslash hs) (hcons hback hb) hd h⟩

/-- A separator stays one, and becomes a slash. -/
theorem replaceChar_append_separator (a b : Text) (hc : c = '/' ∨ c = '\\') :
    Text.replaceChar '\\' '/' (a ++ c :: b) =
      Text.replaceChar '\\' '/' a ++ '/' :: Text.replaceChar '\\' '/' b := by
  unfold Text.replaceChar
  rw [List.map_append, List.map_cons]
  rcases hc with rfl | rfl <;> rfl

theorem IsCutInto.splitOn_eq (h : IsCutInto t pieces) :
    (Text.replaceChar '\\' '/' t).splitOn '/' = pieces := by
  induction h with
  | last hslash hback =>
    rw [replaceChar_of_not_mem hback]
    exact List.splitOn_eq_singleton hslash
  | more hslash hback hc _ ih =>
    rw [replaceChar_append_separator _ _ hc, replaceChar_of_not_mem hback,
      List.splitOn_append_cons_self_of_not_mem hslash, ih]

/-- There is one way to cut a text. -/
theorem isCutInto_iff :
    IsCutInto t pieces ↔ (Text.replaceChar '\\' '/' t).splitOn '/' = pieces := by
  refine ⟨IsCutInto.splitOn_eq, ?_⟩
  rintro rfl
  obtain ⟨pieces, h⟩ := exists_isCutInto t
  rwa [h.splitOn_eq]

theorem Path.isVoid_eq_false_iff {s : Text} : isVoid s = false ↔ s ≠ [] ∧ s ≠ ['.'] := by
  simp [isVoid]

/-- **The segments that are read are those that the text spells.** -/
theorem spells_iff : Spells t segments ↔ segmentsOf t = segments := by
  have hkept : ∀ s : Text, decide (s ≠ [] ∧ s ≠ ['.']) = !Path.isVoid s := fun s => by
    rw [Bool.eq_iff_iff, decide_eq_true_eq, Bool.not_eq_true', Path.isVoid_eq_false_iff]
  unfold Spells segmentsOf
  simp only [isCutInto_iff, exists_eq_left', hkept]

/-! ## Texts with a separator between them -/

/-- **The segments of two texts stand one after the other**, whichever separator is between them. -/
theorem segmentsOf_append (a b : Text) (hc : c = '/' ∨ c = '\\') :
    segmentsOf (a ++ c :: b) = segmentsOf a ++ segmentsOf b := by
  unfold segmentsOf
  rw [replaceChar_append_separator a b hc, List.splitOn_append_cons_self, List.filter_append]

/-! ## Canonical texts -/

/-- No backslash, and no piece that is empty or `.`, unless the whole text is empty. -/
structure IsCanonical (t : Text) : Prop where
  no_backslash : '\\' ∉ t
  solid : t ≠ [] → ∀ s ∈ t.splitOn '/', s ≠ [] ∧ s ≠ ['.']

theorem backslash_not_mem_canonical (t : Text) : '\\' ∉ canonical t := by
  intro hmem
  rcases Text.mem_join hmem with hslash | ⟨s, hs, hmem⟩
  · cases hslash
  · exact (isSegment_of_mem hs).no_backslash hmem

/-- Cutting a canonical text at its slashes gives the segments. -/
theorem splitOn_canonical (h : segmentsOf t ≠ []) : (canonical t).splitOn '/' = segmentsOf t :=
  List.splitOn_intercalate _ (fun _ hs => (isSegment_of_mem hs).no_slash) h

theorem isCanonical_canonical (t : Text) : IsCanonical (canonical t) := by
  refine ⟨backslash_not_mem_canonical t, fun hne s hs => ?_⟩
  have hsegments : segmentsOf t ≠ [] := fun hnil => hne (congrArg (Text.join '/') hnil)
  rw [splitOn_canonical hsegments] at hs
  exact Path.isVoid_eq_false_iff.mp (isSegment_of_mem hs).not_void

theorem IsCanonical.canonical_eq (h : IsCanonical t) : canonical t = t := by
  by_cases hnil : t = []
  · subst hnil
    rfl
  · have hsegments : segmentsOf t = t.splitOn '/' := by
      unfold segmentsOf
      rw [replaceChar_of_not_mem h.no_backslash]
      refine List.filter_eq_self.mpr fun s hs => ?_
      rw [Path.isVoid_eq_false_iff.mpr (h.solid hnil s hs)]
      rfl
    unfold canonical
    rw [hsegments]
    exact List.intercalate_splitOn '/'

/-- **The canonical texts are those that are spelled as their id is.** -/
theorem canonical_eq_self_iff : canonical t = t ↔ IsCanonical t :=
  ⟨fun h => h ▸ isCanonical_canonical t, IsCanonical.canonical_eq⟩

/-! ## Ids -/

namespace SourceId

theorem text_ofText (t : Text) : (ofText t).text = Text.join '/' (segmentsOf t) := rfl

/-- A text and its id spell the same segments. -/
theorem segmentsOf_text (t : Text) : segmentsOf (ofText t).text = segmentsOf t :=
  segmentsOf_canonical t

theorem isCanonical_text (id : SourceId) : IsCanonical id.text :=
  canonical_eq_self_iff.mp id.canonical_text

theorem backslash_not_mem (id : SourceId) : '\\' ∉ id.text := id.isCanonical_text.no_backslash

/-- Texts may be replaced by their ids before they are put together. -/
theorem ofText_append (a b : Text) (hc : c = '/' ∨ c = '\\') :
    ofText (a ++ c :: b) = ofText ((ofText a).text ++ '/' :: (ofText b).text) := by
  rw [ofText_eq_iff, segmentsOf_append a b hc, segmentsOf_append _ _ (.inl rfl),
    segmentsOf_text, segmentsOf_text]

/-- **An id is the canonical form of its texts.** It is its own id; it is canonical, and canonical
texts are ids as they stand; two texts have one id exactly when they spell the same segments; and
texts that are put together with a slash have the id of their ids put together. -/
theorem ofText_canonicalForm (s t : Text) :
    ofText (ofText s).text = ofText s ∧
    IsCanonical (ofText s).text ∧ ((ofText s).text = s ↔ IsCanonical s) ∧
    (∀ segments, Spells s segments ↔ segmentsOf s = segments) ∧
    (ofText s = ofText t ↔ segmentsOf s = segmentsOf t) ∧
    ofText (s ++ '/' :: t) = ofText ((ofText s).text ++ '/' :: (ofText t).text) :=
  ⟨ofText_text _, isCanonical_text _, canonical_eq_self_iff, fun _ => spells_iff, ofText_eq_iff,
    ofText_append s t (.inl rfl)⟩

/-- Separators of both kinds, doubled, at the start and at the end. -/
example : (ofText ".\\lib//./up\\..\\/T.sol/".toList).text = "lib/up/../T.sol".toList := by decide

end SourceId

end SolPlan
