import SolPlan.Proofs.Path.RoundTrip

/-!
# Names that are text are shown as they are

Storing a text and showing what was stored gives the text (`shown_stored`), and whatever is done
with paths can be done before or after storing them: a `/`, a `.` and what is cut at a `/` are stored
as themselves. So for names that are UTF-8 the ids of raw paths are those of the texts, and they lead
back to where the paths lead.

Results:
* `shown_stored`: a stored text is shown as it is;
* `splitOn_stored`, `components_stored`, `steps_stored`: a law for each operation on paths;
* **`ofRaw_stored`**: the id of a stored path is the id of the path;
* **`normalize_ofRaw_stored`**: it leads back to the path.
-/

namespace SolPlan

namespace Text

/-! ## A stored text is shown -/

section

variable {b : UInt8} {bytes : List UInt8} {code missing low high : Nat}

theorem decode_none_cons (b : UInt8) (bytes : List UInt8) :
    decode none (b :: bytes) = (start b.toNat).1 ++ decode (start b.toNat).2 bytes := rfl

theorem decode_one (h : b.toNat < 0x80) :
    decode none (b :: bytes) = .ofNat b.toNat :: decode none bytes := by
  rw [decode_none_cons, start, if_pos h]
  rfl

theorem decode_two (h : 0xC2 ≤ b.toNat) (h' : b.toNat < 0xE0) :
    decode none (b :: bytes) = decode (some ⟨b.toNat - 0xC0, 1, 0x80, 0xBF⟩) bytes := by
  rw [decode_none_cons, start, if_neg (by omega), if_pos ⟨h, h'⟩]
  rfl

theorem decode_three (h : 0xE0 ≤ b.toNat) (h' : b.toNat < 0xF0) :
    decode none (b :: bytes) = decode (some ⟨b.toNat - 0xE0, 2,
      if b.toNat = 0xE0 then 0xA0 else 0x80, if b.toNat = 0xED then 0x9F else 0xBF⟩) bytes := by
  rw [decode_none_cons, start, if_neg (by omega), if_neg (by omega), if_pos ⟨h, h'⟩]
  rfl

theorem decode_four (h : 0xF0 ≤ b.toNat) (h' : b.toNat < 0xF5) :
    decode none (b :: bytes) = decode (some ⟨b.toNat - 0xF0, 3,
      if b.toNat = 0xF0 then 0x90 else 0x80, if b.toNat = 0xF4 then 0x8F else 0xBF⟩) bytes := by
  rw [decode_none_cons, start, if_neg (by omega), if_neg (by omega), if_neg (by omega),
    if_pos ⟨h, h'⟩]
  rfl

/-- The last byte of a character. -/
theorem decode_last (h : low ≤ b.toNat) (h' : b.toNat ≤ high) :
    decode (some ⟨code, 1, low, high⟩) (b :: bytes) =
      .ofNat (64 * code + (b.toNat - 0x80)) :: decode none bytes := by
  rw [decode, advance, if_pos ⟨h, h'⟩]
  rfl

/-- A byte of a character after which more are missing. -/
theorem decode_more (h : low ≤ b.toNat) (h' : b.toNat ≤ high) :
    decode (some ⟨code, missing + 2, low, high⟩) (b :: bytes) =
      decode (some ⟨64 * code + (b.toNat - 0x80), missing + 1, 0x80, 0xBF⟩) bytes := by
  rw [decode, advance, if_pos ⟨h, h'⟩]
  rfl

end

/-- The bytes of a character are shown as the character. -/
theorem decode_utf8EncodeChar (c : Char) (bytes : List UInt8) :
    decode none (String.utf8EncodeChar c ++ bytes) = c :: decode none bytes := by
  have hvalid : c.toNat < 0xD800 ∨ 0xDFFF < c.toNat ∧ c.toNat < 0x110000 := c.valid
  have hchar : ∀ {n}, n = c.toNat → Char.ofNat n = c := fun h => h ▸ Char.ofNat_toNat c
  have hbyte : ∀ n : Nat, n < 256 → (UInt8.ofNat n).toNat = n := fun n h => by
    rw [UInt8.toNat_ofNat', Nat.mod_eq_of_lt h]
  have hval : c.val.toNat = c.toNat := rfl
  unfold String.utf8EncodeChar
  dsimp only
  rw [hval]
  generalize c.toNat = v at *
  have htail := hbyte (v % 0x40 + 0x80) (by omega)
  have htail' := hbyte (v / 64 % 0x40 + 0x80) (by omega)
  have htail'' := hbyte (v / 4096 % 0x40 + 0x80) (by omega)
  split
  · have hlead := hbyte v (by omega)
    rw [List.singleton_append, decode_one (by omega), hlead, hchar rfl]
  · split
    · have hlead := hbyte (v / 64 % 0x20 + 0xc0) (by omega)
      rw [List.cons_append, List.singleton_append, decode_two (by omega) (by omega),
        decode_last (by omega) (by omega), hchar (by omega)]
    · split
      · have hlead := hbyte (v / 4096 % 0x10 + 0xe0) (by omega)
        rw [List.cons_append, List.cons_append, List.singleton_append,
          decode_three (by omega) (by omega),
          decode_more (by split <;> omega) (by split <;> omega),
          decode_last (by omega) (by omega), hchar (by omega)]
      · have hlead := hbyte (v / 262144 % 0x08 + 0xf0) (by omega)
        rw [List.cons_append, List.cons_append, List.cons_append, List.singleton_append,
          decode_four (by omega) (by omega),
          decode_more (by split <;> omega) (by split <;> omega),
          decode_more (by omega) (by omega), decode_last (by omega) (by omega), hchar (by omega)]

theorem rawBytes_ofBytes (bytes : List UInt8) : (ofBytes bytes).rawBytes = bytes := by
  have hbyte : ∀ b : UInt8, UInt8.ofNat (Char.ofNat b.toNat).toNat = b := fun b => by
    have hlt := b.toNat_lt
    rw [Char.toNat_ofNat, if_pos (Or.inl (by omega)), UInt8.ofNat_toNat]
  unfold rawBytes ofBytes
  rw [List.map_map]
  exact List.map_id'' hbyte bytes

/-- **A stored text is shown as it is.** -/
theorem shown_stored (t : Text) : t.stored.shown = t := by
  unfold shown stored
  rw [rawBytes_ofBytes]
  induction t with
  | nil => rfl
  | cons c t ih => rw [bytes, List.flatMap_cons, decode_utf8EncodeChar, ← bytes, ih]

theorem stored_injective : Function.Injective stored := fun s t h => by
  rw [← shown_stored s, h, shown_stored]

/-! ## How a text is stored -/

theorem stored_append (s t : Text) : (s ++ t).stored = s.stored ++ t.stored := by
  unfold stored ofBytes bytes
  rw [List.flatMap_append, List.map_append]

theorem stored_cons (c : Char) (t : Text) : stored (c :: t) = stored [c] ++ t.stored :=
  stored_append [c] t

/-- A character below 128 is stored as itself, and in any other there is no slash. -/
theorem stored_singleton (c : Char) :
    stored [c] = [c] ∨ stored [c] ≠ [] ∧ '/' ∉ stored [c] ∧ c ≠ '/' := by
  have hval : c.val.toNat = c.toNat := rfl
  have hbytes : bytes [c] = String.utf8EncodeChar c := List.flatMap_singleton _ c
  by_cases hc : c.toNat < 0x80
  · have hone : String.utf8EncodeChar c = [UInt8.ofNat c.toNat] := if_pos (by omega)
    have hbyte : (UInt8.ofNat c.toNat).toNat = c.toNat := by
      rw [UInt8.toNat_ofNat', Nat.mod_eq_of_lt (by omega)]
    refine Or.inl ?_
    rw [stored, hbytes, hone, ofBytes, List.map_singleton, hbyte, Char.ofNat_toNat]
  · have hhigh : ∀ b ∈ String.utf8EncodeChar c, 0x80 ≤ b.toNat := fun b h => by
      unfold String.utf8EncodeChar at h
      dsimp only at h
      rw [hval, if_neg (by omega)] at h
      split at h
      · simp only [List.mem_cons, List.not_mem_nil, or_false] at h
        rcases h with rfl | rfl <;> rw [UInt8.toNat_ofNat'] <;> omega
      · split at h
        · simp only [List.mem_cons, List.not_mem_nil, or_false] at h
          rcases h with rfl | rfl | rfl <;> rw [UInt8.toNat_ofNat'] <;> omega
        · simp only [List.mem_cons, List.not_mem_nil, or_false] at h
          rcases h with rfl | rfl | rfl | rfl <;> rw [UInt8.toNat_ofNat'] <;> omega
    rw [stored, hbytes]
    refine Or.inr ⟨?_, fun hmem => ?_, fun hslash => hc (hslash ▸ by decide)⟩
    · exact fun hnil => String.utf8EncodeChar_ne_nil (List.map_eq_nil_iff.mp hnil)
    · obtain ⟨b, hb, hslash⟩ := List.mem_map.mp hmem
      have hlt := b.toNat_lt
      have hcode := congrArg Char.toNat hslash
      rw [Char.toNat_ofNat, if_pos (Or.inl (by omega))] at hcode
      have := hhigh b hb
      rw [hcode] at this
      exact absurd this (by decide)

/-- A slash stands only for itself. -/
theorem slash_mem_stored {t : Text} (h : '/' ∈ t.stored) : '/' ∈ t := by
  induction t with
  | nil => cases h
  | cons c t ih =>
    rw [stored_cons, List.mem_append] at h
    rcases h with h | h
    · rcases stored_singleton c with hc | ⟨-, hc, -⟩
      · rw [hc, List.mem_singleton] at h
        exact h ▸ List.mem_cons_self
      · exact absurd h hc
    · exact List.mem_cons_of_mem c (ih h)

theorem head?_stored (t : Text) : t.stored.head? = some '/' ↔ t.head? = some '/' := by
  cases t with
  | nil => rfl
  | cons c t =>
    rw [stored_cons]
    rcases stored_singleton c with hc | ⟨hne, hmem, hc⟩
    · rw [hc]
      rfl
    · rw [List.head?_append_of_ne_nil _ hne]
      exact iff_of_false (fun h => hmem (List.mem_of_mem_head? h)) (by simpa using hc)

theorem getLast?_stored (t : Text) : t.stored.getLast? = some '/' ↔ t.getLast? = some '/' := by
  rcases List.eq_nil_or_concat t with rfl | ⟨t, c, rfl⟩
  · rfl
  · rw [List.concat_eq_append, stored_append, List.getLast?_concat]
    rcases stored_singleton c with hc | ⟨hne, hmem, hc⟩
    · rw [hc, List.getLast?_concat]
    · rw [List.getLast?_append_of_ne_nil _ hne]
      exact iff_of_false (fun h => hmem (List.mem_of_getLast? h)) (by simpa using hc)

theorem stored_join (parts : List Text) :
    (join '/' parts).stored = join '/' (parts.map stored) := by
  induction parts with
  | nil => rfl
  | cons part parts ih =>
    by_cases hnil : parts = []
    · subst hnil
      simp [join]
    · rw [List.map_cons, join, join, List.intercalate_cons_of_ne_nil hnil,
        List.intercalate_cons_of_ne_nil (by simpa using hnil), stored_append, stored_append, ← join,
        ih]
      rfl

/-- **A stored text is cut like the text.** -/
theorem splitOn_stored (t : Text) : t.stored.splitOn '/' = (t.splitOn '/').map stored := by
  have hslash : ∀ s ∈ (t.splitOn '/').map stored, '/' ∉ s := fun s hs hmem => by
    obtain ⟨piece, hpiece, rfl⟩ := List.mem_map.mp hs
    exact not_mem_of_mem_splitOn hpiece (slash_mem_stored hmem)
  have hjoin : t.stored = join '/' ((t.splitOn '/').map stored) := by
    rw [← stored_join, join, List.intercalate_splitOn]
  rw [hjoin, join, List.splitOn_intercalate _ hslash (by simp)]

end Text

namespace Path

open Text (stored)

variable {p q base root : Path} {kept pieces : List Text}

/-- A path as it is stored. -/
def stored (p : Path) : Path := ⟨p.text.stored⟩

/-! ## A law for each operation -/

theorem stored_eq_iff {s t : Text} (h : t.stored = t) : s.stored = t ↔ s = t :=
  ⟨fun heq => Text.stored_injective (heq.trans h.symm), fun heq => heq ▸ h⟩

theorem isVoid_stored (s : Text) : isVoid s.stored = isVoid s := by
  unfold isVoid
  rw [Bool.eq_iff_iff]
  simp only [Bool.or_eq_true, beq_iff_eq]
  rw [stored_eq_iff (t := []) rfl, stored_eq_iff (t := ['.']) rfl]

theorem isAbsolute_stored (p : Path) : p.stored.isAbsolute = p.isAbsolute := by
  unfold isAbsolute
  rw [Bool.eq_iff_iff, beq_iff_eq, beq_iff_eq]
  exact Text.head?_stored p.text

theorem resolvePieces_stored (kept pieces : List Text) :
    resolvePieces (kept.map Text.stored) (pieces.map Text.stored) =
      (resolvePieces kept pieces).map Text.stored := by
  induction pieces generalizing kept with
  | nil => rfl
  | cons s pieces ih =>
    have hstep : resolvePieces (kept.map Text.stored) [s.stored] =
        (resolvePieces kept [s]).map Text.stored := by
      unfold resolvePieces Component.ofPiece?
      simp only [List.filterMap_cons, List.filterMap_nil, isVoid_stored,
        stored_eq_iff (t := ['.', '.']) rfl]
      by_cases hvoid : isVoid s = true
      · simp [hvoid]
      · by_cases hup : s = ['.', '.']
        · subst hup
          cases kept <;> rfl
        · simp [hvoid, hup, resolveStep]
    rw [List.map_cons, resolvePieces_cons, hstep, ih, ← resolvePieces_cons]

theorem steps_stored (p : Path) : p.stored.steps = p.steps.map Text.stored := by
  rw [← List.reverse_inj, ← List.map_reverse, reverse_steps, reverse_steps, stored,
    Text.splitOn_stored]
  exact resolvePieces_stored [] _

theorem ofSteps_stored (absolute : Bool) (steps : List Text) :
    ofSteps absolute (steps.map Text.stored) = (ofSteps absolute steps).stored := by
  cases absolute with
  | false => exact congrArg Path.mk (Text.stored_join steps).symm
  | true => exact congrArg (fun t => Path.mk ('/' :: t)) (Text.stored_join steps).symm

theorem normalize_stored (p : Path) : p.stored.normalize = p.normalize.stored := by
  unfold normalize
  rw [isAbsolute_stored, steps_stored, ofSteps_stored]

theorem dropCommon_map {α β : Type} [DecidableEq α] [DecidableEq β] {f : α → β}
    (hf : Function.Injective f) (a b : List α) :
    dropCommon (a.map f) (b.map f) = ((dropCommon a b).1.map f, (dropCommon a b).2.map f) := by
  induction a generalizing b with
  | nil => cases b <;> rfl
  | cons x a ih =>
    cases b with
    | nil => rfl
    | cons y b =>
      simp only [List.map_cons, dropCommon, hf.eq_iff]
      split
      · exact ih b
      · rfl

theorem relativeTo_stored (p base : Path) :
    p.stored.relativeTo base.stored = (p.relativeTo base).stored := by
  have hups : ∀ left : List Text, (left.map Text.stored).map (fun _ => ['.', '.']) =
      (left.map fun _ => ['.', '.']).map Text.stored := fun left => by
    rw [List.map_map, List.map_map]
    rfl
  unfold relativeTo
  rw [isAbsolute_stored, isAbsolute_stored, steps_stored, steps_stored, normalize_stored,
    dropCommon_map Text.stored_injective]
  cases p.isAbsolute <;> cases base.isAbsolute <;> dsimp only
  · rw [hups, ← List.map_append, ofSteps_stored]
  · rw [hups, ← ofSteps_stored, List.map_append, List.map_cons]
    rfl
  · rw [hups, ← List.map_append, ofSteps_stored]

theorem join_stored (p q : Path) : p.stored.join q.stored = (p.join q).stored := by
  have hend : (p.stored.text = [] || p.stored.text.getLast? = some '/') =
      (p.text = [] || p.text.getLast? = some '/') := by
    rw [Bool.eq_iff_iff]
    simp only [Bool.or_eq_true, decide_eq_true_eq]
    exact or_congr (stored_eq_iff rfl) (Text.getLast?_stored p.text)
  unfold join
  rw [isAbsolute_stored, hend]
  split
  · rfl
  · split
    · exact congrArg Path.mk (Text.stored_append p.text q.text).symm
    · refine congrArg Path.mk ?_
      rw [Text.stored_append, Text.stored_cons]
      rfl

/-- A stored path is shown as the path. -/
theorem shown_stored (p : Path) : p.stored.shown = p.slashed := by
  unfold shown slashed
  rw [isAbsolute_stored, texts_components, texts_components, stored, Text.splitOn_stored,
    List.filter_map, List.map_map]
  have hvoid : (fun s : Text => !isVoid s) ∘ Text.stored = fun s => !isVoid s :=
    funext fun s => congrArg Bool.not (isVoid_stored s)
  have hshown : Text.shown ∘ Text.stored = id := funext Text.shown_stored
  rw [hvoid, hshown, List.map_id]

end Path

/-- **The id of a stored path is the id of the path.** -/
theorem SourceId.ofRaw_stored (p root : Path) :
    SourceId.ofRaw p.stored root.stored = SourceId.ofPath p root := by
  unfold SourceId.ofRaw SourceId.ofPath
  rw [Path.relativeTo_stored, Path.shown_stored]

/-- **It leads back to the path**, if no component of the path holds a backslash. -/
theorem Path.normalize_ofRaw_stored {p root : Path} (hp : p.isAbsolute = true)
    (hroot : root.isAbsolute = true) (hback : p.NoBackslash) :
    (root.stored.join ⟨(SourceId.ofRaw p.stored root.stored).text.stored⟩).normalize =
      p.normalize.stored := by
  have hway := normalize_ofPath hp hroot (hback.isSegment_way root)
  rw [SourceId.ofRaw_stored, ← hway, ← normalize_stored, ← join_stored]
  rfl

end SolPlan
