/-!
# Text

Source text, paths and identifiers are lists of characters, so that every function on them is a
recursion on the data. Order is by code point, which is also the order of the UTF-8 encodings;
lengths and offsets that are shown are counted in UTF-8 bytes (`size`).

* `lines` cuts at line feeds and drops one carriage return before each.
* `trim`, `trimStart` and `trimEnd` drop **blanks**, the characters with the Unicode property
  White_Space (`isBlank`).
* `replaceFirst` substitutes the first occurrence of a part (`replaceFirst_append`).
-/

namespace SolPlan

/-- A text is the list of its characters. -/
abbrev Text := List Char

namespace Text

/-- The bytes of the text in UTF-8. -/
def bytes (t : Text) : List UInt8 := t.flatMap String.utf8EncodeChar

/-- The length in UTF-8 bytes. -/
def size (t : Text) : Nat := t.foldr (fun c n => c.utf8Size + n) 0

/-- The characters with the Unicode property White_Space. -/
def isBlank (c : Char) : Bool :=
  let n := c.toNat
  (9 ≤ n && n ≤ 13) || n == 0x20 || n == 0x85 || n == 0xA0 || n == 0x1680
    || (0x2000 ≤ n && n ≤ 0x200A) || n == 0x2028 || n == 0x2029 || n == 0x202F
    || n == 0x205F || n == 0x3000

/-- Drop the characters at the end that satisfy `p`. -/
def dropEndWhile (p : Char → Bool) (t : Text) : Text := (t.reverse.dropWhile p).reverse

/-- Drop the blanks at the start. -/
def trimStart (t : Text) : Text := t.dropWhile isBlank

/-- Drop the blanks at the end. -/
def trimEnd (t : Text) : Text := dropEndWhile isBlank t

/-- Drop the blanks at both ends. -/
def trim (t : Text) : Text := trimEnd (trimStart t)

/-- The parts joined with `sep` between them. -/
def join (sep : Char) (parts : List Text) : Text := List.intercalate [sep] parts

/-- What follows `head`, if the text starts with it. -/
def after? : Text → Text → Option Text
  | [], t => some t
  | c :: head, d :: t => if c = d then after? head t else none
  | _ :: _, [] => none

/-- The text before the first occurrence of `c`, and the text after it. -/
def cut? (c : Char) : Text → Option (Text × Text)
  | [] => none
  | d :: t => if d = c then some ([], t) else (cut? c t).map fun (a, b) => (d :: a, b)

/-- The first occurrence of `part` replaced by `new`. -/
def replaceFirst (part new : Text) : Text → Text
  | [] => if part = [] then new else []
  | c :: t =>
    match after? part (c :: t) with
    | some rest => new ++ rest
    | none => c :: replaceFirst part new t

/-- Every `old` replaced by `new`. -/
def replaceChar (old new : Char) (t : Text) : Text := t.map fun c => if c = old then new else c

/-- Drop one carriage return at the end. -/
def dropReturn (t : Text) : Text := if t.getLast? = some '\r' then t.dropLast else t

/-- The lines: each line feed ends one, and takes one carriage return before it along. Nothing
after the last line feed is no line; something is a line as it stands. -/
def lines (t : Text) : List Text :=
  let pieces := t.splitOn '\n'
  pieces.dropLast.map dropReturn ++ pieces.getLast?.toList.filter (· ≠ [])

/-- A natural number in decimal. -/
def ofNat (n : Nat) : Text := (toString n).toList

/-! ## Lemmas -/

theorem after?_eq_some_iff {head t rest : Text} : after? head t = some rest ↔ t = head ++ rest := by
  induction head generalizing t with
  | nil => simp [after?, eq_comm]
  | cons c head ih =>
    cases t with
    | nil => simp [after?]
    | cons d t =>
      by_cases h : c = d
      · subst h; simp [after?, ih]
      · simp [after?, h, Ne.symm h]

theorem after?_isSome_iff {head t : Text} : (after? head t).isSome ↔ head <+: t := by
  rw [Option.isSome_iff_exists]
  constructor
  · rintro ⟨rest, h⟩
    exact ⟨rest, (after?_eq_some_iff.mp h).symm⟩
  · rintro ⟨rest, h⟩
    exact ⟨rest, after?_eq_some_iff.mpr h.symm⟩

theorem cut?_eq_some_iff {c : Char} {t a b : Text} :
    cut? c t = some (a, b) ↔ t = a ++ c :: b ∧ c ∉ a := by
  induction t generalizing a b with
  | nil => simp [cut?]
  | cons d t ih =>
    by_cases h : d = c
    · subst h
      cases a with
      | nil => simp [cut?]
      | cons e a =>
        simp only [cut?, if_true, Option.some.injEq, Prod.mk.injEq, List.cons_append,
          List.cons.injEq, List.mem_cons, not_or]
        constructor
        · rintro ⟨h, -⟩; cases h
        · rintro ⟨⟨rfl, -⟩, h, -⟩; exact absurd rfl h
    · simp only [cut?, h, if_false, Option.map_eq_some_iff, Prod.mk.injEq, Prod.exists]
      constructor
      · rintro ⟨a', b', h', rfl, rfl⟩
        obtain ⟨rfl, hn⟩ := ih.mp h'
        exact ⟨rfl, by simp [hn, Ne.symm h]⟩
      · rintro ⟨h', hn⟩
        cases a with
        | nil => exact absurd (List.cons.inj h').1 h
        | cons e a =>
          obtain ⟨rfl, rfl⟩ := List.cons.inj h'
          exact ⟨a, b, ih.mpr ⟨rfl, fun hm => hn (List.mem_cons_of_mem _ hm)⟩, rfl, rfl⟩

theorem cut?_eq_none_iff {c : Char} {t : Text} : cut? c t = none ↔ c ∉ t := by
  induction t with
  | nil => simp [cut?]
  | cons d t ih =>
    by_cases h : d = c
    · simp [cut?, h]
    · simp [cut?, h, ih, Ne.symm h]

/-- **The first occurrence is the one that no earlier position starts.** -/
theorem replaceFirst_append {part new a b : Text} (hp : part ≠ [])
    (first : ∀ a' b', a' ++ part ++ b' = a ++ part ++ b → a.length ≤ a'.length) :
    replaceFirst part new (a ++ part ++ b) = a ++ new ++ b := by
  induction a with
  | nil =>
    cases h : part ++ b with
    | nil => exact absurd (List.append_eq_nil_iff.mp h).1 hp
    | cons c t =>
      have : after? part (c :: t) = some b := after?_eq_some_iff.mpr h.symm
      simp [replaceFirst, h, this]
  | cons c a ih =>
    have hn : after? part (c :: (a ++ part ++ b)) = none := by
      cases h : after? part (c :: (a ++ part ++ b)) with
      | none => rfl
      | some rest =>
        have := first [] rest (by simpa using (after?_eq_some_iff.mp h).symm)
        simp at this
    simp only [List.cons_append, replaceFirst, hn, List.cons.injEq, true_and]
    refine ih fun a' b' h => ?_
    have := first (c :: a') b' (by simpa using h)
    simpa using this

/-- The pieces of a cut text do not hold the character at which it was cut. -/
theorem not_mem_of_mem_splitOn {sep : Char} {t p : Text} (h : p ∈ t.splitOn sep) : sep ∉ p := by
  induction t generalizing p with
  | nil => simp_all
  | cons c t ih =>
    rw [List.splitOn_cons_eq_if_modifyHead] at h
    split at h
    · rcases List.mem_cons.mp h with rfl | h
      · simp
      · exact ih h
    · rename_i hc
      cases hs : t.splitOn sep with
      | nil => simp [hs] at h
      | cons q qs =>
        simp only [hs, List.modifyHead_cons, List.mem_cons] at h ih
        rcases h with rfl | h
        · simp only [List.mem_cons, not_or]
          exact ⟨fun e => hc (by simp [e]), ih (.inl rfl)⟩
        · exact ih (.inr h)

/-- The pieces of a cut text are made of its characters. -/
theorem subset_of_mem_splitOn {sep : Char} {t p : Text} (h : p ∈ t.splitOn sep) : p ⊆ t := by
  induction t generalizing p with
  | nil => simp_all
  | cons c t ih =>
    rw [List.splitOn_cons_eq_if_modifyHead] at h
    split at h
    · rcases List.mem_cons.mp h with rfl | h
      · simp
      · exact fun x hx => List.mem_cons_of_mem _ (ih h hx)
    · cases hs : t.splitOn sep with
      | nil => simp [hs] at h
      | cons q qs =>
        simp only [hs, List.modifyHead_cons, List.mem_cons] at h ih
        rcases h with rfl | h
        · exact List.cons_subset_cons _ (ih (.inl rfl))
        · exact fun x hx => List.mem_cons_of_mem _ (ih (.inr h) hx)

theorem join_append {sep : Char} {front back : List Text} (hfront : front ≠ [])
    (hback : back ≠ []) : join sep (front ++ back) = join sep front ++ sep :: join sep back := by
  induction front with
  | nil => exact absurd rfl hfront
  | cons s front ih =>
    rw [List.cons_append, join, List.intercalate_cons_of_ne_nil (by simp [hback])]
    by_cases hnil : front = []
    · subst hnil
      simp [join]
    · rw [join, List.intercalate_cons_of_ne_nil hnil, List.append_assoc _ _ (sep :: _), ← join,
        ← join, ih hnil]

/-- A joined text is made of separators and of the characters of its parts. -/
theorem mem_join {sep c : Char} {parts : List Text} (h : c ∈ join sep parts) :
    c = sep ∨ ∃ p ∈ parts, c ∈ p := by
  induction parts with
  | nil => simp [join, List.intercalate_nil] at h
  | cons p parts ih =>
    cases parts with
    | nil =>
      rw [join, List.intercalate_singleton] at h
      exact .inr ⟨p, List.mem_cons_self, h⟩
    | cons q parts =>
      rw [join, List.intercalate_cons_cons, List.append_assoc, List.mem_append,
        List.mem_append, List.mem_singleton] at h
      rcases h with h | h | h
      · exact .inr ⟨p, List.mem_cons_self, h⟩
      · exact .inl h
      · rcases ih h with h | ⟨r, hr, h⟩
        · exact .inl h
        · exact .inr ⟨r, List.mem_cons_of_mem _ hr, h⟩

end Text

end SolPlan
