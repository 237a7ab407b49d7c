import SolPlan.Constraint
import SolPlan.Proofs.Constraint.Segments

/-!
# The grammar of constraints

A constraint is a list of alternatives with `||` between them (`IsConstraint`), and an alternative
is a list of 1 to 32 comparators (`IsAlternative`), each a version that may have an operator in
front of it. A version has one to three parts with dots between them: numbers, the first one at
least, and then wildcards (`IsVersion`). A number has no superfluous zero in front and fits into 64
bits (`IsNumber`).

The reader keeps the comparators of the alternative that it is in, and an operator without version.
What it still accepts is what makes up a constraint together with the tokens of these
(`isConstraint_of_readAlternatives`).

Results:
* `exists_readParts_iff`: which versions can be read;
* `exists_readAlternatives_iff`: which tokens can be read;
* **`ofText_ok_iff`**: a text is a constraint exactly if its longest tokens follow the grammar, and
  is refused as an invalid one otherwise.
-/

namespace SolPlan

/-- A number: digits without a superfluous zero in front, and not too great. -/
structure IsNumber (t : Text) : Prop where
  digits : IsDigits t
  leading : t.head? = some '0' → t = ['0']
  value : Number.value t < UInt64.size

/-- A wildcard: `x`, `X` or `*`. -/
def IsWildcard (t : Text) : Prop := t = ['x'] ∨ t = ['X'] ∨ t = ['*']

/-- One to three parts: numbers, the first one at least, and then wildcards. -/
def IsOrdered (parts : List Text) : Prop :=
  ∃ numbers wildcards, numbers ≠ [] ∧ (numbers ++ wildcards).length ≤ 3 ∧
    (∀ n ∈ numbers, IsNumber n) ∧ (∀ w ∈ wildcards, IsWildcard w) ∧ parts = numbers ++ wildcards

/-- A version: its parts, with dots between them. -/
def IsVersion (t : Text) : Prop := ∃ parts, IsOrdered parts ∧ t = Text.join '.' parts

/-- A comparator as it is written: a version that may have an operator in front of it. -/
structure Term where
  op : Option Operator
  version : Text

/-- The tokens of a comparator. -/
def Term.tokens (c : Term) : List Token := c.op.toList.map Token.operator ++ [.version c.version]

/-- One alternative: 1 to 32 comparators. -/
structure IsAlternative (terms : List Term) : Prop where
  nonempty : terms ≠ []
  length : terms.length ≤ 32
  versions : ∀ c ∈ terms, IsVersion c.version

/-- The tokens of alternatives, with `||` between them. -/
def written (alternatives : List (List Term)) : List Token :=
  List.intercalate [Token.or] (alternatives.map (·.flatMap Term.tokens))

/-- One alternative or more. -/
def IsConstraint (tokens : List Token) : Prop :=
  ∃ alternatives : List (List Term), alternatives ≠ [] ∧
    (∀ terms ∈ alternatives, IsAlternative terms) ∧ tokens = written alternatives

theorem bind_eq_ok {ε α β : Type} {x : Except ε α} {f : α → Except ε β} {b : β} :
    (x >>= f) = .ok b ↔ ∃ a, x = .ok a ∧ f a = .ok b := by
  cases x with
  | error e => exact ⟨fun h => (by cases h), fun ⟨a, ha, _⟩ => (by cases ha)⟩
  | ok a => exact ⟨fun h => ⟨a, rfl, h⟩, fun ⟨_, ha, h⟩ => (by cases ha; exact h)⟩

theorem written_cons_cons (terms more : List Term) (rest : List (List Term)) :
    written (terms :: more :: rest) =
      terms.flatMap Term.tokens ++ Token.or :: written (more :: rest) := by
  rw [written, List.map_cons, List.map_cons, List.intercalate_cons_cons, List.append_assoc,
    List.singleton_append]
  rfl

theorem written_singleton (terms : List Term) : written [terms] = terms.flatMap Term.tokens := by
  simp [written]

/-- One more alternative in front. -/
theorem IsConstraint.cons {terms : List Term} {tokens : List Token} (h : IsConstraint tokens)
    (hterms : IsAlternative terms) :
    IsConstraint (terms.flatMap Term.tokens ++ Token.or :: tokens) := by
  obtain ⟨alternatives, hne, hall, rfl⟩ := h
  obtain ⟨more, rest, rfl⟩ := List.exists_cons_of_ne_nil hne
  exact ⟨terms :: more :: rest, by simp, List.forall_mem_cons.mpr ⟨hterms, hall⟩,
    (written_cons_cons terms more rest).symm⟩

theorem mapError_eq_ok {ε ε' α : Type} {f : ε → ε'} {x : Except ε α} {a : α} :
    x.mapError f = .ok a ↔ x = .ok a := by
  cases x with
  | error e => exact ⟨fun h => (by cases h), fun h => (by cases h)⟩
  | ok b => exact ⟨fun h => (by cases h; rfl), fun h => (by cases h; rfl)⟩

/-! ## Versions -/

theorem IsWildcard.isOpen {t : Text} (h : IsWildcard t) : Comparator.isOpen t = true := by
  rcases h with rfl | rfl | rfl <;> rfl

theorem IsWildcard.exists_char {t : Text} (h : IsWildcard t) :
    ∃ c, t = [c] ∧ Token.isWildcard c = true := by
  rcases h with rfl | rfl | rfl <;> exact ⟨_, rfl, rfl⟩

theorem IsDigits.isOpen {t : Text} (h : IsDigits t) : Comparator.isOpen t = false := by
  rw [Comparator.isOpen, List.any_eq_false]
  intro c hc hwildcard
  exact Bool.false_ne_true ((not_isDigit_of_isWildcard hwildcard).symm.trans (h.2 c hc))

/-- A part is a wildcard or a run of digits. -/
theorem IsPart.isWildcard_or {t : Text} (h : IsPart t) : IsWildcard t ∨ IsDigits t := by
  rcases h with hdigits | ⟨c, rfl, hc⟩
  · exact .inr hdigits
  · refine .inl ?_
    unfold Token.isWildcard at hc
    unfold IsWildcard
    simpa using hc

theorem IsDigits.no_dot {t : Text} (h : IsDigits t) : '.' ∉ t :=
  fun hmem => absurd (h.2 '.' hmem) (by decide)

theorem IsPart.no_dot {t : Text} (h : IsPart t) : '.' ∉ t := by
  rcases h with hdigits | ⟨c, rfl, hc⟩
  · exact hdigits.no_dot
  · rw [List.mem_singleton]
    rintro rfl
    exact absurd hc (by decide)

theorem IsWildcard.no_dot {t : Text} (h : IsWildcard t) : '.' ∉ t := by
  rcases h with rfl | rfl | rfl <;> decide

theorem splitOn_join {part : Text} {parts : List Text} (hpart : '.' ∉ part)
    (hparts : ∀ p ∈ parts, '.' ∉ p) :
    (Text.join '.' (part :: parts)).splitOn '.' = part :: parts :=
  List.splitOn_intercalate _ (List.forall_mem_cons.mpr ⟨hpart, hparts⟩) (by simp)

/-- The parts of a version are those between its dots. -/
theorem isVersion_iff {v : Text} : IsVersion v ↔ IsOrdered (v.splitOn '.') := by
  constructor
  · rintro ⟨_, ⟨numbers, wildcards, hne, hlength, hnumbers, hwildcards, rfl⟩, rfl⟩
    have hdot : ∀ p ∈ numbers ++ wildcards, '.' ∉ p := by
      intro p hp
      rcases List.mem_append.mp hp with hp | hp
      · exact (hnumbers p hp).digits.no_dot
      · exact (hwildcards p hp).no_dot
    rw [Text.join, List.splitOn_intercalate _ hdot (by simp [hne])]
    exact ⟨numbers, wildcards, hne, hlength, hnumbers, hwildcards, rfl⟩
  · intro h
    exact ⟨_, h, (List.intercalate_splitOn '.').symm⟩

theorem IsVersion.isVersionToken {v : Text} (h : IsVersion v) : IsVersionToken v := by
  obtain ⟨_, ⟨numbers, wildcards, hne, -, hnumbers, hwildcards, rfl⟩, rfl⟩ := h
  obtain ⟨number, numbers, rfl⟩ := List.exists_cons_of_ne_nil hne
  obtain ⟨hnumber, hnumbers⟩ := List.forall_mem_cons.mp hnumbers
  refine ⟨number, numbers ++ wildcards, hnumber.digits, fun p hp => ?_, rfl⟩
  rcases List.mem_append.mp hp with hp | hp
  · exact .inl (hnumbers p hp).digits
  · exact .inr (hwildcards p hp).exists_char

theorem IsAlternative.isVersionToken {terms : List Term} (h : IsAlternative terms) :
    ∀ c ∈ terms, IsVersionToken c.version :=
  fun c hc => (h.versions c hc).isVersionToken

namespace Comparator

variable {t number : Text} {parts : List Text}

theorem readPart_ok_iff (part : VersionPart) (ht : IsDigits t) :
    (∃ n, readPart part t = .ok n) ↔ IsNumber t := by
  have hleading : (t.head? = some '0' ∧ 1 < t.length) ↔ ¬ (t.head? = some '0' → t = ['0']) := by
    cases t with
    | nil => simp
    | cons c t => by_cases hc : c = '0' <;> simp [hc, List.length_pos_iff]
  unfold readPart Number.read
  by_cases hzero : t.head? = some '0' ∧ 1 < t.length
  · rw [if_pos hzero]
    exact ⟨fun ⟨n, hn⟩ => (by cases hn), fun hnumber => absurd hnumber.leading (hleading.mp hzero)⟩
  · rw [if_neg hzero]
    by_cases hvalue : Number.limit < Number.value t
    · rw [if_pos hvalue]
      exact ⟨fun ⟨n, hn⟩ => (by cases hn),
        fun hnumber => absurd (Nat.le_of_lt_succ hnumber.value) (Nat.not_le.mpr hvalue)⟩
    · rw [if_neg hvalue]
      exact ⟨fun _ => ⟨ht, not_not.mp (mt hleading.mpr hzero),
        Nat.lt_succ_of_le (Nat.not_lt.mp hvalue)⟩,
        fun _ => ⟨_, rfl⟩⟩

/-- Wildcards do not count. -/
theorem exists_readParts (h : IsOrdered parts) : ∃ o, readParts parts = .ok o := by
  obtain ⟨numbers, wildcards, hne, hlength, hnumbers, hwildcards, rfl⟩ := h
  obtain ⟨number, numbers, rfl⟩ := List.exists_cons_of_ne_nil hne
  obtain ⟨hmajor, hnumbers⟩ := List.forall_mem_cons.mp hnumbers
  obtain ⟨a, ha⟩ := (readPart_ok_iff .major hmajor.digits).mpr hmajor
  rw [List.cons_append, List.length_cons, List.length_append] at hlength
  rw [List.cons_append]
  match numbers, wildcards with
  | [], [] => exact ⟨.major a, bind_eq_ok.mpr ⟨a, ha, rfl⟩⟩
  | [], [w] =>
    have hw := (hwildcards w (by simp)).isOpen
    rw [List.nil_append]
    exact ⟨.major a, bind_eq_ok.mpr ⟨a, ha, by simp only [hw]; rfl⟩⟩
  | [], [w, w'] =>
    have hw := (hwildcards w (by simp)).isOpen
    have hw' := (hwildcards w' (by simp)).isOpen
    rw [List.nil_append]
    exact ⟨.major a, bind_eq_ok.mpr ⟨a, ha, by simp only [hw, hw']; rfl⟩⟩
  | [minor], wildcards =>
    have hminor := hnumbers minor (by simp)
    obtain ⟨b, hb⟩ := (readPart_ok_iff .minor hminor.digits).mpr hminor
    rw [List.singleton_append]
    match wildcards with
    | [] =>
      refine ⟨.minor a b, bind_eq_ok.mpr ⟨a, ha, ?_⟩⟩
      simp only [hminor.digits.isOpen]
      exact bind_eq_ok.mpr ⟨b, hb, rfl⟩
    | [w] =>
      have hw := (hwildcards w (by simp)).isOpen
      refine ⟨.minor a b, bind_eq_ok.mpr ⟨a, ha, ?_⟩⟩
      simp only [hminor.digits.isOpen]
      exact bind_eq_ok.mpr ⟨b, hb, by simp only [hw]; rfl⟩
    | _ :: _ :: _ =>
      simp only [List.length_cons, List.length_nil] at hlength
      omega
  | [minor, patch], [] =>
    have hminor := hnumbers minor (by simp)
    have hpatch := hnumbers patch (by simp)
    obtain ⟨b, hb⟩ := (readPart_ok_iff .minor hminor.digits).mpr hminor
    obtain ⟨c, hc⟩ := (readPart_ok_iff .patch hpatch.digits).mpr hpatch
    rw [List.append_nil]
    refine ⟨.patch a b c, bind_eq_ok.mpr ⟨a, ha, ?_⟩⟩
    simp only [hminor.digits.isOpen]
    refine bind_eq_ok.mpr ⟨b, hb, ?_⟩
    simp only [hpatch.digits.isOpen]
    exact bind_eq_ok.mpr ⟨c, hc, rfl⟩
  | [], _ :: _ :: _ :: _ =>
    simp only [List.length_cons, List.length_nil] at hlength
    omega
  | [_, _], _ :: _ =>
    simp only [List.length_cons, List.length_nil] at hlength
    omega
  | _ :: _ :: _ :: _, _ =>
    simp only [List.length_cons] at hlength
    omega

theorem finish_ok {o o' : OpenVersion} (h : finish o parts = .ok o') : parts = [] := by
  cases parts with
  | nil => rfl
  | cons part parts => cases h

theorem isOrdered_of_readParts {o : OpenVersion} (hnumber : IsDigits number)
    (hparts : ∀ p ∈ parts, IsPart p) (h : readParts (number :: parts) = .ok o) :
    IsOrdered (number :: parts) := by
  obtain ⟨a, ha, h⟩ := bind_eq_ok.mp h
  have hmajor : IsNumber number := (readPart_ok_iff .major hnumber).mp ⟨a, ha⟩
  match parts with
  | [] => exact ⟨[number], [], by simp, by simp, by simpa using hmajor, by simp, rfl⟩
  | [minor] =>
    rcases (hparts minor (by simp)).isWildcard_or with hminor | hminor
    · exact ⟨[number], [minor], by simp, by simp, by simpa using hmajor, by simpa using hminor, rfl⟩
    · dsimp only at h
      rw [hminor.isOpen] at h
      obtain ⟨b, hb, -⟩ := bind_eq_ok.mp h
      have hminor := (readPart_ok_iff .minor hminor).mp ⟨b, hb⟩
      exact ⟨[number, minor], [], by simp, by simp, by simp [hmajor, hminor], by simp, rfl⟩
  | minor :: patch :: more =>
    have hpatch := (hparts patch (by simp)).isWildcard_or
    dsimp only at h
    rcases (hparts minor (by simp)).isWildcard_or with hminor | hminor
    · rw [hminor.isOpen] at h
      rcases hpatch with hpatch | hpatch
      · rw [hpatch.isOpen] at h
        obtain rfl := finish_ok h
        exact ⟨[number], [minor, patch], by simp, by simp, by simpa using hmajor,
          by simp [hminor, hpatch], rfl⟩
      · -- a number does not follow a wildcard
        rw [hpatch.isOpen] at h
        cases h
    · rw [hminor.isOpen] at h
      obtain ⟨b, hb, h⟩ := bind_eq_ok.mp h
      have hminor := (readPart_ok_iff .minor hminor).mp ⟨b, hb⟩
      rcases hpatch with hpatch | hpatch
      · rw [hpatch.isOpen] at h
        obtain rfl := finish_ok h
        exact ⟨[number, minor], [patch], by simp, by simp, by simp [hmajor, hminor],
          by simpa using hpatch, rfl⟩
      · rw [hpatch.isOpen] at h
        obtain ⟨c, hc, h⟩ := bind_eq_ok.mp h
        have hpatch := (readPart_ok_iff .patch hpatch).mp ⟨c, hc⟩
        obtain rfl := finish_ok h
        exact ⟨[number, minor, patch], [], by simp, by simp, by simp [hmajor, hminor, hpatch],
          by simp, rfl⟩

/-- Which versions can be read, among those that are tokens. -/
theorem exists_readParts_iff {v : Text} (h : IsVersionToken v) :
    (∃ o, readParts (v.splitOn '.') = .ok o) ↔ IsVersion v := by
  rw [isVersion_iff]
  obtain ⟨number, parts, hnumber, hparts, rfl⟩ := h
  rw [splitOn_join (IsDigits.no_dot hnumber) fun p hp => (hparts p hp).no_dot]
  exact ⟨fun ⟨_, ho⟩ => isOrdered_of_readParts hnumber hparts ho, exists_readParts⟩

end Comparator

/-! ## Alternatives -/

/-- What is read of a comparator: `=` where no operator stands. -/
def Term.resolved (c : Term) : Operator × Text := (c.op.getD .exact, c.version)

namespace Constraint

variable {terms : List Term} {tokens : List Token}

/-- An alternative is read if there is room for it and all its versions can be read. -/
theorem exists_readAlternative_iff (room : Nat) (h : ∀ c ∈ terms, IsVersionToken c.version) :
    (∃ cs, readAlternative room (terms.map Term.resolved) = .ok cs) ↔
      terms.length ≤ room ∧ ∀ c ∈ terms, IsVersion c.version := by
  induction terms generalizing room with
  | nil => exact ⟨fun _ => ⟨Nat.zero_le _, by simp⟩, fun _ => ⟨[], by cases room <;> rfl⟩⟩
  | cons c terms ih =>
    obtain ⟨hc, hterms⟩ := List.forall_mem_cons.mp h
    cases room with
    | zero => exact ⟨fun ⟨_, h⟩ => (by cases h), fun h => absurd h.1 (by simp)⟩
    | succ room =>
      have hread : (∃ d, Comparator.read c.resolved.1 c.resolved.2 = .ok d) ↔
          IsVersion c.version := by
        rw [← Comparator.exists_readParts_iff hc, Term.resolved, Comparator.read]
        cases Comparator.readParts (c.version.splitOn '.') with
        | error e => exact ⟨fun ⟨_, h⟩ => (by cases h), fun ⟨_, h⟩ => (by cases h)⟩
        | ok o => exact ⟨fun _ => ⟨o, rfl⟩, fun _ => ⟨_, rfl⟩⟩
      rw [List.forall_mem_cons, ← hread, List.length_cons, Nat.succ_le_succ_iff]
      constructor
      · rintro ⟨cs, h⟩
        obtain ⟨d, hd, h⟩ := bind_eq_ok.mp h
        obtain ⟨more, hmore, -⟩ := bind_eq_ok.mp h
        obtain ⟨hlength, hversions⟩ := (ih room hterms).mp ⟨more, hmore⟩
        exact ⟨hlength, ⟨d, hd⟩, hversions⟩
      · rintro ⟨hlength, ⟨d, hd⟩, hversions⟩
        obtain ⟨more, hmore⟩ := (ih room hterms).mpr ⟨hlength, hversions⟩
        exact ⟨d :: more, bind_eq_ok.mpr ⟨d, hd, bind_eq_ok.mpr ⟨more, hmore, rfl⟩⟩⟩

/-- Where an alternative ends, its comparators can be read if they make up one. -/
theorem isAlternative_iff (h : ∀ c ∈ terms, IsVersionToken c.version) :
    IsAlternative terms ↔ terms.map Term.resolved ≠ [] ∧
      ∃ cs, readAlternative maxComparators (terms.map Term.resolved) = .ok cs := by
  rw [exists_readAlternative_iff _ h, Ne, List.map_eq_nil_iff]
  exact ⟨fun h => ⟨h.nonempty, h.length, h.versions⟩, fun ⟨h₁, h₂, h₃⟩ => ⟨h₁, h₂, h₃⟩⟩

/-- What can be read after the comparators of an unfinished alternative and maybe an operator is
what makes up a constraint together with them. -/
theorem isConstraint_of_readAlternatives (acc : List Term) (pending : Option Operator)
    {alternatives : List (List Comparator)} (hacc : ∀ c ∈ acc, IsVersionToken c.version)
    (htokens : ∀ token ∈ tokens, token.IsWritten)
    (h : readAlternatives (acc.map Term.resolved) pending tokens = .ok alternatives) :
    IsConstraint (acc.flatMap Term.tokens ++ (pending.toList.map Token.operator ++ tokens)) := by
  induction tokens generalizing acc pending alternatives with
  | nil =>
    rw [readAlternatives] at h
    split at h
    · cases h
    · rename_i hend
      obtain ⟨hpending, hne⟩ := not_or.mp hend
      obtain rfl := Option.not_isSome_iff_eq_none.mp hpending
      obtain ⟨cs, hcs, -⟩ := bind_eq_ok.mp h
      have hacc := (isAlternative_iff hacc).mpr ⟨hne, cs, hcs⟩
      exact ⟨[acc], by simp, by simpa using hacc, by simp [written]⟩
  | cons token tokens ih =>
    obtain ⟨htoken, hbehind⟩ := List.forall_mem_cons.mp htokens
    -- a version or an operator moves on within the alternative, `||` ends it
    cases token with
    | version t =>
      have hacc : ∀ c ∈ acc ++ [⟨pending, t⟩], IsVersionToken c.version := by
        intro c hc
        rcases List.mem_append.mp hc with hc | hc
        · exact hacc c hc
        · obtain rfl := List.mem_singleton.mp hc
          exact htoken
      have hconstraint := ih _ none hacc hbehind (by rw [List.map_append]; exact h)
      simpa [Term.tokens] using hconstraint
    | or =>
      rw [readAlternatives] at h
      split at h
      · cases h
      · rename_i hend
        obtain ⟨hpending, hne⟩ := not_or.mp hend
        obtain rfl := Option.not_isSome_iff_eq_none.mp hpending
        obtain ⟨cs, hcs, h⟩ := bind_eq_ok.mp h
        obtain ⟨more, hmore, -⟩ := bind_eq_ok.mp h
        have hacc := (isAlternative_iff hacc).mpr ⟨hne, cs, hcs⟩
        exact (ih [] none (by simp) hbehind hmore).cons hacc
    | operator op =>
      rw [readAlternatives] at h
      split at h
      · cases h
      · rename_i hpending
        obtain rfl := Option.not_isSome_iff_eq_none.mp hpending
        exact ih acc (some op) hacc hbehind h

/-- The tokens of comparators are read one comparator after the other. -/
theorem readAlternatives_flatMap (acc terms : List Term) (tokens : List Token) :
    readAlternatives (acc.map Term.resolved) none (terms.flatMap Term.tokens ++ tokens) =
      readAlternatives ((acc ++ terms).map Term.resolved) none tokens := by
  induction terms generalizing acc with
  | nil => simp
  | cons c terms ih =>
    have hc : readAlternatives (acc.map Term.resolved) none
        (c.tokens ++ (terms.flatMap Term.tokens ++ tokens)) =
        readAlternatives ((acc ++ [c]).map Term.resolved) none
          (terms.flatMap Term.tokens ++ tokens) := by
      rw [List.map_append]
      cases c with
      | mk op version => cases op <;> rfl
    rw [List.flatMap_cons, List.append_assoc, hc, ih, List.append_assoc, List.singleton_append]

/-- What is written is read. -/
theorem exists_readAlternatives {alternatives : List (List Term)} (hne : alternatives ≠ [])
    (hall : ∀ terms ∈ alternatives, IsAlternative terms) :
    ∃ read, readAlternatives [] none (written alternatives) = .ok read := by
  induction alternatives with
  | nil => exact absurd rfl hne
  | cons terms rest ih =>
    obtain ⟨hterms, hrest⟩ := List.forall_mem_cons.mp hall
    obtain ⟨hend, cs, hcs⟩ := (isAlternative_iff hterms.isVersionToken).mp hterms
    have hnot : ¬ ((none : Option Operator).isSome = true ∨ terms.map Term.resolved = []) := by
      simpa using hend
    cases rest with
    | nil =>
      have hread := readAlternatives_flatMap [] terms []
      rw [List.append_nil, List.map_nil, List.nil_append] at hread
      rw [written_singleton, hread, readAlternatives, if_neg hnot]
      exact ⟨[cs], bind_eq_ok.mpr ⟨cs, hcs, rfl⟩⟩
    | cons more rest =>
      obtain ⟨read, hread⟩ := ih (by simp) hrest
      have hfront := readAlternatives_flatMap [] terms (Token.or :: written (more :: rest))
      rw [List.map_nil, List.nil_append] at hfront
      rw [written_cons_cons, hfront, readAlternatives, if_neg hnot]
      exact ⟨cs :: read, bind_eq_ok.mpr ⟨cs, hcs, bind_eq_ok.mpr ⟨read, hread, rfl⟩⟩⟩

/-- Which tokens can be read. -/
theorem exists_readAlternatives_iff (htokens : ∀ token ∈ tokens, token.IsWritten) :
    (∃ read, readAlternatives [] none tokens = .ok read) ↔ IsConstraint tokens := by
  constructor
  · rintro ⟨read, h⟩
    exact isConstraint_of_readAlternatives [] none (by simp) htokens h
  · rintro ⟨alternatives, hne, hall, rfl⟩
    exact exists_readAlternatives hne hall

example : readAlternatives [] none [.operator .caret, .version ['0', '.', '8'], .or,
    .version ['0', '.', '7', '.', 'x']] =
    .ok [[⟨.caret, .minor 0 8⟩], [⟨.exact, .minor 0 7⟩]] := by decide

example : readAlternatives [] none [.version ['0', '.', 'x', '.', '7']] =
    .error .numberAfterWildcard := by decide

/-- **A text is a constraint exactly if its tokens follow the grammar.** The text is trimmed and
cut into longest tokens; every other text is refused as an invalid constraint. -/
theorem ofText_ok_iff (t : Text) :
    ((∃ c, ofText t = .ok c) ↔ ∃ tokens, Segments t.trim tokens [] ∧ IsConstraint tokens) ∧
      ((∃ fault, ofText t = .error (.invalidPragma t.trim fault)) ↔
        ¬ ∃ tokens, Segments t.trim tokens [] ∧ IsConstraint tokens) := by
  have hread : (∃ read, alternativesOf t.trim = .ok read) ↔
      ∃ tokens, Segments t.trim tokens [] ∧ IsConstraint tokens := by
    constructor
    · rintro ⟨read, h⟩
      obtain ⟨tokens, htokens, h⟩ := bind_eq_ok.mp h
      have hsegments := tokenize_eq_ok_iff.mp (mapError_eq_ok.mp htokens)
      exact ⟨tokens, hsegments, (exists_readAlternatives_iff hsegments.isWritten).mp ⟨read, h⟩⟩
    · rintro ⟨tokens, hsegments, h⟩
      obtain ⟨read, h⟩ := (exists_readAlternatives_iff hsegments.isWritten).mpr h
      have htokens := tokenize_eq_ok_iff.mpr hsegments
      exact ⟨read, bind_eq_ok.mpr ⟨tokens, mapError_eq_ok.mpr htokens, h⟩⟩
  rw [← hread, ofText]
  cases alternativesOf t.trim with
  | ok read => exact ⟨⟨fun _ => ⟨read, rfl⟩, fun _ => ⟨_, rfl⟩⟩, by simp⟩
  | error fault => exact ⟨by simp, ⟨by simp, fun _ => ⟨fault, rfl⟩⟩⟩

end Constraint

end SolPlan
