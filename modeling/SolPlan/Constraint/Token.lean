import SolPlan.Text

/-!
# The tokens of a version constraint

A constraint such as `>=0.4.19 <0.7.0 || ^0.8` is cut into operators, `||` and versions, with
spaces, tabs, line ends and form feeds between them. Each token is **as long as possible**: `>=`
before `>`, and a version takes every part that it can (`0.8.x0` is `0.8.x` and then `0`).

* `Token.scan?` takes one token off the front; nothing is lost (`scan?_eq_some`).
* `tokenize` fails with the byte offset of the first character where no token starts.
-/

namespace SolPlan

/-- A comparison, as written. -/
inductive Operator where
  | greaterEq
  | lessEq
  | greater
  | less
  | exact
  | caret
  | tilde
deriving DecidableEq, Repr

/-- The written form of an operator. -/
def Operator.text : Operator → Text
  | .greaterEq => ['>', '=']
  | .lessEq => ['<', '=']
  | .greater => ['>']
  | .less => ['<']
  | .exact => ['=']
  | .caret => ['^']
  | .tilde => ['~']

/-- A token of a constraint. -/
inductive Token where
  | operator (op : Operator)
  | or
  /-- Dotted parts, the first a number and each other a number or a wildcard. -/
  | version (text : Text)
deriving DecidableEq, Repr

namespace Token

/-- The written form of a token. -/
def text : Token → Text
  | .operator op => op.text
  | .or => ['|', '|']
  | .version t => t

/-- What may stand between tokens. -/
def isSpace (c : Char) : Bool := c ∈ [' ', '\t', '\r', '\n', '\x0c']

/-- A wildcard part. -/
def isWildcard (c : Char) : Bool := c ∈ ['x', 'X', '*']

/-- The longest run of digits at the front. -/
def digits (t : Text) : Text := t.takeWhile Char.isDigit

/-- What follows the longest run of digits. -/
def afterDigits (t : Text) : Text := t.dropWhile Char.isDigit

theorem length_afterDigits_le (t : Text) : (afterDigits t).length ≤ t.length :=
  (List.dropWhile_suffix _).length_le

/-- The dotted parts at the front, and what follows them. -/
def scanParts : Text → Text × Text
  | '.' :: c :: rest =>
    if c.isDigit then
      let (parts, after) := scanParts (afterDigits rest)
      ('.' :: c :: digits rest ++ parts, after)
    else if isWildcard c then
      let (parts, after) := scanParts rest
      ('.' :: c :: parts, after)
    else ([], '.' :: c :: rest)
  | t => ([], t)
termination_by t => t.length
decreasing_by
  · have := length_afterDigits_le rest
    simp only [List.length_cons]; omega
  · simp only [List.length_cons]; omega

/-- The tokens of fixed spelling, longer ones first. -/
def marks : List Token :=
  [.operator .greaterEq, .operator .lessEq, .or, .operator .greater, .operator .less,
    .operator .exact, .operator .caret, .operator .tilde]

/-- The version at the front, and what follows it. -/
def scanVersion? : Text → Option (Token × Text)
  | [] => none
  | c :: rest =>
    if c.isDigit then
      let (parts, after) := scanParts (afterDigits rest)
      some (.version (c :: digits rest ++ parts), after)
    else none

/-- The longest token at the front, and what follows it. -/
def scan? (t : Text) : Option (Token × Text) :=
  (marks.findSome? fun mark => (Text.after? mark.text t).map (mark, ·)).or (scanVersion? t)

/-- Nothing is lost between the dotted parts and what follows them. -/
theorem scanParts_append (t : Text) : (scanParts t).1 ++ (scanParts t).2 = t := by
  fun_induction scanParts t with
  | case1 c rest hc parts after h ih =>
    rw [h] at ih
    simp only at ih
    simp [ih, digits, afterDigits, List.takeWhile_append_dropWhile]
  | case2 c rest hc hw parts after h ih =>
    rw [h] at ih
    simp [ih]
  | case3 => rfl
  | case4 => rfl

theorem scanVersion?_eq_some {t : Text} {tok : Token} {rest : Text}
    (h : scanVersion? t = some (tok, rest)) : t = tok.text ++ rest ∧ tok.text ≠ [] := by
  cases t with
  | nil => cases h
  | cons c t =>
    simp only [scanVersion?] at h
    split at h
    · simp only [Option.some.injEq, Prod.mk.injEq] at h
      obtain ⟨rfl, rfl⟩ := h
      refine ⟨?_, by simp [text]⟩
      simp only [text, List.cons_append, List.append_assoc, scanParts_append]
      rw [digits, afterDigits, List.takeWhile_append_dropWhile]
    · cases h

/-- **A token is not empty, and the text is the token and what follows it.** -/
theorem scan?_eq_some {t : Text} {tok : Token} {rest : Text} (h : scan? t = some (tok, rest)) :
    t = tok.text ++ rest ∧ tok.text ≠ [] := by
  rw [scan?, Option.or_eq_some_iff] at h
  rcases h with h | ⟨-, h⟩
  · obtain ⟨mark, hm, h⟩ := List.exists_of_findSome?_eq_some h
    obtain ⟨after, ha, h⟩ := Option.map_eq_some_iff.mp h
    simp only [Prod.mk.injEq] at h
    obtain ⟨rfl, rfl⟩ := h
    have : ∀ mark ∈ marks, mark.text ≠ [] := by decide
    exact ⟨Text.after?_eq_some_iff.mp ha, this mark hm⟩
  · exact scanVersion?_eq_some h

/-- What follows a token is shorter. -/
theorem scan?_length {t : Text} {tok : Token} {rest : Text} (h : scan? t = some (tok, rest)) :
    rest.length < t.length := by
  obtain ⟨rfl, hne⟩ := scan?_eq_some h
  have := List.length_pos_iff.mpr hne
  rw [List.length_append]
  omega

end Token

/-- The tokens of a text that starts `offset` bytes into the constraint, or the offset of the first
character where no token starts. -/
def tokenizeFrom (offset : Nat) (t : Text) : Except Nat (List Token) :=
  match t with
  | [] => .ok []
  | c :: rest =>
    if Token.isSpace c then tokenizeFrom (offset + c.utf8Size) rest
    else
      match _h : Token.scan? (c :: rest) with
      | none => .error offset
      | some (token, after) =>
        (tokenizeFrom (offset + token.text.size) after).map (token :: ·)
termination_by t.length
decreasing_by
  · simp
  · exact Token.scan?_length ‹_›

/-- The tokens of a constraint, or the byte offset of the first character where none starts. -/
def tokenize (t : Text) : Except Nat (List Token) := tokenizeFrom 0 t

end SolPlan
