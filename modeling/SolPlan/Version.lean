import SolPlan.Number

/-!
# Compiler versions

`major.minor.patch`, then `-` and the identifiers of a pre-release, then `+` and those of the build,
each list cut at dots.

**The order** compares major, minor and patch, then the pre-release, then the build.

* A version without a pre-release is above its pre-releases. Identifiers are compared one by one,
  a list that ends first is less, and a number (digits only) is below any other identifier.
  Numbers of a pre-release are compared by length and then digit by digit, which is by value, as
  they have no zero in front.
* A version without build metadata is below those with it. Numbers of a build are compared by
  value, and of two spellings of one value the longer is greater.

The order is total and antisymmetric (`Std.LawfulEqOrd`): only equal versions compare as equal.
-/

namespace SolPlan

/-- An identifier of a pre-release. -/
structure PreIdentifier where
  text : Text
deriving DecidableEq, Repr

/-- An identifier of build metadata. -/
structure BuildIdentifier where
  text : Text
deriving DecidableEq, Repr

/-! ## Identifiers -/

namespace PreIdentifier

/-- The length of a number; other identifiers are not compared by length. -/
def digits (i : PreIdentifier) : Nat := if Number.isDigits i.text then i.text.length else 0

/-- Numbers first, by length; then by text. -/
def order : PreIdentifier → PreIdentifier → Ordering :=
  compareLex (compareOn fun i => !Number.isDigits i.text)
    (compareLex (compareOn digits) (compareOn text))

instance : Ord PreIdentifier := ⟨order⟩

instance : Std.TransOrd PreIdentifier := by
  change Std.TransCmp order
  unfold order
  infer_instance

instance : Std.LawfulEqOrd PreIdentifier where
  eq_of_compare {a b} h := by
    have h : order a b = .eq := h
    simp only [order, compareLex_eq_eq] at h
    have := Std.LawfulEqOrd.eq_of_compare (α := Text) h.2.2
    cases a; cases b; cases this; rfl

end PreIdentifier

namespace BuildIdentifier

/-- The digits of a number without the zeros in front. -/
def significant (i : BuildIdentifier) : Text :=
  if Number.isDigits i.text then i.text.dropWhile (· == '0') else []

/-- The length of a number; other identifiers are not compared by length. -/
def digits (i : BuildIdentifier) : Nat := if Number.isDigits i.text then i.text.length else 0

/-- Numbers first, by value and then by length; then by text. -/
def order : BuildIdentifier → BuildIdentifier → Ordering :=
  compareLex (compareOn fun i => !Number.isDigits i.text)
    (compareLex (compareOn fun i => i.significant.length)
      (compareLex (compareOn significant) (compareLex (compareOn digits) (compareOn text))))

instance : Ord BuildIdentifier := ⟨order⟩

instance : Std.TransOrd BuildIdentifier := by
  change Std.TransCmp order
  unfold order
  infer_instance

instance : Std.LawfulEqOrd BuildIdentifier where
  eq_of_compare {a b} h := by
    have h : order a b = .eq := h
    simp only [order, compareLex_eq_eq] at h
    have := Std.LawfulEqOrd.eq_of_compare (α := Text) h.2.2.2.2
    cases a; cases b; cases this; rfl

end BuildIdentifier

/-! ## Versions -/

/-- A version of the compiler. -/
@[ext] structure Version where
  major : Nat
  minor : Nat
  patch : Nat
  pre : List PreIdentifier
  build : List BuildIdentifier
deriving DecidableEq, Repr

namespace Version

/-- The release with these three numbers. -/
def release (major minor patch : Nat) : Version := ⟨major, minor, patch, [], []⟩

/-- The version without its build metadata. -/
def stripBuild (v : Version) : Version := { v with build := [] }

/-- Is this a release, not a pre-release? -/
def isRelease (v : Version) : Bool := v.pre.isEmpty

/-- The three numbers first, then the pre-release, then the build. -/
def order : Version → Version → Ordering :=
  compareLex (compareOn major) (compareLex (compareOn minor) (compareLex (compareOn patch)
    (compareLex (compareOn isRelease) (compareLex (compareOn pre) (compareOn build)))))

instance : Ord Version := ⟨order⟩

instance : Std.TransOrd Version := by
  change Std.TransCmp order
  unfold order
  infer_instance

instance : Std.LawfulEqOrd Version where
  eq_of_compare {a b} h := by
    have h : order a b = .eq := h
    simp only [order, compareLex_eq_eq] at h
    obtain ⟨h1, h2, h3, -, h5, h6⟩ := h
    exact Version.ext (Std.LawfulEqOrd.eq_of_compare (α := Nat) h1)
      (Std.LawfulEqOrd.eq_of_compare (α := Nat) h2) (Std.LawfulEqOrd.eq_of_compare (α := Nat) h3)
      (Std.LawfulEqOrd.eq_of_compare (α := List PreIdentifier) h5)
      (Std.LawfulEqOrd.eq_of_compare (α := List BuildIdentifier) h6)

/-! ## Text -/

/-- The written form. -/
def toText (v : Version) : Text :=
  Text.join '.' [Text.ofNat v.major, Text.ofNat v.minor, Text.ofNat v.patch]
    ++ (if v.pre = [] then [] else '-' :: Text.join '.' (v.pre.map PreIdentifier.text))
    ++ (if v.build = [] then [] else '+' :: Text.join '.' (v.build.map BuildIdentifier.text))

/-- Is the text an identifier: letters, digits and hyphens, at least one? -/
def isIdentifier (t : Text) : Bool := t ≠ [] && t.all fun c => c.isAlphanum || c == '-'

/-- The identifiers that a text lists, none if there is no text. -/
def identifiers? (valid : Text → Bool) : Option Text → Option (List Text)
  | none => some []
  | some t =>
    let parts := t.splitOn '.'
    if parts.all valid then some parts else none

/-- The version that a text writes. -/
def ofText? (t : Text) : Option Version := do
  let (front, build) := match Text.cut? '+' t with
    | some (a, b) => (a, some b)
    | none => (t, none)
  let (numbers, pre) := match Text.cut? '-' front with
    | some (a, b) => (a, some b)
    | none => (front, none)
  let [major, minor, patch] := numbers.splitOn '.' | none
  let major ← Number.ofText? major
  let minor ← Number.ofText? minor
  let patch ← Number.ofText? patch
  let pre ← identifiers?
    (fun i => isIdentifier i && (!Number.isDigits i || i.head? != some '0' || i.length == 1)) pre
  let build ← identifiers? isIdentifier build
  return ⟨major, minor, patch, pre.map .mk, build.map .mk⟩

end Version

end SolPlan
