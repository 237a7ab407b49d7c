import SolPlan.Text

/-!
# Numbers in versions

A number is a run of decimal digits without a superfluous zero in front, and fits into 64 bits.
`read` tells the two faults apart; the zero is noticed first.
-/

namespace SolPlan

namespace Number

/-- The greatest number that a version may hold. -/
def limit : Nat := Nat.pow 2 64 - 1

/-- Is the text a run of digits? (The empty text is one.) -/
def isDigits (t : Text) : Bool := t.all Char.isDigit

/-- The value of a run of digits. -/
def value (digits : Text) : Nat := digits.foldl (fun n c => 10 * n + (c.toNat - '0'.toNat)) 0

/-- Why a run of digits is no number. -/
inductive Fault where
  | leadingZero
  | overflow
deriving DecidableEq, Repr

/-- The number that a run of digits writes. -/
def read (digits : Text) : Except Fault Nat :=
  if digits.head? = some '0' ∧ 1 < digits.length then .error .leadingZero
  else if limit < value digits then .error .overflow
  else .ok (value digits)

/-- The number that a text writes, if it writes one. -/
def ofText? (t : Text) : Option Nat :=
  if t ≠ [] ∧ isDigits t then (read t).toOption else none

end Number

end SolPlan
