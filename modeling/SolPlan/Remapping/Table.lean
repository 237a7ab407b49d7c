import SolPlan.Table
import SolPlan.Text

/-!
# Remapping tables

The active remappings, from keys to what they stand for, in the order in which the keys came. A
literal is expanded with the **longest** key that occurs in it; of several of that length the first
counts (`longestMatch`, for `longest_match`).
-/

namespace SolPlan

/-- Remappings in the order in which their keys came. -/
abbrev RemappingTable := Table Text Text

/-- A better value for a key, found while an import was resolved. -/
structure Correction where
  key : Text
  value : Text
deriving DecidableEq

namespace RemappingTable

/-- The better of the best match so far and one more. -/
def better (best : Option (Text × Text)) (entry : Text × Text) : Option (Text × Text) :=
  match best with
  | none => some entry
  | some b => if b.1.size < entry.1.size then some entry else some b

/-- Does the key occur in the text? The empty key does not count. -/
def Occurs (key text : Text) : Prop := key ≠ [] ∧ key <:+: text

instance (key text : Text) : Decidable (Occurs key text) :=
  @instDecidableAnd _ _ _ (List.instDecidableIsInfixOfDecidableEq key text)

/-- The first of the longest keys that occur in a text, with its value. -/
def longestMatch (t : RemappingTable) (text : Text) : Option (Text × Text) :=
  (t.pairs.filter fun entry => Occurs entry.1 text).foldl better none

/-- Write the better value. -/
def correct (t : RemappingTable) (c : Correction) : RemappingTable := t.insert c.key c.value

/-- The remappings as `key=value`. -/
def toEntries (t : RemappingTable) : List Text := t.pairs.map fun entry => entry.1 ++ '=' :: entry.2

end RemappingTable

end SolPlan
