import SolPlan.Project

/-!
# Names that are no text

A file may have a name that is not UTF-8. A path holds it as it is, but an id is a text: in an id a
name is **shown** (`Text.shown`), with U+FFFD for whatever begins no character, or begins one that
breaks off. A text that is made part of a path is **stored** as its bytes (`Text.stored`).

A raw name is a text whose characters stand for bytes, those below 256. So whatever is said of paths
and file trees is said of raw ones too: a `/` and a `.` are single bytes. Only the limit for the
length of a name is not that of the bytes, since a character above 127 counts as two.

This module has the ids of raw paths (`from_path`, which goes through `to_slash`), and what a
project makes of them: `path_of`, `cache_id` and `source_files`. Names that are UTF-8 are shown as
they are, so there the ids are those of the texts.
-/

namespace SolPlan

namespace Text

/-- The text whose characters stand for these bytes. -/
def ofBytes (bytes : List UInt8) : Text := bytes.map fun b => .ofNat b.toNat

/-- The bytes for which the characters stand. -/
def rawBytes (t : Text) : List UInt8 := t.map fun c => .ofNat c.toNat

/-- A text as it is stored. -/
def stored (t : Text) : Text := ofBytes t.bytes

/-! ## What is shown -/

/-- Stands for bytes that are no character. -/
def replacement : Char := '\uFFFD'

/-- A character that has begun: what its bytes say so far, how many are missing, and between what
the next one has to be. -/
structure Begun where
  code : Nat
  missing : Nat
  low : Nat
  high : Nat

/-- A byte between characters: what is shown at once, and what has begun. -/
def start (b : Nat) : Text × Option Begun :=
  if b < 0x80 then ([.ofNat b], none)
  else if 0xC2 ≤ b ∧ b < 0xE0 then ([], some ⟨b - 0xC0, 1, 0x80, 0xBF⟩)
  else if 0xE0 ≤ b ∧ b < 0xF0 then
    ([], some ⟨b - 0xE0, 2, if b = 0xE0 then 0xA0 else 0x80, if b = 0xED then 0x9F else 0xBF⟩)
  else if 0xF0 ≤ b ∧ b < 0xF5 then
    ([], some ⟨b - 0xF0, 3, if b = 0xF0 then 0x90 else 0x80, if b = 0xF4 then 0x8F else 0xBF⟩)
  else ([replacement], none)

/-- One more byte. One that does not go on is where the next character may begin. -/
def advance : Option Begun → Nat → Text × Option Begun
  | none, b => start b
  | some begun, b =>
    if begun.low ≤ b ∧ b ≤ begun.high then
      let code := 64 * begun.code + (b - 0x80)
      if begun.missing = 1 then ([.ofNat code], none)
      else ([], some ⟨code, begun.missing - 1, 0x80, 0xBF⟩)
    else (replacement :: (start b).1, (start b).2)

/-- What is shown of bytes. -/
def decode : Option Begun → List UInt8 → Text
  | none, [] => []
  | some _, [] => [replacement]
  | begun, b :: bytes =>
    (advance begun b.toNat).1 ++ decode (advance begun b.toNat).2 bytes

/-- A raw name as it is shown. -/
def shown (t : Text) : Text := decode none t.rawBytes

end Text

/-- The components of a raw path with a single `/` between them, as they are shown. -/
def Path.shown (p : Path) : Text :=
  (ofSteps p.isAbsolute ((p.components.filterMap Component.text?).map Text.shown)).text

/-- The id of a raw path seen from a root. -/
def SourceId.ofRaw (p root : Path) : SourceId := ofText (p.relativeTo root).shown

namespace Project

/-- The absolute path of an id. -/
def rawPathOf (p : Project) (id : SourceId) : Path := (p.rootPath.join ⟨id.text.stored⟩).normalize

/-- Where a package is unpacked, seen from the root. -/
def rawCacheId (p : Project) (id : PackageId) : Text :=
  cacheIdBelow (SourceId.ofRaw p.contracts p.rootPath) id

end Project

end SolPlan
