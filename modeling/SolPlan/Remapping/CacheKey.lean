import SolPlan.Remapping.Build

/-!
# What a kept table was built from

A cache does not keep what a table was built from, but 64 bits of it: the entries of the project and
the installed packages are put in order (`CacheKey`) and handed to a hasher (`cache_key`). Two keys
can have one digest.

The hasher is not part of the program. The cache takes a digest of keys as it comes, and nothing is
assumed of it; this module has the one that runs, `FxHasher` on 64 bits. It keeps one word: a number
is added to it, which is then multiplied. The bytes of a text are mixed into a number first, sixteen
at a time, by the two halves of a product of words. A list comes after its length, and a text before
the byte `0xff`. At the end the word is turned by 26 bits.
-/

namespace SolPlan

/-- What a table is built from, up to order. -/
structure CacheKey where
  entries : List Text
  installed : List Text
deriving DecidableEq

/-- Texts in order. -/
def sortTexts (texts : List Text) : List Text := texts.mergeSort fun a b => (compare a b).isLE

/-- The key of a project and its registry. -/
def CacheKey.of (p : Project) (r : Registry) : CacheKey where
  entries := sortTexts p.config.remappings
  installed := sortTexts (r.installed.map fun d => d.id.folder)

namespace FxHasher

/-- How many words there are. -/
def words : Nat := 0x10000000000000000

/-- One more number. -/
def add (hash n : Nat) : Nat := (hash + n) * 0xf1357aea2e62a9c5 % words

/-- The two halves of a product, one upon the other. -/
def mix (x y : Nat) : Nat := x * y % words ^^^ x * y / words

/-- The number that some bytes write, the lowest first. -/
def word (bytes : List UInt8) : Nat := bytes.foldr (fun b n => b.toNat + 256 * n) 0

/-- The first `rounds` times sixteen bytes, mixed into two words. -/
def absorb : Nat → List UInt8 → Nat × Nat → Nat × Nat
  | 0, _, seeds => seeds
  | rounds + 1, bytes, (a, b) =>
    absorb rounds (bytes.drop 16)
      (b, mix (a ^^^ word (bytes.take 8)) (0xa4093822299f31d0 ^^^ word ((bytes.drop 8).take 8)))

/-- The two words for the last bytes, at most sixteen. Those of a short text overlap. -/
def ends (bytes : List UInt8) : Nat × Nat :=
  let n := bytes.length
  if 8 ≤ n then (word (bytes.take 8), word ((bytes.drop (n - 8)).take 8))
  else if 4 ≤ n then (word (bytes.take 4), word (bytes.drop (n - 4)))
  else if 0 < n then
    (word (bytes.take 1), word ((bytes.drop (n / 2)).take 1) + 256 * word (bytes.drop (n - 1)))
  else (0, 0)

/-- The number of a text. -/
def hashBytes (bytes : List UInt8) : Nat :=
  let n := bytes.length
  let (a, b) := absorb ((n - 1) / 16) bytes (0x243f6a8885a308d3, 0x13198a2e03707344)
  let (x, y) := ends (if n ≤ 16 then bytes else bytes.drop (n - 16))
  mix (a ^^^ x) (b ^^^ y) ^^^ n

/-- One more text. -/
def addText (hash : Nat) (t : Text) : Nat := add (add hash (hashBytes t.bytes)) 0xff

/-- One more list of texts. -/
def addTexts (hash : Nat) (texts : List Text) : Nat := texts.foldl addText (add hash texts.length)

/-- The hash at the end. -/
def finish (hash : Nat) : UInt64 := .ofNat (hash <<< 26 ||| hash >>> 38)

end FxHasher

/-- The digest of a key. -/
def CacheKey.digest (key : CacheKey) : UInt64 :=
  FxHasher.finish (FxHasher.addTexts (FxHasher.addTexts 0 key.entries) key.installed)

end SolPlan
