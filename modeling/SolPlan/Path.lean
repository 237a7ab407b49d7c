import SolPlan.Text

/-!
# Paths

A path is kept **as written**: its text is shown in messages and answers, and looking it up in a
file tree goes through its pieces one by one. What it names is its list of `components`: empty
pieces and `.` name nothing, except a leading `.` of a relative path.

* `join`, `parent`, `fileName?` and `extension?` work on the text.
* `normalize`, `relativeTo` (`relative_path`) and `slashed` (`to_slash`) are purely lexical, on
  components. Paths whose names are no text are in `RawNames`.

A `..` in `normalize` cancels whatever component stands before it, a kept `..` included: two of
them at the start of a path leave nothing behind.
-/

namespace SolPlan

/-- A path, as written. -/
structure Path where
  text : Text
deriving DecidableEq, Repr, Inhabited

namespace Path

/-- What a path starts with: the root, a `.`, or neither. -/
inductive Anchor where
  | root
  | here
  | none
deriving DecidableEq, Repr

/-- One step of a path. -/
inductive Component where
  | root
  | here
  | up
  | name (n : Text)
deriving DecidableEq, Repr

/-- Does the piece name no component? -/
def isVoid (piece : Text) : Bool := piece == [] || piece == ['.']

/-- The anchor, and the pieces after it. -/
def split (p : Path) : Anchor × List Text :=
  match p.text with
  | '/' :: body => (.root, body.splitOn '/')
  | t =>
    match t.splitOn '/' with
    | ['.'] :: body => (.here, body)
    | body => (.none, body)

/-- The path of an anchor and pieces. -/
def ofPieces : Anchor → List Text → Path
  | .root, pieces => ⟨'/' :: Text.join '/' pieces⟩
  | .here, [] => ⟨['.']⟩
  | .here, pieces => ⟨'.' :: '/' :: Text.join '/' pieces⟩
  | .none, pieces => ⟨Text.join '/' pieces⟩

/-- Does the path start at the root? -/
def isAbsolute (p : Path) : Bool := p.text.head? == some '/'

/-- The component that a piece names, if it names one. -/
def Component.ofPiece? (piece : Text) : Option Component :=
  if isVoid piece then Option.none
  else if piece = ['.', '.'] then some .up
  else some (.name piece)

/-- The component of an anchor, if it is one. -/
def Anchor.component? : Anchor → Option Component
  | .root => some .root
  | .here => some .here
  | .none => Option.none

/-- The steps of the path. -/
def components (p : Path) : List Component :=
  p.split.1.component?.toList ++ p.split.2.filterMap Component.ofPiece?

/-- Two paths name the same steps. -/
def SameAs (p q : Path) : Prop := p.components = q.components

instance (p q : Path) : Decidable (p.SameAs q) := inferInstanceAs (Decidable (_ = _))

/-- The second path seen from the first: an absolute one stands for itself, anything else is
appended after a `/` (also the empty path). -/
def join (p q : Path) : Path :=
  if q.isAbsolute then q
  else if p.text = [] || p.text.getLast? = some '/' then ⟨p.text ++ q.text⟩
  else ⟨p.text ++ '/' :: q.text⟩

/-- The bodies of what stands above, nearest first, from the pieces last first. -/
def shorten : List Text → List (List Text)
  | [] => [[]]
  | piece :: pieces => if isVoid piece then shorten pieces else (piece :: pieces) :: shorten pieces

/-- Everything above the path, nearest first, each without pieces at its end that name nothing.
A relative path ends at the empty one. -/
def above (p : Path) : List Path :=
  let (anchor, body) := p.split
  let shorter := (shorten body.reverse).tail.map fun pieces => ofPieces anchor pieces.reverse
  match anchor with
  | .here => shorter ++ [⟨[]⟩]
  | _ => shorter

/-- The path without its last component; the root and the empty path have none. -/
def parent? (p : Path) : Option Path := p.above.head?

/-- The last component, if it is a plain name. -/
def fileName? (p : Path) : Option Text :=
  match p.components.getLast? with
  | some (.name n) => some n
  | _ => Option.none

/-- What follows the last dot of the file name; a dot that starts the name does not count. -/
def extension? (p : Path) : Option Text := do
  let name ← p.fileName?
  let (ending, stem) ← Text.cut? '.' name.reverse
  if stem = [] then Option.none else some ending.reverse

/-! ## Lexical resolution -/

/-- One more component after the steps kept so far, last first. -/
def resolveStep : List Text → Component → List Text
  | kept, .root => kept
  | kept, .here => kept
  | [], .up => [['.', '.']]
  | _ :: kept, .up => kept
  | kept, .name n => n :: kept

/-- The steps that remain of the components, last first. -/
def resolve (components : List Component) : List Text := components.foldl resolveStep []

/-- The path that starts at the root or not, and has these steps. -/
def ofSteps (absolute : Bool) (steps : List Text) : Path :=
  ofPieces (if absolute then .root else .none) steps

/-- The steps of the path without `.`, each `..` cancelling the one before it. -/
def steps (p : Path) : List Text := (resolve p.components).reverse

/-- The path without `.` and with each `..` cancelling the component before it. -/
def normalize (p : Path) : Path := ofSteps p.isAbsolute p.steps

/-- Two lists without the part with which both start. -/
def dropCommon {α : Type} [DecidableEq α] : List α → List α → List α × List α
  | a :: as, b :: bs => if a = b then dropCommon as bs else (a :: as, b :: bs)
  | as, bs => (as, bs)

/-- The way from `base` to the path, with a `..` for each step of `base` that has to be left. If
only the path starts at the root, it is its own way. -/
def relativeTo (p base : Path) : Path :=
  match p.isAbsolute, base.isAbsolute with
  | true, false => p.normalize
  | false, true => ofSteps false (['.', '.'] :: base.steps.map (fun _ => ['.', '.']) ++ p.steps)
  | _, _ =>
    let (rest, left) := dropCommon p.steps base.steps
    ofSteps false (left.map (fun _ => ['.', '.']) ++ rest)

/-- The text of a component that is a step. -/
def Component.text? : Component → Option Text
  | .up => some ['.', '.']
  | .name n => some n
  | _ => Option.none

/-- The components with a single `/` between them, without a leading `.`. -/
def slashed (p : Path) : Text :=
  (ofSteps p.isAbsolute (p.components.filterMap Component.text?)).text

end Path

end SolPlan
