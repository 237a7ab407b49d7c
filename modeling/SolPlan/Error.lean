import SolPlan.Constraint.Comparator
import SolPlan.SourceId

/-!
# What can go wrong

Each cause carries what is known about it; `Error.message` has the wording.
-/

namespace SolPlan

/-- Why the file system refused. -/
inductive FileFault where
  | notFound
  | exists
  | notADirectory
  | isADirectory
  | nameTooLong
  /-- A name holds the null character. -/
  | nullInName
  /-- The content is not UTF-8. -/
  | notText
  /-- There is no contracts folder to collect sources from. -/
  | noContractsFolder
deriving DecidableEq, Repr

/-- The wording of a refusal. -/
def FileFault.message : FileFault → Text
  | .notFound => "No such file or directory (os error 2)".toList
  | .exists => "File exists (os error 17)".toList
  | .notADirectory => "Not a directory (os error 20)".toList
  | .isADirectory => "Is a directory (os error 21)".toList
  | .nameTooLong => "File name too long (os error 36)".toList
  | .nullInName => "file name contained an unexpected NUL byte".toList
  | .notText => "stream did not contain valid UTF-8".toList
  | .noContractsFolder => "contracts folder not found".toList

/-- What can go wrong between reading a source and planning a compile. -/
inductive Error where
  /-- A remapping entry that is not `key=value`. -/
  | malformedEntry (entry : Text)
  /-- A bare name for a dependency that is installed at several versions. -/
  | ambiguousDependency (name : Text) (versions : List Text)
  /-- An import without a quoted literal. -/
  | unreadableImport (path : Path) (raw : Text)
  /-- An import without a `;` before the end of the file. -/
  | unterminatedImport (path : Path)
  | invalidPragma (expression : Text) (fault : ConstraintFault)
  /-- No compiler, installed or available, meets a constraint. -/
  | unsatisfiable (constraint : Text)
  /-- No compiler is installed or available. -/
  | noCompilers
  /-- A source that does not exist, and the file that imports it. -/
  | missingSource (source : Text) (importer : Option Text)
  | notSources (files : List Text)
  | toolchain (reason : Text)
  | install (version : Version) (reason : Text)
  | file (path : Path) (fault : FileFault)
deriving DecidableEq

namespace Error

/-- Does a missing source look like one of a package? -/
def looksLikePackage (source : Text) : Bool := source.head? == some '@'

/-- Is this a missing source that looks like one of a package? -/
def isMissingDependency : Error → Bool
  | .missingSource source _ => looksLikePackage source
  | _ => false

/-- The texts with `sep` between them. -/
def listed (sep : Text) (texts : List Text) : Text := List.intercalate sep texts

/-- The wording for a missing source. -/
def missingMessage (source : Text) (importer : Option Text) : Text :=
  let origin := match importer with
    | some i => " (imported by '".toList ++ i ++ "')".toList
    | none => []
  "Source '".toList ++ source ++ "' not found".toList ++ origin ++ ". Looks like a missing ".toList
    ++ if looksLikePackage source then
        "dependency: check the project's dependencies and import remappings.".toList
      else "project file.".toList

/-- The wording of an error. -/
def message : Error → Text
  | .malformedEntry entry =>
    "Incorrectly formatted import remapping '".toList ++ entry
      ++ "'. Expected '@value_1=value2'.".toList
  | .ambiguousDependency name versions =>
    "Ambiguous version reference for dependency '".toList ++ name
      ++ "'. Please set the import remapping value to ".toList ++ name
      ++ "/\x7bversion\x7d where 'version' is one of '".toList ++ listed ", ".toList versions
      ++ "'.".toList
  | .unreadableImport path raw =>
    "Error parsing import statement '".toList ++ raw ++ "' in '".toList ++ path.text ++ "'.".toList
  | .unterminatedImport path =>
    "Import statement missing semicolon in '".toList ++ path.text ++ "'.".toList
  | .invalidPragma expression fault =>
    "Invalid version pragma '".toList ++ expression ++ "': ".toList ++ fault.message
  | .unsatisfiable constraint =>
    "Solidity version specification '".toList ++ constraint ++ "' could not be met.".toList
  | .noCompilers => "No Solidity compiler versions are installed or available.".toList
  | .missingSource source importer => missingMessage source importer
  | .notSources files =>
    "Unable to compile '".toList ++ listed "', '".toList files
      ++ "' using Solidity compiler.".toList
  | .toolchain reason => "compiler toolchain: ".toList ++ reason
  | .install version reason =>
    "failed to install compiler ".toList ++ version.toText ++ ": ".toList ++ reason
  | .file path fault => "I/O error at '".toList ++ path.text ++ "': ".toList ++ fault.message

end Error

end SolPlan
