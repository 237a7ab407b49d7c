import SolPlan.Pragma

/-!
# Toolchains and selection

A toolchain says which compilers are installed and which can be installed, and installs them. A
`Selector` (`VersionSelector`) picks a compiler for each file and installs what is missing. It works
with versions without build metadata, and asks for what can be installed **once, and only if**
nothing installed will do; if it cannot be told what can be installed, nothing can. `selectVersion`
is `select_version_for`, and `probe` is `probe_available`.
-/

namespace SolPlan

/-- What a toolchain answers. -/
structure Toolchain where
  installed : Except Error Versions
  available : Except Error Versions
  install : Version → Except Error Unit

/-- The toolchain of fixed lists. An absent list of installed compilers means that there are none
to look at, an absent list of available ones that it cannot be fetched; some downloads fail. -/
def Toolchain.ofLists (installed available : Option (List Version)) (failing : List Version) :
    Toolchain where
  installed := match installed with
    | some versions => .ok (.ofList versions)
    | none => .error (.toolchain "no compilers".toList)
  available := match available with
    | some versions => .ok (.ofList versions)
    | none => .error (.toolchain "offline".toList)
  install v :=
    if v ∈ failing then .error (.install v "download failed".toList) else .ok ()

/-- What a toolchain was asked to do: the installations, and how often to list what can be
installed. -/
structure ToolchainLog where
  installs : List Version
  probes : Nat
deriving DecidableEq, Inhabited

/-- The compiler for a file: one that is installed, or one to install first. -/
inductive Selection where
  | installed (v : Version)
  | install (v : Version)
deriving DecidableEq

/-- The selected version. -/
def Selection.version : Selection → Version
  | .installed v => v
  | .install v => v

/-- The versions that a file accepts: those that meet its constraint, or all. -/
def acceptable (constraint : Option Constraint) (options : Versions) : Versions :=
  match constraint with
  | some c => options.filter c.admits
  | none => options

/-- The error when there is no compiler for a file. -/
def noCompilerFor (constraint : Option Constraint) : Error :=
  match constraint with
  | some c => .unsatisfiable c.expression
  | none => .noCompilers

/-- The greatest installed version that a file accepts, or else the greatest that can be
installed. -/
def selectVersion (constraint : Option Constraint) (installed available : Versions) :
    Except Error Selection :=
  match (acceptable constraint installed).max? with
  | some v => .ok (.installed v)
  | none =>
    match (acceptable constraint available).max? with
    | some v => .ok (.install v)
    | none => .error (noCompilerFor constraint)

/-- Versions without their build metadata. -/
def stripBuilds (versions : Versions) : Versions :=
  .ofList (versions.toList.map Version.stripBuild)

/-- What a selector knows: the installed versions, those it can install once it has asked, and the
log of the toolchain. -/
structure Selector where
  installed : Versions
  available : Versions
  probed : Bool
  log : ToolchainLog

namespace Selector

/-- The selector that knows what is installed. -/
def start (tools : Toolchain) (log : ToolchainLog) : Except Error Selector :=
  tools.installed.map fun versions => ⟨stripBuilds versions, ∅, false, log⟩

/-- Ask what can be installed, unless it was asked before. -/
def probe (tools : Toolchain) (s : Selector) : Selector :=
  if s.probed then s
  else
    { s with
      probed := true
      available := match tools.available with
        | .ok versions => stripBuilds versions
        | .error _ => s.available
      log := { s.log with probes := s.log.probes + 1 } }

/-- Take a selected version, which may have to be installed. -/
def obtain (tools : Toolchain) (s : Selector) : Selection → Selector × Except Error Version
  | .installed v => (s, .ok v)
  | .install v =>
    let s := { s with log := { s.log with installs := s.log.installs ++ [v] } }
    match tools.install v with
    | .ok () => ({ s with installed := s.installed.insert v }, .ok v)
    | .error e => (s, .error e)

/-- The version for a file, installed if need be. -/
def select (tools : Toolchain) (pragmas : PragmaTable) (s : Selector) (file : SourceId) :
    Selector × Except Error Version :=
  let constraint := pragmas.constraint? file
  match selectVersion constraint s.installed ∅ with
  | .ok selection => s.obtain tools selection
  | .error _ =>
    let s := s.probe tools
    match selectVersion constraint s.installed s.available with
    | .ok selection => s.obtain tools selection
    | .error e => (s, .error e)

/-- Select versions for some files, one after the other. -/
def selectAll (tools : Toolchain) (pragmas : PragmaTable) :
    List SourceId → Selector → Selector × Except Error (Std.ExtTreeMap SourceId Version)
  | [], s => (s, .ok ∅)
  | file :: files, s =>
    match s.select tools pragmas file with
    | (s, .error e) => (s, .error e)
    | (s, .ok v) =>
      match selectAll tools pragmas files s with
      | (s, .error e) => (s, .error e)
      | (s, .ok best) => (s, .ok (best.insert file v))

end Selector

end SolPlan
