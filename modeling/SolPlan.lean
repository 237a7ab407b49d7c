import SolPlan.CompilePlan
import SolPlan.Proofs.SourceId
import SolPlan.Proofs.RawNames
import SolPlan.Proofs.Path.Steps
import SolPlan.Proofs.ImportGraph.Reachability
import SolPlan.Proofs.ImportGraph.Walk
import SolPlan.Proofs.Compiler.Selection
import SolPlan.Proofs.Compiler.VersionMap
import SolPlan.Proofs.Compiler.Consolidation
import SolPlan.Proofs.Constraint.Ranges
import SolPlan.Proofs.Compiler.SharedVersion
import SolPlan.Proofs.ImportGraph.Rewalk
import SolPlan.Proofs.CacheLocation
import SolPlan.Proofs.Remapping.Building
import SolPlan.Proofs.Remapping.Correction
import SolPlan.Proofs.CompilePlan.Jobs
import SolPlan.Proofs.CompilePlan.Replan
import SolPlan.Proofs.FileTree.Lookup
import SolPlan.Proofs.ImportGraph.Enterable
import SolPlan.Proofs.ImportGraph.Run
import SolPlan.Proofs.ImportGraph.Statements
import SolPlan.Proofs.CompilePlan.Remappings
import SolPlan.Proofs.Compiler.Pins
import SolPlan.Proofs.CompilePlan.Corrections
import SolPlan.Proofs.ImportGraph.Composition
import SolPlan.Proofs.Path.Place
import SolPlan.Proofs.FileTree.Edit
import SolPlan.Proofs.Package.Unpack
import SolPlan.Proofs.Remapping.CacheFolders
import SolPlan.Proofs.Compiler.ImportOrder
import SolPlan.Proofs.Compiler.Requests
import SolPlan.Proofs.CacheId
import SolPlan.Proofs.FileTree.Growth
import SolPlan.Proofs.Package.Settled
import SolPlan.Proofs.Remapping.Rebuild
import SolPlan.Proofs.Remapping.Kept
import SolPlan.Proofs.Remapping.Keys
import SolPlan.Proofs.Remapping.Declared
import SolPlan.Proofs.FileTree.Slashes
import SolPlan.Proofs.Import.Healing
import SolPlan.Proofs.ImportGraph.Cycles
import SolPlan.Proofs.ImportGraph.Worklist
import SolPlan.Proofs.FileTree.Way
import SolPlan.Proofs.FileTree.Adding
import SolPlan.Proofs.Package.Filling
import SolPlan.Proofs.Package.Order
import SolPlan.Proofs.Package.Delivery
import SolPlan.Proofs.Remapping.PackageTables
import SolPlan.Proofs.Compiler.LazySelection
import SolPlan.Proofs.Compiler.VersionRule
import SolPlan.Proofs.Compiler.Gathering
import SolPlan.Proofs.Compiler.Consolidated
import SolPlan.Proofs.Import.Relative
import SolPlan.Proofs.FileTree.Shape
import SolPlan.Proofs.ImportGraph.Locality
import SolPlan.Proofs.Import.Places
import SolPlan.Proofs.Import.Separators
import SolPlan.Proofs.Import.Literal
import SolPlan.Proofs.Import.Extraction
import SolPlan.Proofs.Import.Terminators
import SolPlan.Proofs.Constraint.Segments
import SolPlan.Proofs.Constraint.Grammar
import SolPlan.Proofs.Constraint.Connectives
import SolPlan.Proofs.Constraint.PreReleases
import SolPlan.Proofs.Compiler.ReleaseSelection
import SolPlan.Proofs.Compiler.PinnedSelection
import SolPlan.Proofs.Path.RoundTrip
import SolPlan.Proofs.Path.Reading
import SolPlan.Proofs.Remapping.LongestMatch
import SolPlan.Proofs.Constraint.Layout
import SolPlan.Proofs.SourceFiles
import SolPlan.Proofs.CompilePlan.WholeProject
