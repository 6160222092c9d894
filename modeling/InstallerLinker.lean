import InstallerLinker.Severity
import InstallerLinker.Location
import InstallerLinker.Diagnostic
import InstallerLinker.Diagnostic.Log
import InstallerLinker.Diagnostic.Excerpt
import InstallerLinker.Row
import InstallerLinker.Table
import InstallerLinker.TableRoles
import InstallerLinker.Section
import InstallerLinker.Reference
import InstallerLinker.LinkIssue
import InstallerLinker.SymbolTable
import InstallerLinker.Survey
import InstallerLinker.IndexSet
import InstallerLinker.Reach
import InstallerLinker.Collision
import InstallerLinker.Linkage
import InstallerLinker.PrecedenceGraph.Basic
import InstallerLinker.PrecedenceGraph.Cycle
import InstallerLinker.PrecedenceGraph.Closure
import InstallerLinker.PrecedenceGraph.Sorting
import InstallerLinker.Arrangement
import InstallerLinker.Proofs.Arrivals
import InstallerLinker.Proofs.Reach.Hops
import InstallerLinker.Proofs.Reach.Passes
import InstallerLinker.Proofs.Reach.Exactness
import InstallerLinker.Proofs.Reach.Recursion
import InstallerLinker.Proofs.Survey
import InstallerLinker.Proofs.Ownership
import InstallerLinker.Proofs.Link.Report
import InstallerLinker.Proofs.Link.ErrorFree
import InstallerLinker.Proofs.Link.Conflicts
import InstallerLinker.Proofs.PrecedenceGraph.Coherence
import InstallerLinker.Proofs.PrecedenceGraph.CycleSearch
import InstallerLinker.Proofs.PrecedenceGraph.Closure
import InstallerLinker.Proofs.PrecedenceGraph.History
import InstallerLinker.Proofs.PrecedenceGraph.Rotation
import InstallerLinker.Proofs.PrecedenceGraph.CycleReport
import InstallerLinker.Proofs.PrecedenceGraph.CycleLocation
import InstallerLinker.Proofs.PrecedenceGraph.Sorting
import InstallerLinker.Proofs.PrecedenceGraph.Order
import InstallerLinker.Proofs.PrecedenceGraph.LeastOrder
import InstallerLinker.Proofs.PrecedenceGraph.Determinacy
import InstallerLinker.Proofs.Reach.Renumbering
import InstallerLinker.Proofs.Link.Selection
import InstallerLinker.Proofs.Link.Pruning
import InstallerLinker.Proofs.Link.Relocation
import InstallerLinker.Proofs.Link.Rearrangement
import InstallerLinker.Proofs.PrecedenceGraph.Consequences
import InstallerLinker.Proofs.Arrangement
import InstallerLinker.Proofs.Link.References
import InstallerLinker.Proofs.PrecedenceGraph.Comparison
import InstallerLinker.Proofs.Searches
import InstallerLinker.Proofs.PrecedenceGraph.Provenance
import InstallerLinker.Proofs.Reach.Dependence
import InstallerLinker.Proofs.Reach.Media
import InstallerLinker.Proofs.Growth
import InstallerLinker.Proofs.Link.Extension
import InstallerLinker.Proofs.Link.Tolerance
import InstallerLinker.Proofs.PrecedenceGraph.Saturation
import InstallerLinker.Proofs.Arrangement.Outcome
import InstallerLinker.Proofs.Link.ConflictGroups
import InstallerLinker.Proofs.Link.Starts
import InstallerLinker.Proofs.Excerpts
import InstallerLinker.Proofs.Names
import InstallerLinker.Proofs.Link.Exemptions
import InstallerLinker.Proofs.Reach.Bounds
import InstallerLinker.Proofs.Link.Handles
import InstallerLinker.Proofs.PrecedenceGraph.CycleOrigins
import InstallerLinker.Proofs.PrecedenceGraph.Counts
import InstallerLinker.Proofs.Reach.Iterations
import InstallerLinker.Proofs.Reach.Cursors
