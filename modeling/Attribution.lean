import Attribution.Tree.Node
import Attribution.Fault
import Attribution.Tree.Basic
import Attribution.Tree.Draft
import Attribution.Ty.Basic
import Attribution.Ty.Relation
import Attribution.Ty.Substitution
import Attribution.Scope.Builtin
import Attribution.Scope.Basic
import Attribution.Finding
import Attribution.Cell
import Attribution.Engine.Basic
import Attribution.Engine.Cycle
import Attribution.Engine.Recipe
import Attribution.Dependence
import Attribution.Rule.Basic
import Attribution.Rule.Effect
import Attribution.Rule.Spawn
import Attribution.Traversal
import Attribution.Binding
import Attribution.Analysis
import Attribution.Inspection
import Attribution.Report.Source
import Attribution.Report.Layout
import Attribution.Proofs.Engine.Bookkeeping
import Attribution.Proofs.Engine.History
import Attribution.Proofs.Analysis.Cells
import Attribution.Proofs.Analysis.Names
import Attribution.Proofs.Engine.Schedule
import Attribution.Proofs.Analysis.Completeness
import Attribution.Proofs.Analysis.Producers
import Attribution.Proofs.Analysis.Resolution
import Attribution.Proofs.Analysis.Calls
import Attribution.Proofs.Analysis.Instances
import Attribution.Proofs.Analysis.Bypass
import Attribution.Proofs.Analysis.Escape
import Attribution.Proofs.Binding.Lexical
import Attribution.Proofs.Binding.Added
import Attribution.Proofs.Engine.Acyclic
import Attribution.Proofs.Analysis.Deadlock
import Attribution.Proofs.Analysis.Predicates
import Attribution.Proofs.Analysis.Misfits
import Attribution.Proofs.Strict.Pass
import Attribution.Proofs.Analysis.Policies
import Attribution.Proofs.Report.Heading
import Attribution.Proofs.Renaming.Analysis
import Attribution.Proofs.Appending.Analysis
import Attribution.Proofs.Analysis.Returns
import Attribution.Proofs.Engine.Search
import Attribution.Proofs.Ty.Stability
import Attribution.Proofs.Analysis.Literals
import Attribution.Proofs.Tree.Worklist
import Attribution.Proofs.Binding.Declarations
import Attribution.Proofs.Analysis.Redeclarations
import Attribution.Proofs.Ty.Placeholders
import Attribution.Proofs.Analysis.BodyShape
import Attribution.Proofs.Scope.Updates
import Attribution.Proofs.Ty.Replacement
import Attribution.Proofs.Ty.Display
import Attribution.Proofs.Analysis.EmptyArrays
import Attribution.Proofs.Engine.WriteOnce
import Attribution.Proofs.Engine.Books
import Attribution.Proofs.Engine.Turns
import Attribution.Proofs.Report.Labels
import Attribution.Proofs.Ty.Congruence
import Attribution.Proofs.Tree.Drafts
import Attribution.Proofs.Analysis.Lookups
import Attribution.Proofs.Analysis.Sorts
