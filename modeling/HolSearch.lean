import HolSearch.CommandLine.Options
import HolSearch.CommandLine.Replay
import HolSearch.Data.Choices
import HolSearch.Data.Distinct
import HolSearch.Data.Stack
import HolSearch.Data.Table
import HolSearch.Journal
import HolSearch.Kernel.Basic
import HolSearch.Kernel.Declarations
import HolSearch.Kernel.Error
import HolSearch.Kernel.Instance
import HolSearch.Kernel.Rules
import HolSearch.Kernel.Theorem
import HolSearch.Main
import HolSearch.Matching.Permutation
import HolSearch.Matching.Premises
import HolSearch.Matching.Term
import HolSearch.Proofs.Data.Basic
import HolSearch.Proofs.Kernel.Declarations
import HolSearch.Proofs.Kernel.Derivation
import HolSearch.Proofs.Kernel.EmptyTypes
import HolSearch.Proofs.Kernel.Instance
import HolSearch.Proofs.Kernel.Rules
import HolSearch.Proofs.Kernel.Run
import HolSearch.Proofs.Kernel.Typing
import HolSearch.Proofs.Kernel.WellFormed
import HolSearch.Proofs.Matching.Enumeration
import HolSearch.Proofs.Matching.MostGeneral
import HolSearch.Proofs.Matching.Permutation
import HolSearch.Proofs.Matching.Sequent
import HolSearch.Proofs.Matching.Term
import HolSearch.Proofs.Matching.Ty
import HolSearch.Proofs.Search.Soundness
import HolSearch.Proofs.Search.State
import HolSearch.Proofs.Semantics.Consistency
import HolSearch.Proofs.Semantics.Extension
import HolSearch.Proofs.Semantics.Interpretation
import HolSearch.Proofs.Semantics.Model
import HolSearch.Proofs.Semantics.Runs
import HolSearch.Proofs.Semantics.Sets
import HolSearch.Proofs.Semantics.Soundness
import HolSearch.Proofs.Semantics.TypeDefinition
import HolSearch.Proofs.Syntax.Term
import HolSearch.Proofs.Syntax.Ty
import HolSearch.Schematic.Basic
import HolSearch.Schematic.Instantiate
import HolSearch.Search.Commands
import HolSearch.Search.Prover
import HolSearch.Search.Run
import HolSearch.Search.State
import HolSearch.Session.Basic
import HolSearch.Session.Equality
import HolSearch.Strategy.Basic
import HolSearch.Strategy.Script
import HolSearch.Syntax.Mark
import HolSearch.Syntax.Name
import HolSearch.Syntax.Sequent
import HolSearch.Syntax.Subst
import HolSearch.Syntax.Term
import HolSearch.Syntax.Ty
import HolSearch.Text.Display
import HolSearch.Text.Dump
import HolSearch.Text.Quoted
import HolSearch.Text.Visible
import HolSearch.Workspace.Basic
import HolSearch.Proofs.Search.Comparison
import HolSearch.Proofs.Search.Tracking
import HolSearch.Proofs.Search.Neutrality
import HolSearch.Proofs.Search.Termination
import HolSearch.Proofs.Schematic.Instantiate
import HolSearch.Proofs.Search.Reposing
import HolSearch.Proofs.Workspace.Atomicity
import HolSearch.Proofs.Workspace.Scopes
import HolSearch.Proofs.Search.Explicit
import HolSearch.Proofs.Schematic.CaptureFree
import HolSearch.Proofs.Schematic.Agreement
import HolSearch.Proofs.Schematic.RoundTrip
import HolSearch.Proofs.Kernel.Coherence
import HolSearch.Proofs.Schematic.WellTyped
import HolSearch.Proofs.Schematic.OwnPattern
import HolSearch.Proofs.Search.Block
import HolSearch.Proofs.Syntax.Sequent
import HolSearch.Proofs.Kernel.PremiseOrder
import HolSearch.Proofs.Kernel.Factories
import HolSearch.Proofs.Kernel.Unfolding
import HolSearch.Proofs.Syntax.Binding
import HolSearch.Proofs.Strategy.Scoping
