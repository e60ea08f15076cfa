import HolSearch.Search.Prover

/-!
# Working in a workspace

The operations of a proof session.  They change the workspace or prove goals in it, and report in
the workspace's own terms why they could not.

A proof block proves a goal by steps: each proved step is at hand for those that follow, and the
scope that holds them ends with the block, whatever its outcome.
-/

namespace HolSearch

open ProofM

namespace ProofM

/-! ## Theorems, strategies and definitions -/

/-- Make a theorem available. -/
def addTheorem {ε : Type} (name : Name) (thm : Theorem) (vis : Visibility) : ProofM ε Unit := do
  record (.theoremAdded name thm)
  setWorkspace ((← workspace).addTheorem name thm vis)

/-- Make a strategy available. -/
def addStrategy {ε : Type} (strategy : Strategy) (vis : Visibility) : ProofM ε Unit := do
  record (.strategyAdded strategy)
  setWorkspace ((← workspace).addStrategy strategy vis)

/-- Define a constant and make its definition available. -/
def define (name : Name) (term : HolTerm) : ProofM WorkspaceError Theorem := do
  let thm ← (onKernel (Kernel.defineConst name term)).adapt .kernel
  addTheorem name thm .global
  return thm

/-- Define a type by a predicate.  The theorems about its constructor and destructor are made
available under their names. -/
def defineType (name ctor dtor : Name) (pred : HolTerm) :
    ProofM WorkspaceError (Theorem × Theorem) := do
  let (ctorThm, dtorThm) ← (onKernel (Kernel.defineSubtype name ctor dtor pred)).adapt .kernel
  addTheorem ctor ctorThm .global
  addTheorem dtor dtorThm .global
  return (ctorThm, dtorThm)

end ProofM

/-! ## Proofs -/

/-- What it means for a goal that the search for it stopped. -/
def Stop.toError (goal : Conjecture) : Stop → WorkspaceError
  | .failed => .unproved goal
  | .exhausted => .exhausted

namespace Prover

/-- Prove a goal. -/
def tryProve (prover : Prover) (goal : Conjecture) : ProofM WorkspaceError Theorem := do
  if (← workspace).inProgress goal then
    throw (.cycle goal)
  else
    (prover.prove goal).adapt (Stop.toError goal)

/-- Prove a goal by the strategy of the given name. -/
def proveBy (prover : Prover) (name : Name) (goal : Conjecture) :
    ProofM WorkspaceError Theorem := do
  let strategy ← (← workspace).strategyNamed name
  (prover.apply strategy goal).adapt (Stop.toError goal)

def proveStep (prover : Prover) : Step → ProofM WorkspaceError Theorem
  | .prove conj => prover.tryProve conj
  | .proveBy name conj => prover.proveBy name conj

/-- Prove steps one after the other, where `last` is the theorem of the step before.  The theorem of
the last step is the result if it is the goal; otherwise the goal is proved after all steps. -/
def proveSteps (prover : Prover) (goal : Conjecture) :
    (last : Option Theorem) → List Step → ProofM WorkspaceError Theorem
  | last, [] =>
      match last.filter fun thm => decide (thm.sequent ≈ goal) with
      | some thm => return thm
      | none => prover.tryProve goal
  | _, step :: rest => do
      let thm ← prover.proveStep step
      setWorkspace ((← workspace).keepTheorem thm)
      prover.proveSteps goal (some thm) rest

/-- Prove a goal by steps in a scope of their own. -/
def proveBlock (prover : Prover) (goal : Conjecture) (steps : List Step) :
    ProofM WorkspaceError Theorem := do
  record (.blockStarted goal)
  withScope (prover.proveSteps goal none steps)

end Prover

end HolSearch
