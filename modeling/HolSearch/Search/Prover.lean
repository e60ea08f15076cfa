import HolSearch.Search.Run

/-!
# Searching a proof

A goal is proved by the first visible theorem of which it is an instance, or else by the first
visible strategy that succeeds on it.  A goal that is already in progress is not tried again, which
keeps strategies from posing the same goal forever, and a bound on the number of goals in progress
limits how deep the search goes.

Neither makes every search end: a strategy may name itself in a `proveBy`.  `Prover.ofFuel` lets
searches and runs be nested only as deep as its argument says, and the search stops as `exhausted`
where that does not suffice.
-/

namespace HolSearch

open ProofM

namespace Prover

/-- Try the visible theorems, then the visible strategies. -/
def search (prover : Prover) (goal : Conjecture) : ProofM Stop Theorem := do
  let ws ← workspace
  match ← firstInstance? goal ws.theorems with
  | some thm => return thm
  | none => firstOf (fun strategy => prover.apply strategy goal) ws.strategies

/-- Search for a proof of the goal unless it is in progress or the search is too deep already. -/
def pose (prover : Prover) (goal : Conjecture) : ProofM Stop Theorem := do
  let ws ← workspace
  if ws.inProgress goal then
    record (.cycle goal)
    throw .failed
  else if ws.isAtDepthLimit then
    record (.depthReached goal)
    throw .failed
  else
    record (.proving goal)
    withGoal goal (prover.search goal)

/-- The prover that nests searches and runs at most `fuel` deep. -/
def ofFuel : (fuel : Nat) → Prover
  | 0 =>
    { prove := fun _ => throw .exhausted
      apply := fun _ _ => throw .exhausted }
  | fuel + 1 =>
    { prove := fun goal => (ofFuel fuel).pose goal
      apply := fun strategy goal => Run.strategy (ofFuel fuel) goal strategy }

/-- Nests searches and runs deeper than the memory of a machine lets them go. -/
def unbounded : Prover := ofFuel 1000000000

end Prover

end HolSearch
