import HolSearch.Kernel.Rules
import HolSearch.Matching.Premises

/-!
# Instances of theorems

A theorem proves a goal if some instance of it has the conclusion of the goal and no premises
beyond those of the goal.  Such an instance is found by matching the theorem against the goal, and
made by the kernel: the first match decides.
-/

namespace HolSearch

namespace Kernel

/-- The instance of the theorem by the first match with the goal, or why the kernel refuses it;
`none` if there is no match. -/
def matchGoal? (k : Kernel) (thm : Theorem) (goal : Conjecture) :
    Option (Except KernelError Theorem) :=
  (thm.sequent.matchings goal Subst.empty true false).head?.map (k.instantiate thm)

/-- The instance of the theorem that proves the goal. -/
def instance? (k : Kernel) (thm : Theorem) (goal : Conjecture) : Option Theorem :=
  match k.matchGoal? thm goal with
  | some (.ok inst) => some inst
  | _ => none

end Kernel

end HolSearch
