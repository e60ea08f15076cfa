import HolSearch.Search.State

/-!
# Running a strategy

A strategy is run on a goal under each assignment by which its pattern matches the goal.  Its
instructions are executed in turn, each with the theorems derived by those before it, until one of
them derives a theorem that proves the goal.  If an instruction fails or no instruction is left, the
choices made before are revised: other derived theorems for a `prove`, other matches for a
`proveLocal`.

Subgoals and other strategies are handed to a `Prover`, so that a run itself recurses only over the
instructions.
-/

namespace HolSearch

/-- What a run asks for: a search for a goal, and the run of a strategy on a goal. -/
structure Prover where
  prove : Conjecture → ProofM Stop Theorem
  apply : Strategy → Conjecture → ProofM Stop Theorem

namespace Run

open ProofM

variable (prover : Prover) (goal : Conjecture)

/-- The goal's instance of a sequent, under the premises of the goal in addition to its own. -/
def conjecture (s : Schema) (assigned : MetaSubst) : ProofM Stop Conjecture := do
  attempt .schematic (s.instantiate (← workspace).kernel assigned goal.premises)

def term (t : MetaTerm) (assigned : MetaSubst) : ProofM Stop HolTerm := do
  attempt .schematic (t.instantiate (← workspace).kernel assigned)

def var (v : MetaVar) (assigned : MetaSubst) : ProofM Stop HolVar := do
  attempt .schematic (v.instantiate (← workspace).kernel assigned)

def type (ty : MetaType) (assigned : MetaSubst) : ProofM Stop HolType := do
  attempt .schematic (ty.instantiate (← workspace).kernel assigned)

/-- Apply a rule. -/
def infer (i : Inference) : ProofM Stop Theorem := do
  record (.inference i)
  attempt .kernel ((← workspace).kernel.infer i)

/-- Prove an operand from the derived theorems or by a search. -/
def operand (s : Schema) (assigned : MetaSubst) : ProofM Stop Theorem := do
  let conj ← conjecture goal s assigned
  match ← firstInstance? conj (← derived) with
  | some thm => return thm
  | none => prover.prove conj

/-- End the run with the theorem if it proves the goal, and go on with it otherwise. -/
def offer (thm : Theorem) (next : ProofM Stop Theorem) : ProofM Stop Theorem := do
  match ← instance? thm goal with
  | some inst => return inst
  | none => withDerived thm next

/-- Execute the instructions of the strategy `name`, where `i` have been executed before. -/
def step (name : Name) : (i : Nat) → List (Instruction Mark) → MetaSubst → ProofM Stop Theorem
  | _, [], _ => throw .failed
  | i, instruction :: rest, assigned => do
      record (.executing name i instruction)
      match instruction with
      | .prove s =>
          let conj ← conjecture goal s assigned
          let known ← instances conj (← derived)
          orElse
            (firstOf (fun thm => offer goal thm (step name (i + 1) rest assigned)) known)
            fun _ => do offer goal (← prover.prove conj) (step name (i + 1) rest assigned)
      | .proveLocal s =>
          let known := (← derived) ++ (← workspace).theorems
          firstOf
            (fun thm =>
              firstChoice (step name (i + 1) rest) (s.matchings thm.sequent assigned true false))
            known
      | .proveBy other s =>
          let conj ← conjecture goal s assigned
          let strategy ← attempt .workspace ((← workspace).strategyNamed other)
          offer goal (← prover.apply strategy conj) (step name (i + 1) rest assigned)
      | .refl t =>
          let t ← term t assigned
          offer goal (← infer (.reflexivity t)) (step name (i + 1) rest assigned)
      | .cong fg xy =>
          let fg ← operand prover goal fg assigned
          let xy ← operand prover goal xy assigned
          offer goal (← infer (.congruence fg xy)) (step name (i + 1) rest assigned)
      | .abs v pq =>
          let v ← var v assigned
          let pq ← operand prover goal pq assigned
          offer goal (← infer (.abstraction v pq)) (step name (i + 1) rest assigned)
      | .typeAbs ty pq =>
          let ty ← type ty assigned
          let pq ← operand prover goal pq assigned
          offer goal (← infer (.typeAbstraction ty pq)) (step name (i + 1) rest assigned)
      | .beta v body =>
          let v ← var v assigned
          let body ← term body assigned
          offer goal (← infer (.betaReduction v body)) (step name (i + 1) rest assigned)
      | .assume p =>
          let p ← term p assigned
          offer goal (← infer (.assume p)) (step name (i + 1) rest assigned)
      | .eqMp major minor =>
          let major ← operand prover goal major assigned
          let minor ← operand prover goal minor assigned
          offer goal (← infer (.modusPonens major minor)) (step name (i + 1) rest assigned)
      | .antisym left right =>
          let left ← operand prover goal left assigned
          let right ← operand prover goal right assigned
          offer goal (← infer (.antisymmetry left right)) (step name (i + 1) rest assigned)

/-- Run a strategy on the goal. -/
def strategy (s : Strategy) : ProofM Stop Theorem := do
  record (.applying s.name goal)
  let thm ← firstChoice
    (fun assigned => withoutDerived (step prover goal s.name 0 s.instructions assigned))
    (s.pattern.matchings goal Subst.empty true false)
  record (.proved s.name thm)
  return thm

end Run

end HolSearch
