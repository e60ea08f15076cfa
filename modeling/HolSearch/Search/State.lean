import HolSearch.Journal
import HolSearch.Kernel.Instance

/-!
# The state of a search

A search runs in a workspace, keeps the theorems that the running strategy has derived so far, and
records what happens in a journal.  An error or a failure keeps the state that it leaves behind.

Whatever a search adds for the time of one attempt it takes away again: a goal in progress, a
derived theorem, a scope.  `ProofM.between` is the one way in which this is done, so that every
alternative is tried in the state in which the first one was.
-/

namespace HolSearch

/-- A workspace at work. -/
structure ProofState where
  workspace : Workspace := {}
  /-- the theorems that the running strategy has derived -/
  derived : Stack Theorem := {}
  journal : Journal := {}
deriving DecidableEq

/-- Operations on a workspace at work that may stop with an `ε`. -/
abbrev ProofM (ε : Type) := ExceptT ε (StateM ProofState)

/-- Why a search stops without a theorem. -/
inductive Stop where
  /-- there is nothing left to try -/
  | failed
  /-- the search was cut off -/
  | exhausted
deriving DecidableEq

namespace ProofM

variable {ε α β : Type}

/-- The current workspace. -/
def workspace : ProofM ε Workspace := do return (← get).workspace

def setWorkspace (ws : Workspace) : ProofM ε Unit := modify fun s => { s with workspace := ws }

/-- The derived theorems, the newest first. -/
def derived : ProofM ε (List Theorem) := do return (← get).derived.items

/-- Add an event to the journal. -/
def record (e : Event) : ProofM ε Unit := modify fun s => { s with journal := s.journal.add e }

/-- Run `m` between two changes of the state, of which the second is made whatever `m` ends in. -/
def between (enter leave : ProofState → ProofState) (m : ProofM ε α) : ProofM ε α :=
  ExceptT.mk fun s =>
    let (result, s') := m.run (enter s)
    (result, leave s')

/-- Run `m` with a goal in progress. -/
def withGoal (goal : Conjecture) (m : ProofM ε α) : ProofM ε α :=
  between
    (fun s => { s with workspace.goals := s.workspace.goals.push goal })
    (fun s => { s with workspace.goals := s.workspace.goals.drop }) m

/-- Run `m` with one more derived theorem. -/
def withDerived (thm : Theorem) (m : ProofM ε α) : ProofM ε α :=
  between
    (fun s => { s with derived := s.derived.push thm })
    (fun s => { s with derived := s.derived.drop }) m

/-- Run `m`, which sees none of the theorems derived so far. -/
def withoutDerived (m : ProofM ε α) : ProofM ε α :=
  ExceptT.mk fun s =>
    let (result, s') := m.run { s with derived := {} }
    (result, { s' with derived := s.derived })

/-- Run `m` in a scope of its own. -/
def withScope (m : ProofM ε α) : ProofM ε α :=
  between
    (fun s => { s with workspace := s.workspace.newScope })
    (fun s =>
      match s.workspace.endScope with
      | .ok ws => { s with workspace := ws }
      | .error _ => s) m

/-! ## Alternatives -/

/-- Run `n` in the state that `m` leaves, if `m` has failed. -/
def orElse (m : ProofM Stop α) (n : Unit → ProofM Stop α) : ProofM Stop α :=
  ExceptT.mk fun s =>
    match m.run s with
    | (.error .failed, s') => (n ()).run s'
    | done => done

/-- The first success of `f` on the members of a list. -/
def firstOf (f : α → ProofM Stop β) : List α → ProofM Stop β
  | [] => throw .failed
  | a :: rest => orElse (f a) fun _ => firstOf f rest

/-- The first success of `f` on choices, which are made only as far as they are tried. -/
def firstChoice (f : α → ProofM Stop β) : Choices α → ProofM Stop β
  | .nil => throw .failed
  | .cons a rest => orElse (f a) fun _ => firstChoice f (rest ())

/-- The value of a step of an instruction.  Why the step failed is recorded. -/
def attempt (fault : ε → Fault) : Except ε α → ProofM Stop α
  | .ok a => return a
  | .error e => do
      record (.instructionFailed (fault e))
      throw .failed

/-! ## The kernel at work -/

/-- Apply a rule. -/
def infer (i : Inference) : ProofM KernelError Theorem := do
  record (.inference i)
  (← workspace).kernel.infer i

/-- Change the kernel.  What it has learned is recorded. -/
def onKernel (m : KernelM α) : ProofM KernelError α :=
  ExceptT.mk fun s =>
    let before := s.workspace.kernel
    let (result, after) := m.run before
    (result,
      { s with
        workspace.kernel := after
        journal := s.journal.addAll (Event.ofGrowth before after) })

/-- The instance of the theorem that proves the goal.  Success and refusal by the kernel are
recorded. -/
def instance? (thm : Theorem) (goal : Conjecture) : ProofM ε (Option Theorem) := do
  match (← workspace).kernel.matchGoal? thm goal with
  | none => return none
  | some (.ok inst) =>
      record (.isInstance goal thm)
      return some inst
  | some (.error e) =>
      record (.instantiationFailed thm e)
      return none

/-- The instance of the first theorem that proves the goal. -/
def firstInstance? (goal : Conjecture) : List Theorem → ProofM ε (Option Theorem)
  | [] => return none
  | thm :: rest => do
      match ← instance? thm goal with
      | some inst => return some inst
      | none => firstInstance? goal rest

/-- The instances of all theorems that prove the goal. -/
def instances (goal : Conjecture) : List Theorem → ProofM ε (List Theorem)
  | [] => return []
  | thm :: rest => do
      let inst ← instance? thm goal
      let insts ← instances goal rest
      return inst.toList ++ insts

end ProofM

end HolSearch
