import HolSearch.Schematic.Instantiate
import HolSearch.Workspace.Basic

/-!
# The journal

What happens in a proof session is recorded as a sequence of events.  Each event has a level, which
says how much a reader has to be interested in details to care, and a message.
-/

namespace HolSearch

/-- A step of a proof block. -/
inductive Step where
  /-- prove by searching theorems and strategies -/
  | prove (conj : Conjecture)
  /-- prove by the strategy of the given name -/
  | proveBy (name : Name) (conj : Conjecture)
deriving DecidableEq

/-- How detailed an event is. -/
inductive Level where
  | info
  | debug
  | trace
deriving DecidableEq

namespace Level

def name : Level → String
  | info => "info"
  | debug => "debug"
  | trace => "trace"

/-- How many levels are less detailed. -/
def rank : Level → Nat
  | info => 0
  | debug => 1
  | trace => 2

end Level

/-- Why an instruction failed. -/
inductive Fault where
  | kernel (e : KernelError)
  | schematic (e : SchematicError)
  | workspace (e : WorkspaceError)
deriving DecidableEq

instance : Dump Fault where
  dump
    | .kernel e => dump e
    | .schematic e => dump e
    | .workspace e => dump e

/-- Something that happened in a proof session. -/
inductive Event where
  | typeDeclared (name : Name) (arity : Nat)
  | constDeclared (name : Name) (ty : HolType)
  | postulated (thm : Theorem)
  /-- a rule is about to be applied -/
  | inference (i : Inference)
  | isInstance (goal : Conjecture) (thm : Theorem)
  | instantiationFailed (thm : Theorem) (e : KernelError)
  | theoremAdded (name : Name) (thm : Theorem)
  | strategyAdded (strategy : Strategy)
  /-- a search for the goal begins -/
  | proving (goal : Conjecture)
  /-- the goal is in progress already and is not tried again -/
  | cycle (goal : Conjecture)
  /-- too many goals are in progress for one more -/
  | depthReached (goal : Conjecture)
  /-- a strategy is about to be applied -/
  | applying (strategy : Name) (goal : Conjecture)
  /-- an instruction is about to be executed -/
  | executing (strategy : Name) (i : Nat) (instruction : Instruction Mark)
  | instructionFailed (fault : Fault)
  | proved (strategy : Name) (thm : Theorem)
  | blockStarted (goal : Conjecture)
  | sessionStarted (name : Name) (goal : Conjecture)
  | stepPlanned (step : Step)
deriving DecidableEq

namespace Event

def level : Event → Level
  | sessionStarted .. => .info
  | stepPlanned _ => .info
  | inference _ => .trace
  | isInstance .. => .trace
  | executing .. => .trace
  | instructionFailed _ => .trace
  | _ => .debug

def message : Event → String
  | typeDeclared name arity => "new type " ++ name ++ " of arity " ++ display arity
  | constDeclared name ty => "new constant " ++ name ++ " : " ++ display ty
  | postulated thm => "new axiom: " ++ display thm
  | inference i => display i
  | isInstance goal thm => display goal ++ " is an instance of " ++ display thm
  | instantiationFailed thm e => "instantiation of " ++ display thm ++ " failed: " ++ dump e
  | theoremAdded name thm => "add theorem " ++ name ++ ": " ++ display thm
  | strategyAdded strategy => "add strategy " ++ display strategy
  | proving goal => "prove " ++ display goal
  | cycle goal => "cycle: " ++ display goal
  | depthReached goal => "maximal depth reached: " ++ display goal
  | applying strategy goal => "apply " ++ strategy ++ " to " ++ display goal
  | executing strategy i instruction =>
      strategy ++ " #" ++ display i ++ ": " ++ display instruction
  | instructionFailed fault => "instruction failed: " ++ dump fault
  | proved strategy thm => strategy ++ " proved " ++ display thm
  | blockStarted goal => "proof block for " ++ display goal
  | sessionStarted name goal => "Session " ++ name ++ ": " ++ display goal
  | stepPlanned (.prove conj) => "Step " ++ display conj
  | stepPlanned (.proveBy name conj) => "Step " ++ display conj ++ " by " ++ name

/-- What a kernel knows beyond an earlier state of it. -/
def ofGrowth (before after : Kernel) : List Event :=
  (after.types.entries.drop before.types.entries.length).map (fun e => typeDeclared e.1 e.2) ++
  (after.consts.entries.drop before.consts.entries.length).map (fun e => constDeclared e.1 e.2) ++
  (after.axioms.drop before.axioms.length).map postulated

end Event

/-- The events of a proof session. -/
structure Journal where
  newestFirst : List Event := []
deriving DecidableEq

namespace Journal

def add (j : Journal) (e : Event) : Journal := ⟨e :: j.newestFirst⟩

def addAll (j : Journal) (es : List Event) : Journal := es.foldl add j

/-- The events in the order in which they happened. -/
def events (j : Journal) : List Event := j.newestFirst.reverse

/-- The messages of the events that are no more detailed than `level`, each after its level. -/
def messages (j : Journal) (level : Level) : List String :=
  (j.events.filter fun e => e.level.rank ≤ level.rank).map fun e =>
    e.level.name ++ " " ++ e.message

end Journal

end HolSearch
