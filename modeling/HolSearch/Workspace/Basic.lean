import HolSearch.Kernel.Declarations
import HolSearch.Strategy.Script

/-!
# Workspaces

A workspace holds a kernel and what is at hand to prove goals: theorems and strategies, arranged in
nested scopes.  A theorem or strategy can be added globally, to the current scope until it ends, or
only under its name, so that it is never tried unasked.

Strategies are found by name in one index.  A local strategy replaces what its name referred to
before, and the scope remembers what that was, so that ending the scope can put it back.
-/

namespace HolSearch

/-- Where a theorem or strategy is made available. -/
inductive Visibility where
  /-- in the outermost scope and by name -/
  | global
  /-- in the current scope until it ends -/
  | local
  /-- by name only, never tried unasked -/
  | explicit
deriving DecidableEq

/-- Theorems and strategies that are tried unasked, in the order in which they were added. -/
structure Scope where
  theorems : List Theorem := []
  strategies : List Strategy := []
  /-- what the names of local strategies referred to before, oldest first -/
  replaced : List (Name × Option Strategy) := []
deriving DecidableEq

/-- The state of a proof session. -/
structure Workspace where
  kernel : Kernel := .initial
  /-- the outermost scope, which cannot be ended -/
  base : Scope := {}
  /-- the scopes inside of it -/
  scopes : Stack Scope := {}
  theoremIndex : Table Name Theorem := {}
  strategyIndex : Table Name Strategy := {}
  /-- the goals being proved -/
  goals : Stack Conjecture := {}
  /-- how many goals may be in progress at once -/
  maxDepth : Option Nat := none
deriving DecidableEq

/-- Why a workspace could not do what was asked. -/
inductive WorkspaceError where
  /-- no theorem or strategy proves the goal -/
  | unproved (goal : Conjecture)
  /-- the goal is already being proved -/
  | cycle (goal : Conjecture)
  | noStrategy (name : Name)
  | noTheorem (name : Name)
  /-- the outermost scope cannot be ended -/
  | baseScope
  | kernel (e : KernelError)
  /-- the search was cut off before it came to an end -/
  | exhausted
deriving DecidableEq

namespace WorkspaceError

/-- What the error is about. -/
def subject : WorkspaceError → String
  | unproved goal => display goal
  | cycle goal => display goal
  | noStrategy name => name
  | noTheorem name => name
  | baseScope => ""
  | kernel e => e.subject
  | exhausted => ""

instance : Dump WorkspaceError where
  dump
    | unproved goal => dumpCall "Unproved" [dump goal]
    | cycle goal => dumpCall "Cycle" [dump goal]
    | noStrategy name => dumpCall "NoStrategy" [dump name]
    | noTheorem name => dumpCall "NoTheorem" [dump name]
    | baseScope => "BaseScope"
    | kernel e => dumpCall "Kernel" [dump e]
    | exhausted => "Exhausted"

end WorkspaceError

namespace Workspace

/-! ## Scopes -/

/-- How many scopes are open inside of the outermost one. -/
def depth (ws : Workspace) : Nat := ws.scopes.size

/-- Open a scope. -/
def newScope (ws : Workspace) : Workspace := { ws with scopes := ws.scopes.push {} }

/-- Let the names of local strategies refer to what they referred to before; the newest change is
undone first. -/
def restore (index : Table Name Strategy) (replaced : List (Name × Option Strategy)) :
    Table Name Strategy :=
  replaced.foldr (fun (name, old) index =>
    match old with
    | some strategy => index.insert name strategy
    | none => index.erase name) index

/-- End the current scope and forget what is local to it. -/
def endScope (ws : Workspace) : Except WorkspaceError Workspace :=
  match ws.scopes.pop with
  | (none, _) => .error .baseScope
  | (some scope, outer) =>
      .ok { ws with
        scopes := outer
        strategyIndex := restore ws.strategyIndex scope.replaced }

/-- Change the current scope, which is the outermost one if no other is open. -/
def modifyCurrent (ws : Workspace) (f : Scope → Scope) : Workspace :=
  if ws.scopes.isEmpty then { ws with base := f ws.base }
  else { ws with scopes := ws.scopes.modifyTop f }

/-- The scopes from the current one outward. -/
def visible (ws : Workspace) : List Scope := ws.scopes.items ++ [ws.base]

/-- The theorems that are tried unasked, in the order in which they are tried. -/
def theorems (ws : Workspace) : List Theorem := ws.visible.flatMap Scope.theorems

/-- The strategies that are tried unasked, in the order in which they are tried. -/
def strategies (ws : Workspace) : List Strategy := ws.visible.flatMap Scope.strategies

/-! ## Goals in progress -/

def inProgress (ws : Workspace) (goal : Conjecture) : Bool :=
  ws.goals.items.any fun g => decide (g ≈ goal)

/-- Whether there are as many goals in progress as there may be. -/
def isAtDepthLimit (ws : Workspace) : Bool :=
  match ws.maxDepth with
  | none => false
  | some max => max ≤ ws.goals.size

/-! ## Theorems and strategies -/

/-- Make a theorem of the current scope. -/
def keepTheorem (ws : Workspace) (thm : Theorem) : Workspace :=
  ws.modifyCurrent fun scope => { scope with theorems := scope.theorems ++ [thm] }

/-- Make a theorem available. -/
def addTheorem (ws : Workspace) (name : Name) (thm : Theorem) : Visibility → Workspace
  | .global =>
      { ws with
        base := { ws.base with theorems := ws.base.theorems ++ [thm] }
        theoremIndex := ws.theoremIndex.insert name thm }
  | .local => ws.keepTheorem thm
  | .explicit => { ws with theoremIndex := ws.theoremIndex.insert name thm }

/-- Make a strategy available. -/
def addStrategy (ws : Workspace) (strategy : Strategy) : Visibility → Workspace
  | .global =>
      { ws with
        base := { ws.base with strategies := ws.base.strategies ++ [strategy] }
        strategyIndex := ws.strategyIndex.insert strategy.name strategy }
  | .local =>
      let old := ws.strategyIndex.get? strategy.name
      let indexed :=
        { ws with strategyIndex := ws.strategyIndex.insert strategy.name strategy }
      indexed.modifyCurrent fun scope =>
        { scope with
          strategies := scope.strategies ++ [strategy]
          replaced := scope.replaced ++ [(strategy.name, old)] }
  | .explicit =>
      { ws with strategyIndex := ws.strategyIndex.insert strategy.name strategy }

/-- The theorem of the given name. -/
def theoremNamed (ws : Workspace) (name : Name) : Except WorkspaceError Theorem :=
  match ws.theoremIndex.get? name with
  | some thm => .ok thm
  | none => .error (.noTheorem name)

/-- The strategy of the given name. -/
def strategyNamed (ws : Workspace) (name : Name) : Except WorkspaceError Strategy :=
  match ws.strategyIndex.get? name with
  | some strategy => .ok strategy
  | none => .error (.noStrategy name)

end Workspace

end HolSearch
