import HolSearch.Schematic.Basic
import HolSearch.Text.Display

/-!
# Strategies

A strategy is a reusable proof pattern: a schema for the goals that it can close, and instructions
that are executed one after the other.  Each instruction derives a theorem by a rule of the kernel
or by proving a subgoal, and the theorems derived so far are at the disposal of the instructions
that follow.

Operands of instructions are types, variables, terms and sequents of one level `μ`: the object level
in a script as its author writes it, the schematic level in a strategy.
-/

namespace HolSearch

/-- One instruction of a strategy.  Operands that are sequents are proved under the premises of the
goal in addition to their own. -/
inductive Instruction (μ : Type) where
  /-- prove the sequent from the theorems derived so far, or by a search of its own -/
  | prove (s : Sequent (Term μ))
  /-- match the sequent with the theorems derived so far and those in scope -/
  | proveLocal (s : Sequent (Term μ))
  /-- prove the sequent by the strategy of the given name -/
  | proveBy (name : Name) (s : Sequent (Term μ))
  | refl (t : Term μ)
  | cong (fg xy : Sequent (Term μ))
  | abs (v : Var μ) (pq : Sequent (Term μ))
  | typeAbs (ty : Ty μ) (pq : Sequent (Term μ))
  | beta (v : Var μ) (body : Term μ)
  | assume (p : Term μ)
  | eqMp (major minor : Sequent (Term μ))
  | antisym (left right : Sequent (Term μ))
deriving DecidableEq

/-- A named pattern of proof. -/
structure Strategy where
  name : Name
  pattern : Schema
  instructions : List (Instruction Mark)
deriving DecidableEq

/-- An operand in brackets. -/
def bracketed {α : Type} [Display α] (a : α) : String := "[" ++ display a ++ "]"

instance {μ : Type} [Display μ] : Display (Instruction μ) where
  display
    | .prove s => "prove " ++ display s
    | .proveLocal s => "prove_local " ++ display s
    | .proveBy name s => "prove_by " ++ name ++ " " ++ display s
    | .refl t => "refl " ++ display t
    | .cong fg xy => "cong " ++ bracketed fg ++ " " ++ bracketed xy
    | .abs v pq => "abs " ++ display v ++ " " ++ bracketed pq
    | .typeAbs ty pq => "type_abs " ++ display ty ++ " " ++ bracketed pq
    | .beta v body => "beta " ++ display v ++ " " ++ display body
    | .assume p => "assume " ++ display p
    | .eqMp major minor => "eq_mp " ++ bracketed major ++ " " ++ bracketed minor
    | .antisym left right => "antisym " ++ bracketed left ++ " " ++ bracketed right

instance : Display Strategy where
  display s :=
    "; ".intercalate ((s.name ++ " " ++ bracketed s.pattern) :: s.instructions.map display)

end HolSearch
