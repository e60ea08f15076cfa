import HolSearch.Strategy.Basic

/-!
# From scripts to strategies

A script is a list of instructions whose operands are ordinary types, variables, terms and sequents.
`Strategy.ofScript` turns it into a strategy by reading it from left to right: a variable whose name
occurs in the pattern or in an operand before stands for the value that it had there and becomes
fixed, and any other variable becomes unfixed.  Of two operands of one instruction the first is read
before the second.
-/

namespace HolSearch

/-- A reading step, which knows the names seen so far. -/
abbrev Reading := StateM Names

namespace Reading

/-- Read a sequent. -/
def sequent (conj : Conjecture) : Reading Schema :=
  modifyGet fun seen =>
    let schema := Schema.withFixed seen conj
    (schema, schema.seenNames seen)

/-- Read a term. -/
def term (tm : HolTerm) : Reading MetaTerm :=
  modifyGet fun seen =>
    let schematic := HolTerm.toMeta seen tm
    (schematic, seen.addAll (MetaTerm.metaNames schematic))

/-- Read a type. -/
def type (ty : HolType) : Reading MetaType :=
  modifyGet fun seen =>
    (HolType.toMeta seen.types ty, seen.addAll { types := (Ty.vars ty).map TyVar.name })

/-- Read a variable. -/
def var (v : HolVar) : Reading MetaVar :=
  modifyGet fun seen =>
    (HolVar.toMeta seen v,
      seen.addAll { terms := [v.name], types := (Ty.vars v.ty).map TyVar.name })

/-- Read an instruction, operand by operand. -/
def instruction : Instruction Unit → Reading (Instruction Mark)
  | .prove s => do return .prove (← sequent s)
  | .proveLocal s => do return .proveLocal (← sequent s)
  | .proveBy name s => do return .proveBy name (← sequent s)
  | .refl t => do return .refl (← term t)
  | .cong fg xy => do return .cong (← sequent fg) (← sequent xy)
  | .abs v pq => do return .abs (← var v) (← sequent pq)
  | .typeAbs ty pq => do return .typeAbs (← type ty) (← sequent pq)
  | .beta v body => do return .beta (← var v) (← term body)
  | .assume p => do return .assume (← term p)
  | .eqMp major minor => do return .eqMp (← sequent major) (← sequent minor)
  | .antisym left right => do return .antisym (← sequent left) (← sequent right)

/-- Read instructions one after the other. -/
def instructions : List (Instruction Unit) → Reading (List (Instruction Mark))
  | [] => return []
  | i :: rest => do
      let i' ← instruction i
      let rest' ← instructions rest
      return i' :: rest'

end Reading

/-- The strategy for goals of the shape of `pattern` that executes the script. -/
def Strategy.ofScript (name : Name) (pattern : Conjecture) (script : List (Instruction Unit)) :
    Strategy :=
  let schema := Schema.ofConjecture pattern
  { name := name
    pattern := schema
    instructions := ((Reading.instructions script).run (schema.seenNames {})).1 }

end HolSearch
