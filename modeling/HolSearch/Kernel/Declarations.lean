import HolSearch.Kernel.Rules

/-!
# Declarations and definitions

These operations change the kernel: they declare type constructors and constants, accept axioms,
and define constants and types.  A name can be introduced only once.

A definition first declares what it defines and then builds the theorem about it, so it could fail
after it has changed the state.  `KernelM` keeps the state that an error leaves behind.
-/

namespace HolSearch

/-- Operations that change the kernel and may be refused. -/
abbrev KernelM := ExceptT KernelError (StateM Kernel)

namespace Kernel

/-- Introduce a type constructor with the given number of arguments. -/
def declareType (name : Name) (arity : Nat) : KernelM Unit := do
  let k ← get
  if k.types.contains name then
    throw (.reintroduction name)
  else
    set { k with types := k.types.insert name arity }

/-- Introduce a constant of the given type. -/
def declareConst (name : Name) (ty : HolType) : KernelM Unit := do
  let k ← get
  if k.consts.contains name then
    throw (.reintroduction name)
  else
    set { k with consts := k.consts.insert name ty }

/-- Accept a sequent of propositions as a theorem without proof. -/
def postulate (conj : Conjecture) : KernelM Theorem := do
  let k ← get
  k.checkProps conj.members
  let thm : Theorem := ⟨conj⟩
  set { k with axioms := k.axioms ++ [thm] }
  return thm

/-- Define a new constant as a closed term, yielding `⊢ name = term`.  Every type variable of the
term has to occur in its type: otherwise one instance of the constant would have several values. -/
def defineConst (name : Name) (term : HolTerm) : KernelM Theorem := do
  if term.hasVars then
    throw .freeVariables
  let ty ← (← get).checkTerm term
  if term.typeVars.any fun v => !ty.contains v then
    throw .hiddenTypeVariables
  declareConst name ty
  let thm := Theorem.ofList [] (← (Term.const name ty).mkEq term)
  modify fun k => { k with definitions := k.definitions.insert name thm }
  return thm

/-- The theorem `⊢ ctor (dtor a) = a` about the constructor and destructor of a type. -/
def constructorTheorem (ctor dtor : HolTerm) (ty : HolType) : Except KernelError Theorem := do
  let a := freeVar "a" ty
  return .ofList [] (← (← ctor.mkApp (← dtor.mkApp a)).mkEq a)

/-- The theorem `⊢ P r = (dtor (ctor r) = r)` about the constructor and destructor of the type of
those `r` that satisfy `P`. -/
def destructorTheorem (pred ctor dtor : HolTerm) (ty : HolType) : Except KernelError Theorem := do
  let r := freeVar "r" ty
  let there ← dtor.mkApp (← ctor.mkApp r)
  return .ofList [] (← (← pred.mkApp r).mkEq (← there.mkEq r))

/-- Define a new type by a closed predicate `P : r -> bool` on an existing type.  The new type takes
the type variables of `P` as arguments.  It comes with a constructor from `r` and a destructor to
`r`, and with the theorems about them. -/
def defineSubtype (name ctor dtor : Name) (pred : HolTerm) : KernelM (Theorem × Theorem) := do
  let k ← get
  if k.types.contains name then
    throw (.reintroduction name)
  if k.consts.contains ctor then
    throw (.reintroduction ctor)
  if k.consts.contains dtor then
    throw (.reintroduction dtor)
  if ctor = dtor then
    throw (.reintroduction dtor)
  if pred.hasVars then
    throw .freeVariables
  match (← k.checkTerm pred).destFn? with
  | none => throw .notAFunction
  | some (carrier, cod) =>
      if !cod.isBool then
        throw .notBool
      let args := pred.typeVars.map Ty.var
      let ty := Ty.app name args
      declareType name args.length
      declareConst ctor (.fn carrier ty)
      declareConst dtor (.fn ty carrier)
      let c := Term.const ctor (.fn carrier ty)
      let d := Term.const dtor (.fn ty carrier)
      let ctorThm ← constructorTheorem c d ty
      let dtorThm ← destructorTheorem pred c d carrier
      modify fun k =>
        { k with
          constructors := k.constructors.insert ctor ctorThm
          destructors := k.destructors.insert dtor dtorThm }
      return (ctorThm, dtorThm)

end Kernel

end HolSearch
