import HolSearch.Text.Dump

/-!
# What the kernel refuses

Every refusal of the kernel has a cause.  `KernelError.subject` is the name or variable that the
refusal is about, as far as there is one.
-/

namespace HolSearch

/-- Why the kernel refused a type, a term, a rule or a definition. -/
inductive KernelError where
  /-- the name already belongs to a type constructor or constant -/
  | reintroduction (name : Name)
  | unknownType (name : Name)
  | unknownConst (name : Name)
  /-- a type constructor applied to the wrong number of arguments -/
  | arity (name : Name)
  /-- a constant at a type that is no instance of its declared type -/
  | constType (name : Name)
  | notAFunction
  | typeMismatch
  | notBool
  | notAnEquation
  /-- the variable to be abstracted occurs in a premise -/
  | capture (v : HolVar)
  /-- the left side of the equation differs from the other theorem -/
  | premiseMismatch
  | freeVariables
  /-- type variables in a definition that its type does not show -/
  | hiddenTypeVariables
  | looseBound
deriving DecidableEq

namespace KernelError

/-- What the error is about. -/
def subject : KernelError → String
  | reintroduction name => name
  | unknownType name => name
  | unknownConst name => name
  | arity name => name
  | constType name => name
  | capture v => v.name ++ " : " ++ display v.ty
  | _ => ""

instance : Dump KernelError where
  dump
    | reintroduction name => dumpCall "Reintroduction" [dump name]
    | unknownType name => dumpCall "UnknownType" [dump name]
    | unknownConst name => dumpCall "UnknownConst" [dump name]
    | arity name => dumpCall "Arity" [dump name]
    | constType name => dumpCall "ConstType" [dump name]
    | notAFunction => "NotAFunction"
    | typeMismatch => "TypeMismatch"
    | notBool => "NotBool"
    | notAnEquation => "NotAnEquation"
    | capture v => dumpCall "Capture" [dump v]
    | premiseMismatch => "PremiseMismatch"
    | freeVariables => "FreeVariables"
    | hiddenTypeVariables => "HiddenTypeVariables"
    | looseBound => "LooseBound"

end KernelError

end HolSearch
