import HolSearch.Data.Stack
import HolSearch.Kernel.Error
import HolSearch.Kernel.Theorem
import HolSearch.Matching.Term

/-!
# The kernel's state and the checks on types and terms

The kernel knows the arities of type constructors and the declared types of constants, and it
records the theorems that it accepted without proof: axioms and definitions.

Terms can be built by anyone, so whatever enters a theorem is checked first.  `Kernel.checkTerm`
returns the type of a term if

* its bound variables refer to abstractions around them, of the same type,
* its constants are declared and stand at instances of their declared types,
* its types apply declared constructors to as many arguments as they take, and
* it applies only functions, to arguments of their input type.

The functions `Term.mkApp`, `Term.mkAbs` and `Term.mkEq` build terms from terms that are already
known to be well-formed: they compare the types that the annotations tell.
-/

namespace HolSearch

/-- What the kernel knows. -/
structure Kernel where
  /-- the arities of type constructors -/
  types : Table Name Nat
  /-- the declared types of constants -/
  consts : Table Name HolType
  /-- the theorems accepted without proof, in the order in which they were accepted -/
  axioms : List Theorem
  /-- for a defined constant `c`, the theorem `⊢ c = t` -/
  definitions : Table Name Theorem
  /-- for the constructor of a defined type, the theorem `⊢ ctor (dtor a) = a` -/
  constructors : Table Name Theorem
  /-- for the destructor of a defined type, the theorem `⊢ P r = (dtor (ctor r) = r)` -/
  destructors : Table Name Theorem
deriving DecidableEq

namespace Kernel

/-- The kernel that knows functions, propositions and equality. -/
def initial : Kernel where
  types := .ofList [(Ty.funName, 2), (Ty.boolName, 0)]
  consts := .ofList [(Term.eqName, .fn (tyVar "a") (.fn (tyVar "a") .bool))]
  axioms := []
  definitions := {}
  constructors := {}
  destructors := {}

/-- The arity of a type constructor. -/
def arity? (k : Kernel) (name : Name) : Option Nat := k.types.get? name

/-- The declared type of a constant. -/
def constType? (k : Kernel) (name : Name) : Option HolType := k.consts.get? name

/-! ## Types -/

mutual

/-- Refuse a type in which a constructor is unknown or has the wrong number of arguments. -/
def checkType (k : Kernel) : HolType → Except KernelError Unit
  | .var _ => .ok ()
  | .app name args =>
      match k.arity? name with
      | none => .error (.unknownType name)
      | some arity => if arity ≠ args.length then .error (.arity name) else checkTypes k args

/-- Check types from left to right. -/
def checkTypes (k : Kernel) : List HolType → Except KernelError Unit
  | [] => .ok ()
  | ty :: tys => do
      checkType k ty
      checkTypes k tys

end

/-- Apply a type constructor to well-formed arguments. -/
def mkType (k : Kernel) (name : Name) (args : List HolType) : Except KernelError HolType :=
  match k.arity? name with
  | none => .error (.unknownType name)
  | some arity =>
      if arity ≠ args.length then .error (.arity name)
      else do
        k.checkTypes args
        return .app name args

/-! ## Terms -/

/-- The constant `name` at type `ty`, which must be an instance of its declared type. -/
def checkConst (k : Kernel) (name : Name) (ty : HolType) : Except KernelError Unit := do
  k.checkType ty
  match k.constType? name with
  | none => .error (.unknownConst name)
  | some declared => if ty.isInstanceOf declared then .ok () else .error (.constType name)

/-- The type of a term that stands below abstractions over variables of the given types. -/
def checkUnder (k : Kernel) (binders : Stack HolType) : HolTerm → Except KernelError HolType
  | .abs ty body => do
      k.checkType ty
      return .fn ty (← checkUnder k (binders.push ty) body)
  | .app f x => do
      let fty ← checkUnder k binders f
      let xty ← checkUnder k binders x
      match fty.destFn? with
      | none => .error .notAFunction
      | some (dom, cod) => if dom = xty then .ok cod else .error .typeMismatch
  | .const name ty => do
      k.checkConst name ty
      return ty
  | .var v => do
      k.checkType v.ty
      return v.ty
  | .bound i ty =>
      match binders.get? i with
      | none => .error .looseBound
      | some binder => if binder = ty then .ok ty else .error .typeMismatch

/-- The type of a well-formed term. -/
def checkTerm (k : Kernel) (tm : HolTerm) : Except KernelError HolType :=
  k.checkUnder .empty tm

/-- Refuse a term that is not a well-formed proposition. -/
def checkProp (k : Kernel) (tm : HolTerm) : Except KernelError Unit := do
  if (← k.checkTerm tm).isBool then .ok () else .error .notBool

/-- Check propositions from left to right. -/
def checkProps (k : Kernel) : List HolTerm → Except KernelError Unit
  | [] => .ok ()
  | tm :: tms => do
      k.checkProp tm
      checkProps k tms

/-- The constant at the instance of its declared type in which the type variables of the table have
their values there. -/
def mkConst (k : Kernel) (name : Name) (values : Table Name HolType) :
    Except KernelError HolTerm :=
  match k.constType? name with
  | none => .error (.unknownConst name)
  | some declared =>
      .ok (.const name (declared.subst fun v => (values.get? v.name).getD (.var v)))

/-- The constant at the given instance of its declared type. -/
def mkConstAt (k : Kernel) (name : Name) (ty : HolType) : Except KernelError HolTerm := do
  k.checkType ty
  match k.constType? name with
  | none => .error (.unknownConst name)
  | some declared =>
      if ty.isInstanceOf declared then .ok (.const name ty) else .error (.constType name)

end Kernel

namespace Term

/-- The application of `f` to `x`. -/
def mkApp (f x : HolTerm) : Except KernelError HolTerm :=
  match f.typeOf?.bind Ty.destFn? with
  | none => .error .notAFunction
  | some (dom, _) => if x.typeOf? = some dom then .ok (.app f x) else .error .typeMismatch

/-- The abstraction of `v` in `body`. -/
def mkAbs (v : HolVar) (body : HolTerm) : HolTerm := .abs v.ty (body.bind v 0)

/-- The equation of `l` and `r`. -/
def mkEq (l r : HolTerm) : Except KernelError HolTerm :=
  match l.typeOf? with
  | none => .error .notAFunction
  | some ty => if r.typeOf? = some ty then .ok (equation ty l r) else .error .typeMismatch

end Term

end HolSearch
