import HolSearch.Kernel.Basic
import HolSearch.Schematic.Basic

/-!
# Instantiation of schematic sequents

Once its metavariables have values, a schematic type, term or sequent is turned into one of the
object level.  Every node is rebuilt through the kernel, so what comes out is well-typed if the
values are.

An abstraction is rebuilt by giving its bound variable a name, converting the body, and abstracting
over that name again.  The name must not clash with anything the body may contain: `freshName` takes
`x` followed by the least number, from the number of enclosing abstractions on, whose name is not
taken.
-/

namespace HolSearch

/-- Why a schematic value could not be instantiated. -/
inductive SchematicError where
  /-- a metavariable without value -/
  | unassigned (name : Name)
  /-- a bound variable without abstraction -/
  | looseBound
  /-- a metavariable that has to be a variable, but whose value is none -/
  | notAVariable (name : Name)
  | kernel (e : KernelError)
deriving DecidableEq

namespace SchematicError

/-- What the error is about. -/
def subject : SchematicError → String
  | unassigned name => name
  | looseBound => ""
  | notAVariable name => name
  | kernel e => e.subject

instance : Dump SchematicError where
  dump
    | unassigned name => dumpCall "Unassigned" [dump name]
    | looseBound => "LooseBound"
    | notAVariable name => dumpCall "NotAVariable" [dump name]
    | kernel e => dumpCall "Kernel" [dump e]

end SchematicError

/-- A result of the kernel as a part of instantiation. -/
def ofKernel {α : Type} : Except KernelError α → Except SchematicError α
  | .ok a => .ok a
  | .error e => .error (.kernel e)

/-! ## Fresh names -/

/-- The name that numbers a bound variable. -/
def binderName (i : Nat) : Name := "x" ++ i.repr

/-- The least number from `i` on whose name is not taken, trying at most `fuel` numbers. -/
def freshFrom (taken : List Name) : (fuel : Nat) → (i : Nat) → Nat
  | 0, i => i
  | fuel + 1, i => if binderName i ∈ taken then freshFrom taken fuel (i + 1) else i

/-- A name for a bound variable that no enclosing abstraction has and that is not to be avoided.
Of more numbers than there are taken names one is free, so they need not all be tried. -/
def freshName (binders : Stack HolVar) (avoid : List Name) : Name :=
  let taken := binders.items.map Var.name ++ avoid
  binderName (freshFrom taken taken.length binders.size)

/-! ## Types, variables and terms -/

mutual

/-- The type with metavariables replaced by their values. -/
def MetaType.instantiate (k : Kernel) (s : MetaSubst) : MetaType → Except SchematicError HolType
  | .app name args => do
      let args' ← MetaType.instantiateList k s args
      ofKernel (k.mkType name args')
  | .var v =>
      match v.mark with
      | .plain => .ok (tyVar v.name)
      | _ =>
          match s.types.get? v.name with
          | some ty => .ok ty
          | none => .error (.unassigned v.name)

def MetaType.instantiateList (k : Kernel) (s : MetaSubst) :
    List MetaType → Except SchematicError (List HolType)
  | [] => .ok []
  | ty :: tys => do
      let ty' ← MetaType.instantiate k s ty
      let tys' ← MetaType.instantiateList k s tys
      return ty' :: tys'

end

/-- The variable that a schematic variable stands for. -/
def MetaVar.instantiate (k : Kernel) (s : MetaSubst) (v : MetaVar) :
    Except SchematicError HolVar :=
  match v.mark with
  | .plain => do return ⟨(), v.name, ← MetaType.instantiate k s v.ty⟩
  | _ =>
      match s.terms.get? v.name with
      | some (.var x) => .ok x
      | some _ => .error (.notAVariable v.name)
      | none => .error (.unassigned v.name)

namespace MetaTerm

/-- The term with metavariables replaced by their values, below abstractions that have been given
the names in `binders`. -/
def convert (k : Kernel) (s : MetaSubst) (avoid : List Name) (binders : Stack HolVar) :
    MetaTerm → Except SchematicError HolTerm
  | .abs ty body => do
      let x : HolVar := ⟨(), freshName binders avoid, ← MetaType.instantiate k s ty⟩
      return Term.mkAbs x (← convert k s avoid (binders.push x) body)
  | .app f x => do
      let f' ← convert k s avoid binders f
      let x' ← convert k s avoid binders x
      ofKernel (f'.mkApp x')
  | .const name ty => do
      ofKernel (k.mkConstAt name (← MetaType.instantiate k s ty))
  | .var v =>
      match v.mark with
      | .plain => do return freeVar v.name (← MetaType.instantiate k s v.ty)
      | _ =>
          match s.terms.get? v.name with
          | some tm => .ok tm
          | none => .error (.unassigned v.name)
  | .bound i _ =>
      match binders.get? i with
      | some x => .ok (.var x)
      | none => .error .looseBound

/-- The names that bound variables must not take: those of the variables in the values of
metavariables, and those of the term's own plain variables. -/
def avoided (s : MetaSubst) (tm : MetaTerm) : List Name :=
  s.terms.values.flatMap (fun value => value.vars.map Var.name) ++
    ((Term.vars tm).filter (!·.mark.isMeta)).map Var.name

/-- The term with metavariables replaced by their values. -/
def instantiate (k : Kernel) (s : MetaSubst) (tm : MetaTerm) : Except SchematicError HolTerm :=
  convert k s (avoided s tm) .empty tm

end MetaTerm

/-- The sequent with metavariables replaced by their values, and `extra` premises at the end. -/
def Schema.instantiate (k : Kernel) (s : MetaSubst) (extra : List HolTerm) (schema : Schema) :
    Except SchematicError Conjecture := do
  let premises ← schema.premises.mapM (MetaTerm.instantiate k s)
  return .ofList (premises ++ extra) (← MetaTerm.instantiate k s schema.conclusion)

end HolSearch
