import HolSearch.Kernel.Basic

/-!
# Inference rules

The rules of equality, of assumptions, and the instantiation of variables.  Rules that put a new
term or type into a theorem check it against the kernel; the others rely on the theorems that they
are given.

An `Inference` is a rule together with what it is applied to, and `Kernel.infer` carries it out.
-/

namespace HolSearch

namespace Theorem

/-- The two sides of a theorem that is an equation. -/
def destEq (thm : Theorem) : Except KernelError (HolTerm × HolTerm) :=
  match thm.conclusion.destEq? with
  | none => .error .notAnEquation
  | some sides => .ok sides

/-- From `⊢ f = g` and `⊢ x = y`, derive `⊢ f x = g y`. -/
def congruence (fg xy : Theorem) : Except KernelError Theorem := do
  let (f, g) ← fg.destEq
  let (x, y) ← xy.destEq
  let fx ← f.mkApp x
  let gy ← g.mkApp y
  return .ofList (fg.premises ++ xy.premises) (← fx.mkEq gy)

/-- From `⊢ p = q` and `⊢ p`, derive `⊢ q`. -/
def modusPonens (major minor : Theorem) : Except KernelError Theorem := do
  let (p, q) ← major.destEq
  if p = minor.conclusion then
    return .ofList (major.premises ++ minor.premises) q
  else
    .error .premiseMismatch

/-- From `q ⊢ p` and `p ⊢ q`, derive `⊢ p = q`.  The conclusion of each theorem is discharged from
the premises of the other. -/
def antisymmetry (left right : Theorem) : Except KernelError Theorem := do
  let conclusion ← left.conclusion.mkEq right.conclusion
  return .ofList
    (left.premises.filter (· ≠ right.conclusion) ++ right.premises.filter (· ≠ left.conclusion))
    conclusion

end Theorem

namespace Kernel

/-- `⊢ t = t` -/
def reflexivity (k : Kernel) (t : HolTerm) : Except KernelError Theorem := do
  let _ ← k.checkTerm t
  return .ofList [] (← t.mkEq t)

/-- From `⊢ p = q`, derive `⊢ (λ v. p) = (λ v. q)`, unless `v` occurs in a premise. -/
def abstraction (k : Kernel) (v : HolVar) (thm : Theorem) : Except KernelError Theorem := do
  k.checkType v.ty
  if thm.premises.any (·.contains v) then .error (.capture v)
  else
    let (p, q) ← thm.destEq
    return .ofList thm.premises (← (Term.mkAbs v p).mkEq (Term.mkAbs v q))

/-- From `⊢ p = q`, derive `⊢ (λ ty. p) = (λ ty. q)`, where the abstraction binds no variable. -/
def typeAbstraction (k : Kernel) (ty : HolType) (thm : Theorem) : Except KernelError Theorem := do
  k.checkType ty
  let (p, q) ← thm.destEq
  return .ofList thm.premises (← (Term.abs ty p).mkEq (.abs ty q))

/-- `⊢ (λ v. body) v = body` -/
def betaReduction (k : Kernel) (v : HolVar) (body : HolTerm) : Except KernelError Theorem := do
  k.checkType v.ty
  let _ ← k.checkTerm body
  let redex ← (Term.mkAbs v body).mkApp (.var v)
  return .ofList [] (← redex.mkEq body)

/-- `p ⊢ p` -/
def assume (k : Kernel) (p : HolTerm) : Except KernelError Theorem := do
  k.checkProp p
  return .ofList [p] p

end Kernel

/-! ## Instantiation -/

/-- The type with its variables replaced by their values. -/
def HolSubst.onType (s : HolSubst) (ty : HolType) : HolType :=
  ty.subst fun v => (s.types.get? v.name).getD (.var v)

namespace Kernel

/-- The value of a variable, which must have the instance of the variable's type.  A variable
without a value stays, at that instance. -/
def instantiateVar (k : Kernel) (s : HolSubst) (v : HolVar) : Except KernelError HolTerm :=
  let ty := HolSubst.onType s v.ty
  match s.terms.get? v with
  | none => .ok (.var { v with ty })
  | some tm => do
      if (← k.checkTerm tm) = ty then .ok tm else .error .typeMismatch

/-- Replace all variables and type variables of a theorem by their values at once.  Variables are
looked up with the types that they have before the replacement.  Of several ill-formed types in the
substitution any one may be reported; here it is the first in the order of the table. -/
def instantiate (k : Kernel) (thm : Theorem) (s : HolSubst) : Except KernelError Theorem := do
  k.checkTypes s.types.values
  let sequent ← thm.sequent.tryMap fun tm =>
    tm.trySubst (k.instantiateVar s) fun ty => .ok (HolSubst.onType s ty)
  return ⟨sequent⟩

end Kernel

/-! ## Rules as data -/

/-- A rule together with what it is applied to. -/
inductive Inference where
  | reflexivity (t : HolTerm)
  | congruence (fg xy : Theorem)
  | abstraction (v : HolVar) (thm : Theorem)
  | typeAbstraction (ty : HolType) (thm : Theorem)
  | betaReduction (v : HolVar) (body : HolTerm)
  | assume (p : HolTerm)
  | modusPonens (major minor : Theorem)
  | antisymmetry (left right : Theorem)
deriving DecidableEq

/-- Carry out an inference. -/
def Kernel.infer (k : Kernel) : Inference → Except KernelError Theorem
  | .reflexivity t => k.reflexivity t
  | .congruence fg xy => fg.congruence xy
  | .abstraction v thm => k.abstraction v thm
  | .typeAbstraction ty thm => k.typeAbstraction ty thm
  | .betaReduction v body => k.betaReduction v body
  | .assume p => k.assume p
  | .modusPonens major minor => major.modusPonens minor
  | .antisymmetry left right => left.antisymmetry right

instance : Display Inference where
  display
    | .reflexivity t => "reflexivity: " ++ display t
    | .congruence fg xy => "congruence: " ++ display fg ++ " and " ++ display xy
    | .abstraction v thm => "abstraction over " ++ display v ++ ": " ++ display thm
    | .typeAbstraction ty thm => "abstraction over type " ++ display ty ++ ": " ++ display thm
    | .betaReduction v body => "beta reduction: " ++ display v ++ " in " ++ display body
    | .assume p => "assume: " ++ display p
    | .modusPonens major minor => "modus ponens: " ++ display major ++ " and " ++ display minor
    | .antisymmetry left right => "antisymmetry: " ++ display left ++ " and " ++ display right

end HolSearch
