import HolSearch.Syntax.Ty

/-!
# Terms of higher-order logic

Bound variables are numbered from the innermost abstraction outward and carry their types, so the
type of a term can be read off without a context.  Terms are raw: a bound variable may have no
abstraction around it or disagree with it about the type, and a non-function may be applied.  It is
the kernel that checks terms.

`bind` turns a variable into the bound variable that refers to the abstraction `depth` levels above,
as the kernel does when it abstracts over the variable.  `bindAt` and `unbindAt` do this and its
reverse at a depth that the caller chooses, which is a machine word.
-/

namespace HolSearch

/-- A free variable: two variables of one name and different types are different. -/
structure Var (μ : Type) where
  mark : μ
  name : Name
  ty : Ty μ
deriving DecidableEq

/-- A term whose variables are marked by `μ`. -/
inductive Term (μ : Type) where
  /-- an abstraction over a variable of type `ty` -/
  | abs (ty : Ty μ) (body : Term μ)
  | app (f x : Term μ)
  | const (name : Name) (ty : Ty μ)
  | var (v : Var μ)
  /-- the variable of the abstraction `index` levels above -/
  | bound (index : Nat) (ty : Ty μ)
deriving DecidableEq

namespace Var

variable {μ ν ε : Type}

/-- The variable at the type that `f` makes of its own. -/
def mapTy (f : Ty μ → Ty μ) (v : Var μ) : Var μ := { v with ty := f v.ty }

/-- As `mapTy`, for an `f` that may fail. -/
def tryMapTy (f : Ty μ → Except ε (Ty μ)) (v : Var μ) : Except ε (Var μ) := do
  return { v with ty := ← f v.ty }

end Var

namespace Term

variable {μ ν ε : Type}

/-- The name of the equality constant. -/
def eqName : Name := "="

/-- The equation between `l` and `r` at type `ty`. -/
def equation (ty : Ty μ) (l r : Term μ) : Term μ :=
  .app (.app (.const eqName (.fn ty (.fn ty .bool))) l) r

/-- The function and the argument of an application. -/
def destApp? : Term μ → Option (Term μ × Term μ)
  | .app f x => some (f, x)
  | _ => none

/-- The two sides of an equation, at whatever type the equality constant stands. -/
def destEq? : Term μ → Option (Term μ × Term μ)
  | .app (.app (.const name _) l) r => if name = eqName then some (l, r) else none
  | _ => none

@[simp] theorem destEq?_equation (ty : Ty μ) (l r : Term μ) :
    (equation ty l r).destEq? = some (l, r) := rfl

/-! ## Replacing variables and types -/

/-- Replace every variable by a term and every type annotation of the other nodes by a type.  The
terms are put in place as they are, so they should have no loose bound variables. -/
def subst (fv : Var μ → Term ν) (ft : Ty μ → Ty ν) : Term μ → Term ν
  | .abs ty body => .abs (ft ty) (body.subst fv ft)
  | .app f x => .app (f.subst fv ft) (x.subst fv ft)
  | .const name ty => .const name (ft ty)
  | .var v => fv v
  | .bound i ty => .bound i (ft ty)

/-- As `subst`, for replacements that may fail; they are made from left to right. -/
def trySubst (fv : Var μ → Except ε (Term ν)) (ft : Ty μ → Except ε (Ty ν)) :
    Term μ → Except ε (Term ν)
  | .abs ty body => do
      let ty' ← ft ty
      let body' ← body.trySubst fv ft
      return .abs ty' body'
  | .app f x => do
      let f' ← f.trySubst fv ft
      let x' ← x.trySubst fv ft
      return .app f' x'
  | .const name ty => do return .const name (← ft ty)
  | .var v => fv v
  | .bound i ty => do return .bound i (← ft ty)

/-! ## Variables and annotations -/

/-- The variables of a term from left to right, with repetitions. -/
def leaves : Term μ → List (Var μ)
  | .abs _ body => body.leaves
  | .app f x => f.leaves ++ x.leaves
  | .var v => [v]
  | .const .. => []
  | .bound .. => []

/-- The variables of a term in the order of their first occurrence. -/
def vars [DecidableEq μ] (tm : Term μ) : List (Var μ) := distinct tm.leaves

/-- Whether the variable occurs in the term. -/
def contains [DecidableEq μ] (tm : Term μ) (v : Var μ) : Bool := v ∈ tm.leaves

/-- Whether any variable occurs in the term. -/
def hasVars (tm : Term μ) : Bool := !tm.leaves.isEmpty

/-- The types written in a term, from left to right. -/
def types : Term μ → List (Ty μ)
  | .abs ty body => ty :: body.types
  | .app f x => f.types ++ x.types
  | .const _ ty => [ty]
  | .var v => [v.ty]
  | .bound _ ty => [ty]

/-- The type variables of a term in the order of their first occurrence. -/
def typeVars [DecidableEq μ] (tm : Term μ) : List (TyVar μ) :=
  distinct (tm.types.flatMap Ty.leaves)

/-! ## Bound variables -/

/-- Whether a term that lies below `depth` abstractions refers to one further out. -/
def hasLooseBound (depth : Nat) : Term μ → Bool
  | .abs _ body => body.hasLooseBound (depth + 1)
  | .app f x => f.hasLooseBound depth || x.hasLooseBound depth
  | .bound i _ => depth ≤ i
  | .const .. => false
  | .var _ => false

/-- Let `v` refer to the abstraction `depth` levels above: the body of `λ v. t` is `t.bind v 0`. -/
def bind [DecidableEq μ] (v : Var μ) (depth : Nat) : Term μ → Term μ
  | .abs ty body => .abs ty (body.bind v (depth + 1))
  | .app f x => .app (f.bind v depth) (x.bind v depth)
  | .var w => if w = v then .bound depth v.ty else .var w
  | .const name ty => .const name ty
  | .bound i ty => .bound i ty

/-! ### Depths that are words

A caller gives a depth as a word of 64 bits.  Below an abstraction it is one more, counted in words:
after the largest depth comes 0.
-/

/-- As `hasLooseBound`, at a depth that is a word. -/
def hasLooseBoundAt (depth : UInt64) : Term μ → Bool
  | .abs _ body => body.hasLooseBoundAt (depth + 1)
  | .app f x => f.hasLooseBoundAt depth || x.hasLooseBoundAt depth
  | .bound i _ => depth.toNat ≤ i
  | .const .. => false
  | .var _ => false

/-- As `bind`, at a depth that is a word. -/
def bindAt [DecidableEq μ] (v : Var μ) (depth : UInt64) : Term μ → Term μ
  | .abs ty body => .abs ty (body.bindAt v (depth + 1))
  | .app f x => .app (f.bindAt v depth) (x.bindAt v depth)
  | .var w => if w = v then .bound depth.toNat v.ty else .var w
  | .const name ty => .const name ty
  | .bound i ty => .bound i ty

/-- Put `v` in place of the variable of the abstraction `depth` levels above. -/
def unbindAt (v : Var μ) (depth : UInt64) : Term μ → Term μ
  | .abs ty body => .abs ty (body.unbindAt v (depth + 1))
  | .app f x => .app (f.unbindAt v depth) (x.unbindAt v depth)
  | .bound i ty => if i = depth.toNat then .var v else .bound i ty
  | .const name ty => .const name ty
  | .var w => .var w

/-! ## Types of terms -/

/-- The type of a term as its annotations tell it; the type of an argument is not looked at.  There
is none if a non-function is applied. -/
def typeOf? : Term μ → Option (Ty μ)
  | .abs ty body => do return .fn ty (← body.typeOf?)
  | .app f _ => do return (← (← f.typeOf?).destFn?).2
  | .const _ ty => some ty
  | .var v => some v.ty
  | .bound _ ty => some ty

end Term

/-- A variable of the object level. -/
abbrev HolVar := Var Unit

/-- A term of the object level. -/
abbrev HolTerm := Term Unit

/-- A schematic variable. -/
abbrev MetaVar := Var Mark

/-- A schematic term. -/
abbrev MetaTerm := Term Mark

/-- The object-level variable of the given name and type. -/
def freeVar (name : Name) (ty : HolType) : HolTerm := .var ⟨(), name, ty⟩

end HolSearch
