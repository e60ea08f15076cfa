import HolSearch.Syntax.Subst

/-!
# Matching of types and terms

To match a pattern against a target is to extend a substitution so that it maps the pattern to the
target.  A plain variable of the pattern matches only itself, a fixed one only the value it already
has, and an unfixed one anything: the first match assigns its value and later ones must agree.

A variable of a term is assigned only a term without loose bound variables, since the value has to
make sense outside of the abstractions around it, and only if the type of the value matches the
type of the variable.

Matching goes from left to right.  If it fails, the error is the substitution as it had been
extended up to that point.
-/

namespace HolSearch

/-- The extended assignment, or what had been assigned when matching failed. -/
abbrev Matched (σ : Type) := Except σ σ

section Types

variable {μ ν : Type} [Marking μ] [Marking ν] [DecidableEq ν]

/-- Match a type variable of a pattern. -/
def matchTyVar (v : TyVar μ) (tgt : Ty ν) (s : Table Name (Ty ν)) : Matched (Table Name (Ty ν)) :=
  match Marking.asPattern v.mark with
  | .plain =>
      match tgt with
      | .var w => if Marking.asTarget w.mark = .plain ∧ w.name = v.name then .ok s else .error s
      | .app .. => .error s
  | .fixed => if s.get? v.name = some tgt then .ok s else .error s
  | .unfixed =>
      match s.get? v.name with
      | some ty => if ty = tgt then .ok s else .error s
      | none => .ok (s.insert v.name tgt)

mutual

/-- Extend the assignment so that the pattern type becomes the target type. -/
def matchTy : Ty μ → Ty ν → Table Name (Ty ν) → Matched (Table Name (Ty ν))
  | .app n ps, .app m ts, s =>
      if n = m ∧ ps.length = ts.length then matchTys ps ts s else .error s
  | .var v, tgt, s => matchTyVar v tgt s
  | .app .., .var _, s => .error s

/-- Match the arguments of a type constructor from left to right. -/
def matchTys : List (Ty μ) → List (Ty ν) → Table Name (Ty ν) → Matched (Table Name (Ty ν))
  | p :: ps, t :: ts, s => (matchTy p t s).bind (matchTys ps ts)
  | _, _, s => .ok s

end

/-- Whether the type arises from the pattern by assigning values to its variables. -/
def Ty.isInstanceOf (ty : Ty ν) (pat : Ty μ) : Bool :=
  (matchTy pat ty .empty).isOk

end Types

/-- The key under which a substitution keeps the value of a variable of a pattern. -/
class PatternKey (μ : Type) (κ : outParam Type) where
  key : Var μ → κ

/-- Object-level variables are told apart by name and type. -/
instance : PatternKey Unit HolVar := ⟨id⟩

/-- Metavariables are told apart by name. -/
instance : PatternKey Mark Name := ⟨Var.name⟩

section Terms

variable {κ μ ν : Type} [DecidableEq κ] [Marking μ] [PatternKey μ κ] [Marking ν] [DecidableEq ν]

/-- Match types and keep the values of variables as they are. -/
def matchTyIn (pat : Ty μ) (tgt : Ty ν) (s : Subst κ ν) : Matched (Subst κ ν) :=
  match matchTy pat tgt s.types with
  | .ok types => .ok { s with types }
  | .error types => .error { s with types }

/-- Let the target be the value of an unfixed variable of type `ty`, or compare it with the value
that the variable already has. -/
def capture (key : κ) (ty : Ty μ) (tgt : Term ν) (s : Subst κ ν) : Matched (Subst κ ν) :=
  match s.terms.get? key with
  | some value => if value = tgt then .ok s else .error s
  | none =>
      -- the value must not depend on abstractions that the variable cannot see
      if tgt.hasLooseBound 0 then .error s
      else
        match tgt.typeOf? with
        | none => .error s
        | some tgtTy =>
            (matchTyIn ty tgtTy s).map fun s' => { s' with terms := s'.terms.insert key tgt }

/-- Match a variable of a pattern. -/
def matchVar (v : Var μ) (tgt : Term ν) (s : Subst κ ν) : Matched (Subst κ ν) :=
  match Marking.asPattern v.mark with
  | .plain =>
      match tgt with
      | .var w =>
          if Marking.asTarget w.mark = .plain ∧ w.name = v.name then matchTyIn v.ty w.ty s
          else .error s
      | _ => .error s
  | .fixed => if s.terms.get? (PatternKey.key v) = some tgt then .ok s else .error s
  | .unfixed => capture (PatternKey.key v) v.ty tgt s

/-- Extend the substitution so that the pattern becomes the target. -/
def matchTerm : Term μ → Term ν → Subst κ ν → Matched (Subst κ ν)
  | .abs pty pbody, .abs tty tbody, s => (matchTyIn pty tty s).bind (matchTerm pbody tbody)
  | .app pf px, .app tf tx, s => (matchTerm pf tf s).bind (matchTerm px tx)
  | .const c pty, .const d tty, s => if c = d then matchTyIn pty tty s else .error s
  | .bound i pty, .bound j tty, s => if i = j then matchTyIn pty tty s else .error s
  | .var v, tgt, s => matchVar v tgt s
  | _, _, s => .error s

end Terms

end HolSearch
