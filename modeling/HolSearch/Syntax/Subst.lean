import HolSearch.Data.Table
import HolSearch.Syntax.Sequent

/-!
# Substitutions

A substitution assigns terms to variables and types to type variables.  At the object level a
variable is looked up by its name and type together, whereas a metavariable is known by its name
alone: a schematic variable may be written before its type is known.
-/

namespace HolSearch

/-- Values of variables, found by keys of type `κ`, and values of type variables. -/
structure Subst (κ μ : Type) where
  terms : Table κ (Term μ) := {}
  types : Table Name (Ty μ) := {}
deriving DecidableEq

namespace Subst

variable {κ μ : Type}

/-- The substitution that assigns nothing. -/
def empty : Subst κ μ := {}

def isEmpty [DecidableEq κ] (s : Subst κ μ) : Bool := s.terms.isEmpty && s.types.isEmpty

end Subst

/-- Values of the variables of an object-level theorem. -/
abbrev HolSubst := Subst HolVar Unit

/-- Values of metavariables. -/
abbrev MetaSubst := Subst Name Unit

end HolSearch
