import HolSearch.Syntax.Sequent

/-!
# Schematic types, terms and sequents

Strategies describe goals and steps by sequents with metavariables.  They are written as ordinary
sequents, and every variable and type variable of them becomes a metavariable: fixed, if its name is
known from an earlier part of the strategy, and unfixed otherwise.

There are two ways to make such a sequent: to decide on the mark of each variable at once
(`HolTerm.toMeta`), or to make all of them unfixed and then fix some (`Schema.fixNames`).
-/

namespace HolSearch

/-- Names of variables and names of type variables. -/
structure Names where
  terms : List Name := []
  types : List Name := []
deriving DecidableEq

namespace Names

/-- The names of both, without repetitions. -/
def addAll (seen new : Names) : Names where
  terms := addAllNew seen.terms new.terms
  types := addAllNew seen.types new.types

end Names

/-! ## Making variables schematic -/

/-- The schematic type whose variables are fixed if their names are among `fixed`. -/
def HolType.toMeta (fixed : List Name) (ty : HolType) : MetaType :=
  Ty.subst (fun v => .var ⟨.ofFixed (v.name ∈ fixed), v.name⟩) ty

/-- The schematic variable that is fixed if its name is among the fixed ones. -/
def HolVar.toMeta (fixed : Names) (v : HolVar) : MetaVar :=
  ⟨.ofFixed (v.name ∈ fixed.terms), v.name, HolType.toMeta fixed.types v.ty⟩

/-- The schematic term whose variables and type variables are fixed if their names are. -/
def HolTerm.toMeta (fixed : Names) (tm : HolTerm) : MetaTerm :=
  Term.subst (fun v => .var (HolVar.toMeta fixed v)) (HolType.toMeta fixed.types) tm

/-! ## Fixing names -/

/-- Fix the unfixed variables whose names are among `names`. -/
def MetaType.fixNames (names : List Name) (ty : MetaType) : MetaType :=
  Ty.subst (fun v => .var (if v.name ∈ names then { v with mark := v.mark.fix } else v)) ty

/-- Fix the variable and the variables of its type. -/
def MetaVar.fixNames (names : Names) (v : MetaVar) : MetaVar where
  mark := if v.name ∈ names.terms then v.mark.fix else v.mark
  name := v.name
  ty := MetaType.fixNames names.types v.ty

/-- Fix the variables and type variables whose names are given. -/
def MetaTerm.fixNames (names : Names) (tm : MetaTerm) : MetaTerm :=
  Term.subst (fun v => .var (MetaVar.fixNames names v)) (MetaType.fixNames names.types) tm

namespace Schema

/-- The schema in which every variable of the conjecture is unfixed. -/
def ofConjecture (conj : Conjecture) : Schema := conj.map (HolTerm.toMeta {})

/-- Fix the variables and type variables whose names are given. -/
def fixNames (names : Names) (s : Schema) : Schema := s.map (MetaTerm.fixNames names)

/-- The schema in which the variables of the given names are fixed and all others unfixed. -/
def withFixed (names : Names) (conj : Conjecture) : Schema := fixNames names (ofConjecture conj)

end Schema

/-! ## Names of metavariables -/

/-- The names of the metavariables among the variables, and of those among the type variables. -/
def MetaTerm.metaNames (tm : MetaTerm) : Names where
  terms := ((Term.vars tm).filter (·.mark.isMeta)).map Var.name
  types := ((Term.typeVars tm).filter (·.mark.isMeta)).map TyVar.name

/-- The names seen before, and the metavariables of all terms of a schema that are new. -/
def Schema.seenNames (seen : Names) (s : Schema) : Names :=
  s.members.foldl (fun seen tm => seen.addAll (MetaTerm.metaNames tm)) seen

end HolSearch
