import HolSearch.Proofs.Syntax.Sequent
import HolSearch.Proofs.Syntax.Term
import HolSearch.Schematic.Basic

/-!
# Marks and how they are fixed

A schematic term is a term whose variables and type variables carry marks.  `unmarked` forgets the
marks, so a term can be read off from the schematic term made of it, whichever names are fixed there
(`HolTerm.unmarked_toMeta`).  In particular different terms make different schematic terms.

Names can be fixed while a term is made schematic or later, and all at once or in turn.  Main
statement (`Schema.fixing_composes`): the marks are the same in the end.  This is decided mark by
mark, for the variables, for the variables of their types and for those of the other annotations.
The premises of a sequent keep their order because merging some of them in between does not change
which is the first of its kind (`Sequent.map_map`).
-/

namespace HolSearch

/-! ## Forgetting marks -/

section Unmarked

variable {μ : Type}

/-- The type without its marks. -/
def Ty.unmarked (ty : Ty μ) : HolType := ty.subst fun v => .var ⟨(), v.name⟩

/-- The variable without its mark and those of its type. -/
def Var.unmarked (v : Var μ) : HolVar := ⟨(), v.name, v.ty.unmarked⟩

/-- The term without its marks. -/
def Term.unmarked (t : Term μ) : HolTerm := t.subst (fun v => .var v.unmarked) Ty.unmarked

end Unmarked

theorem HolType.unmarked_toMeta (fixed : List Name) (ty : HolType) :
    (HolType.toMeta fixed ty).unmarked = ty := by
  rw [Ty.unmarked, HolType.toMeta, Ty.subst_subst]
  exact Ty.subst_var_eq ty

theorem HolVar.unmarked_toMeta (fixed : Names) (v : HolVar) :
    (HolVar.toMeta fixed v).unmarked = v := by
  rw [HolVar.toMeta, Var.unmarked, HolType.unmarked_toMeta]

theorem HolTerm.unmarked_toMeta (fixed : Names) (t : HolTerm) :
    (HolTerm.toMeta fixed t).unmarked = t := by
  have hty : (fun ty => (HolType.toMeta fixed.types ty).unmarked) = id :=
    funext (HolType.unmarked_toMeta fixed.types)
  rw [Term.unmarked, HolTerm.toMeta, Term.subst_subst, hty]
  refine Term.subst_eq_self fun v _ => ?_
  rw [Term.subst, HolVar.unmarked_toMeta]

/-- Different terms make different schematic terms. -/
theorem HolTerm.toMeta_injective (fixed : Names) : Function.Injective (HolTerm.toMeta fixed) :=
  Function.LeftInverse.injective (HolTerm.unmarked_toMeta fixed)

theorem Schema.premises_ofConjecture (c : Conjecture) :
    (ofConjecture c).premises = c.premises.map (HolTerm.toMeta {}) :=
  Sequent.premises_map (HolTerm.toMeta_injective {}) c

/-! ## Leaves -/

/-- The schematic type variable that is fixed if its name is among `fixed`. -/
def TyVar.toMeta (fixed : List Name) (a : TyVar Unit) : TyVar Mark :=
  ⟨.ofFixed (a.name ∈ fixed), a.name⟩

theorem HolType.leaves_toMeta (fixed : List Name) (ty : HolType) :
    (HolType.toMeta fixed ty).leaves = ty.leaves.map (TyVar.toMeta fixed) :=
  Ty.leaves_subst_var (TyVar.toMeta fixed) ty

theorem HolTerm.leaves_toMeta (fixed : Names) (t : HolTerm) :
    (HolTerm.toMeta fixed t).leaves = t.leaves.map (HolVar.toMeta fixed) :=
  Term.leaves_subst_var (HolVar.toMeta fixed) (HolType.toMeta fixed.types) t

theorem HolTerm.types_toMeta (fixed : Names) (t : HolTerm) :
    (HolTerm.toMeta fixed t).types = t.types.map (HolType.toMeta fixed.types) :=
  Term.types_subst_var (fun _ => rfl) t

/-! ## Fixing names afterwards -/

theorem MetaType.fixNames_var (names : List Name) (v : TyVar Mark) :
    MetaType.fixNames names (.var v) =
      .var ⟨if v.name ∈ names then v.mark.fix else v.mark, v.name⟩ := by
  by_cases hv : v.name ∈ names
  · simp [fixNames, hv]
  · simp [fixNames, hv]

/-- To decide on a mark at once is to fix an unfixed one. -/
theorem Mark.ite_fix_unfixed (p : Prop) [Decidable p] :
    (if p then unfixed.fix else unfixed) = .ofFixed p := by
  by_cases hp : p
  · simp [hp, fix, ofFixed]
  · simp [hp, ofFixed]

theorem TyVar.fixNames_toMeta (names : List Name) (a : TyVar Unit) :
    MetaType.fixNames names (.var (TyVar.toMeta [] a)) = .var (TyVar.toMeta names a) := by
  rw [MetaType.fixNames_var, TyVar.toMeta, TyVar.toMeta,
    ← Mark.ite_fix_unfixed (a.name ∈ names)]
  rfl

theorem HolType.fixNames_toMeta (names : List Name) (ty : HolType) :
    MetaType.fixNames names (HolType.toMeta [] ty) = HolType.toMeta names ty := by
  rw [HolType.toMeta, HolType.toMeta, MetaType.fixNames, Ty.subst_subst]
  exact Ty.subst_eq_iff.mpr fun a _ => TyVar.fixNames_toMeta names a

theorem HolVar.fixNames_toMeta (names : Names) (v : HolVar) :
    MetaVar.fixNames names (HolVar.toMeta {} v) = HolVar.toMeta names v := by
  rw [MetaVar.fixNames, HolVar.toMeta, HolVar.toMeta, HolType.fixNames_toMeta,
    ← Mark.ite_fix_unfixed (v.name ∈ names.terms)]
  rfl

theorem HolTerm.fixNames_toMeta (names : Names) (t : HolTerm) :
    MetaTerm.fixNames names (HolTerm.toMeta {} t) = HolTerm.toMeta names t := by
  have hty : (fun ty => MetaType.fixNames names.types (HolType.toMeta [] ty)) =
      HolType.toMeta names.types := funext (HolType.fixNames_toMeta names.types)
  rw [MetaTerm.fixNames, HolTerm.toMeta, HolTerm.toMeta, Term.subst_subst, hty]
  refine Term.subst_congr fun v _ => ?_
  rw [Term.subst, HolVar.fixNames_toMeta]

/-- Fixing names afterwards comes to the same as fixing them from the start. -/
theorem Schema.withFixed_eq_map (names : Names) (c : Conjecture) :
    withFixed names c = c.map (HolTerm.toMeta names) := by
  rw [withFixed, fixNames, ofConjecture, Sequent.map_map,
    funext (HolTerm.fixNames_toMeta names)]

theorem Schema.premises_withFixed (names : Names) (c : Conjecture) :
    (withFixed names c).premises = c.premises.map (HolTerm.toMeta names) := by
  rw [withFixed_eq_map, Sequent.premises_map (HolTerm.toMeta_injective names)]

theorem Schema.conclusion_withFixed (names : Names) (c : Conjecture) :
    (withFixed names c).conclusion = HolTerm.toMeta names c.conclusion := by
  rw [withFixed_eq_map, Sequent.map, Sequent.ofList_conclusion]

theorem Schema.members_withFixed (fixed : Names) (c : Conjecture) :
    (withFixed fixed c).members = c.members.map (HolTerm.toMeta fixed) := by
  rw [Sequent.members, Sequent.members, premises_withFixed, conclusion_withFixed, List.map_append,
    List.map_singleton]

theorem Schema.unmarked_withFixed (names : Names) (c : Conjecture) :
    (withFixed names c).map Term.unmarked = c := by
  rw [withFixed_eq_map, Sequent.map_map, funext (HolTerm.unmarked_toMeta names), Sequent.map_id]

/-! ## Fixing names in turn -/

/-- The names are those of `A` and those of `B`, in any order. -/
structure Names.IsUnion (names A B : Names) : Prop where
  terms : ∀ name, name ∈ names.terms ↔ name ∈ A.terms ∨ name ∈ B.terms
  types : ∀ name, name ∈ names.types ↔ name ∈ A.types ∨ name ∈ B.types

theorem Names.isUnion_addAll (A B : Names) : (A.addAll B).IsUnion A B :=
  ⟨fun _ => mem_addAllNew, fun _ => mem_addAllNew⟩

/-- Names that are added in two steps. -/
theorem Names.IsUnion.assoc {A B C D mid names : Names} (h : names.IsUnion mid C)
    (hmid : mid.IsUnion A B) (hD : D.IsUnion B C) : names.IsUnion A D := by
  constructor
  · intro name
    rw [h.terms, hmid.terms, hD.terms, or_assoc]
  · intro name
    rw [h.types, hmid.types, hD.types, or_assoc]

/-- To fix a mark twice is to fix it once. -/
theorem Mark.ite_fix_ite_fix {p q r : Prop} [Decidable p] [Decidable q] [Decidable r]
    (h : r ↔ p ∨ q) (m : Mark) :
    (if q then (if p then m.fix else m).fix else if p then m.fix else m) =
      if r then m.fix else m := by
  by_cases hp : p
  · by_cases hq : q
    · simp [h, hp, hq]
    · simp [h, hp, hq]
  · by_cases hq : q
    · simp [h, hp, hq]
    · simp [h, hp, hq]

theorem MetaType.fixNames_fixNames {names A B : List Name}
    (h : ∀ name, name ∈ names ↔ name ∈ A ∨ name ∈ B) (ty : MetaType) :
    MetaType.fixNames B (MetaType.fixNames A ty) = MetaType.fixNames names ty := by
  have hvar : ∀ v : TyVar Mark, MetaType.fixNames B (MetaType.fixNames A (.var v)) =
      MetaType.fixNames names (.var v) := by
    intro v
    simp only [fixNames_var, Mark.ite_fix_ite_fix (h v.name)]
  simp only [fixNames, Ty.subst_subst]
  exact Ty.subst_eq_iff.mpr fun v _ => hvar v

section Union

variable {names A B : Names}

theorem MetaVar.fixNames_fixNames (h : names.IsUnion A B) (v : MetaVar) :
    MetaVar.fixNames B (MetaVar.fixNames A v) = MetaVar.fixNames names v := by
  rw [fixNames, fixNames, fixNames, MetaType.fixNames_fixNames h.types,
    ← Mark.ite_fix_ite_fix (h.terms v.name)]

theorem MetaTerm.fixNames_fixNames (h : names.IsUnion A B) (t : MetaTerm) :
    MetaTerm.fixNames B (MetaTerm.fixNames A t) = MetaTerm.fixNames names t := by
  have hty : (fun ty => MetaType.fixNames B.types (MetaType.fixNames A.types ty)) =
      MetaType.fixNames names.types := funext (MetaType.fixNames_fixNames h.types)
  rw [fixNames, fixNames, fixNames, Term.subst_subst, hty]
  refine Term.subst_congr fun v _ => ?_
  rw [Term.subst, MetaVar.fixNames_fixNames h]

theorem Schema.fixNames_fixNames (h : names.IsUnion A B) (s : Schema) :
    fixNames B (fixNames A s) = fixNames names s := by
  rw [fixNames, fixNames, fixNames, Sequent.map_map, funext (MetaTerm.fixNames_fixNames h)]

end Union

/-- **It does not matter when names are fixed.**  A conjecture whose variables are made unfixed and
then fixed by name has, in the same order, the premises that it has when the marks are decided at
once, and the same conclusion.  Fixing the names of `A` and then those of `B` in any schema is
fixing all of them. -/
theorem Schema.fixing_composes (A B : Names) :
    (∀ c : Conjecture,
      (withFixed A c).premises = c.premises.map (HolTerm.toMeta A) ∧
        (withFixed A c).conclusion = HolTerm.toMeta A c.conclusion) ∧
    ∀ (s : Schema) (names : Names), names.IsUnion A B →
      (fixNames B (fixNames A s)).premises = (fixNames names s).premises ∧
        (fixNames B (fixNames A s)).conclusion = (fixNames names s).conclusion := by
  refine ⟨fun c => ⟨premises_withFixed A c, conclusion_withFixed A c⟩, ?_⟩
  intro s names hunion
  rw [fixNames_fixNames hunion]
  exact ⟨rfl, rfl⟩

/-- The premises `?x` and `!x`, which become equal when `x` is fixed. -/
def coincidingPremises : Schema :=
  let a : MetaType := .var ⟨.unfixed, "a"⟩
  .ofList [.var ⟨.unfixed, "x", a⟩, .var ⟨.fixed, "x", a⟩] (.var ⟨.plain, "y", a⟩)

/-- They are merged before the type variable is fixed, or together with it. -/
theorem Schema.fixing_composes_coinciding :
    let A : Names := { terms := ["x"] }
    let B : Names := { types := ["a"] }
    coincidingPremises.premises.length = 2 ∧
      (fixNames A coincidingPremises).premises.length = 1 ∧
      (A.addAll B).IsUnion A B ∧
      (fixNames B (fixNames A coincidingPremises)).premises =
        (fixNames (A.addAll B) coincidingPremises).premises := by
  intro A B
  have hunion := Names.isUnion_addAll A B
  obtain ⟨hpremises, -⟩ := (Schema.fixing_composes A B).2 coincidingPremises _ hunion
  exact ⟨by decide +kernel, by decide +kernel, hunion, hpremises⟩

end HolSearch
