import HolSearch.Proofs.Kernel.Declarations
import HolSearch.Proofs.Semantics.Model
import Mathlib.Data.List.Basic

/-!
# Extending models

Every kernel that knows the basic notions has a standard model (`exists_standardModel`), and a
model of a kernel extends to any larger one: an interpretation that agrees with it on the smaller
kernel need only be repaired at constants that do not mean elements of their types, and those are
new (`StandardModel.exists_extension`).

A definition is accepted only if it is closed, has no type variables that its type does not show,
and is made for a new name.  Under these conditions the model extends so that the definition is
valid (`ConstDefinition.exists_extension`): the defining term has a meaning for each
choice of sets for the type variables of its type, and this is what the new constant is taken to
mean.
-/

namespace HolSearch

universe u

open Interpretation

noncomputable section

/-! ## Repairing constants -/

namespace Interpretation

variable {I : Interpretation.{u}} {k : Kernel} {name : Name} {declared : HolType}
  {ρ : TyVar Unit → NonemptySet.{u}}

/-- The choice of sets that gives the listed variables the listed sets. -/
def assign (vs : List (TyVar Unit)) (args : List NonemptySet.{u}) : TyVar Unit → NonemptySet.{u} :=
  fun v => args[vs.idxOf v]?.getD default

theorem assign_map {vs : List (TyVar Unit)} {v : TyVar Unit} (hv : v ∈ vs) :
    assign vs (vs.map ρ) v = ρ v := by
  rw [assign, List.getElem?_map, List.getElem?_idxOf hv]
  rfl

theorem type_assign (hty : k.IsType declared) {vs : List (TyVar Unit)}
    (hvs : ∀ v ∈ declared.leaves, v ∈ vs) :
    I.type (assign vs (vs.map ρ)) declared = I.type ρ declared :=
  type_congr (fun _ _ _ => rfl) hty fun v hv => assign_map (hvs v hv)

variable (I k) in
/-- The interpretation that takes each constant to what `I` proposes, where that is of its type. -/
def repair : Interpretation.{u} where
  tyOp := I.tyOp
  const name args :=
    match k.constType? name with
    | none => I.const name args
    | some declared => (I.type (assign declared.vars args) declared).clamp (I.const name args)

theorem repair_const (hdeclared : k.constType? name = some declared) (hty : k.IsType declared) :
    (I.repair k).const name (declared.vars.map ρ) =
      (I.type ρ declared).clamp (I.const name (declared.vars.map ρ)) := by
  simp only [repair, hdeclared]
  rw [type_assign hty fun v hv => Ty.mem_vars.mpr hv]

theorem type_repair (hty : k.IsType declared) :
    (I.repair k).type ρ declared = I.type ρ declared := by
  refine type_congr (fun name args _ => ?_) hty fun _ _ => rfl
  rfl

theorem constArgs_self (I : Interpretation.{u}) (ρ : TyVar Unit → NonemptySet.{u})
    (ty : HolType) : I.constArgs ρ ty ty = ty.vars.map ρ := by
  refine List.map_congr_left fun v hv => ?_
  have hvalue := Ty.valueIn_subst Ty.var v (Ty.mem_vars.mp hv)
  rw [Ty.subst_var_eq] at hvalue
  rw [hvalue, type_var]

theorem IsStandard.repair (hI : I.IsStandard) (hk : Kernel.initial ≤ k) :
    (I.repair k).IsStandard where
  tyOp_fun := hI.tyOp_fun
  tyOp_bool := hI.tyOp_bool
  const_eq A := by
    have hvars : [A] = (Ty.fn (tyVar "a") (.fn (tyVar "a") .bool)).vars.map fun _ => A := rfl
    have hty : k.IsType (.fn (tyVar "a") (.fn (tyVar "a") .bool)) :=
      Kernel.isType_eqType hk (Kernel.isType_var _)
    have hmem : I.const Term.eqName [A] ∈
        (I.type (fun _ => A) (.fn (tyVar "a") (.fn (tyVar "a") .bool))).1 := by
      rw [hI.const_eq, hI.type_fn, hI.type_fn, hI.type_bool, tyVar, type_var]
      exact Sets.equality_mem_funs
    rw [hvars] at hmem ⊢
    rw [repair_const (Kernel.constType?_eq hk) hty, NonemptySet.clamp_of_mem hmem, ← hvars,
      hI.const_eq]

end Interpretation

namespace StandardModel

variable {k k' : Kernel}

/-- The standard model that a standard interpretation becomes by repair. -/
def ofStandard {I : Interpretation.{u}} (hI : I.IsStandard) (hk : Kernel.initial ≤ k) :
    StandardModel.{u} k where
  toInterpretation := I.repair k
  isStandard := hI.repair hk
  const_mem _ _ hdeclared hty _ := by
    rw [type_repair hty, repair_const hdeclared hty]
    exact NonemptySet.clamp_mem _ _

/-- A constant for which something of its type is proposed means that at its declared type. -/
theorem term_const_ofStandard {I : Interpretation.{u}} (hI : I.IsStandard) (hk : Kernel.initial ≤ k)
    {σ : (ofStandard hI hk).Valuation} {env : List ZFSet.{u}} {name : Name} {declared : HolType}
    (hdeclared : k.constType? name = some declared) (hty : k.IsType declared)
    (hmem : I.const name (declared.vars.map σ.ty) ∈ (I.type σ.ty declared).1) :
    (ofStandard hI hk).term k σ env (.const name declared) =
      I.const name (declared.vars.map σ.ty) := by
  rw [term_const hdeclared, constArgs_self]
  exact (repair_const hdeclared hty).trans (NonemptySet.clamp_of_mem hmem)

/-- An interpretation that agrees with a standard model is standard. -/
theorem isStandard_of_agrees (hk : Kernel.initial ≤ k) {M : StandardModel.{u} k}
    {I : Interpretation.{u}} (hI : M.Agrees k I) : I.IsStandard where
  tyOp_fun A B := by
    rw [← hI.tyOp Ty.funName [A, B] (Kernel.arity?_fun hk)]
    exact M.isStandard.tyOp_fun A B
  tyOp_bool := by
    rw [← hI.tyOp Ty.boolName [] (Kernel.arity?_bool hk)]
    exact M.isStandard.tyOp_bool
  const_eq A := by
    have hty : k.IsType (.fn (tyVar "a") (.fn (tyVar "a") .bool)) :=
      Kernel.isType_eqType hk (Kernel.isType_var _)
    have hconst := hI.const _ _ (Kernel.constType?_eq hk) hty fun _ => A
    rw [vars_eqType, List.map_singleton] at hconst
    rw [← hconst]
    exact M.isStandard.const_eq A

/-- Repair for a larger kernel does not touch what the model says about its own. -/
theorem agrees_repair (hle : k ≤ k') {M : StandardModel.{u} k} {I : Interpretation.{u}}
    (hI : M.Agrees k I) : M.Agrees k (I.repair k') where
  tyOp := hI.tyOp
  const name declared hdeclared hty ρ := by
    have hconst := hI.const name declared hdeclared hty ρ
    have hmem : I.const name (declared.vars.map ρ) ∈ (I.type ρ declared).1 := by
      rw [← hconst, ← type_congr hI.tyOp hty fun _ _ => rfl]
      exact M.const_mem name declared hdeclared hty ρ
    rw [repair_const (Kernel.constType?_mono hle hdeclared) (hty.mono hle),
      NonemptySet.clamp_of_mem hmem, hconst]

theorem exists_extension (hk : Kernel.initial ≤ k) (hle : k ≤ k') (M : StandardModel.{u} k) :
    ∃ M' : StandardModel.{u} k', M.Agrees k M'.toInterpretation :=
  ⟨ofStandard (isStandard_of_agrees hk (Agrees.refl _ k)) (le_trans hk hle),
    agrees_repair hle (Agrees.refl _ k)⟩

end StandardModel

/-- The interpretation in which unknown types have one element and all constants are equality. -/
def Interpretation.basic : Interpretation.{u} where
  tyOp name
    | [A, B] => if name = Ty.funName then A.fn B else .unit
    | [] => if name = Ty.boolName then .bool else .unit
    | _ => .unit
  const _
    | [A] => Sets.equality A.1
    | _ => ∅

/-- **Every kernel that knows the basic notions has a standard model.** -/
theorem exists_standardModel {k : Kernel} (hk : Kernel.initial ≤ k) :
    Nonempty (StandardModel.{u} k) := by
  have hbasic : Interpretation.basic.{u}.IsStandard :=
    ⟨fun _ _ => by simp [basic], by simp [basic], fun _ => rfl⟩
  exact ⟨.ofStandard hbasic hk⟩

/-! ## Definitions of constants -/

namespace ConstDefinition

variable {k : Kernel} {c : ConstDefinition} {M : StandardModel.{u} k}

/-- The interpretation that takes the defined constant to the meaning of the defining term. -/
def interpret (c : ConstDefinition) (M : StandardModel.{u} k) : Interpretation.{u} where
  tyOp := M.tyOp
  const name args :=
    if name = c.name then M.term k (.ofPartial (assign c.ty.vars args) fun _ => ∅) [] c.term
    else M.const name args

theorem agrees_interpret (hc : c.Accepted k) : M.Agrees k (c.interpret M) where
  tyOp _ _ _ := rfl
  const name declared hdeclared _ ρ := by
    have hname : name ≠ c.name := by
      rintro rfl
      rw [hc.new] at hdeclared
      cases hdeclared
    exact (if_neg hname).symm

/-- **A model of a kernel extends to one of an accepted definition.** -/
theorem exists_extension (hk : Kernel.initial ≤ k) (hc : c.Accepted k) (M : StandardModel.{u} k) :
    ∃ M' : StandardModel.{u} (c.extend k), M.Agrees k M'.toInterpretation ∧ M'.Valid c.thm := by
  have hle := le_extend hc
  have hk' := le_trans hk hle
  have hagrees : M.Agrees k (c.interpret M) := agrees_interpret hc
  have hstandard := StandardModel.isStandard_of_agrees hk hagrees
  have hagrees' : M.Agrees k ((c.interpret M).repair (c.extend k)) :=
    StandardModel.agrees_repair hle hagrees
  refine ⟨.ofStandard hstandard hk', hagrees', ?_⟩
  have hty : k.IsType c.ty := hc.typed.isType_of_closed hk
  have hty' : (c.extend k).IsType c.ty := hty.mono hle
  rw [thm, StandardModel.valid_ofList_nil]
  intro σ
  -- the defining term under the type variables of its type alone
  let σ₀ : M.Valuation := .ofPartial (assign c.ty.vars (c.ty.vars.map σ.ty)) fun _ => ∅
  have hvalue : (c.interpret M).const c.name (c.ty.vars.map σ.ty) = M.term k σ₀ [] c.term :=
    if_pos rfl
  have hmem : M.term k σ₀ [] c.term ∈ ((c.interpret M).type σ.ty c.ty).1 := by
    rw [← type_congr hagrees.tyOp hty fun _ _ => rfl,
      ← type_assign (I := M.toInterpretation) hty fun v hv => Ty.mem_vars.mpr hv]
    exact StandardModel.term_mem_of_closed hc.typed
  rw [StandardModel.holds_equation hk' (.const hty' constType?_extend (Ty.isInstanceOf_self _))
    (hc.typed.mono hle), StandardModel.term_const_ofStandard hstandard hk' constType?_extend hty'
      (hvalue ▸ hmem), hvalue]
  -- the type of the definition shows every type variable that the term depends on
  refine hagrees'.term_eq_of_closed hle hc.typed hc.closed fun v hv => ?_
  exact assign_map (Ty.mem_vars.mpr (hc.not_hidden v hv))

end ConstDefinition

end

end HolSearch
