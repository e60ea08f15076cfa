import HolSearch.Proofs.Kernel.Rules
import HolSearch.Proofs.Semantics.Interpretation

/-!
# Standard models

In a standard model functions mean all functions between two sets, propositions mean the two truth
values, equality means identity, and each constant means an element of its type.  A theorem is
valid in a model if its conclusion is true under every valuation that makes its premises true.

A term means an element of its type (`StandardModel.term_mem`), and an equation is true just if its
two sides mean the same (`StandardModel.holds_equation`).  Validity of a theorem depends only on
what the model says about the kernel that the theorem is well-formed in
(`StandardModel.valid_iff`), so it passes to models of larger kernels and back.
-/

namespace HolSearch

universe u

open Interpretation

/-- Functions are all functions between two sets, propositions are the truth values, and equality is
identity. -/
structure Interpretation.IsStandard (I : Interpretation.{u}) : Prop where
  tyOp_fun : ∀ A B, I.tyOp Ty.funName [A, B] = A.fn B
  tyOp_bool : I.tyOp Ty.boolName [] = .bool
  const_eq : ∀ A, I.const Term.eqName [A] = Sets.equality A.1

namespace Interpretation.IsStandard

variable {I : Interpretation.{u}}

theorem type_fn (hI : I.IsStandard) (ρ : TyVar Unit → NonemptySet.{u}) (a b : HolType) :
    I.type ρ (.fn a b) = (I.type ρ a).fn (I.type ρ b) := by
  rw [Ty.fn, type_app]
  exact hI.tyOp_fun _ _

theorem type_bool (hI : I.IsStandard) (ρ : TyVar Unit → NonemptySet.{u}) :
    I.type ρ .bool = .bool := by
  rw [Ty.bool, type_app]
  exact hI.tyOp_bool

end Interpretation.IsStandard

/-- A standard interpretation that takes each constant of the kernel to elements of its declared
type, one for each choice of sets for the type variables. -/
structure StandardModel (k : Kernel) extends Interpretation.{u} where
  isStandard : toInterpretation.IsStandard
  const_mem : ∀ name declared, k.constType? name = some declared → k.IsType declared → ∀ ρ,
    const name (declared.vars.map ρ) ∈ (toInterpretation.type ρ declared).1

namespace StandardModel

variable {k k' : Kernel} (M : StandardModel.{u} k)

/-- The proposition is true under the valuation. -/
def Holds (σ : M.Valuation) (p : HolTerm) : Prop := M.term k σ [] p = Sets.truth True

/-- The conclusion is true under every valuation that makes the premises true. -/
def Valid (thm : Theorem) : Prop :=
  ∀ σ : M.Valuation, (∀ p ∈ thm.premises, M.Holds σ p) → M.Holds σ thm.conclusion

variable {M} {σ : M.Valuation} {env : List ZFSet.{u}} {Γ : Stack HolType} {t : HolTerm}
  {ty : HolType}

theorem valid_ofList {ps : List HolTerm} {c : HolTerm} :
    M.Valid (.ofList ps c) ↔ ∀ σ : M.Valuation, (∀ p ∈ ps, M.Holds σ p) → M.Holds σ c := by
  simp only [Valid, Theorem.ofList_premises, Theorem.ofList_conclusion, mem_distinct]

theorem valid_ofList_nil {c : HolTerm} :
    M.Valid (.ofList [] c) ↔ ∀ σ : M.Valuation, M.Holds σ c := by
  rw [valid_ofList]
  exact forall_congr' fun σ => ⟨fun h => h nofun, fun h _ => h⟩

/-! ## Terms mean elements of their types -/

/-- **A term means an element of its type.** -/
theorem term_mem (h : k.HasType Γ t ty) (henv : Fits σ Γ env) :
    M.term k σ env t ∈ (M.type σ.ty ty).1 := by
  induction h generalizing env with
  | abs _ _ ih =>
      rw [term, M.isStandard.type_fn]
      exact Sets.graph_mem_funs fun x hx => ih (henv.push hx)
  | app _ _ ihf ihx =>
      have hf := ihf henv
      rw [M.isStandard.type_fn] at hf
      exact Sets.apply_mem hf (ihx henv)
  | @const _ name ty declared hty hdeclared hinst =>
      have hsubst := Ty.subst_valueIn hinst
      rw [← hsubst, Kernel.isType_subst_iff] at hty
      have hmem := M.const_mem name declared hdeclared hty.1 fun v =>
        M.type σ.ty (declared.valueIn ty v)
      rw [← type_subst, hsubst] at hmem
      rw [term_const hdeclared]
      exact hmem
  | var => exact σ.var_mem _
  | bound hget =>
      obtain ⟨x, hx, hvalue⟩ := henv _ _ hget
      rw [term, hvalue]
      exact hx

theorem term_mem_of_closed (h : k.HasType .empty t ty) :
    M.term k σ env t ∈ (M.type σ.ty ty).1 :=
  term_mem h (fits_empty σ env)

/-- A proposition means the truth value that says whether it is true. -/
theorem term_eq_truth (h : k.HasType .empty t .bool) :
    M.term k σ [] t = Sets.truth (M.Holds σ t) := by
  have hmem : M.term k σ [] t ∈ (M.type σ.ty .bool).1 := term_mem_of_closed h
  rw [M.isStandard.type_bool] at hmem
  exact Sets.eq_truth_of_mem hmem

/-! ## Equations -/

theorem vars_eqType : (Ty.fn (tyVar "a") (.fn (tyVar "a") .bool)).vars = [⟨(), "a"⟩] := by decide

theorem term_equation (hk : Kernel.initial ≤ k) {a : HolType} {l r : HolTerm}
    (hl : k.HasType Γ l a) (hr : k.HasType Γ r a) (henv : Fits σ Γ env) :
    M.term k σ env (.equation a l r) =
      Sets.truth (M.term k σ env l = M.term k σ env r) := by
  have hargs : M.constArgs σ.ty (.fn (tyVar "a") (.fn (tyVar "a") .bool)) (.fn a (.fn a .bool)) =
      [M.type σ.ty a] := by
    have hvalue : (Ty.fn (tyVar "a") (.fn (tyVar "a") .bool)).valueIn (.fn a (.fn a .bool))
        ⟨(), "a"⟩ = a :=
      Ty.valueIn_subst (fun _ => a) ⟨(), "a"⟩ (by decide)
    rw [constArgs, vars_eqType, List.map_singleton]
    exact congrArg (fun ty => [M.type σ.ty ty]) hvalue
  rw [Term.equation, term, term, term_const (Kernel.constType?_eq hk), hargs, M.isStandard.const_eq]
  exact Sets.apply_equality (term_mem hl henv) (term_mem hr henv)

/-- **An equation is true just if its two sides mean the same.** -/
theorem holds_equation (hk : Kernel.initial ≤ k) {a : HolType} {l r : HolTerm}
    (hl : k.HasType .empty l a) (hr : k.HasType .empty r a) :
    M.Holds σ (.equation a l r) ↔ M.term k σ [] l = M.term k σ [] r := by
  rw [Holds, term_equation hk hl hr (fits_empty σ []), Sets.truth_eq_true]

/-! ## Models of smaller and larger kernels -/

/-- A model of a kernel is one of every smaller kernel. -/
def restrict {k k' : Kernel} (M : StandardModel.{u} k') (hle : k ≤ k') : StandardModel.{u} k where
  toInterpretation := M.toInterpretation
  isStandard := M.isStandard
  const_mem name declared hdeclared hty :=
    M.const_mem name declared (Kernel.constType?_mono hle hdeclared) (hty.mono hle)

variable {M' : StandardModel.{u} k'}

theorem holds_iff (hle : k ≤ k') (hM : M.Agrees k M'.toInterpretation) {σ' : M'.Valuation}
    (h : k.HasType .empty t .bool) (hty : σ.ty = σ'.ty)
    (hvar : ∀ v : HolVar, k.IsType v.ty → σ.var v = σ'.var v) :
    M.Holds σ t ↔ M'.Holds σ' t := by
  have hterm : M.term k σ [] t = M'.term k' σ' [] t :=
    hM.term_eq_of_empty hle h (fun _ _ v _ => congrFun hty v)
      fun v hv => hvar v (h.isType_of_mem_leaves hv)
  rw [Holds, Holds, hterm]

/-- **A theorem that is well-formed in a kernel is valid in both or none of two models that agree on
that kernel.** -/
theorem valid_iff (hle : k ≤ k') (hM : M.Agrees k M'.toInterpretation) {thm : Theorem}
    (hthm : k.WellFormed thm) : M.Valid thm ↔ M'.Valid thm := by
  have htype : ∀ (ρ : TyVar Unit → NonemptySet.{u}) (v : HolVar), k.IsType v.ty →
      M.type ρ v.ty = M'.type ρ v.ty :=
    fun ρ v hv => type_congr hM.tyOp hv fun _ _ => rfl
  constructor
  · intro hvalid σ' hpremises
    let σ : M.Valuation := .ofPartial σ'.ty σ'.var
    have hvar : ∀ v : HolVar, k.IsType v.ty → σ.var v = σ'.var v := by
      intro v hv
      refine Valuation.ofPartial_var ?_
      rw [htype _ v hv]
      exact σ'.var_mem v
    refine (holds_iff hle hM hthm.prop rfl hvar).mp (hvalid σ fun p hp => ?_)
    exact (holds_iff hle hM (hthm.premise hp) rfl hvar).mpr (hpremises p hp)
  · intro hvalid σ hpremises
    let σ' : M'.Valuation := .ofPartial σ.ty σ.var
    have hvar : ∀ v : HolVar, k.IsType v.ty → σ.var v = σ'.var v := by
      intro v hv
      refine (Valuation.ofPartial_var ?_).symm
      rw [← htype _ v hv]
      exact σ.var_mem v
    refine (holds_iff hle hM hthm.prop rfl hvar).mpr (hvalid σ' fun p hp => ?_)
    exact (holds_iff hle hM (hthm.premise hp) rfl hvar).mp (hpremises p hp)

theorem valid_restrict_iff (hle : k ≤ k') {thm : Theorem} (hthm : k.WellFormed thm) :
    (M'.restrict hle).Valid thm ↔ M'.Valid thm :=
  valid_iff hle (Agrees.refl _ k) hthm

end StandardModel

end HolSearch
