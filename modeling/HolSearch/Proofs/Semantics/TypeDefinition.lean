import HolSearch.Proofs.Kernel.WellFormed
import HolSearch.Proofs.Semantics.Extension

/-!
# Models of defined types

The two theorems of a definition of a type say that the new type is in bijection with the elements
of the carrier of which the predicate holds.  Types mean nonempty sets, so a model can only extend
to the new type if the predicate holds of something whatever its type variables mean, and this is
also enough (`exists_extension`): the new type is taken to be the set of these elements, the
destructor to be the inclusion, and the constructor to take everything else to an arbitrary one of
them.
-/

namespace HolSearch.TypeDefinition

universe u

open Interpretation

noncomputable section

variable {k : Kernel} {t : TypeDefinition} {M : StandardModel.{u} k}

/-- The predicate holds of something, whatever the type variables mean. -/
def IsInhabited (t : TypeDefinition) (M : StandardModel.{u} k) : Prop :=
  ∀ σ : M.Valuation, ∃ x ∈ (M.type σ.ty t.carrier).1,
    Sets.apply (M.term k σ [] t.pred) x = Sets.truth True

/-! ## The set of the new type -/

/-- The elements of the carrier of which the predicate holds. -/
def elements (t : TypeDefinition) (M : StandardModel.{u} k) (ρ : TyVar Unit → NonemptySet.{u}) :
    ZFSet.{u} :=
  ZFSet.sep
    (fun x => Sets.apply (M.term k (.ofPartial ρ fun _ => ∅) [] t.pred) x = Sets.truth True)
    (M.type ρ t.carrier).1

theorem elements_congr (hk : Kernel.initial ≤ k) (ht : t.Accepted k)
    {ρ ρ' : TyVar Unit → NonemptySet.{u}} (hρ : ∀ v ∈ t.pred.typeVars, ρ v = ρ' v) :
    t.elements M ρ = t.elements M ρ' := by
  have hcarrier : M.type ρ t.carrier = M.type ρ' t.carrier :=
    type_congr (fun _ _ _ => rfl) (isType_carrier hk ht)
      fun v hv => hρ v (mem_typeVars_of_mem_carrier ht hv)
  have hpred : M.term k (.ofPartial ρ fun _ => ∅) [] t.pred =
      M.term k (.ofPartial ρ' fun _ => ∅) [] t.pred :=
    (Agrees.refl _ k).term_eq_of_closed (le_refl k) ht.typed ht.closed hρ
  rw [elements, elements, hcarrier, hpred]

/-- The set that the new type means. -/
def subset (hM : t.IsInhabited M) (ρ : TyVar Unit → NonemptySet.{u}) : NonemptySet.{u} where
  val := t.elements M ρ
  property := by
    obtain ⟨x, hx, htrue⟩ := hM (.ofPartial ρ fun _ => ∅)
    exact ⟨x, ZFSet.mem_sep.mpr ⟨hx, htrue⟩⟩

variable {hM : t.IsInhabited M}

theorem subset_congr (hk : Kernel.initial ≤ k) (ht : t.Accepted k)
    {ρ ρ' : TyVar Unit → NonemptySet.{u}} (hρ : ∀ v ∈ t.pred.typeVars, ρ v = ρ' v) :
    subset hM ρ = subset hM ρ' :=
  Subtype.ext (elements_congr hk ht hρ)

theorem subset_assign (hk : Kernel.initial ≤ k) (ht : t.Accepted k) {vs : List (TyVar Unit)}
    (hvs : ∀ v ∈ t.pred.typeVars, v ∈ vs) (ρ : TyVar Unit → NonemptySet.{u}) :
    subset hM (assign vs (vs.map ρ)) = subset hM ρ :=
  subset_congr hk ht fun v hv => assign_map (hvs v hv)

theorem mem_subset_iff {ρ : TyVar Unit → NonemptySet.{u}} {x : ZFSet.{u}} :
    x ∈ (subset hM ρ).1 ↔ x ∈ (M.type ρ t.carrier).1 ∧
      Sets.apply (M.term k (.ofPartial ρ fun _ => ∅) [] t.pred) x = Sets.truth True := by
  show x ∈ t.elements M ρ ↔ _
  rw [elements, ZFSet.mem_sep]

/-! ## The interpretation -/

def interpret (hM : t.IsInhabited M) : Interpretation.{u} where
  tyOp name args :=
    if name = t.name then subset hM (assign t.pred.typeVars args) else M.tyOp name args
  const name args :=
    if name = t.ctor then
      let ρ := assign t.ctorTy.vars args
      Sets.graph (M.type ρ t.carrier).1 (subset hM ρ).clamp
    else if name = t.dtor then
      let ρ := assign t.dtorTy.vars args
      Sets.graph (subset hM ρ).1 fun x => x
    else M.const name args

theorem agrees_interpret (ht : t.Accepted k) : M.Agrees k (interpret hM) where
  tyOp name args harity := by
    have hname : name ≠ t.name := by
      rintro rfl
      rw [ht.name_new] at harity
      cases harity
    exact (if_neg hname).symm
  const name declared hdeclared _ ρ := by
    have hctor : name ≠ t.ctor := by
      rintro rfl
      rw [ht.ctor_new] at hdeclared
      cases hdeclared
    have hdtor : name ≠ t.dtor := by
      rintro rfl
      rw [ht.dtor_new] at hdeclared
      cases hdeclared
    simp only [interpret, if_neg hctor, if_neg hdtor]

variable {ρ : TyVar Unit → NonemptySet.{u}}

theorem type_carrier (hk : Kernel.initial ≤ k) (ht : t.Accepted k) :
    (interpret hM).type ρ t.carrier = M.type ρ t.carrier :=
  (type_congr (agrees_interpret ht).tyOp (isType_carrier hk ht) fun _ _ => rfl).symm

theorem type_ty (hk : Kernel.initial ≤ k) (ht : t.Accepted k) :
    (interpret hM).type ρ t.ty = subset hM ρ := by
  have hargs : (t.pred.typeVars.map Ty.var).map ((interpret hM).type ρ) =
      t.pred.typeVars.map ρ := by
    rw [List.map_map]
    exact List.map_congr_left fun v _ => type_var v
  rw [ty, type_app, hargs]
  exact (if_pos rfl).trans (subset_assign hk ht (fun _ hv => hv) ρ)

theorem const_ctor (hk : Kernel.initial ≤ k) (ht : t.Accepted k) :
    (interpret hM).const t.ctor (t.ctorTy.vars.map ρ) =
      Sets.graph (M.type ρ t.carrier).1 (subset hM ρ).clamp := by
  have hvars : ∀ v ∈ t.pred.typeVars, v ∈ t.ctorTy.vars := by
    intro v hv
    rw [Ty.mem_vars, ctorTy, Ty.leaves_fn]
    exact List.mem_append_right _ (mem_leaves_ty.mpr hv)
  have hcarrier : M.type (assign t.ctorTy.vars (t.ctorTy.vars.map ρ)) t.carrier =
      M.type ρ t.carrier :=
    type_assign (isType_carrier hk ht) fun v hv => hvars v (mem_typeVars_of_mem_carrier ht hv)
  simp only [interpret, if_true]
  rw [hcarrier, subset_assign hk ht hvars]

theorem const_dtor (hk : Kernel.initial ≤ k) (ht : t.Accepted k) :
    (interpret hM).const t.dtor (t.dtorTy.vars.map ρ) =
      Sets.graph (subset hM ρ).1 fun x => x := by
  have hvars : ∀ v ∈ t.pred.typeVars, v ∈ t.dtorTy.vars := by
    intro v hv
    rw [Ty.mem_vars, dtorTy, Ty.leaves_fn]
    exact List.mem_append_left _ (mem_leaves_ty.mpr hv)
  simp only [interpret, if_neg ht.ctor_ne_dtor.symm, if_true]
  rw [subset_assign hk ht hvars]

/-! ## The model -/

theorem isStandard_interpret (hk : Kernel.initial ≤ k) (ht : t.Accepted k) :
    (interpret hM).IsStandard :=
  StandardModel.isStandard_of_agrees hk (agrees_interpret ht)

/-- The model that interprets the new type, its constructor and its destructor. -/
def model (hk : Kernel.initial ≤ k) (ht : t.Accepted k) (hM : t.IsInhabited M) :
    StandardModel.{u} (t.extend k) :=
  have hstandard : (interpret hM).IsStandard := isStandard_interpret hk ht
  .ofStandard hstandard (le_trans hk (le_extend ht))

section

variable {hk : Kernel.initial ≤ k} {ht : t.Accepted k} {σ : (model hk ht hM).Valuation}
  {env : List ZFSet.{u}} {s : HolTerm}

theorem agrees_model : M.Agrees k (model hk ht hM).toInterpretation :=
  StandardModel.agrees_repair (le_extend ht) (agrees_interpret ht)

theorem model_type_ty : (model hk ht hM).type ρ t.ty = subset hM ρ :=
  (type_repair isType_ty).trans (type_ty hk ht)

theorem model_type_carrier : (model hk ht hM).type ρ t.carrier = M.type ρ t.carrier :=
  (type_repair ((isType_carrier hk ht).mono (le_extend ht))).trans (type_carrier hk ht)

/-- The constructor takes an element of the carrier to itself or to some element of the new type. -/
theorem term_construct
    (hs : (model hk ht hM).term (t.extend k) σ env s ∈ (M.type σ.ty t.carrier).1) :
    (model hk ht hM).term (t.extend k) σ env (t.construct s) =
      (subset hM σ.ty).clamp ((model hk ht hM).term (t.extend k) σ env s) := by
  have hk' := le_trans hk (le_extend ht)
  have hmem : (interpret hM).const t.ctor (t.ctorTy.vars.map σ.ty) ∈
      ((interpret hM).type σ.ty t.ctorTy).1 := by
    rw [const_ctor hk ht, ctorTy, (isStandard_interpret hk ht).type_fn, type_carrier hk ht,
      type_ty hk ht]
    exact Sets.graph_mem_funs fun x _ => NonemptySet.clamp_mem _ x
  have hconst : (model hk ht hM).term (t.extend k) σ env (.const t.ctor t.ctorTy) =
      Sets.graph (M.type σ.ty t.carrier).1 (subset hM σ.ty).clamp :=
    (StandardModel.term_const_ofStandard (isStandard_interpret hk ht) hk' (constType?_ctor ht)
      (isType_ctorTy hk ht) hmem).trans (const_ctor hk ht)
  rw [construct, term, hconst, Sets.apply_graph hs]

theorem term_destruct (hs : (model hk ht hM).term (t.extend k) σ env s ∈ (subset hM σ.ty).1) :
    (model hk ht hM).term (t.extend k) σ env (t.destruct s) =
      (model hk ht hM).term (t.extend k) σ env s := by
  have hk' := le_trans hk (le_extend ht)
  have hmem : (interpret hM).const t.dtor (t.dtorTy.vars.map σ.ty) ∈
      ((interpret hM).type σ.ty t.dtorTy).1 := by
    rw [const_dtor hk ht, dtorTy, (isStandard_interpret hk ht).type_fn, type_carrier hk ht,
      type_ty hk ht]
    exact Sets.graph_mem_funs fun x hx => (mem_subset_iff.mp hx).1
  have hconst : (model hk ht hM).term (t.extend k) σ env (.const t.dtor t.dtorTy) =
      Sets.graph (subset hM σ.ty).1 fun x => x :=
    (StandardModel.term_const_ofStandard (isStandard_interpret hk ht) hk' constType?_dtor
      (isType_dtorTy hk ht) hmem).trans (const_dtor hk ht)
  rw [destruct, term, hconst, Sets.apply_graph hs]

theorem valid_ctorThm : (model hk ht hM).Valid t.ctorThm := by
  have hk' := le_trans hk (le_extend ht)
  have ha : (t.extend k).HasType .empty (freeVar "a" t.ty) t.ty := .var isType_ty
  rw [ctorThm, StandardModel.valid_ofList_nil]
  intro σ
  have hmem : (model hk ht hM).term (t.extend k) σ [] (freeVar "a" t.ty) ∈ (subset hM σ.ty).1 := by
    rw [← model_type_ty]
    exact StandardModel.term_mem_of_closed ha
  have hdestruct := term_destruct hmem
  rw [StandardModel.holds_equation hk' (hasType_construct hk ht (hasType_destruct hk ht ha)) ha,
    term_construct (hdestruct ▸ (mem_subset_iff.mp hmem).1), hdestruct,
    NonemptySet.clamp_of_mem hmem]

/-- The constructor leaves an element of the carrier in place just if the predicate holds of it. -/
theorem valid_dtorThm : (model hk ht hM).Valid t.dtorThm := by
  have hle := le_extend ht
  have hk' := le_trans hk hle
  have hpred := ht.typed.mono hle
  have hcarrier := (isType_carrier hk ht).mono hle
  have hr : (t.extend k).HasType .empty (freeVar "r" t.carrier) t.carrier := .var hcarrier
  have hthere := hasType_destruct hk ht (hasType_construct hk ht hr)
  rw [dtorThm, StandardModel.valid_ofList_nil]
  intro σ
  have hmem : (model hk ht hM).term (t.extend k) σ [] (freeVar "r" t.carrier) ∈
      (M.type σ.ty t.carrier).1 := by
    rw [← model_type_carrier]
    exact StandardModel.term_mem_of_closed hr
  have hconstruct := term_construct hmem
  have hdestruct := term_destruct (hconstruct ▸ NonemptySet.clamp_mem _ _)
  have hmeaning : M.term k (.ofPartial σ.ty fun _ => ∅) [] t.pred =
      (model hk ht hM).term (t.extend k) σ [] t.pred :=
    agrees_model.term_eq_of_closed hle ht.typed ht.closed fun _ _ => rfl
  rw [StandardModel.holds_equation hk' (.app hpred hr) (.equation hk' hcarrier hthere hr),
    StandardModel.term_eq_truth (.app hpred hr),
    StandardModel.term_equation hk' hthere hr (fits_empty σ []), Sets.truth_inj, hdestruct,
    hconstruct, StandardModel.Holds, term, ← hmeaning]
  constructor
  · exact fun htrue => NonemptySet.clamp_of_mem (mem_subset_iff.mpr ⟨hmem, htrue⟩)
  · exact fun hfixed => (mem_subset_iff.mp (hfixed ▸ NonemptySet.clamp_mem _ _)).2

end

/-- **A model of a kernel extends to an accepted definition of a type if the predicate holds of
something.** -/
theorem exists_extension (hk : Kernel.initial ≤ k) (ht : t.Accepted k) (hM : t.IsInhabited M) :
    ∃ M' : StandardModel.{u} (t.extend k), M.Agrees k M'.toInterpretation ∧
      M'.Valid t.ctorThm ∧ M'.Valid t.dtorThm :=
  ⟨model hk ht hM, agrees_model, valid_ctorThm, valid_dtorThm⟩

/-- **In a model of a definition of a type the predicate holds of something**, for it holds of
whatever the destructor yields. -/
theorem isInhabited_of_valid (hk : Kernel.initial ≤ k) (ht : t.Accepted k)
    {M' : StandardModel.{u} (t.extend k)} (hctor : M'.Valid t.ctorThm)
    (hdtor : M'.Valid t.dtorThm) : t.IsInhabited (M'.restrict (le_extend ht)) := by
  intro (σ : M'.Valuation)
  have hle := le_extend ht
  have hk' := le_trans hk hle
  have hcarrier := (isType_carrier hk ht).mono hle
  have ha : (t.extend k).HasType .empty (freeVar "a" t.ty) t.ty := .var isType_ty
  have hr : (t.extend k).HasType .empty (freeVar "r" t.carrier) t.carrier := .var hcarrier
  have hback := hasType_destruct hk ht ha
  -- `x` is the destructor at `a`, and `r` is given the value `x`
  let x := M'.term (t.extend k) σ [] (t.destruct (freeVar "a" t.ty))
  have hx : x ∈ (M'.type σ.ty t.carrier).1 := StandardModel.term_mem_of_closed hback
  let σ' := σ.update ⟨(), "r", t.carrier⟩ x hx
  have hvar : M'.term (t.extend k) σ' [] (freeVar "r" t.carrier) = x := if_pos rfl
  have hconstruct : M'.term (t.extend k) σ' [] (t.construct (freeVar "r" t.carrier)) =
      M'.term (t.extend k) σ [] (freeVar "a" t.ty) := by
    have hinverse := StandardModel.valid_ofList_nil.mp hctor σ
    rw [StandardModel.holds_equation hk' (hasType_construct hk ht hback) ha] at hinverse
    rw [construct, term, hvar, ← hinverse]
    rfl
  have hdestruct : M'.term (t.extend k) σ' [] (t.destruct (t.construct (freeVar "r" t.carrier))) =
      x := by
    rw [destruct, term, hconstruct]
    rfl
  have hequation := StandardModel.valid_ofList_nil.mp hdtor σ'
  have hthere := hasType_destruct hk ht (hasType_construct hk ht hr)
  rw [StandardModel.holds_equation hk'
    (.app (ht.typed.mono hle) hr) (.equation hk' hcarrier hthere hr), term,
    StandardModel.term_equation hk' hthere hr (fits_empty σ' []), hdestruct, hvar] at hequation
  refine ⟨x, hx, ?_⟩
  have hpred : M'.term k σ [] t.pred = M'.term (t.extend k) σ' [] t.pred :=
    (Agrees.refl _ k).term_eq_of_closed hle ht.typed ht.closed fun _ _ => rfl
  show Sets.apply (M'.term k σ [] t.pred) x = Sets.truth True
  rw [hpred, hequation, Sets.truth_eq_true]

end

end HolSearch.TypeDefinition
