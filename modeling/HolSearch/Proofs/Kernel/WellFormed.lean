import HolSearch.Proofs.Kernel.Run

/-!
# Theorems are well-formed

Rules check the terms that they are given, but not all terms that they build.  It is still true that
the premises and the conclusion of every theorem are propositions of the kernel, and they remain so
in whatever the kernel becomes: `wellFormed_of_mem_run`.
-/

namespace HolSearch

theorem ConstDefinition.wellFormed_thm {k : Kernel} (hk : Kernel.initial ≤ k) {c : ConstDefinition}
    (hc : c.Accepted k) : (c.extend k).WellFormed c.thm := by
  have hle := le_extend hc
  have hty : (c.extend k).IsType c.ty := (hc.typed.isType_of_closed hk).mono hle
  exact .ofList nofun (.equation (le_trans hk hle) hty
    (.const hty constType?_extend (Ty.isInstanceOf_self _)) (hc.typed.mono hle))

namespace TypeDefinition

variable {k : Kernel} {d : TypeDefinition}

theorem mem_leaves_ty {v : TyVar Unit} : v ∈ d.ty.leaves ↔ v ∈ d.pred.typeVars := by
  simp [ty]

theorem mem_typeVars_of_mem_carrier (hd : d.Accepted k) {v : TyVar Unit}
    (hv : v ∈ d.carrier.leaves) : v ∈ d.pred.typeVars := by
  refine hd.typed.mem_typeVars ?_
  rw [Ty.leaves_fn]
  exact List.mem_append_left _ hv

theorem isType_ty : (d.extend k).IsType d.ty := by
  refine Kernel.isType_app_iff.mpr ⟨?_, ?_⟩
  · rw [arity?_extend, List.length_map]
  · intro ty hty
    obtain ⟨v, _, rfl⟩ := List.mem_map.mp hty
    exact Kernel.isType_var v

theorem isType_carrier (hk : Kernel.initial ≤ k) (hd : d.Accepted k) : k.IsType d.carrier :=
  (hd.typed.isType_of_closed hk).of_fn.1

theorem isType_ctorTy (hk : Kernel.initial ≤ k) (hd : d.Accepted k) :
    (d.extend k).IsType d.ctorTy :=
  (Kernel.isType_fn_iff (le_trans hk (le_extend hd))).mpr
    ⟨(isType_carrier hk hd).mono (le_extend hd), isType_ty⟩

theorem isType_dtorTy (hk : Kernel.initial ≤ k) (hd : d.Accepted k) :
    (d.extend k).IsType d.dtorTy :=
  (Kernel.isType_fn_iff (le_trans hk (le_extend hd))).mpr
    ⟨isType_ty, (isType_carrier hk hd).mono (le_extend hd)⟩

/-- In the extended kernel the constructor maps the carrier type to the new type, and the destructor
maps the new type to the carrier type. -/
theorem hasType_construct (hk : Kernel.initial ≤ k) (hd : d.Accepted k) {Γ : Stack HolType}
    {t : HolTerm} (ht : (d.extend k).HasType Γ t d.carrier) :
    (d.extend k).HasType Γ (d.construct t) d.ty :=
  .app (.const (isType_ctorTy hk hd) (constType?_ctor hd) (Ty.isInstanceOf_self _)) ht

theorem hasType_dtor (hk : Kernel.initial ≤ k) (hd : d.Accepted k) {Γ : Stack HolType} :
    (d.extend k).HasType Γ (.const d.dtor d.dtorTy) d.dtorTy :=
  .const (isType_dtorTy hk hd) constType?_dtor (Ty.isInstanceOf_self _)

theorem hasType_destruct (hk : Kernel.initial ≤ k) (hd : d.Accepted k) {Γ : Stack HolType}
    {t : HolTerm} (ht : (d.extend k).HasType Γ t d.ty) :
    (d.extend k).HasType Γ (d.destruct t) d.carrier :=
  (hasType_dtor hk hd).app ht

theorem wellFormed_ctorThm (hk : Kernel.initial ≤ k) (hd : d.Accepted k) :
    (d.extend k).WellFormed d.ctorThm := by
  have ha : (d.extend k).HasType .empty (freeVar "a" d.ty) d.ty := .var isType_ty
  exact .ofList nofun (.equation (le_trans hk (le_extend hd)) isType_ty
    (hasType_construct hk hd (hasType_destruct hk hd ha)) ha)

theorem wellFormed_dtorThm (hk : Kernel.initial ≤ k) (hd : d.Accepted k) :
    (d.extend k).WellFormed d.dtorThm := by
  have hk' := le_trans hk (le_extend hd)
  have hpred := hd.typed.mono (le_extend hd)
  have hcarrier := (isType_carrier hk hd).mono (le_extend hd)
  have hr : (d.extend k).HasType .empty (freeVar "r" d.carrier) d.carrier := .var hcarrier
  have hthere := hasType_destruct hk hd (hasType_construct hk hd hr)
  exact .ofList nofun (.equation hk' (Kernel.isType_bool hk') (.app hpred hr)
    (.equation hk' hcarrier hthere hr))

end TypeDefinition

namespace Development

/-- The kernel of a development knows the basic notions, and its theorems are well-formed. -/
structure WellFormed (d : Development) : Prop where
  initial_le : Kernel.initial ≤ d.kernel
  theorems : ∀ thm ∈ d.theorems, d.kernel.WellFormed thm

theorem Extends.wellFormed {d d' : Development} {op : Operation} (h : d.Extends op d')
    (hd : d.WellFormed) : d'.WellFormed := by
  have hk := hd.initial_le
  have hle := h.kernel_le
  have hold : ∀ thm ∈ d.theorems, d'.kernel.WellFormed thm :=
    fun thm hthm => (hd.theorems thm hthm).mono hle
  refine ⟨le_trans hk hle, ?_⟩
  cases h with
  | declareType => exact hold
  | declareConst => exact hold
  | postulate hconj =>
      rw [List.forall_mem_append, List.forall_mem_singleton]
      exact ⟨hold, hconj.mono hle⟩
  | defineConst hc =>
      rw [List.forall_mem_append, List.forall_mem_singleton]
      exact ⟨hold, ConstDefinition.wellFormed_thm hk hc⟩
  | defineSubtype ht =>
      rw [List.forall_mem_append, List.forall_mem_cons, List.forall_mem_singleton]
      exact ⟨hold, TypeDefinition.wellFormed_ctorThm hk ht, TypeDefinition.wellFormed_dtorThm hk ht⟩
  | infer hoperands hinfer =>
      rw [List.forall_mem_append, List.forall_mem_singleton]
      have hwell := fun operand hmem => hd.theorems operand (hoperands operand hmem)
      exact ⟨hold, (Kernel.infers_of_infer hk hwell hinfer).wellFormed hk hwell⟩
  | instantiate hoperand hinst =>
      rw [List.forall_mem_append, List.forall_mem_singleton]
      exact ⟨hold, (hd.theorems _ hoperand).instantiate hinst⟩

theorem WellFormed.steps {d : Development} (hd : d.WellFormed) (ops : List Operation) :
    (d.steps ops).WellFormed :=
  steps_induction (P := WellFormed) hd fun _ _ _ _ hd h => h.wellFormed hd

theorem wellFormed_run (ops : List Operation) : (run ops).WellFormed := by
  have hinitial : initial.WellFormed := ⟨le_refl _, nofun⟩
  exact hinitial.steps ops

/-- **Whatever a run has produced is well-formed, and stays so as the run goes on.** -/
theorem wellFormed_of_mem_run (ops more : List Operation) (thm : Theorem)
    (hthm : thm ∈ (run ops).theorems) : (run (ops ++ more)).kernel.WellFormed thm := by
  have hle : (run ops).kernel ≤ (run (ops ++ more)).kernel := by
    rw [run, run, steps_append]
    exact kernel_le_steps _ more
  exact ((wellFormed_run ops).theorems thm hthm).mono hle

/-- The definition `I = λ x. x` of the identity. -/
def identity : ConstDefinition where
  name := "I"
  term := .abs (tyVar "a") (.bound 0 (tyVar "a"))
  ty := .fn (tyVar "a") (tyVar "a")

def identityAt : Theorem :=
  .ofList [] (.equation (tyVar "a") (.app (.const "I" identity.ty) (freeVar "x" (tyVar "a")))
    (.app identity.term (freeVar "x" (tyVar "a"))))

/-- The definition of the identity and its use at a variable. -/
def identityRun : List Operation :=
  let x := freeVar "x" (tyVar "a")
  [.defineConst identity.name identity.term, .infer (.reflexivity x),
    .infer (.congruence identity.thm (.ofList [] (.equation (tyVar "a") x x)))]

theorem wellFormed_identityAt :
    identityAt ∈ (run identityRun).theorems ∧
      (run (identityRun ++ [.declareType "num" 0])).kernel.WellFormed identityAt := by
  have hmem : identityAt ∈ (run identityRun).theorems := by decide
  exact ⟨hmem, wellFormed_of_mem_run identityRun [.declareType "num" 0] identityAt hmem⟩

end Development

end HolSearch
