import HolSearch.Proofs.Kernel.Derivation
import HolSearch.Proofs.Semantics.Extension
import HolSearch.Proofs.Semantics.Soundness

/-!
# What runs of the kernel prove

In a standard model of all axioms and definitions that a run has recorded, every theorem of the run
is valid (`valid_of_mem_run`).  A model of the whole run is one of each part of it, so this is
shown operation by operation.

Without axioms and definitions of types there always is such a model: whatever the run declares or
defines, the model of what came before extends to it.  In no model is a variable true under all
valuations, so such a run never concludes one from nothing (`exists_model_of_isConservative`).
-/

namespace HolSearch

universe u

open Interpretation

/-- A variable is false under some valuation. -/
theorem StandardModel.not_valid_of_isAbsurd {k : Kernel} (M : StandardModel.{u} k) {thm : Theorem}
    (hthm : thm.IsAbsurd) : ¬M.Valid thm := by
  intro hvalid
  obtain ⟨hpremises, name, hconclusion⟩ := hthm
  let σ : M.Valuation := .ofPartial (fun _ => default) fun _ => Sets.truth False
  have hfalse : σ.var ⟨(), name, .bool⟩ = Sets.truth False := by
    refine Valuation.ofPartial_var ?_
    rw [M.isStandard.type_bool]
    exact Sets.truth_mem False
  have htrue := hvalid σ (by rw [hpremises]; exact nofun)
  rw [hconclusion, Holds, freeVar, term, hfalse, Sets.truth_eq_true] at htrue
  exact htrue

/-- The operation is neither an axiom nor the definition of a type. -/
def Operation.isConservative : Operation → Bool
  | .postulate _ => false
  | .defineSubtype .. => false
  | _ => true

namespace Development

/-- The model makes all theorems of the development valid. -/
def Models (d : Development) (M : StandardModel.{u} d.kernel) : Prop :=
  ∀ thm ∈ d.theorems, M.Valid thm

variable {d d' : Development} {op : Operation}

theorem Models.infer {M : StandardModel.{u} d.kernel} (hM : d.Models M) (hd : d.WellFormed)
    {inference : Inference} {thm : Theorem}
    (hoperands : ∀ operand ∈ inference.operands, operand ∈ d.theorems)
    (hinfer : d.kernel.infer inference = .ok thm) : M.Valid thm := by
  have hwell := fun operand hmem => hd.theorems operand (hoperands operand hmem)
  exact StandardModel.valid_of_infers hd.initial_le
    (Kernel.infers_of_infer hd.initial_le hwell hinfer) hwell
    fun operand hmem => hM operand (hoperands operand hmem)

theorem Models.instantiate {M : StandardModel.{u} d.kernel} (hM : d.Models M) (hd : d.WellFormed)
    {thm thm' : Theorem} {s : HolSubst} (hoperand : thm ∈ d.theorems)
    (hinst : d.kernel.instantiate thm s = .ok thm') : M.Valid thm' :=
  StandardModel.valid_of_instantiate (hd.theorems thm hoperand) (hM thm hoperand) hinst

/-- The theorems of a development stay valid in a model of a larger kernel that agrees with the
old one. -/
theorem Models.extend {M : StandardModel.{u} d.kernel} (hM : d.Models M) (hd : d.WellFormed)
    {k' : Kernel} (hle : d.kernel ≤ k') {M' : StandardModel.{u} k'}
    (hagrees : M.Agrees d.kernel M'.toInterpretation) : ∀ thm ∈ d.theorems, M'.Valid thm :=
  fun thm hthm => (StandardModel.valid_iff hle hagrees (hd.theorems thm hthm)).mp (hM thm hthm)

/-! ## Models of what is recorded -/

/-- A model of all that the kernel has recorded is one of all theorems. -/
def Sound (d : Development) : Prop :=
  ∀ M : StandardModel.{u} d.kernel, (∀ thm, d.kernel.Recorded thm → M.Valid thm) → d.Models M

theorem Extends.sound (h : d.Extends op d') (hwell : d.WellFormed)
    (hledgers : d.kernel.LedgersDeclared)
    (hproduced : ∀ thm, d.kernel.Recorded thm → thm ∈ d.theorems) (hd : Sound.{u} d) :
    Sound.{u} d' := by
  intro M hM
  have hle := h.kernel_le
  -- what was recorded before is still recorded, so the model is one of the old theorems
  have hrestrict : d.Models (M.restrict hle) := by
    refine hd (M.restrict hle) fun thm hrecorded => ?_
    rw [StandardModel.valid_restrict_iff hle (hwell.theorems thm (hproduced thm hrecorded))]
    exact hM thm (h.recorded hledgers hrecorded)
  have hold : ∀ thm ∈ d.theorems, M.Valid thm := hrestrict.extend hwell hle (Agrees.refl _ _)
  unfold Models
  cases h with
  | declareType => exact hold
  | declareConst => exact hold
  | postulate =>
      rw [List.forall_mem_append, List.forall_mem_singleton]
      exact ⟨hold, hM _ (Or.inl (by simp))⟩
  | @defineConst c _ =>
      rw [List.forall_mem_append, List.forall_mem_singleton]
      refine ⟨hold, hM _ (Or.inr (Or.inl ⟨c.name, ?_⟩))⟩
      simp [ConstDefinition.extend, Table.get?_insert]
  | @defineSubtype t _ =>
      rw [List.forall_mem_append, List.forall_mem_cons, List.forall_mem_singleton]
      refine ⟨hold, hM _ (Or.inr (Or.inr (Or.inl ⟨t.ctor, ?_⟩))),
        hM _ (Or.inr (Or.inr (Or.inr ⟨t.dtor, ?_⟩)))⟩
      · simp [TypeDefinition.extend, Table.get?_insert]
      · simp [TypeDefinition.extend, Table.get?_insert]
  | infer hoperands hinfer =>
      rw [List.forall_mem_append, List.forall_mem_singleton]
      exact ⟨hold, Models.infer hold hwell hoperands hinfer⟩
  | instantiate hoperand hinst =>
      rw [List.forall_mem_append, List.forall_mem_singleton]
      exact ⟨hold, Models.instantiate hold hwell hoperand hinst⟩

/-! ## Models of definitions -/

/-- A model of a development extends along every operation that is neither an axiom nor the
definition of a type. -/
theorem Extends.exists_models (h : d.Extends op d') (hop : op.isConservative) (hd : d.WellFormed)
    {M : StandardModel.{u} d.kernel} (hM : d.Models M) :
    ∃ M' : StandardModel.{u} d'.kernel, d'.Models M' := by
  have hk := hd.initial_le
  have hle := h.kernel_le
  cases h with
  | declareType =>
      obtain ⟨M', hagrees⟩ := M.exists_extension hk hle
      exact ⟨M', hM.extend hd hle hagrees⟩
  | declareConst =>
      obtain ⟨M', hagrees⟩ := M.exists_extension hk hle
      exact ⟨M', hM.extend hd hle hagrees⟩
  | postulate => cases hop
  | defineConst hc =>
      obtain ⟨M', hagrees, hthm⟩ := ConstDefinition.exists_extension hk hc M
      refine ⟨M', ?_⟩
      rw [Models, List.forall_mem_append, List.forall_mem_singleton]
      exact ⟨hM.extend hd hle hagrees, hthm⟩
  | defineSubtype => cases hop
  | infer hoperands hinfer =>
      refine ⟨M, ?_⟩
      rw [Models, List.forall_mem_append, List.forall_mem_singleton]
      exact ⟨hM, hM.infer hd hoperands hinfer⟩
  | instantiate hoperand hinst =>
      refine ⟨M, ?_⟩
      rw [Models, List.forall_mem_append, List.forall_mem_singleton]
      exact ⟨hM, hM.instantiate hd hoperand hinst⟩

theorem exists_models_initial : ∃ M : StandardModel.{u} initial.kernel, initial.Models M := by
  obtain ⟨M⟩ := exists_standardModel (le_refl Kernel.initial)
  exact ⟨M, nofun⟩

theorem exists_models_run (ops : List Operation) (hops : ∀ op ∈ ops, op.isConservative) :
    ∃ M : StandardModel.{u} (run ops).kernel, (run ops).Models M := by
  refine run_induction (P := fun d => ∃ M : StandardModel.{u} d.kernel, d.Models M)
    exists_models_initial ?_
  intro pre op post d hsplit hpre h
  obtain ⟨M, hM⟩ := hpre
  exact h.exists_models (hops op (by simp [hsplit])) (wellFormed_run pre) hM

/-! ## Main results -/

/-- **In every standard model of the axioms and definitions that a run has recorded, all theorems of
the run are valid.** -/
theorem valid_of_mem_run (ops : List Operation) (M : StandardModel.{u} (run ops).kernel)
    (hrecorded : ∀ thm, (run ops).kernel.Recorded thm → M.Valid thm) (thm : Theorem)
    (hthm : thm ∈ (run ops).theorems) : M.Valid thm := by
  have hsound : Sound.{u} (run ops) := by
    refine run_induction (P := Sound.{u}) (fun _ _ _ hthm => by cases hthm) ?_
    intro pre op post d _ hpre h
    exact h.sound (wellFormed_run pre) (ledgersDeclared_run pre) (mem_theorems_of_recorded pre) hpre
  exact hsound M hrecorded thm hthm

theorem valid_identityAt :
    ∃ M : StandardModel.{0} (run identityRun).kernel,
      (∀ thm, (run identityRun).kernel.Recorded thm → M.Valid thm) ∧ M.Valid identityAt := by
  obtain ⟨M, hM⟩ := exists_models_run.{0} identityRun (by decide)
  have hrecorded : ∀ thm, (run identityRun).kernel.Recorded thm → M.Valid thm :=
    fun thm hthm => hM thm (mem_theorems_of_recorded identityRun thm hthm)
  exact ⟨M, hrecorded, valid_of_mem_run identityRun M hrecorded identityAt (by decide)⟩

/-- **A run without axioms and definitions of types has a standard model in which all its theorems
are valid, and none of them concludes a variable from nothing.** -/
theorem exists_model_of_isConservative (ops : List Operation)
    (hops : ∀ op ∈ ops, op.isConservative) :
    (∃ M : StandardModel.{u} (run ops).kernel, ∀ thm ∈ (run ops).theorems, M.Valid thm) ∧
      ∀ thm ∈ (run ops).theorems, ¬thm.IsAbsurd := by
  obtain ⟨M, hM⟩ := exists_models_run ops hops
  exact ⟨⟨M, hM⟩, fun thm hthm habsurd => M.not_valid_of_isAbsurd habsurd (hM thm hthm)⟩

theorem exists_model_identityRun :
    (∀ op ∈ identityRun, op.isConservative) ∧
      (∃ M : StandardModel.{0} (run identityRun).kernel,
        ∀ thm ∈ (run identityRun).theorems, M.Valid thm) ∧
      ∀ thm ∈ (run identityRun).theorems, ¬thm.IsAbsurd :=
  ⟨by decide, exists_model_of_isConservative identityRun (by decide)⟩

end Development

end HolSearch
