import HolSearch.Proofs.Kernel.EmptyTypes
import HolSearch.Proofs.Semantics.Runs
import HolSearch.Proofs.Semantics.TypeDefinition

/-!
# Consistency of definitions

A run without axioms is consistent unless it proves that one of the types it defines has no
elements, and it then is not.  That is all that can be said about the rules alone; a definition of
a type may well be such, for the kernel asks for no proof that the predicate holds of anything.

In terms of models: there is a standard model of the run if and only if each type was defined by a
predicate that holds of something in a model of the run up to there.  A run with a model is
consistent.
-/

namespace HolSearch

universe u

def Operation.isAxiomFree : Operation → Bool
  | .postulate _ => false
  | _ => true

namespace Development

variable {d : Development} {ops : List Operation}

/-- Inferences keep to what is valid in a model, and no model makes a variable valid. -/
theorem consistent_of_models (hd : d.WellFormed) {M : StandardModel.{u} d.kernel}
    (hM : d.Models M) : d.Consistent := by
  rintro thm ⟨more, hmore, hthm⟩ habsurd
  have hmodel : (d.steps more).WellFormed ∧
      ∃ M' : StandardModel.{u} (d.steps more).kernel, (d.steps more).Models M' := by
    refine steps_induction
      (P := fun d => d.WellFormed ∧ ∃ M : StandardModel.{u} d.kernel, d.Models M) ⟨hd, M, hM⟩ ?_
    rintro d op d' hop ⟨hd, M, hM⟩ h
    have hconservative : op.isConservative := by
      cases op with
      | infer => rfl
      | instantiate => rfl
      | _ => cases hmore _ hop
    exact ⟨h.wellFormed hd, h.exists_models hconservative hd hM⟩
  obtain ⟨_, M', hM'⟩ := hmodel
  exact M'.not_valid_of_isAbsurd habsurd (hM' thm hthm)

/-- Each type was defined by a predicate that holds of something in a model of what came before. -/
def TypesInhabited (ops : List Operation) : Prop :=
  ∀ (pre post : List Operation) (t : TypeDefinition), ops = pre ++ t.operation :: post →
    t.Accepted (run pre).kernel →
      ∃ M : StandardModel.{u} (run pre).kernel, (run pre).Models M ∧ t.IsInhabited M

theorem exists_models_of_typesInhabited (hops : ∀ op ∈ ops, op.isAxiomFree)
    (h : TypesInhabited.{u} ops) :
    ∃ M : StandardModel.{u} (run ops).kernel, (run ops).Models M := by
  refine run_induction (P := fun d => ∃ M : StandardModel.{u} d.kernel, d.Models M)
    exists_models_initial ?_
  intro pre op post d hsplit hpre hextends
  have hwell := wellFormed_run pre
  have hop : op.isAxiomFree := hops op (by simp [hsplit])
  by_cases hconservative : op.isConservative
  · obtain ⟨M, hM⟩ := hpre
    exact hextends.exists_models hconservative hwell hM
  · cases hextends with
    | @defineSubtype t ht =>
        obtain ⟨M, hM, hinhabited⟩ := h pre post t hsplit ht
        obtain ⟨M', hagrees, hctor, hdtor⟩ :=
          TypeDefinition.exists_extension hwell.initial_le ht hinhabited
        refine ⟨M', ?_⟩
        rw [Models, List.forall_mem_append, List.forall_mem_cons, List.forall_mem_singleton]
        exact ⟨hM.extend hwell (TypeDefinition.le_extend ht) hagrees, hctor, hdtor⟩
    | postulate => cases hop
    | _ => exact absurd rfl hconservative

/-- A model of a run is one of each part of it, and there each defined type has elements. -/
theorem typesInhabited_of_models {M : StandardModel.{u} (run ops).kernel}
    (hM : (run ops).Models M) : TypesInhabited.{u} ops := by
  rintro pre post t rfl ht
  have hwell := wellFormed_run pre
  have hk := hwell.initial_le
  have hle : t.extend (run pre).kernel ≤ (run (pre ++ t.operation :: post)).kernel := by
    rw [run_defineSubtype ht]
    exact kernel_le_steps ⟨t.extend (run pre).kernel, _⟩ post
  have hmem : ∀ thm ∈ (run pre).theorems ++ [t.ctorThm, t.dtorThm],
      thm ∈ (run (pre ++ t.operation :: post)).theorems := by
    rw [run_defineSubtype ht]
    exact fun thm hthm => mem_theorems_steps hthm post
  rw [List.forall_mem_append, List.forall_mem_cons, List.forall_mem_singleton] at hmem
  have hctor : (M.restrict hle).Valid t.ctorThm := by
    rw [StandardModel.valid_restrict_iff hle (TypeDefinition.wellFormed_ctorThm hk ht)]
    exact hM _ hmem.2.1
  have hdtor : (M.restrict hle).Valid t.dtorThm := by
    rw [StandardModel.valid_restrict_iff hle (TypeDefinition.wellFormed_dtorThm hk ht)]
    exact hM _ hmem.2.2
  refine ⟨_, fun thm hthm => ?_, TypeDefinition.isInhabited_of_valid hk ht hctor hdtor⟩
  have hthmWell := hwell.theorems thm hthm
  have hle' := TypeDefinition.le_extend ht
  rw [StandardModel.valid_restrict_iff hle' hthmWell,
    StandardModel.valid_restrict_iff hle (hthmWell.mono hle')]
  exact hM thm (hmem.1 thm hthm)

/-- **A run without axioms is consistent just if it does not prove one of its types empty.  It has
a standard model just if each type was defined by a predicate that holds of something in a model of
what came before, and then it is consistent.** -/
theorem consistent_iff_of_isAxiomFree (ops : List Operation) (hops : ∀ op ∈ ops, op.isAxiomFree) :
    ((run ops).Consistent ↔ ∀ t, Defines ops t → ¬(run ops).Refutes t) ∧
      ((∃ M : StandardModel.{u} (run ops).kernel, (run ops).Models M) ↔ TypesInhabited.{u} ops) ∧
      ((∃ M : StandardModel.{u} (run ops).kernel, (run ops).Models M) → (run ops).Consistent) := by
  have hwell := wellFormed_run ops
  refine ⟨⟨fun hconsistent t ht hrefutes => ?_, fun h => ?_⟩,
    ⟨fun ⟨_, hM⟩ => typesInhabited_of_models hM, exists_models_of_typesInhabited hops⟩,
    fun ⟨_, hM⟩ => consistent_of_models hwell hM⟩
  · exact not_consistent_of_refutes hwell (knows_of_defines ht) hrefutes hconsistent
  · by_cases hdefines : ∃ t, Defines ops t
    · obtain ⟨t, ht⟩ := hdefines
      by_contra hinconsistent
      exact h t ht (refutes_of_not_consistent hwell (knows_of_defines ht) hinconsistent)
    · -- without any defined type there is a model
      have htypes : TypesInhabited.{0} ops :=
        fun pre post t hsplit ht => absurd ⟨t, pre, post, hsplit, ht⟩ hdefines
      obtain ⟨M, hM⟩ := exists_models_of_typesInhabited hops htypes
      exact consistent_of_models hwell hM

/-! ## A type without elements -/

/-- The type of the propositions `r` such that `(λ x. x = x) = (λ x. x)`, which there are none. -/
def voidType : TypeDefinition where
  name := "void"
  ctor := "mk"
  dtor := "get"
  pred := .abs .bool (.equation (.fn .bool .bool)
    (.abs .bool (.equation .bool (.bound 0 .bool) (.bound 0 .bool))) (.abs .bool (.bound 0 .bool)))
  carrier := .bool

theorem accepted_voidType : voidType.Accepted Kernel.initial where
  name_new := rfl
  ctor_new := rfl
  dtor_new := rfl
  ctor_ne_dtor := by decide
  closed := rfl
  typed := Kernel.checkTerm_eq_ok_iff.mp (by decide)

theorem refutes_voidType : (run [voidType.operation]).Refutes voidType := by
  have hd := wellFormed_run [voidType.operation]
  have hbool := Kernel.isType_bool hd.initial_le
  have hr : (run [voidType.operation]).kernel.HasType .empty (freeVar "r" .bool) .bool := .var hbool
  have hp : (run [voidType.operation]).kernel.HasType .empty (freeVar "p" .bool) .bool := .var hbool
  have hpred := (accepted_voidType.typed.mono (initial_le_run [voidType.operation])).app hr
  have hbeta : ∀ (name : Name) {t : HolTerm} {a : HolType},
      (run [voidType.operation]).kernel.HasType .empty t a →
      (run [voidType.operation]).Derives (.ofList []
        (.equation a (.app (Term.mkAbs ⟨(), name, .bool⟩ t) (freeVar name .bool)) t)) := by
    intro name t a ht
    refine .infers hd ?_ (.betaReduction hbool ht)
    exact nofun
  have hbody : (run [voidType.operation]).kernel.HasType .empty (.equation (.fn .bool .bool)
      (.abs .bool (.equation .bool (.bound 0 .bool) (.bound 0 .bool)))
      (.abs .bool (.bound 0 .bool))) .bool := Kernel.checkTerm_eq_ok_iff.mp (by decide)
  have hrefl := Derives.reflexivity hd hp
  -- at `p` the two functions have the values `p = p` and `p`
  have hassume : (run [voidType.operation]).Derives (.ofList
      [.app voidType.pred (freeVar "r" .bool)] (.app voidType.pred (freeVar "r" .bool))) := by
    refine .infers hd ?_ (.assume hpred)
    exact nofun
  have hfunctions := Derives.modusPonens hd (hbeta "r" hbody) hassume rfl
  have hvalues := Derives.congruence hd hfunctions hrefl rfl rfl
  have hleft := Derives.modusPonens hd
    (.symmetry hd (hbeta "p" (.equation hd.initial_le hbool hp hp))) hrefl rfl
  have hright := Derives.modusPonens hd hvalues hleft rfl
  exact ⟨"p", by decide, .modusPonens hd (hbeta "p" hp) hright rfl⟩

theorem not_consistent_voidType :
    (∀ op ∈ [voidType.operation], op.isAxiomFree) ∧ ¬(run [voidType.operation]).Consistent := by
  have hops : ∀ op ∈ [voidType.operation], op.isAxiomFree := by decide
  refine ⟨hops, fun hconsistent => ?_⟩
  exact (consistent_iff_of_isAxiomFree.{0} _ hops).1.mp hconsistent voidType
    ⟨[], [], rfl, accepted_voidType⟩ refutes_voidType

end Development

end HolSearch
