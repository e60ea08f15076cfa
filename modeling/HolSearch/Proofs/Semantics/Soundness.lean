import HolSearch.Proofs.Semantics.Model

/-!
# The rules are sound

Each inference rule leads from theorems that are valid in a standard model to one that is, and so
does instantiation.  Only a rule's own condition is ever used: that the abstracted variable occurs
in no premise, or that antisymmetry drops from each side what the other side concludes.
-/

namespace HolSearch

universe u

open Interpretation

namespace StandardModel

variable {k : Kernel} {M : StandardModel.{u} k} {thm : Theorem}

/-! ## Rules about abstractions -/

/-- The premises do not depend on the variable, so the two bodies agree at all of its values. -/
theorem valid_abstraction (hk : Kernel.initial ≤ k) (hwell : k.WellFormed thm) (hthm : M.Valid thm)
    {v : HolVar} {p q : HolTerm} {a : HolType} (hv : k.IsType v.ty)
    (hfresh : ∀ h ∈ thm.premises, v ∉ h.leaves) (hpq : thm.conclusion = .equation a p q)
    (hp : k.HasType .empty p a) (hq : k.HasType .empty q a) :
    M.Valid (.ofList thm.premises
      (.equation (.fn v.ty a) (Term.mkAbs v p) (Term.mkAbs v q))) := by
  rw [valid_ofList]
  intro σ hpremises
  rw [holds_equation hk (hp.mkAbs hv) (hq.mkAbs hv), Term.mkAbs, Term.mkAbs, term, term]
  refine Sets.graph_congr fun x hx => ?_
  rw [term_bind_zero hx hp, term_bind_zero hx hq, ← holds_equation hk hp hq, ← hpq]
  refine hthm _ fun h hh => ?_
  rw [Holds, term_update_of_notMem hx (hwell.premise hh) (hfresh h hh)]
  exact hpremises h hh

theorem valid_typeAbstraction (hk : Kernel.initial ≤ k) (hthm : M.Valid thm) {p q : HolTerm}
    {ty a : HolType} (hty : k.IsType ty) (hpq : thm.conclusion = .equation a p q)
    (hp : k.HasType .empty p a) (hq : k.HasType .empty q a) :
    M.Valid (.ofList thm.premises (.equation (.fn ty a) (.abs ty p) (.abs ty q))) := by
  rw [valid_ofList]
  intro σ hpremises
  have hsides := hthm σ hpremises
  rw [hpq, holds_equation hk hp hq] at hsides
  rw [holds_equation hk (.abs hty (hp.weaken (Stack.maps_empty id _)))
    (.abs hty (hq.weaken (Stack.maps_empty id _))), term, term]
  refine Sets.graph_congr fun x _ => ?_
  rw [term_closed hp [x] [], term_closed hq [x] [], hsides]

theorem valid_betaReduction (hk : Kernel.initial ≤ k) {v : HolVar} {body : HolTerm} {a : HolType}
    (hv : k.IsType v.ty) (hbody : k.HasType .empty body a) :
    M.Valid (.ofList [] (.equation a (.app (Term.mkAbs v body) (.var v)) body)) := by
  rw [valid_ofList_nil]
  intro σ
  have hx := σ.var_mem v
  rw [holds_equation hk ((hbody.mkAbs hv).app (.var hv)) hbody, term, Term.mkAbs, term, term,
    Sets.apply_graph hx, term_bind_zero hx hbody]
  -- the variable is given the value that it has
  refine (Agrees.refl _ k).term_eq_of_empty (le_refl k) hbody (fun _ _ _ _ => rfl) fun w _ => ?_
  by_cases hw : w = v
  · rw [hw]
    exact if_pos rfl
  · exact if_neg hw

/-! ## Rules about propositions -/

theorem valid_modusPonens (hk : Kernel.initial ≤ k) {major minor : Theorem} {q : HolTerm}
    (hwell : k.WellFormed minor) (hmajor : M.Valid major) (hminor : M.Valid minor)
    (hpq : major.conclusion = .equation .bool minor.conclusion q) (hq : k.HasType .empty q .bool) :
    M.Valid (.ofList (major.premises ++ minor.premises) q) := by
  rw [valid_ofList]
  intro σ hpremises
  rw [List.forall_mem_append] at hpremises
  have hsides := hmajor σ hpremises.1
  rw [hpq, holds_equation hk hwell.prop hq] at hsides
  rw [Holds, ← hsides]
  exact hminor σ hpremises.2

/-- If each side is true whenever the other is, the two mean the same truth value. -/
theorem valid_antisymmetry (hk : Kernel.initial ≤ k) {left right : Theorem}
    (hwellLeft : k.WellFormed left) (hwellRight : k.WellFormed right) (hleft : M.Valid left)
    (hright : M.Valid right) :
    M.Valid (.ofList
      (left.premises.filter (· ≠ right.conclusion) ++ right.premises.filter (· ≠ left.conclusion))
      (.equation .bool left.conclusion right.conclusion)) := by
  have hdischarge : ∀ {thm thm' : Theorem} {σ : M.Valuation}, M.Valid thm →
      (∀ p ∈ thm.premises.filter (· ≠ thm'.conclusion), M.Holds σ p) →
      M.Holds σ thm'.conclusion → M.Holds σ thm.conclusion := by
    intro thm thm' σ hthm hpremises hconclusion
    refine hthm σ fun p hp => ?_
    by_cases hdropped : p = thm'.conclusion
    · rw [hdropped]
      exact hconclusion
    · exact hpremises p (List.mem_filter.mpr ⟨hp, by simpa using hdropped⟩)
  rw [valid_ofList]
  intro σ hpremises
  rw [List.forall_mem_append] at hpremises
  rw [holds_equation hk hwellLeft.prop hwellRight.prop, term_eq_truth hwellLeft.prop,
    term_eq_truth hwellRight.prop, Sets.truth_inj]
  exact ⟨hdischarge hright hpremises.2, hdischarge hleft hpremises.1⟩

/-- **Each inference rule leads from valid theorems to a valid one.** -/
theorem valid_of_infers (hk : Kernel.initial ≤ k) {i : Inference} (h : k.Infers i thm)
    (hwell : ∀ operand ∈ i.operands, k.WellFormed operand)
    (hvalid : ∀ operand ∈ i.operands, M.Valid operand) : M.Valid thm := by
  cases h with
  | reflexivity ht =>
      rw [valid_ofList_nil]
      intro σ
      rw [holds_equation hk ht ht]
  | @congruence fg xy f g x y _ _ hfg hxy hf hg hx hy =>
      rw [valid_ofList]
      intro σ hpremises
      rw [List.forall_mem_append] at hpremises
      have hfunctions := hvalid fg (by simp [Inference.operands]) σ hpremises.1
      have harguments := hvalid xy (by simp [Inference.operands]) σ hpremises.2
      rw [hfg, holds_equation hk hf hg] at hfunctions
      rw [hxy, holds_equation hk hx hy] at harguments
      rw [holds_equation hk (hf.app hx) (hg.app hy), term, term, hfunctions, harguments]
  | @abstraction _ thm _ _ _ hv hfresh hpq hp hq =>
      exact valid_abstraction hk (hwell thm (by simp [Inference.operands]))
        (hvalid thm (by simp [Inference.operands])) hv hfresh hpq hp hq
  | @typeAbstraction _ thm _ _ _ hty hpq hp hq =>
      exact valid_typeAbstraction hk (hvalid thm (by simp [Inference.operands])) hty hpq hp hq
  | betaReduction hv hbody => exact valid_betaReduction hk hv hbody
  | @assume p _ =>
      rw [valid_ofList]
      intro σ hpremises
      exact hpremises p (by simp)
  | @modusPonens major minor _ hmajor hq =>
      exact valid_modusPonens hk (hwell minor (by simp [Inference.operands]))
        (hvalid major (by simp [Inference.operands])) (hvalid minor (by simp [Inference.operands]))
        hmajor hq
  | @antisymmetry left right =>
      exact valid_antisymmetry hk (hwell left (by simp [Inference.operands]))
        (hwell right (by simp [Inference.operands])) (hvalid left (by simp [Inference.operands]))
        (hvalid right (by simp [Inference.operands]))

/-! ## Instantiation -/

/-- **Instantiation leads from a valid theorem to a valid one.** -/
theorem valid_of_instantiate {thm' : Theorem} {s : HolSubst} (hwell : k.WellFormed thm)
    (hvalid : M.Valid thm) (h : k.instantiate thm s = .ok thm') : M.Valid thm' := by
  obtain ⟨htypes, hvars, rfl⟩ := Kernel.instantiate_eq_ok_iff.mp h
  rw [Sequent.members, List.forall_mem_append, List.forall_mem_singleton] at hvars
  show M.Valid (.ofList (thm.premises.map (Term.subst (HolSubst.onVar s) (HolSubst.onType s)))
    (thm.conclusion.subst (HolSubst.onVar s) (HolSubst.onType s)))
  rw [valid_ofList]
  intro σ hpremises
  -- the variables of the theorem take the meanings of what is put in their places
  let σ₁ : M.Valuation := .ofPartial (fun v => M.type σ.ty (HolSubst.onTyVar s v))
    fun v => M.term k σ [] (HolSubst.onVar s v)
  have hterm : ∀ p : HolTerm, k.HasType .empty p .bool → (∀ v ∈ p.leaves, k.Instantiable s v) →
      M.term k σ [] (p.subst (HolSubst.onVar s) (HolSubst.onType s)) = M.term k σ₁ [] p := by
    intro p hp hinst
    have htyped : ∀ v ∈ p.leaves, k.HasType .empty (HolSubst.onVar s v) (HolSubst.onType s v.ty) :=
      fun v hv => Kernel.hasType_onVar htypes (hp.isType_of_mem_leaves hv) (hinst v hv)
    refine term_subst hp htyped rfl fun v hv => Valuation.ofPartial_var ?_
    rw [← type_subst]
    exact term_mem_of_closed (htyped v hv)
  rw [Holds, hterm _ hwell.prop hvars.2]
  refine hvalid σ₁ fun p hp => ?_
  rw [Holds, ← hterm p (hwell.premise hp) (hvars.1 p hp)]
  exact hpremises _ (List.mem_map_of_mem hp)

end StandardModel

end HolSearch
