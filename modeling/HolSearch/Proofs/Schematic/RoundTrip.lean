import HolSearch.Proofs.Schematic.Instantiate

/-!
# Matching a pattern and instantiating it

A strategy is applied by matching its pattern with a goal and making its steps from what the match
assigns.  The two directions belong together: a pattern instantiated by a match is the goal that it
was matched with (`matching_instantiate_inverse`).

Matching compares trees, while instantiation rebuilds every node through the kernel, which may
refuse to.  It does not, because each node that it rebuilds is one of the goal, and the goal is
well-formed.
-/

namespace HolSearch.Schema

variable {k : Kernel} {s : MetaSubst} {schema : Schema}

/-- Terms that fit well-formed terms are instantiated to them. -/
theorem forall₂_instantiate {pats : List MetaTerm} {tms : List HolTerm}
    (hfits : List.Forall₂ (MetaTerm.Fits s) pats tms)
    (htms : ∀ tm ∈ tms, k.HasType .empty tm .bool) :
    List.Forall₂ (fun pat tm => MetaTerm.instantiate k s pat = .ok tm) pats tms := by
  have hboth := (List.forall₂_and_left tms pats).mpr ⟨htms, hfits.flip⟩
  exact (hboth.imp fun tm pat h => h.2.instantiate_eq h.1).flip

theorem instantiate_eq {premises : List HolTerm} {conclusion : HolTerm}
    (hpremises : List.Forall₂ (fun p q => MetaTerm.instantiate k s p = .ok q)
      schema.premises premises)
    (hconclusion : MetaTerm.instantiate k s schema.conclusion = .ok conclusion)
    (extra : List HolTerm) :
    schema.instantiate k s extra = .ok (.ofList (premises ++ extra) conclusion) := by
  simp only [instantiate, bind_eq_ok, pure_eq_ok]
  exact ⟨premises, mapM_eq_ok_iff_forall₂.mpr hpremises, conclusion, hconclusion, rfl⟩

/-- Premises that are there already add nothing. -/
theorem ofList_append_equiv {goal : Conjecture} {qs : List HolTerm}
    (hsub : ∀ q ∈ qs, q ∈ goal.premises) :
    Sequent.ofList (qs ++ goal.premises) goal.conclusion ≈ goal := by
  refine Sequent.equiv_iff.mpr ⟨rfl, fun q => ?_⟩
  rw [Sequent.ofList_premises, mem_distinct, List.mem_append]
  exact ⟨fun h => h.elim (hsub q) id, Or.inr⟩

/-- **Instantiating a pattern by a match gives back the goal.**  The goal consists of propositions
of the kernel and the match pairs every premise of the pattern.  Then the pattern can be
instantiated under any extra premises: to the conclusion of the goal, from as many different
premises of the goal as the pattern has, and the extra ones.  Under the premises of the goal it
becomes the goal. -/
theorem matching_instantiate_inverse (k : Kernel) (pat : Schema) (goal : Conjecture)
    (hgoal : k.checkProps goal.members = .ok ()) (s s' : MetaSubst) (extras : Bool)
    (hmatch : s' ∈ (pat.matchings goal s extras false).toList) :
    (∃ qs : List HolTerm, qs.Nodup ∧ (∀ q ∈ qs, q ∈ goal.premises) ∧
      List.Forall₂ (fun p q => MetaTerm.instantiate k s' p = .ok q) pat.premises qs ∧
      ∀ extra, pat.instantiate k s' extra = .ok (.ofList (qs ++ extra) goal.conclusion)) ∧
    ∃ conj, pat.instantiate k s' goal.premises = .ok conj ∧ conj ≈ goal := by
  have hmembers := Kernel.checkProps_eq_ok_iff.mp hgoal
  rw [Sequent.members, List.forall_mem_append, List.forall_mem_singleton] at hmembers
  obtain ⟨hconclusion, qs, hnodup, hsub, hpremises⟩ := exists_fits_of_mem_matchings hmatch
  have hinsts := forall₂_instantiate hpremises fun q hq => hmembers.1 q (hsub q hq)
  have hinst := instantiate_eq hinsts (hconclusion.instantiate_eq hmembers.2)
  exact ⟨⟨qs, hnodup, hsub, hinsts, hinst⟩, _, hinst goal.premises, ofList_append_equiv hsub⟩

/-- The pattern `?u, ?u = ?v ⊢ (λ. #0) = !f`, where `f` is fixed. -/
def premisesPattern : Schema :=
  let u : MetaTerm := .var ⟨.unfixed, "u", .bool⟩
  let v : MetaTerm := .var ⟨.unfixed, "v", .bool⟩
  let ty : MetaType := .fn (.var ⟨.unfixed, "a"⟩) (.var ⟨.unfixed, "a"⟩)
  .ofList [u, .equation .bool u v]
    (.equation ty (.abs (.var ⟨.unfixed, "a"⟩) (.bound 0 (.var ⟨.unfixed, "a"⟩)))
      (.var ⟨.fixed, "f", ty⟩))

/-- The goal `a, b, b = c ⊢ (λ. #0) = (λ. x0)`. -/
def premisesGoal : Conjecture :=
  let a := freeVar "a" .bool
  let b := freeVar "b" .bool
  let c := freeVar "c" .bool
  .ofList [a, b, .equation .bool b c]
    (.equation (.fn .bool .bool) (.abs .bool (.bound 0 .bool)) (.abs .bool (freeVar "x0" .bool)))

/-- `u` is matched with `a` first, which leaves nothing for `?u = ?v`, and then with `b`. -/
theorem matching_instantiate_inverse_premises :
    let s : MetaSubst := { terms := .insert {} "f" (.abs .bool (freeVar "x0" .bool)) }
    let s' : MetaSubst :=
      { terms := (s.terms.insert "u" (freeVar "b" .bool)).insert "v" (freeVar "c" .bool)
        types := .insert {} "a" .bool }
    s' ∈ (premisesPattern.matchings premisesGoal s true false).toList ∧
      ∃ conj, premisesPattern.instantiate .initial s' premisesGoal.premises = .ok conj ∧
        conj ≈ premisesGoal := by
  intro s s'
  have hgoal : Kernel.initial.checkProps premisesGoal.members = .ok () := by decide +kernel
  have hmatch : s' ∈ (premisesPattern.matchings premisesGoal s true false).toList := by
    decide +kernel
  exact ⟨hmatch,
    (matching_instantiate_inverse .initial premisesPattern premisesGoal hgoal s s' true hmatch).2⟩

end HolSearch.Schema
