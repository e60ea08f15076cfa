import HolSearch.Kernel.Rules
import HolSearch.Proofs.Syntax.Sequent

/-!
# The order of premises

Theorems store their premises in some order, and every rule builds the list of premises anew: it
appends two lists, drops discharged premises, or maps all premises, where different ones may become
equal.  What a rule does must depend on the premises as a set, and so must the question whether it
refuses.  Each rule takes what it concludes from the conclusions alone, so that for equal operands
it goes through the same steps up to the list of premises that it builds at the end
(`SameOutcome.bind_left`); the lists have the same members (`ofList_equiv`).  Instantiation looks at
the premises while it maps them and is a case of `Sequent.Equiv.tryMap`.

Main statement: `rules_ignore_premise_order`.
-/

namespace HolSearch

namespace Theorem

variable {l l' r r' : Theorem}

theorem equiv_iff :
    l ≈ l' ↔ l.conclusion = l'.conclusion ∧ ∀ p, p ∈ l.premises ↔ p ∈ l'.premises :=
  Sequent.equiv_iff

theorem ofList_equiv {ps qs : List HolTerm} (h : ∀ p, p ∈ ps ↔ p ∈ qs) (c : HolTerm) :
    ofList ps c ≈ ofList qs c :=
  ((Sequent.BuiltFrom.ofList ps c).equiv_iff (.ofList qs c)).mpr ⟨rfl, Set.ext h⟩

theorem destEq_eq_of_equiv (h : l ≈ l') : l.destEq = l'.destEq := by
  rw [destEq, destEq, (equiv_iff.mp h).1]

/-- The premises of two theorems together. -/
theorem mem_append_premises_iff (hl : l ≈ l') (hr : r ≈ r') (p : HolTerm) :
    p ∈ l.premises ++ r.premises ↔ p ∈ l'.premises ++ r'.premises := by
  rw [List.mem_append, List.mem_append, (equiv_iff.mp hl).2, (equiv_iff.mp hr).2]

theorem sameOutcome_congruence (hl : l ≈ l') (hr : r ≈ r') :
    SameOutcome (l.congruence r) (l'.congruence r') := by
  rw [congruence, congruence, destEq_eq_of_equiv hl, destEq_eq_of_equiv hr]
  refine .bind_left _ fun fg => .bind_left _ fun xy => ?_
  refine .bind_left _ fun fx => .bind_left _ fun gy => .bind_left _ fun c => .ok ?_
  exact ofList_equiv (mem_append_premises_iff hl hr) c

theorem sameOutcome_modusPonens (hl : l ≈ l') (hr : r ≈ r') :
    SameOutcome (l.modusPonens r) (l'.modusPonens r') := by
  rw [modusPonens, modusPonens, destEq_eq_of_equiv hl, (equiv_iff.mp hr).1]
  refine .bind_left _ fun pq => ?_
  dsimp only
  split
  · exact .ok (ofList_equiv (mem_append_premises_iff hl hr) pq.2)
  · exact .error _ _

theorem sameOutcome_antisymmetry (hl : l ≈ l') (hr : r ≈ r') :
    SameOutcome (l.antisymmetry r) (l'.antisymmetry r') := by
  obtain ⟨hconclusion, hmem⟩ := equiv_iff.mp hl
  obtain ⟨hconclusion', hmem'⟩ := equiv_iff.mp hr
  rw [antisymmetry, antisymmetry, hconclusion, hconclusion']
  refine .bind_left _ fun c => .ok (ofList_equiv (fun p => ?_) c)
  simp only [List.mem_append, List.mem_filter, hmem, hmem']

end Theorem

namespace Kernel

variable {k : Kernel} {l l' : Theorem}

theorem sameOutcome_abstraction (h : l ≈ l') (v : HolVar) :
    SameOutcome (k.abstraction v l) (k.abstraction v l') := by
  obtain ⟨-, hmem⟩ := Theorem.equiv_iff.mp h
  have hcapture :
      (l.premises.any fun p => p.contains v) = l'.premises.any fun p => p.contains v := by
    rw [Bool.eq_iff_iff, List.any_eq_true, List.any_eq_true]
    simp only [hmem]
  rw [abstraction, abstraction, hcapture, Theorem.destEq_eq_of_equiv h]
  refine .bind_left _ fun _ => ?_
  split
  · exact .error _ _
  · refine .bind_left _ fun pq => .bind_left _ fun c => .ok ?_
    exact Theorem.ofList_equiv hmem c

theorem sameOutcome_typeAbstraction (h : l ≈ l') (ty : HolType) :
    SameOutcome (k.typeAbstraction ty l) (k.typeAbstraction ty l') := by
  rw [typeAbstraction, typeAbstraction, Theorem.destEq_eq_of_equiv h]
  refine .bind_left _ fun _ => .bind_left _ fun pq => .bind_left _ fun c => .ok ?_
  exact Theorem.ofList_equiv (Theorem.equiv_iff.mp h).2 c

/-- The first premise whose variables have no fitting values decides the reason of a refusal, but
not that there is one. -/
theorem sameOutcome_instantiate (h : l ≈ l') (s : HolSubst) :
    SameOutcome (k.instantiate l s) (k.instantiate l' s) := by
  have hmapped := Sequent.Equiv.tryMap h fun tm =>
    tm.trySubst (k.instantiateVar s) fun ty => .ok (HolSubst.onType s ty)
  exact .bind_left _ fun _ => hmapped.bind fun _ _ hequiv => .ok hequiv

/-- **The rules do not see the order of premises.**  From equal operands a rule derives equal
theorems or none at all. -/
theorem rules_ignore_premise_order (k : Kernel) (l l' r r' : Theorem) (hl : l ≈ l') (hr : r ≈ r') :
    SameOutcome (l.congruence r) (l'.congruence r') ∧
    SameOutcome (l.modusPonens r) (l'.modusPonens r') ∧
    SameOutcome (l.antisymmetry r) (l'.antisymmetry r') ∧
    (∀ v, SameOutcome (k.abstraction v l) (k.abstraction v l')) ∧
    (∀ ty, SameOutcome (k.typeAbstraction ty l) (k.typeAbstraction ty l')) ∧
    ∀ s, SameOutcome (k.instantiate l s) (k.instantiate l' s) :=
  ⟨Theorem.sameOutcome_congruence hl hr, Theorem.sameOutcome_modusPonens hl hr,
    Theorem.sameOutcome_antisymmetry hl hr, sameOutcome_abstraction hl,
    sameOutcome_typeAbstraction hl, sameOutcome_instantiate hl⟩

/-- The premises `p` and `q` in both orders, kept by modus ponens and merged by an instantiation. -/
theorem rules_ignore_premise_order_swapped :
    let p := freeVar "p" .bool
    let q := freeVar "q" .bool
    let l : Theorem := .ofList [p, q] (.equation .bool p q)
    let l' : Theorem := .ofList [q, p] (.equation .bool p q)
    let s : HolSubst := { terms := .ofList [(⟨(), "q", .bool⟩, p)] }
    l ≈ l' ∧ Theorem.ofList [q] p ≈ Theorem.ofList [q, q] p ∧
      (∃ thm thm', l.modusPonens (.ofList [q] p) = .ok thm ∧
        l'.modusPonens (.ofList [q, q] p) = .ok thm' ∧ thm.premises ≠ thm'.premises ∧ thm ≈ thm') ∧
      ∃ thm thm', initial.instantiate l s = .ok thm ∧ initial.instantiate l' s = .ok thm' ∧
        thm.premises = [p] ∧ thm ≈ thm' := by
  intro p q l l' s
  have hl : l ≈ l' := by decide
  have hr : Theorem.ofList [q] p ≈ Theorem.ofList [q, q] p := by decide
  obtain ⟨-, hmodusPonens, -, -, -, hinstantiate⟩ :=
    rules_ignore_premise_order initial l l' (.ofList [q] p) (.ofList [q, q] p) hl hr
  have hthm : l.modusPonens (.ofList [q] p) = .ok (.ofList [p, q] q) := by decide
  have hthm' : l'.modusPonens (.ofList [q, q] p) = .ok (.ofList [q, p] q) := by decide
  have hinst : initial.instantiate l s = .ok (.ofList [p] (.equation .bool p p)) := by decide
  have hinst' : initial.instantiate l' s = .ok (.ofList [p] (.equation .bool p p)) := by decide
  exact ⟨hl, hr, ⟨_, _, hthm, hthm', by decide, hmodusPonens.2 _ _ hthm hthm'⟩,
    ⟨_, _, hinst, hinst', rfl, (hinstantiate s).2 _ _ hinst hinst'⟩⟩

end Kernel

end HolSearch
