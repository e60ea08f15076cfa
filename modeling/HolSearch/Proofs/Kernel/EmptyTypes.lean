import HolSearch.Proofs.Kernel.Derivation

/-!
# Types without elements

A type is defined by a predicate `P` on a carrier type, and the kernel does not ask for a proof
that `P` holds of anything.  Its two theorems `ctor (dtor a) = a` and `P r = (dtor (ctor r) = r)`
claim as much all the same: together they yield `P (dtor a)` (`derives_pred_destruct`).  So if some
variable follows from `P r`, it follows from nothing (`not_consistent_of_refutes`), and conversely
what follows from nothing follows from `P r` (`refutes_of_not_consistent`).
-/

namespace HolSearch

def TypeDefinition.operation (t : TypeDefinition) : Operation :=
  .defineSubtype t.name t.ctor t.dtor t.pred

namespace Development

variable {d : Development} {t : TypeDefinition}

theorem step_defineSubtype (ht : t.Accepted d.kernel) :
    d.step t.operation = ⟨t.extend d.kernel, d.theorems ++ [t.ctorThm, t.dtorThm]⟩ := by
  have hall : ∀ operand ∈ t.operation.operands, operand ∈ d.theorems := nofun
  rw [step, if_pos hall]
  simp only [TypeDefinition.operation, Operation.perform, run_bind,
    Kernel.defineSubtype_of_accepted ht, run_pure]

theorem run_defineSubtype {pre : List Operation} (ht : t.Accepted (run pre).kernel)
    (post : List Operation) :
    run (pre ++ t.operation :: post) =
      steps ⟨t.extend (run pre).kernel, (run pre).theorems ++ [t.ctorThm, t.dtorThm]⟩ post := by
  rw [run, steps_append, steps_cons, ← run, step_defineSubtype ht]

/-- The run defines the type. -/
def Defines (ops : List Operation) (t : TypeDefinition) : Prop :=
  ∃ pre post, ops = pre ++ t.operation :: post ∧ t.Accepted (run pre).kernel

/-- The theorems and the kernel contain the definition of the type. -/
structure Knows (d : Development) (t : TypeDefinition) : Prop where
  ctorThm_mem : t.ctorThm ∈ d.theorems
  dtorThm_mem : t.dtorThm ∈ d.theorems
  extend_le : ∃ k, Kernel.initial ≤ k ∧ t.Accepted k ∧ t.extend k ≤ d.kernel

theorem knows_of_defines {ops : List Operation} (h : Defines ops t) : (run ops).Knows t := by
  obtain ⟨pre, post, rfl, ht⟩ := h
  rw [run_defineSubtype ht]
  refine ⟨mem_theorems_steps (by simp) post, mem_theorems_steps (by simp) post,
    (run pre).kernel, initial_le_run pre, ht, ?_⟩
  exact kernel_le_steps ⟨t.extend (run pre).kernel, _⟩ post

/-- Some variable follows from the assumption that the predicate holds of `r`. -/
def Refutes (d : Development) (t : TypeDefinition) : Prop :=
  ∃ name, freeVar name .bool ≠ freeVar "r" t.carrier ∧
    d.Derives (.ofList [.app t.pred (freeVar "r" t.carrier)] (freeVar name .bool))

/-! ## What the two theorems yield -/

section Knows

variable {x : HolTerm}

theorem Knows.isType_carrier (ht : d.Knows t) : d.kernel.IsType t.carrier := by
  obtain ⟨k, hk, haccepted, hle⟩ := ht.extend_le
  have hextend := TypeDefinition.le_extend haccepted
  exact ((TypeDefinition.isType_carrier hk haccepted).mono hextend).mono hle

theorem Knows.hasType_pred_app (ht : d.Knows t) (hx : d.kernel.HasType .empty x t.carrier) :
    d.kernel.HasType .empty (.app t.pred x) .bool := by
  obtain ⟨k, hk, haccepted, hle⟩ := ht.extend_le
  exact .app ((haccepted.typed.mono (TypeDefinition.le_extend haccepted)).mono hle) hx

theorem Knows.hasType_destruct (ht : d.Knows t) :
    d.kernel.HasType .empty (t.destruct (freeVar "a" t.ty)) t.carrier := by
  obtain ⟨k, hk, haccepted, hle⟩ := ht.extend_le
  exact (TypeDefinition.hasType_destruct hk haccepted (.var TypeDefinition.isType_ty)).mono hle

theorem Knows.replace_pred (ht : d.Knows t) (v : HolVar) : t.pred.replace v x = t.pred := by
  obtain ⟨k, hk, haccepted, hle⟩ := ht.extend_le
  refine Term.replace_of_notMem ?_
  rw [haccepted.closed]
  exact nofun

end Knows

/-- The predicate holds of what the destructor yields. -/
theorem derives_pred_destruct (hd : d.WellFormed) (ht : d.Knows t) :
    d.Derives (.ofList [] (.app t.pred (t.destruct (freeVar "a" t.ty)))) := by
  obtain ⟨k, hk, haccepted, hle⟩ := ht.extend_le
  let r : HolVar := ⟨(), "r", t.carrier⟩
  let x := t.destruct (freeVar "a" t.ty)
  have hdtor := (TypeDefinition.hasType_dtor (Γ := .empty) hk haccepted).mono hle
  -- `dtor (ctor x) = x`, for `ctor x = a` by the first theorem
  have hfixed : d.Derives (.ofList [] (.equation t.carrier (t.destruct (t.construct x)) x)) :=
    .congruence hd (.reflexivity hd hdtor) (.of_mem ht.ctorThm_mem) rfl rfl
  have hinstance : t.dtorThm.conclusion.replace r x = .equation .bool (.app t.pred x)
      (.equation t.carrier (t.destruct (t.construct x)) x) := by
    show Term.equation .bool (.app (t.pred.replace r x) ((Term.var r).replace r x))
      (.equation t.carrier (t.destruct (t.construct ((Term.var r).replace r x)))
        ((Term.var r).replace r x)) = _
    rw [Term.replace_self, ht.replace_pred]
  have hsecond := Derives.replace (v := r) (.of_mem ht.dtorThm_mem) ht.hasType_destruct
  rw [hinstance] at hsecond
  exact .modusPonens hd (.symmetry hd hsecond) hfixed rfl

/-- What follows from the predicate at `r` follows from the predicate at an element. -/
theorem derives_of_refutes (ht : d.Knows t) {name : String}
    (hne : freeVar name .bool ≠ freeVar "r" t.carrier)
    (hp : d.Derives (.ofList [.app t.pred (freeVar "r" t.carrier)] (freeVar name .bool))) :
    d.Derives
      (.ofList [.app t.pred (t.destruct (freeVar "a" t.ty))] (freeVar name .bool)) := by
  let r : HolVar := ⟨(), "r", t.carrier⟩
  let x := t.destruct (freeVar "a" t.ty)
  have hpred : (Term.app t.pred (.var r)).replace r x = .app t.pred x := by
    show Term.app (t.pred.replace r x) ((Term.var r).replace r x) = _
    rw [Term.replace_self, ht.replace_pred]
  have hvar : (freeVar name .bool).replace r x = freeVar name .bool := by
    refine Term.replace_of_notMem ?_
    rw [freeVar, Term.leaves, List.mem_singleton]
    exact fun heq => hne (congrArg Term.var heq.symm)
  have hx : d.kernel.HasType .empty x t.carrier := ht.hasType_destruct
  have hreplaced := hp.replace (v := r) hx
  simp only [Theorem.ofList_premises, Theorem.ofList_conclusion, distinct_singleton, hvar,
    List.map_singleton] at hreplaced
  rw [← hpred]
  exact hreplaced

/-- **A variable that follows from the predicate follows from nothing.** -/
theorem not_consistent_of_refutes (hd : d.WellFormed) (ht : d.Knows t) (h : d.Refutes t) :
    ¬d.Consistent := by
  obtain ⟨name, hne, hp⟩ := h
  let x := t.destruct (freeVar "a" t.ty)
  have hmember : d.Derives (.ofList [] (.app t.pred x)) := derives_pred_destruct hd ht
  have hrefuted : d.Derives (.ofList [.app t.pred x] (freeVar name .bool)) :=
    derives_of_refutes ht hne hp
  -- `P x ⊢ p` and `⊢ P x` give `⊢ P x = p`
  have hequation :
      d.Derives (.ofList [] (.equation .bool (.app t.pred x) (freeVar name .bool))) := by
    simpa using Derives.antisymmetry hd hmember hrefuted
  intro hconsistent
  exact hconsistent _ (.modusPonens hd hequation hmember rfl) ⟨rfl, name, rfl⟩

/-- **What follows from nothing follows from the predicate.** -/
theorem refutes_of_not_consistent (hd : d.WellFormed) (ht : d.Knows t) (h : ¬d.Consistent) :
    d.Refutes t := by
  simp only [Consistent, not_forall, not_not] at h
  obtain ⟨thm, hthm, habsurd⟩ := h
  obtain ⟨name, rfl⟩ := habsurd.eq_ofList
  -- the variable is renamed so that it is not `r`
  have hp : d.Derives (.ofList [] (freeVar "p" .bool)) := by
    have hbool : d.kernel.HasType .empty (freeVar "p" .bool) .bool :=
      .var (Kernel.isType_bool hd.initial_le)
    have hrenamed : (freeVar name .bool).replace ⟨(), name, .bool⟩ (freeVar "p" .bool) =
        freeVar "p" .bool := Term.replace_self _ _
    have hreplaced := hthm.replace (v := ⟨(), name, .bool⟩) hbool
    rw [Theorem.ofList_conclusion, hrenamed] at hreplaced
    exact hreplaced
  refine ⟨"p", ?_, hp.weaken hd (ht.hasType_pred_app (.var ht.isType_carrier))⟩
  simp [freeVar]

end Development

end HolSearch
