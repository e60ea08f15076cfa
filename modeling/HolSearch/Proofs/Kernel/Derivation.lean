import HolSearch.Proofs.Kernel.WellFormed

/-!
# Derivations

Inferences and instantiations add theorems and leave the kernel as it is, so what some of them
produce stays within reach of all others: derivable theorems are closed under the rules
(`Derives.infer`, `Derives.instantiate`).  From this we get a few rules that the kernel does not
have: symmetry of equations, a premise put before a theorem, and a variable replaced by a term.
-/

namespace HolSearch

/-- The term with `x` in place of the variable `v`. -/
def Term.replace (t : HolTerm) (v : HolVar) (x : HolTerm) : HolTerm :=
  t.subst (fun w => if w = v then x else .var w) id

theorem Term.replace_of_notMem {v : HolVar} {x t : HolTerm} (hv : v ∉ t.leaves) :
    t.replace v x = t := by
  refine subst_eq_self fun w hw => if_neg ?_
  rintro rfl
  exact hv hw

theorem Term.replace_self (v : HolVar) (x : HolTerm) : (Term.var v).replace v x = x :=
  if_pos rfl

def HolSubst.single (v : HolVar) (x : HolTerm) : HolSubst := { terms := .insert {} v x }

theorem HolSubst.onType_single (v : HolVar) (x : HolTerm) : onType (single v x) = id :=
  funext fun ty => Ty.subst_var_eq ty

theorem HolSubst.onVar_single (v : HolVar) (x : HolTerm) :
    onVar (single v x) = fun w => if w = v then x else .var w := by
  funext w
  rw [onVar, onType_single, single, Table.get?_insert]
  split
  · rfl
  · rfl

/-- The operation infers a theorem from others. -/
def Operation.isInference : Operation → Bool
  | .infer _ => true
  | .instantiate .. => true
  | _ => false

namespace Development

variable {d d' : Development} {op : Operation} {thm thm' : Theorem} {i : Inference} {s : HolSubst}

/-- Inferences lead from the theorems of the development to the given one. -/
def Derives (d : Development) (thm : Theorem) : Prop :=
  ∃ ops : List Operation, (∀ op ∈ ops, op.isInference) ∧ thm ∈ (d.steps ops).theorems

/-! ## Inferences in larger developments -/

theorem mem_theorems_steps (hthm : thm ∈ d.theorems) (ops : List Operation) :
    thm ∈ (d.steps ops).theorems :=
  steps_induction (P := fun d => thm ∈ d.theorems) hthm fun _ _ _ _ hmem h => h.mem_theorems hmem

theorem step_infer (hoperands : ∀ operand ∈ i.operands, operand ∈ d.theorems)
    (hinfer : d.kernel.infer i = .ok thm) :
    d.step (.infer i) = ⟨d.kernel, d.theorems ++ [thm]⟩ := by
  have hall : ∀ operand ∈ (Operation.infer i).operands, operand ∈ d.theorems := hoperands
  rw [step, if_pos hall]
  simp only [Operation.perform, run_bind, run_get, run_liftM, hinfer,
    run_pure]

theorem step_instantiate (hoperand : thm ∈ d.theorems)
    (hinst : d.kernel.instantiate thm s = .ok thm') :
    d.step (.instantiate thm s) = ⟨d.kernel, d.theorems ++ [thm']⟩ := by
  have hall : ∀ operand ∈ (Operation.instantiate thm s).operands, operand ∈ d.theorems := by
    simpa [Operation.operands] using hoperand
  rw [step, if_pos hall]
  simp only [Operation.perform, run_bind, run_get, run_liftM, hinst,
    run_pure]

theorem kernel_step_of_isInference (d : Development) (hop : op.isInference) :
    (d.step op).kernel = d.kernel := by
  rcases d.step_cases op with hrefused | hextends
  · rw [hrefused]
  · generalize d.step op = d' at hextends
    cases hextends with
    | infer => rfl
    | instantiate => rfl
    | _ => cases hop

theorem kernel_steps_of_isInference (d : Development) {ops : List Operation}
    (hops : ∀ op ∈ ops, op.isInference) : (d.steps ops).kernel = d.kernel := by
  induction ops generalizing d with
  | nil => rfl
  | cons op ops ih =>
      rw [List.forall_mem_cons] at hops
      rw [steps_cons, ih _ hops.2, kernel_step_of_isInference d hops.1]

/-- An inference can be made wherever its operands are at hand. -/
theorem step_mono (hop : op.isInference) (hkernel : d.kernel = d'.kernel)
    (hsub : ∀ thm ∈ d.theorems, thm ∈ d'.theorems) :
    ∀ thm ∈ (d.step op).theorems, thm ∈ (d'.step op).theorems := by
  have hold : ∀ thm ∈ d.theorems, thm ∈ (d'.step op).theorems :=
    fun thm hthm => mem_theorems_steps (hsub thm hthm) [op]
  rcases d.step_cases op with hrefused | hextends
  · rw [hrefused]
    exact hold
  · generalize d.step op = d'' at hextends
    cases hextends with
    | infer hoperands hinfer =>
        rw [List.forall_mem_append, List.forall_mem_singleton]
        refine ⟨hold, ?_⟩
        rw [step_infer (fun operand hmem => hsub operand (hoperands operand hmem))
          (hkernel ▸ hinfer)]
        simp
    | instantiate hoperand hinst =>
        rw [List.forall_mem_append, List.forall_mem_singleton]
        refine ⟨hold, ?_⟩
        rw [step_instantiate (hsub _ hoperand) (hkernel ▸ hinst)]
        simp
    | _ => cases hop

theorem steps_mono {ops : List Operation} (hops : ∀ op ∈ ops, op.isInference)
    (hkernel : d.kernel = d'.kernel) (hsub : ∀ thm ∈ d.theorems, thm ∈ d'.theorems) :
    ∀ thm ∈ (d.steps ops).theorems, thm ∈ (d'.steps ops).theorems := by
  induction ops generalizing d d' with
  | nil => exact hsub
  | cons op ops ih =>
      rw [List.forall_mem_cons] at hops
      rw [steps_cons, steps_cons]
      refine ih hops.2 ?_ (step_mono hops.1 hkernel hsub)
      rw [kernel_step_of_isInference d hops.1, kernel_step_of_isInference d' hops.1, hkernel]

/-! ## Derivable theorems -/

theorem Derives.of_mem (hthm : thm ∈ d.theorems) : d.Derives thm :=
  ⟨[], nofun, hthm⟩

/-- Finitely many derivations can be made one after the other. -/
theorem exists_steps_of_derives {thms : List Theorem} (hthms : ∀ thm ∈ thms, d.Derives thm) :
    ∃ ops : List Operation, (∀ op ∈ ops, op.isInference) ∧
      ∀ thm ∈ thms, thm ∈ (d.steps ops).theorems := by
  induction thms with
  | nil => exact ⟨[], nofun, nofun⟩
  | cons thm thms ih =>
      rw [List.forall_mem_cons] at hthms
      obtain ⟨ops, hops, hthm⟩ := hthms.1
      obtain ⟨more, hmore, hall⟩ := ih hthms.2
      refine ⟨ops ++ more, List.forall_mem_append.mpr ⟨hops, hmore⟩, ?_⟩
      rw [steps_append, List.forall_mem_cons]
      refine ⟨mem_theorems_steps hthm more, fun thm' hthm' => ?_⟩
      exact steps_mono hmore (kernel_steps_of_isInference d hops).symm
        (fun _ hmem => mem_theorems_steps hmem ops) thm' (hall thm' hthm')

theorem Derives.infer (hoperands : ∀ operand ∈ i.operands, d.Derives operand)
    (hinfer : d.kernel.infer i = .ok thm) : d.Derives thm := by
  obtain ⟨ops, hops, hmem⟩ := exists_steps_of_derives hoperands
  refine ⟨ops ++ [.infer i], ?_, ?_⟩
  · rw [List.forall_mem_append, List.forall_mem_singleton]
    exact ⟨hops, rfl⟩
  · rw [steps_append, steps_cons, steps_nil,
      step_infer hmem (by rw [kernel_steps_of_isInference d hops, hinfer])]
    simp

theorem Derives.instantiate (hoperand : d.Derives thm)
    (hinst : d.kernel.instantiate thm s = .ok thm') : d.Derives thm' := by
  obtain ⟨ops, hops, hmem⟩ := hoperand
  refine ⟨ops ++ [.instantiate thm s], ?_, ?_⟩
  · rw [List.forall_mem_append, List.forall_mem_singleton]
    exact ⟨hops, rfl⟩
  · rw [steps_append, steps_cons, steps_nil,
      step_instantiate hmem (by rw [kernel_steps_of_isInference d hops, hinst])]
    simp

theorem Derives.wellFormed (h : d.Derives thm) (hd : d.WellFormed) : d.kernel.WellFormed thm := by
  obtain ⟨ops, hops, hmem⟩ := h
  rw [← kernel_steps_of_isInference d hops]
  exact (hd.steps ops).theorems thm hmem

theorem Derives.infers (hd : d.WellFormed) (hoperands : ∀ operand ∈ i.operands, d.Derives operand)
    (h : d.kernel.Infers i thm) : d.Derives thm :=
  .infer hoperands (Kernel.infer_of_infers
    (fun operand hmem => (hoperands operand hmem).wellFormed hd) h)

/-! ## Rules for derivable theorems -/

theorem Derives.reflexivity (hd : d.WellFormed) {t : HolTerm} {a : HolType}
    (ht : d.kernel.HasType .empty t a) : d.Derives (.ofList [] (.equation a t t)) := by
  refine .infers hd ?_ (.reflexivity ht)
  exact nofun

theorem Derives.congruence (hd : d.WellFormed) {fg xy : Theorem} (hfg : d.Derives fg)
    (hxy : d.Derives xy) {f g x y : HolTerm} {dom cod : HolType}
    (hfunctions : fg.conclusion = .equation (.fn dom cod) f g)
    (harguments : xy.conclusion = .equation dom x y) :
    d.Derives (.ofList (fg.premises ++ xy.premises) (.equation cod (.app f x) (.app g y))) := by
  have hfgProp := (hfg.wellFormed hd).prop
  have hxyProp := (hxy.wellFormed hd).prop
  rw [hfunctions] at hfgProp
  rw [harguments] at hxyProp
  obtain ⟨hf, hg⟩ := hfgProp.of_equation hd.initial_le
  obtain ⟨hx, hy⟩ := hxyProp.of_equation hd.initial_le
  refine .infers hd ?_ (.congruence hfunctions harguments hf hg hx hy)
  simpa [Inference.operands] using ⟨hfg, hxy⟩

theorem Derives.modusPonens (hd : d.WellFormed) {major minor : Theorem} (hmajor : d.Derives major)
    (hminor : d.Derives minor) {q : HolTerm}
    (hpq : major.conclusion = .equation .bool minor.conclusion q) :
    d.Derives (.ofList (major.premises ++ minor.premises) q) := by
  have hprop := (hmajor.wellFormed hd).prop
  rw [hpq] at hprop
  refine .infers hd ?_ (.modusPonens hpq (hprop.of_equation hd.initial_le).2)
  simpa [Inference.operands] using ⟨hmajor, hminor⟩

theorem Derives.antisymmetry (hd : d.WellFormed) {left right : Theorem} (hleft : d.Derives left)
    (hright : d.Derives right) :
    d.Derives (.ofList
      (left.premises.filter (· ≠ right.conclusion) ++ right.premises.filter (· ≠ left.conclusion))
      (.equation .bool left.conclusion right.conclusion)) := by
  refine .infers hd ?_ .antisymmetry
  simpa [Inference.operands] using ⟨hleft, hright⟩

theorem Derives.symmetry (hd : d.WellFormed) {a : HolType} {l r : HolTerm}
    (h : d.Derives (.ofList [] (.equation a l r))) : d.Derives (.ofList [] (.equation a r l)) := by
  have hk := hd.initial_le
  obtain ⟨hl, _⟩ := (h.wellFormed hd).prop.of_equation hk
  have heq : d.kernel.HasType .empty (.const Term.eqName (.fn a (.fn a .bool)))
      (.fn a (.fn a .bool)) :=
    .const (Kernel.isType_eqType hk (hl.isType_of_closed hk)) (Kernel.constType?_eq hk)
      (Kernel.isInstanceOf_eqType_iff.mpr ⟨a, rfl⟩)
  have hrefl := Derives.reflexivity hd hl
  -- `l = l` becomes `r = l` when its left side is replaced
  have hfunctions := Derives.congruence hd (.reflexivity hd heq) h rfl rfl
  have hsides := Derives.congruence hd hfunctions hrefl rfl rfl
  exact .modusPonens hd hsides hrefl rfl

theorem Derives.replace {v : HolVar} {x : HolTerm} (h : d.Derives thm)
    (hx : d.kernel.HasType .empty x v.ty) :
    d.Derives (.ofList (thm.premises.map (·.replace v x)) (thm.conclusion.replace v x)) := by
  refine h.instantiate (s := HolSubst.single v x) (Kernel.instantiate_eq_ok_iff.mpr ⟨nofun, ?_, ?_⟩)
  · intro t _ w _ value hvalue
    rw [HolSubst.single, Table.get?_insert] at hvalue
    rw [HolSubst.onType_single]
    split at hvalue
    · rename_i hw
      cases hvalue
      rw [hw]
      exact hx
    · cases hvalue
  · rw [HolSubst.onType_single, HolSubst.onVar_single]
    rfl

/-- A premise may be put before a theorem that has none. -/
theorem Derives.weaken (hd : d.WellFormed) {p c : HolTerm} (hp : d.kernel.HasType .empty p .bool)
    (h : d.Derives (.ofList [] c)) : d.Derives (.ofList [p] c) := by
  have hassume : d.Derives (.ofList [p] p) := by
    refine .infers hd ?_ (.assume hp)
    exact nofun
  by_cases hpc : p = c
  · exact hpc ▸ hassume
  · have hequation : d.Derives (.ofList [p] (.equation .bool p c)) := by
      simpa [hpc] using Derives.antisymmetry hd hassume h
    have hc : d.Derives (.ofList ([p] ++ [p]) c) := by
      simpa using Derives.modusPonens hd hequation hassume rfl
    have hrepeated : Theorem.ofList ([p] ++ [p]) c = .ofList [p] c := by
      simp [Theorem.ofList, Sequent.ofList, distinct, addAllNew, addNew]
    exact hrepeated ▸ hc

end Development

/-! ## Absurd theorems -/

/-- The theorem concludes a variable from no premises, and so everything. -/
def Theorem.IsAbsurd (thm : Theorem) : Prop :=
  thm.premises = [] ∧ ∃ name, thm.conclusion = freeVar name .bool

theorem Theorem.IsAbsurd.eq_ofList {thm : Theorem} (h : thm.IsAbsurd) :
    ∃ name, thm = .ofList [] (freeVar name .bool) := by
  obtain ⟨⟨premises, conclusion, _⟩⟩ := thm
  obtain ⟨hpremises, name, hconclusion⟩ := h
  cases hpremises
  cases hconclusion
  exact ⟨name, rfl⟩

/-- Inferences lead to no absurd theorem. -/
def Development.Consistent (d : Development) : Prop := ∀ thm, d.Derives thm → ¬thm.IsAbsurd

end HolSearch
