import HolSearch.Proofs.Kernel.Declarations
import Mathlib.Data.List.Induction

/-!
# Runs of the kernel

A *development* is a kernel together with the theorems that it has produced.  An operation is
carried out in a development if it uses only theorems of the development; it then extends the
kernel or the theorems, or is refused and changes nothing.  A run starts from the initial kernel,
without theorems, and carries out operations in turn.

`Development.step_cases` lists all that an operation can do to a development.  Everything that
holds throughout a run is proved from it, by `steps_induction` or `run_induction`: here, that
kernels only grow (`kernel_le_steps`), that what is recorded once stays recorded
(`Extends.ledgersKept`, `Extends.recorded`) and that only theorems are recorded
(`mem_theorems_of_recorded`).
-/

namespace HolSearch

/-- An operation of the kernel with its arguments. -/
inductive Operation where
  | declareType (name : Name) (arity : Nat)
  | declareConst (name : Name) (ty : HolType)
  | postulate (conj : Conjecture)
  | defineConst (name : Name) (term : HolTerm)
  | defineSubtype (name ctor dtor : Name) (pred : HolTerm)
  | infer (inference : Inference)
  | instantiate (thm : Theorem) (s : HolSubst)

namespace Operation

/-- The theorems that an operation uses. -/
def operands : Operation → List Theorem
  | .infer inference => inference.operands
  | .instantiate thm _ => [thm]
  | _ => []

/-- Carry out the operation and return the theorems that it produces. -/
def perform : Operation → KernelM (List Theorem)
  | .declareType name arity => do
      Kernel.declareType name arity
      return []
  | .declareConst name ty => do
      Kernel.declareConst name ty
      return []
  | .postulate conj => return [← Kernel.postulate conj]
  | .defineConst name term => return [← Kernel.defineConst name term]
  | .defineSubtype name ctor dtor pred => do
      let (ctorThm, dtorThm) ← Kernel.defineSubtype name ctor dtor pred
      return [ctorThm, dtorThm]
  | .infer inference => return [← (← get).infer inference]
  | .instantiate thm s => return [← (← get).instantiate thm s]

end Operation

/-- A kernel and the theorems that it has produced. -/
structure Development where
  kernel : Kernel
  theorems : List Theorem
deriving DecidableEq

namespace Development

def initial : Development := ⟨.initial, []⟩

/-- Carry out an operation.  Theorems come from the development itself: an operation on any other is
none. -/
def step (d : Development) (op : Operation) : Development :=
  if ∀ thm ∈ op.operands, thm ∈ d.theorems then
    match op.perform.run d.kernel with
    | (.ok thms, k) => ⟨k, d.theorems ++ thms⟩
    | (.error _, k) => ⟨k, d.theorems⟩
  else d

def steps (d : Development) (ops : List Operation) : Development := ops.foldl step d

/-- The development that a run of the kernel leads to. -/
def run (ops : List Operation) : Development := initial.steps ops

/-- What an operation that is not refused does to a development. -/
inductive Extends (d : Development) : Operation → Development → Prop where
  | declareType {name : Name} {arity : Nat} (hnew : d.kernel.arity? name = none) :
      Extends d (.declareType name arity)
        ⟨{ d.kernel with types := d.kernel.types.insert name arity }, d.theorems⟩
  | declareConst {name : Name} {ty : HolType} (hnew : d.kernel.constType? name = none) :
      Extends d (.declareConst name ty)
        ⟨{ d.kernel with consts := d.kernel.consts.insert name ty }, d.theorems⟩
  | postulate {conj : Conjecture} (hconj : d.kernel.WellFormed ⟨conj⟩) :
      Extends d (.postulate conj)
        ⟨{ d.kernel with axioms := d.kernel.axioms ++ [⟨conj⟩] }, d.theorems ++ [⟨conj⟩]⟩
  | defineConst {c : ConstDefinition} (hc : c.Accepted d.kernel) :
      Extends d (.defineConst c.name c.term) ⟨c.extend d.kernel, d.theorems ++ [c.thm]⟩
  | defineSubtype {t : TypeDefinition} (ht : t.Accepted d.kernel) :
      Extends d (.defineSubtype t.name t.ctor t.dtor t.pred)
        ⟨t.extend d.kernel, d.theorems ++ [t.ctorThm, t.dtorThm]⟩
  | infer {inference : Inference} {thm : Theorem}
      (hoperands : ∀ operand ∈ inference.operands, operand ∈ d.theorems)
      (hinfer : d.kernel.infer inference = .ok thm) :
      Extends d (.infer inference) ⟨d.kernel, d.theorems ++ [thm]⟩
  | instantiate {thm thm' : Theorem} {s : HolSubst} (hoperand : thm ∈ d.theorems)
      (hinst : d.kernel.instantiate thm s = .ok thm') :
      Extends d (.instantiate thm s) ⟨d.kernel, d.theorems ++ [thm']⟩

/-- **An operation is refused and changes nothing, or it does what `Extends` lists.** -/
theorem step_cases (d : Development) (op : Operation) :
    d.step op = d ∨ d.Extends op (d.step op) := by
  unfold step
  split
  case isFalse => exact Or.inl rfl
  rename_i hoperands
  cases op with
  | declareType name arity =>
      simp only [Operation.perform, run_bind, run_pure]
      rcases Kernel.declareType_cases name arity d.kernel with ⟨e, hrun⟩ | ⟨hnew, hrun⟩
      · rw [hrun]
        exact Or.inl rfl
      · rw [hrun]
        dsimp only
        rw [List.append_nil]
        exact Or.inr (.declareType hnew)
  | declareConst name ty =>
      simp only [Operation.perform, run_bind, run_pure]
      rcases Kernel.declareConst_cases name ty d.kernel with ⟨e, hrun⟩ | ⟨hnew, hrun⟩
      · rw [hrun]
        exact Or.inl rfl
      · rw [hrun]
        dsimp only
        rw [List.append_nil]
        exact Or.inr (.declareConst hnew)
  | postulate conj =>
      simp only [Operation.perform, run_bind, run_pure]
      rcases Kernel.postulate_cases conj d.kernel with ⟨e, hrun⟩ | ⟨hconj, hrun⟩
      · rw [hrun]
        exact Or.inl rfl
      · rw [hrun]
        exact Or.inr (.postulate hconj)
  | defineConst name term =>
      simp only [Operation.perform, run_bind, run_pure]
      rcases Kernel.defineConst_cases name term d.kernel with ⟨e, hrun⟩ | ⟨ty, hc, hrun⟩
      · rw [hrun]
        exact Or.inl rfl
      · rw [hrun]
        exact Or.inr (.defineConst hc)
  | defineSubtype name ctor dtor pred =>
      simp only [Operation.perform, run_bind, run_pure]
      rcases Kernel.defineSubtype_cases name ctor dtor pred d.kernel with ⟨e, hrun⟩ | ⟨_, ht, hrun⟩
      · rw [hrun]
        exact Or.inl rfl
      · rw [hrun]
        exact Or.inr (.defineSubtype ht)
  | infer inference =>
      simp only [Operation.perform, run_bind, run_get, run_liftM,
        run_pure]
      cases hinfer : d.kernel.infer inference with
      | error e => exact Or.inl rfl
      | ok thm => exact Or.inr (.infer hoperands hinfer)
  | instantiate thm s =>
      simp only [Operation.perform, run_bind, run_get, run_liftM,
        run_pure]
      cases hinst : d.kernel.instantiate thm s with
      | error e => exact Or.inl rfl
      | ok thm' => exact Or.inr (.instantiate (hoperands thm (by simp [Operation.operands])) hinst)

/-! ## Induction over a run -/

theorem steps_nil (d : Development) : d.steps [] = d := rfl

theorem steps_cons (d : Development) (op : Operation) (ops : List Operation) :
    d.steps (op :: ops) = (d.step op).steps ops := rfl

theorem steps_append (d : Development) (ops more : List Operation) :
    d.steps (ops ++ more) = (d.steps ops).steps more :=
  List.foldl_append

/-- What every accepted operation keeps is kept by any number of operations. -/
theorem steps_induction {P : Development → Prop} {d : Development} {ops : List Operation} (hd : P d)
    (hstep : ∀ d op d', op ∈ ops → P d → d.Extends op d' → P d') : P (d.steps ops) := by
  induction ops generalizing d with
  | nil => exact hd
  | cons op ops ih =>
      rw [steps_cons]
      refine ih ?_ fun d op d' hop => hstep d op d' (List.mem_cons_of_mem _ hop)
      rcases d.step_cases op with hrefused | hextends
      · rw [hrefused]
        exact hd
      · exact hstep d op _ List.mem_cons_self hd hextends

theorem run_append_singleton (pre : List Operation) (op : Operation) :
    run (pre ++ [op]) = (run pre).step op :=
  steps_append initial pre [op]

/-- What every accepted operation of a run keeps holds at its end.  The operation comes with the
part of the run before it, so that all that is known of runs may be used. -/
theorem run_induction {P : Development → Prop} {ops : List Operation} (hinitial : P initial)
    (hstep : ∀ pre op post d, ops = pre ++ op :: post → P (run pre) →
      (run pre).Extends op d → P d) :
    P (run ops) := by
  induction ops using List.reverseRecOn with
  | nil => exact hinitial
  | append_singleton pre op ih =>
      have hpre : P (run pre) := by
        refine ih fun pre' op' post d hsplit => hstep pre' op' (post ++ [op]) d ?_
        rw [hsplit, List.append_assoc, List.cons_append]
      rw [run_append_singleton]
      rcases (run pre).step_cases op with hrefused | hextends
      · rw [hrefused]
        exact hpre
      · exact hstep pre op [] _ rfl hpre hextends

/-! ## Kernels grow -/

namespace Extends

variable {d d' : Development} {op : Operation}

theorem kernel_le (h : d.Extends op d') : d.kernel ≤ d'.kernel := by
  cases h with
  | declareType hnew => exact ⟨Table.le_insert hnew _, le_refl _⟩
  | declareConst hnew => exact ⟨le_refl _, Table.le_insert hnew _⟩
  | postulate => exact le_refl d.kernel
  | defineConst hc => exact ConstDefinition.le_extend hc
  | defineSubtype ht => exact TypeDefinition.le_extend ht
  | infer => exact le_refl d.kernel
  | instantiate => exact le_refl d.kernel

theorem mem_theorems (h : d.Extends op d') {thm : Theorem} (hthm : thm ∈ d.theorems) :
    thm ∈ d'.theorems := by
  cases h with
  | declareType => exact hthm
  | declareConst => exact hthm
  | postulate => exact List.mem_append_left _ hthm
  | defineConst => exact List.mem_append_left _ hthm
  | defineSubtype => exact List.mem_append_left _ hthm
  | infer => exact List.mem_append_left _ hthm
  | instantiate => exact List.mem_append_left _ hthm

end Extends

theorem kernel_le_steps (d : Development) (ops : List Operation) :
    d.kernel ≤ (d.steps ops).kernel :=
  steps_induction (P := fun d' => d.kernel ≤ d'.kernel) (le_refl _)
    fun _ _ _ _ hle h => le_trans hle h.kernel_le

theorem initial_le_run (ops : List Operation) : Kernel.initial ≤ (run ops).kernel :=
  kernel_le_steps initial ops

end Development

/-! ## What is recorded stays recorded -/

namespace Kernel

/-- The theorem was accepted without proof, as an axiom or by a definition. -/
def Recorded (k : Kernel) (thm : Theorem) : Prop :=
  thm ∈ k.axioms ∨ (∃ c, k.definitions.get? c = some thm) ∨
    (∃ c, k.constructors.get? c = some thm) ∨ ∃ c, k.destructors.get? c = some thm

/-- Only declared constants have entries in the ledgers of definitions. -/
structure LedgersDeclared (k : Kernel) : Prop where
  definitions : k.consts.Covers k.definitions
  constructors : k.consts.Covers k.constructors
  destructors : k.consts.Covers k.destructors

/-- All entries in the ledgers of `k` are in those of `k'`. -/
structure LedgersKept (k k' : Kernel) : Prop where
  definitions : k.definitions ≤ k'.definitions
  constructors : k.constructors ≤ k'.constructors
  destructors : k.destructors ≤ k'.destructors

theorem LedgersKept.refl (k : Kernel) : k.LedgersKept k :=
  ⟨le_refl _, le_refl _, le_refl _⟩

theorem LedgersKept.trans {k k' k'' : Kernel} (h : k.LedgersKept k') (h' : k'.LedgersKept k'') :
    k.LedgersKept k'' :=
  ⟨le_trans h.definitions h'.definitions, le_trans h.constructors h'.constructors,
    le_trans h.destructors h'.destructors⟩

end Kernel

namespace Development

theorem Extends.ledgersDeclared {d d' : Development} {op : Operation} (h : d.Extends op d')
    (hd : d.kernel.LedgersDeclared) : d'.kernel.LedgersDeclared := by
  have hle := h.kernel_le.2
  cases h with
  | declareType => exact ⟨hd.definitions, hd.constructors, hd.destructors⟩
  | declareConst =>
      exact ⟨hd.definitions.mono hle, hd.constructors.mono hle, hd.destructors.mono hle⟩
  | postulate => exact ⟨hd.definitions, hd.constructors, hd.destructors⟩
  | defineConst hc =>
      exact ⟨(hd.definitions.mono hle).insert ConstDefinition.constType?_extend _,
        hd.constructors.mono hle, hd.destructors.mono hle⟩
  | defineSubtype ht =>
      exact ⟨hd.definitions.mono hle,
        (hd.constructors.mono hle).insert (TypeDefinition.constType?_ctor ht) _,
        (hd.destructors.mono hle).insert TypeDefinition.constType?_dtor _⟩
  | infer => exact hd
  | instantiate => exact hd

theorem ledgersDeclared_run (ops : List Operation) : (run ops).kernel.LedgersDeclared :=
  steps_induction (P := fun d => d.kernel.LedgersDeclared)
    ⟨fun _ _ => rfl, fun _ _ => rfl, fun _ _ => rfl⟩ fun _ _ _ _ hd h => h.ledgersDeclared hd

/-- A definition is recorded under a new name, so it replaces no older record. -/
theorem Extends.ledgersKept {d d' : Development} {op : Operation} (h : d.Extends op d')
    (hd : d.kernel.LedgersDeclared) : d.kernel.LedgersKept d'.kernel := by
  cases h with
  | declareType => exact ⟨le_refl _, le_refl _, le_refl _⟩
  | declareConst => exact ⟨le_refl _, le_refl _, le_refl _⟩
  | postulate => exact ⟨le_refl _, le_refl _, le_refl _⟩
  | defineConst hc =>
      exact ⟨Table.le_insert (hd.definitions _ hc.new) _, le_refl _, le_refl _⟩
  | defineSubtype ht =>
      exact ⟨le_refl _, Table.le_insert (hd.constructors _ ht.ctor_new) _,
        Table.le_insert (hd.destructors _ ht.dtor_new) _⟩
  | infer => exact .refl _
  | instantiate => exact .refl _

theorem ledgersKept_steps {d : Development} (hd : d.kernel.LedgersDeclared)
    (ops : List Operation) : d.kernel.LedgersKept (d.steps ops).kernel := by
  have hinv : (d.steps ops).kernel.LedgersDeclared ∧ d.kernel.LedgersKept (d.steps ops).kernel :=
    steps_induction (P := fun d' => d'.kernel.LedgersDeclared ∧ d.kernel.LedgersKept d'.kernel)
      ⟨hd, .refl _⟩ fun _ _ _ _ hold h =>
        ⟨h.ledgersDeclared hold.1, hold.2.trans (h.ledgersKept hold.1)⟩
  exact hinv.2

theorem Extends.mem_axioms {d d' : Development} {op : Operation} (h : d.Extends op d')
    {thm : Theorem} (hthm : thm ∈ d.kernel.axioms) : thm ∈ d'.kernel.axioms := by
  cases h with
  | postulate => exact List.mem_append_left _ hthm
  | declareType => exact hthm
  | declareConst => exact hthm
  | defineConst => exact hthm
  | defineSubtype => exact hthm
  | infer => exact hthm
  | instantiate => exact hthm

theorem Extends.recorded {d d' : Development} {op : Operation} (h : d.Extends op d')
    (hd : d.kernel.LedgersDeclared) {thm : Theorem} (hthm : d.kernel.Recorded thm) :
    d'.kernel.Recorded thm := by
  have hkept := h.ledgersKept hd
  rcases hthm with hthm | ⟨c, hthm⟩ | ⟨c, hthm⟩ | ⟨c, hthm⟩
  · exact Or.inl (h.mem_axioms hthm)
  · exact Or.inr (Or.inl ⟨c, hkept.definitions c thm hthm⟩)
  · exact Or.inr (Or.inr (Or.inl ⟨c, hkept.constructors c thm hthm⟩))
  · exact Or.inr (Or.inr (Or.inr ⟨c, hkept.destructors c thm hthm⟩))

theorem Extends.recorded_or_mem {d d' : Development} {op : Operation} (h : d.Extends op d')
    {thm : Theorem} (hthm : d'.kernel.Recorded thm) :
    d.kernel.Recorded thm ∨ thm ∈ d'.theorems := by
  cases h with
  | declareType => exact Or.inl hthm
  | declareConst => exact Or.inl hthm
  | postulate =>
      rcases hthm with hthm | hthm
      · rcases List.mem_append.mp hthm with hold | hnew
        · exact Or.inl (Or.inl hold)
        · exact Or.inr (List.mem_append_right _ hnew)
      · exact Or.inl (Or.inr hthm)
  | defineConst =>
      rcases hthm with hthm | ⟨c, hthm⟩ | hthm
      · exact Or.inl (Or.inl hthm)
      · rcases Table.eq_or_get?_of_insert hthm with rfl | hold
        · exact Or.inr (by simp)
        · exact Or.inl (Or.inr (Or.inl ⟨c, hold⟩))
      · exact Or.inl (Or.inr (Or.inr hthm))
  | defineSubtype =>
      rcases hthm with hthm | hthm | ⟨c, hthm⟩ | ⟨c, hthm⟩
      · exact Or.inl (Or.inl hthm)
      · exact Or.inl (Or.inr (Or.inl hthm))
      · rcases Table.eq_or_get?_of_insert hthm with rfl | hold
        · exact Or.inr (by simp)
        · exact Or.inl (Or.inr (Or.inr (Or.inl ⟨c, hold⟩)))
      · rcases Table.eq_or_get?_of_insert hthm with rfl | hold
        · exact Or.inr (by simp)
        · exact Or.inl (Or.inr (Or.inr (Or.inr ⟨c, hold⟩)))
  | infer => exact Or.inl hthm
  | instantiate => exact Or.inl hthm

theorem mem_theorems_of_recorded (ops : List Operation) :
    ∀ thm, (run ops).kernel.Recorded thm → thm ∈ (run ops).theorems := by
  refine run_induction (P := fun d => ∀ thm, d.kernel.Recorded thm → thm ∈ d.theorems) ?_ ?_
  · rintro thm (h | ⟨_, h⟩ | ⟨_, h⟩ | ⟨_, h⟩)
    all_goals cases h
  · intro pre op post d _ ih h thm hthm
    rcases h.recorded_or_mem hthm with hold | hnew
    · exact h.mem_theorems (ih thm hold)
    · exact hnew

end Development

end HolSearch
