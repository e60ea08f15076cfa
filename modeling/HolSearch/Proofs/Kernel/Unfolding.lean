import HolSearch.Proofs.Kernel.Coherence
import Mathlib.Logic.Hydra

/-!
# Unfolding definitions

A definition may use only constants that are declared, and its own name is declared after its term
has been checked.  So what a definition uses is older than what it defines, whatever operations come
in between: the relation `UsedIn` is well-founded in every kernel of a run
(`wellFounded_usedIn_run`).

To unfold a constant is to put in its place the defining term at the type of the constant.  A term
changes by this as a hydra does that loses a head: the multiset of its constants loses one and gains
only constants that are used in its definition (`Unfolds.cutExpand`).  Hence every way to unfold
definitions comes to an end, for raw terms too.  On a term that passes the check, unfolding keeps
the type and goes on as long as there are defined constants.

That entries of the three ledgers are never replaced, and that no constant has entries in two of
them, follows from the fact that only declared constants have entries (`LedgersDeclared`), whereas
operations make entries for new constants.

Main statement: `definitions_unique_acyclic`.
-/

namespace HolSearch

/-! ## Ledgers -/

namespace Kernel

/-- No constant has entries in two of the ledgers. -/
structure LedgersApart (k : Kernel) : Prop where
  definitions_constructors : k.definitions.Apart k.constructors
  definitions_destructors : k.definitions.Apart k.destructors
  constructors_destructors : k.constructors.Apart k.destructors

end Kernel

namespace Development

variable {d d' : Development} {op : Operation}

theorem Extends.ledgersApart (h : d.Extends op d') (hd : d.kernel.LedgersDeclared)
    (hapart : d.kernel.LedgersApart) : d'.kernel.LedgersApart := by
  obtain ⟨hctors, hdtors, hboth⟩ := hapart
  cases h with
  | declareType => exact ⟨hctors, hdtors, hboth⟩
  | declareConst => exact ⟨hctors, hdtors, hboth⟩
  | postulate => exact ⟨hctors, hdtors, hboth⟩
  | defineConst hc =>
      exact ⟨hctors.insert (hd.constructors _ hc.new) _, hdtors.insert (hd.destructors _ hc.new) _,
        hboth⟩
  | @defineSubtype t ht =>
      have hctor := hd.destructors _ ht.ctor_new
      have hdtor : (d.kernel.constructors.insert t.ctor t.ctorThm).get? t.dtor = none := by
        rw [Table.get?_insert, if_neg ht.ctor_ne_dtor.symm]
        exact hd.constructors _ ht.dtor_new
      exact ⟨(hctors.symm.insert (hd.definitions _ ht.ctor_new) _).symm,
        (hdtors.symm.insert (hd.definitions _ ht.dtor_new) _).symm,
        ((hboth.insert hctor _).symm.insert hdtor _).symm⟩
  | infer => exact ⟨hctors, hdtors, hboth⟩
  | instantiate => exact ⟨hctors, hdtors, hboth⟩

theorem ledgersApart_run (ops : List Operation) : (run ops).kernel.LedgersApart :=
  run_induction (P := fun d => d.kernel.LedgersApart)
    ⟨fun _ => Or.inl rfl, fun _ => Or.inl rfl, fun _ => Or.inl rfl⟩
    fun pre _ _ _ _ hapart h => h.ledgersApart (ledgersDeclared_run pre) hapart

end Development

/-! ## Constants in definitions -/

namespace Term

/-- The names of the constants of a term from left to right, with repetitions. -/
def constants {μ : Type} : Term μ → List Name
  | .abs _ body => body.constants
  | .app f x => f.constants ++ x.constants
  | .const name _ => [name]
  | .var _ => []
  | .bound .. => []

@[simp] theorem constants_atTypes (θ : TyVar Unit → HolType) (t : HolTerm) :
    (t.atTypes θ).constants = t.constants := by
  induction t with
  | abs ty body ih => exact ih
  | app f x ihf ihx => exact congrArg₂ (· ++ ·) ihf ihx
  | const name ty => rfl
  | var v => rfl
  | bound i ty => rfl

end Term

namespace Kernel

variable {k : Kernel} {Γ : Stack HolType} {t t' : HolTerm} {ty : HolType}

theorem HasType.constType?_isSome (h : k.HasType Γ t ty) :
    ∀ c ∈ t.constants, (k.constType? c).isSome := by
  induction h with
  | abs _ _ ih => exact ih
  | app _ _ ihf ihx => exact List.forall_mem_append.mpr ⟨ihf, ihx⟩
  | const _ hdeclared =>
      refine List.forall_mem_singleton.mpr ?_
      rw [hdeclared, Option.isSome_some]
  | var => exact nofun
  | bound => exact nofun

/-- The term that defines a constant: the right side of the theorem recorded for it. -/
def definingTerm? (k : Kernel) (c : Name) : Option HolTerm :=
  (k.definitions.get? c).bind fun thm => thm.conclusion.destEq?.map Prod.snd

/-- The constant `x` occurs in the term that defines `c`. -/
def UsedIn (k : Kernel) (x c : Name) : Prop :=
  ∃ t, k.definingTerm? c = some t ∧ x ∈ t.constants

theorem definingTerm?_of_get? {c : ConstDefinition} (h : k.definitions.get? c.name = some c.thm) :
    k.definingTerm? c.name = some c.term := by
  rw [definingTerm?, h]
  rfl

end Kernel

namespace Development

variable {d d' : Development} {op : Operation}

/-- What an operation adds to the use of constants: declared constants are used in new ones. -/
theorem Extends.usedIn_cases (h : d.Extends op d') {x c : Name} (hused : d'.kernel.UsedIn x c) :
    d.kernel.UsedIn x c ∨
      (d.kernel.constType? x).isSome ∧ d.kernel.constType? c = none := by
  obtain ⟨t, hterm, hx⟩ := hused
  obtain ⟨thm, hthm, hsides⟩ := Option.bind_eq_some_iff.mp hterm
  rcases h.definition_cases hthm with hold | ⟨c', hc', rfl, rfl, -⟩
  · refine Or.inl ⟨t, ?_, hx⟩
    rw [Kernel.definingTerm?, hold, Option.bind_some, hsides]
  · obtain rfl : c'.term = t := Option.some.inj hsides
    exact Or.inr ⟨hc'.typed.constType?_isSome x hx, hc'.new⟩

/-- An operation keeps the use of constants well-founded.  All that is used after it was declared
before it, and for constants declared before it nothing has changed. -/
theorem Extends.wellFounded_usedIn (h : d.Extends op d')
    (hdeclared : ∀ x c, d.kernel.UsedIn x c → (d.kernel.constType? x).isSome)
    (hwf : WellFounded d.kernel.UsedIn) : WellFounded d'.kernel.UsedIn := by
  have hused : ∀ x c, d'.kernel.UsedIn x c → (d.kernel.constType? x).isSome := by
    intro x c hx
    rcases h.usedIn_cases hx with hold | ⟨hx, -⟩
    · exact hdeclared x c hold
    · exact hx
  have hacc : ∀ c, (d.kernel.constType? c).isSome → Acc d'.kernel.UsedIn c := by
    intro c
    induction c using hwf.induction with
    | h c ih =>
        intro hc
        refine ⟨c, fun x hx => ?_⟩
        rcases h.usedIn_cases hx with hold | ⟨-, hnew⟩
        · exact ih x hold (hdeclared x c hold)
        · rw [hnew] at hc
          cases hc
  exact ⟨fun c => ⟨c, fun x hx => hacc x (hused x c hx)⟩⟩

theorem usedIn_declared_run (ops : List Operation) :
    ∀ x c, (run ops).kernel.UsedIn x c → ((run ops).kernel.constType? x).isSome := by
  rintro x c ⟨t, hterm, hx⟩
  obtain ⟨thm, hthm, hsides⟩ := Option.bind_eq_some_iff.mp hterm
  obtain ⟨c', k, hc', rfl, rfl, hle⟩ := exists_extend_of_definition ops c thm hthm
  obtain rfl : c'.term = t := Option.some.inj hsides
  exact (hc'.typed.mono (le_trans (ConstDefinition.le_extend hc') hle)).constType?_isSome x hx

/-- **What a definition uses is older than what it defines.** -/
theorem wellFounded_usedIn_run (ops : List Operation) : WellFounded (run ops).kernel.UsedIn := by
  refine run_induction (P := fun d => WellFounded d.kernel.UsedIn) ⟨fun c => ⟨c, ?_⟩⟩ ?_
  · rintro x ⟨t, hterm, -⟩
    cases hterm
  · intro pre op post d _ hwf h
    exact h.wellFounded_usedIn (usedIn_declared_run pre) hwf

end Development

/-! ## Unfolding -/

namespace Kernel

variable {k : Kernel} {Γ : Stack HolType} {t t' : HolTerm} {ty : HolType}

/-- Somewhere in the term, a defined constant is replaced by its defining term at the type of the
constant. -/
inductive Unfolds (k : Kernel) : HolTerm → HolTerm → Prop where
  | const {c : ConstDefinition} (hc : k.definitions.get? c.name = some c.thm)
      (θ : TyVar Unit → HolType) : Unfolds k (.const c.name (c.ty.subst θ)) (c.term.atTypes θ)
  | abs {ty : HolType} {t t' : HolTerm} (h : Unfolds k t t') : Unfolds k (.abs ty t) (.abs ty t')
  | appFun {f f' x : HolTerm} (h : Unfolds k f f') : Unfolds k (.app f x) (.app f' x)
  | appArg {f x x' : HolTerm} (h : Unfolds k x x') : Unfolds k (.app f x) (.app f x')

/-- Unfolding takes one constant away and brings in only constants that its definition uses. -/
theorem Unfolds.cutExpand (h : k.Unfolds t t') :
    Relation.CutExpand k.UsedIn (t'.constants : Multiset Name) (t.constants : Multiset Name) := by
  induction h with
  | @const c hc θ =>
      refine Relation.cutExpand_singleton fun x hx => ⟨c.term, definingTerm?_of_get? hc, ?_⟩
      simpa using hx
  | abs _ ih => exact ih
  | @appFun f f' x _ ih =>
      simp only [Term.constants, ← Multiset.coe_add]
      exact (Relation.cutExpand_add_right (x.constants : Multiset Name)).mpr ih
  | @appArg f x x' _ ih =>
      simp only [Term.constants, ← Multiset.coe_add]
      exact (Relation.cutExpand_add_left (f.constants : Multiset Name)).mpr ih

/-- **Unfolding ends if no definition uses itself.** -/
theorem wellFounded_unfolds (hwf : WellFounded k.UsedIn) :
    WellFounded fun t' t => k.Unfolds t t' :=
  Subrelation.wf (fun h => h.cutExpand)
    (InvImage.wf (fun t : HolTerm => (t.constants : Multiset Name)) hwf.cutExpand)

end Kernel

/-! ## Unfolding well-formed terms -/

namespace ConstDefinition

/-- The constant is declared at the type of its defining term, which is as the kernel checks it. -/
structure Known (c : ConstDefinition) (k : Kernel) : Prop where
  closed : c.term.leaves = []
  typed : k.HasType .empty c.term c.ty
  not_hidden : ∀ v ∈ c.term.typeVars, v ∈ c.ty.leaves
  declared : k.constType? c.name = some c.ty

variable {c c' : ConstDefinition} {k k' : Kernel}

theorem Accepted.known (hc : c.Accepted k) (hle : c.extend k ≤ k') : c.Known k' where
  closed := hc.closed
  typed := hc.typed.mono (le_trans (le_extend hc) hle)
  not_hidden := hc.not_hidden
  declared := Kernel.constType?_mono hle constType?_extend

theorem thm_injective (h : c.thm = c'.thm) : c = c' := by
  have hconclusion : Term.equation c.ty (.const c.name c.ty) c.term =
      .equation c'.ty (.const c'.name c'.ty) c'.term := congrArg Theorem.conclusion h
  simp only [Term.equation, Term.app.injEq, Term.const.injEq] at hconclusion
  obtain ⟨⟨-, hname, hty⟩, hterm⟩ := hconclusion
  obtain ⟨name, term, ty⟩ := c
  obtain ⟨name', term', ty'⟩ := c'
  cases hname
  cases hty
  cases hterm
  rfl

/-- The defining term has, at every instance of the type of the constant, that type. -/
theorem Known.hasType_atTypes (hc : c.Known k) {θ : TyVar Unit → HolType}
    (hty : k.IsType (c.ty.subst θ)) (Γ : Stack HolType) :
    k.HasType Γ (c.term.atTypes θ) (c.ty.subst θ) := by
  -- what `θ` does to variables that do not occur is of no account, and might be ill-formed
  let θ' : TyVar Unit → HolType := fun v => if v ∈ c.ty.leaves then θ v else .var v
  have hagree : ∀ v ∈ c.ty.leaves, θ v = θ' v := fun v hv => (if_pos hv).symm
  have hθ' : ∀ v, k.IsType (θ' v) := by
    intro v
    by_cases hv : v ∈ c.ty.leaves
    · simp only [θ', if_pos hv]
      exact (Kernel.isType_subst_iff.mp hty).2 v hv
    · simp only [θ', if_neg hv]
      exact Kernel.isType_var v
  rw [Term.atTypes_eq_iff.mpr fun v hv => hagree v (hc.not_hidden v hv),
    Ty.subst_eq_iff.mpr hagree]
  refine hc.typed.subst hθ' (fun v hv => ?_) (Stack.maps_empty _ _)
  rw [hc.closed] at hv
  cases hv

end ConstDefinition

namespace Kernel

variable {k : Kernel} {Γ : Stack HolType} {t t' : HolTerm} {ty : HolType}

/-- Every entry of the ledger is a definition that the kernel knows. -/
def KnowsDefinitions (k : Kernel) : Prop :=
  ∀ name thm, k.definitions.get? name = some thm →
    ∃ c : ConstDefinition, c.name = name ∧ c.thm = thm ∧ c.Known k

theorem KnowsDefinitions.known (hk : k.KnowsDefinitions) {c : ConstDefinition}
    (hc : k.definitions.get? c.name = some c.thm) : c.Known k := by
  obtain ⟨c', -, hthm, hknown⟩ := hk _ _ hc
  rw [ConstDefinition.thm_injective hthm] at hknown
  exact hknown

theorem Unfolds.hasType (h : k.Unfolds t t') (hk : k.KnowsDefinitions)
    (ht : k.HasType Γ t ty) : k.HasType Γ t' ty := by
  induction h generalizing Γ ty with
  | const hc θ =>
      generalize hty' : Ty.subst θ _ = ty' at ht
      cases ht with
      | const hty =>
          subst hty'
          exact (hk.known hc).hasType_atTypes hty Γ
  | abs _ ih =>
      cases ht with
      | abs hty hbody => exact .abs hty (ih hbody)
  | appFun _ ih =>
      cases ht with
      | app hf hx => exact .app (ih hf) hx
  | appArg _ ih =>
      cases ht with
      | app hf hx => exact .app hf (ih hx)

/-- A well-formed term with a defined constant can be unfolded. -/
theorem HasType.exists_unfolds (ht : k.HasType Γ t ty) (hk : k.KnowsDefinitions) {c : Name}
    (hc : c ∈ t.constants) (hdefined : k.definitions.get? c ≠ none) : ∃ t', k.Unfolds t t' := by
  induction ht with
  | abs _ _ ih =>
      obtain ⟨t', h⟩ := ih hc
      exact ⟨_, .abs h⟩
  | app _ _ ihf ihx =>
      rcases List.mem_append.mp hc with hc | hc
      · obtain ⟨f', h⟩ := ihf hc
        exact ⟨_, .appFun h⟩
      · obtain ⟨x', h⟩ := ihx hc
        exact ⟨_, .appArg h⟩
  | const hty hdeclared hinst =>
      obtain rfl := List.mem_singleton.mp hc
      obtain ⟨thm, hthm⟩ := Option.ne_none_iff_exists'.mp hdefined
      obtain ⟨c, rfl, rfl, hknown⟩ := hk _ _ hthm
      rw [hknown.declared] at hdeclared
      cases hdeclared
      obtain ⟨θ, rfl⟩ := Ty.isInstanceOf_iff.mp hinst
      exact ⟨_, .const hthm θ⟩
  | var => cases hc
  | bound => cases hc

/-- A well-formed term can be unfolded until no defined constant is left. -/
theorem HasType.exists_unfolded (hk : k.KnowsDefinitions) (hwf : WellFounded k.UsedIn)
    (ht : k.HasType Γ t ty) :
    ∃ t', Relation.ReflTransGen k.Unfolds t t' ∧ k.HasType Γ t' ty ∧
      ∀ c ∈ t'.constants, k.definitions.get? c = none := by
  induction t using (wellFounded_unfolds hwf).induction with
  | h t ih =>
      by_cases hdone : ∀ c ∈ t.constants, k.definitions.get? c = none
      · exact ⟨t, .refl, ht, hdone⟩
      · simp only [not_forall] at hdone
        obtain ⟨c, hc, hdefined⟩ := hdone
        obtain ⟨t₁, hstep⟩ := ht.exists_unfolds hk hc hdefined
        obtain ⟨t', hsteps, ht', hdone⟩ := ih t₁ hstep (hstep.hasType hk ht)
        exact ⟨t', .head hstep hsteps, ht', hdone⟩

end Kernel

namespace Development

theorem knowsDefinitions_run (ops : List Operation) : (run ops).kernel.KnowsDefinitions := by
  intro name thm hthm
  obtain ⟨c, k, hc, hname, heq, hle⟩ := exists_extend_of_definition ops name thm hthm
  exact ⟨c, hname, heq, hc.known hle⟩

/-- **Definitions are unique and acyclic.**  As a run goes on, constants and type constructors keep
their types and arities, and the ledgers keep their entries; no constant has entries in two ledgers.
No constant is used, however indirectly, in its own definition.  So every way to unfold definitions
in a term comes to an end, and a well-formed term is turned into one of the same type without
defined constants. -/
theorem definitions_unique_acyclic (ops more : List Operation) :
    let k := (run ops).kernel
    let k' := (run (ops ++ more)).kernel
    (∀ c ty, k.constType? c = some ty → k'.constType? c = some ty) ∧
    (∀ name arity, k.arity? name = some arity → k'.arity? name = some arity) ∧
    k.LedgersKept k' ∧ k.LedgersApart ∧
    (∀ c, ¬Relation.TransGen k.UsedIn c c) ∧
    (WellFounded fun t' t => k.Unfolds t t') ∧
    ∀ t ty, k.checkTerm t = .ok ty →
      ∃ t', Relation.ReflTransGen k.Unfolds t t' ∧ k.checkTerm t' = .ok ty ∧
        ∀ c ∈ t'.constants, k.definitions.get? c = none := by
  intro k k'
  have hrun : run (ops ++ more) = (run ops).steps more := steps_append initial ops more
  have hle : k ≤ k' := by
    simp only [k', hrun]
    exact kernel_le_steps _ more
  have hkept : k.LedgersKept k' := by
    simp only [k', hrun]
    exact ledgersKept_steps (ledgersDeclared_run ops) more
  have hwf : WellFounded k.UsedIn := wellFounded_usedIn_run ops
  refine ⟨fun c ty => Kernel.constType?_mono hle, fun name arity => Kernel.arity?_mono hle, hkept,
    ledgersApart_run ops, fun c => ?_, Kernel.wellFounded_unfolds hwf, fun t ty ht => ?_⟩
  · exact hwf.transGen.irrefl.irrefl c
  · obtain ⟨t', hsteps, ht', hdone⟩ :=
      (Kernel.checkTerm_eq_ok_iff.mp ht).exists_unfolded (knowsDefinitions_run ops) hwf
    exact ⟨t', hsteps, Kernel.checkTerm_eq_ok_iff.mpr ht', hdone⟩

/-- The definition `twice = λ x. I (I x)`, by the identity. -/
def twice : ConstDefinition where
  name := "twice"
  term := .abs (tyVar "a") (.app (.const "I" identity.ty)
    (.app (.const "I" identity.ty) (.bound 0 (tyVar "a"))))
  ty := identity.ty

theorem definitions_unique_acyclic_twice :
    let k := (run (identityRun ++ [.defineConst twice.name twice.term])).kernel
    k.UsedIn "I" "twice" ∧ ¬Relation.TransGen k.UsedIn "twice" "twice" ∧
    k.checkTerm (.const "twice" (.fn .bool .bool)) = .ok (.fn .bool .bool) ∧
    ∃ t', Relation.ReflTransGen k.Unfolds (.const "twice" (.fn .bool .bool)) t' ∧
      k.checkTerm t' = .ok (.fn .bool .bool) ∧ "twice" ∉ t'.constants ∧ "I" ∉ t'.constants := by
  intro k
  have hused : k.UsedIn "I" "twice" := ⟨twice.term, by decide +kernel, by decide⟩
  have hcheck : k.checkTerm (.const "twice" (.fn .bool .bool)) = .ok (.fn .bool .bool) := by
    decide +kernel
  have htwice : k.definitions.get? "twice" ≠ none := by decide +kernel
  have hI : k.definitions.get? "I" ≠ none := by decide +kernel
  obtain ⟨-, -, -, -, hacyclic, -, hunfold⟩ :=
    definitions_unique_acyclic (identityRun ++ [.defineConst twice.name twice.term]) []
  obtain ⟨t', hsteps, ht', hdone⟩ := hunfold _ _ hcheck
  exact ⟨hused, hacyclic "twice", hcheck, t', hsteps, ht',
    fun h => htwice (hdone _ h), fun h => hI (hdone _ h)⟩

end Development

end HolSearch
