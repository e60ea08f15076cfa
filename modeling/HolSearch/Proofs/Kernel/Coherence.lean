import HolSearch.Proofs.Kernel.WellFormed

/-!
# Definitions determine their instances

A constant is known by its name and its type.  If a type variable of its defining term could not be
seen in its type, then one constant would be defined as two different terms: the instances of the
term at two values of this variable.  So we ask when the instance of a type determines the instance
of a term, and the answer is that every type variable of the term occurs in the type
(`atTypes_determined_iff`).  This is what the kernel checks before it defines a constant, and a
defined type has the type variables of its predicate as arguments.

That all recorded definitions have been checked is an invariant of runs: what an operation adds to
the ledger is an accepted definition (`Extends.definition_cases`), and so is all that the ledger of
a run holds (`exists_accepted_of_definition`).  Main statement: `definitions_coherent`.
-/

namespace HolSearch

namespace Term

/-! ## Terms at other types -/

/-- The term with types in place of its type variables; a variable changes only in its type. -/
def atTypes (θ : TyVar Unit → HolType) (t : HolTerm) : HolTerm :=
  t.subst (fun v => .var (v.mapTy (Ty.subst θ))) (Ty.subst θ)

variable {θ θ' : TyVar Unit → HolType} {t : HolTerm}

/-- Two instances of a term are equal just if every type written in it has the same instances. -/
theorem atTypes_eq_iff_types :
    t.atTypes θ = t.atTypes θ' ↔ ∀ ty ∈ t.types, ty.subst θ = ty.subst θ' := by
  induction t with
  | abs ty body ih =>
      simp only [atTypes, subst, types, abs.injEq, List.forall_mem_cons]
      exact and_congr_right fun _ => ih
  | app f x ihf ihx =>
      simp only [atTypes, subst, types, app.injEq, List.forall_mem_append]
      exact and_congr ihf ihx
  | const name ty => simp [atTypes, subst, types]
  | var v => simp [atTypes, subst, types, Var.mapTy]
  | bound i ty => simp [atTypes, subst, types]

theorem atTypes_eq_iff : t.atTypes θ = t.atTypes θ' ↔ ∀ v ∈ t.typeVars, θ v = θ' v := by
  simp only [atTypes_eq_iff_types, Ty.subst_eq_iff, mem_typeVars]
  constructor
  · intro h v hv
    obtain ⟨ty, hty, hleaf⟩ := hv
    exact h ty hty v hleaf
  · intro h ty hty v hleaf
    exact h v ⟨ty, hty, hleaf⟩

/-- **The instance of a type determines that of a term just if the type shows all type variables of
the term.** -/
theorem atTypes_determined_iff {ty : HolType} :
    (∀ θ θ', ty.subst θ = ty.subst θ' → t.atTypes θ = t.atTypes θ') ↔
      ∀ v ∈ t.typeVars, v ∈ ty.leaves := by
  constructor
  · intro h v hv
    by_contra hhidden
    -- a value for the hidden variable changes the term and not the type
    let θ : TyVar Unit → HolType := fun w => if w = v then .bool else .var w
    have hty : ty.subst θ = ty.subst .var := by
      refine Ty.subst_eq_iff.mpr fun w hw => if_neg ?_
      intro heq
      exact hhidden (heq ▸ hw)
    have hvalue : θ v = .var v := atTypes_eq_iff.mp (h θ .var hty) v hv
    simp [θ, Ty.bool] at hvalue
  · intro h θ θ' hty
    exact atTypes_eq_iff.mpr fun v hv => Ty.subst_eq_iff.mp hty v (h v hv)

end Term

/-! ## Definitions of types -/

namespace TypeDefinition

variable {d : TypeDefinition} {k : Kernel} {θ θ' : TyVar Unit → HolType}

/-- The instance of a defined type determines those of its predicate and of its carrier. -/
theorem determined (hd : d.Accepted k) (hty : d.ty.subst θ = d.ty.subst θ') :
    d.pred.atTypes θ = d.pred.atTypes θ' ∧ d.carrier.subst θ = d.carrier.subst θ' := by
  have hvars : ∀ v ∈ d.pred.typeVars, θ v = θ' v := by
    intro v hv
    exact Ty.subst_eq_iff.mp hty v (mem_leaves_ty.mpr hv)
  refine ⟨Term.atTypes_eq_iff.mpr hvars, Ty.subst_eq_iff.mpr ?_⟩
  intro v hv
  exact hvars v (mem_typeVars_of_mem_carrier hd hv)

end TypeDefinition

/-! ## The ledger of definitions -/

namespace Development

/-- An entry of the ledger was there before the operation or is the definition that it has made. -/
theorem Extends.definition_cases {d d' : Development} {op : Operation} (h : d.Extends op d')
    {name : Name} {thm : Theorem} (hthm : d'.kernel.definitions.get? name = some thm) :
    d.kernel.definitions.get? name = some thm ∨
      ∃ c : ConstDefinition, c.Accepted d.kernel ∧ c.name = name ∧ c.thm = thm ∧
        c.extend d.kernel ≤ d'.kernel := by
  cases h with
  | declareType => exact Or.inl hthm
  | declareConst => exact Or.inl hthm
  | postulate => exact Or.inl hthm
  | @defineConst c hc =>
      change (d.kernel.definitions.insert c.name c.thm).get? name = some thm at hthm
      rw [Table.get?_insert] at hthm
      split at hthm
      · rename_i hname
        exact Or.inr ⟨c, hc, hname.symm, Option.some.inj hthm, le_refl _⟩
      · exact Or.inl hthm
  | defineSubtype => exact Or.inl hthm
  | infer => exact Or.inl hthm
  | instantiate => exact Or.inl hthm

/-- Every recorded definition was accepted by the kernel of its time, which has only grown since. -/
theorem exists_extend_of_definition (ops : List Operation) :
    ∀ name thm, (run ops).kernel.definitions.get? name = some thm →
      ∃ (c : ConstDefinition) (k : Kernel), c.Accepted k ∧ c.name = name ∧ c.thm = thm ∧
        c.extend k ≤ (run ops).kernel := by
  refine steps_induction (P := fun d => ∀ name thm, d.kernel.definitions.get? name = some thm →
    ∃ (c : ConstDefinition) (k : Kernel), c.Accepted k ∧ c.name = name ∧ c.thm = thm ∧
      c.extend k ≤ d.kernel) ?_ ?_
  · intro name thm hthm
    cases hthm
  · intro d op d' _ ih h name thm hthm
    rcases h.definition_cases hthm with hold | ⟨c, hc, hname, heq, hle⟩
    · obtain ⟨c, k, hc, hname, heq, hle⟩ := ih name thm hold
      exact ⟨c, k, hc, hname, heq, le_trans hle h.kernel_le⟩
    · exact ⟨c, d.kernel, hc, hname, heq, hle⟩

theorem exists_accepted_of_definition (ops : List Operation) :
    ∀ name thm, (run ops).kernel.definitions.get? name = some thm →
      ∃ (c : ConstDefinition) (k : Kernel), c.Accepted k ∧ c.name = name ∧ c.thm = thm := by
  intro name thm hthm
  obtain ⟨c, k, hc, hname, heq, -⟩ := exists_extend_of_definition ops name thm hthm
  exact ⟨c, k, hc, hname, heq⟩

/-- A closed term is accepted as the definition of a new constant just if the instance of its type
determines that of the term. -/
theorem defineConst_succeeds_iff {k : Kernel} {name : Name} {t : HolTerm} {ty : HolType}
    (hnew : k.constType? name = none) (hclosed : t.leaves = []) (hty : k.HasType .empty t ty) :
    (∃ thm k', (Kernel.defineConst name t).run k = (.ok thm, k')) ↔
      ∀ θ θ', ty.subst θ = ty.subst θ' → t.atTypes θ = t.atTypes θ' := by
  rw [Term.atTypes_determined_iff]
  constructor
  · rintro ⟨thm, k', hrun⟩
    rcases Kernel.defineConst_cases name t k with ⟨e, hrefused⟩ | ⟨ty', hc, -⟩
    · rw [hrefused] at hrun
      cases hrun
    · rw [hty.unique hc.typed]
      exact hc.not_hidden
  · intro hshown
    have hc : (ConstDefinition.mk name t ty).Accepted k := ⟨hclosed, hty, hshown, hnew⟩
    exact ⟨_, _, Kernel.defineConst_of_accepted hc⟩

/-- **Definitions are coherent.**  The theorem recorded for a constant `c` is `⊢ c = t`, and
whatever gives `c` the same type gives the same instance of `t`; a definition is refused if that
would fail.  What gives a defined type the same arguments gives the same instance of its predicate
and the same types to its constructor and its destructor. -/
theorem definitions_coherent (ops : List Operation) :
    (∀ c thm, (run ops).kernel.definitions.get? c = some thm →
      ∃ ty t, thm = .ofList [] (.equation ty (.const c ty) t) ∧
        ∀ θ θ', ty.subst θ = ty.subst θ' → t.atTypes θ = t.atTypes θ') ∧
    (∀ c t ty, (run ops).kernel.constType? c = none → t.hasVars = false →
      (run ops).kernel.checkTerm t = .ok ty →
      ((∃ thm k', (Kernel.defineConst c t).run (run ops).kernel = (.ok thm, k')) ↔
        ∀ θ θ', ty.subst θ = ty.subst θ' → t.atTypes θ = t.atTypes θ')) ∧
    ∀ name ctor dtor pred thms k',
      (Kernel.defineSubtype name ctor dtor pred).run (run ops).kernel = (.ok thms, k') →
      ∃ ty ctorTy dtorTy, ty = .app name (pred.typeVars.map .var) ∧
        k'.arity? name = some pred.typeVars.length ∧
        k'.constType? ctor = some ctorTy ∧ k'.constType? dtor = some dtorTy ∧
        (∃ carrier, ctorTy = .fn carrier ty ∧ dtorTy = .fn ty carrier) ∧
        ∀ θ θ', ty.subst θ = ty.subst θ' →
          pred.atTypes θ = pred.atTypes θ' ∧ ctorTy.subst θ = ctorTy.subst θ' ∧
            dtorTy.subst θ = dtorTy.subst θ' := by
  refine ⟨fun c thm hthm => ?_, fun c t ty hnew hvars hcheck => ?_, ?_⟩
  · obtain ⟨d, k, hd, rfl, rfl⟩ := exists_accepted_of_definition ops c thm hthm
    exact ⟨d.ty, d.term, rfl, Term.atTypes_determined_iff.mpr hd.not_hidden⟩
  · exact defineConst_succeeds_iff hnew (Term.leaves_of_not_hasVars (by simp [hvars]))
      (Kernel.checkTerm_eq_ok_iff.mp hcheck)
  · intro name ctor dtor pred thms k' hrun
    rcases Kernel.defineSubtype_cases name ctor dtor pred (run ops).kernel with
      ⟨e, hrefused⟩ | ⟨carrier, hd, haccepted⟩
    · rw [hrefused] at hrun
      cases hrun
    · rw [haccepted] at hrun
      cases hrun
      let d : TypeDefinition := ⟨name, ctor, dtor, pred, carrier⟩
      refine ⟨d.ty, d.ctorTy, d.dtorTy, rfl, TypeDefinition.arity?_extend,
        TypeDefinition.constType?_ctor hd, TypeDefinition.constType?_dtor, ⟨carrier, rfl, rfl⟩, ?_⟩
      intro θ θ' hty
      obtain ⟨hpred, hcarrier⟩ := TypeDefinition.determined hd hty
      simp only [TypeDefinition.ctorTy, TypeDefinition.dtorTy, Ty.subst_fn, hty]
      exact ⟨hpred, congrArg (Ty.fn · _) hcarrier, congrArg (Ty.fn _) hcarrier⟩

/-- The type of the copies of the elements of `a`, defined by the predicate `λ x : a. I x = x`. -/
def copies : TypeDefinition where
  name := "copy"
  ctor := "mk"
  dtor := "get"
  pred := .abs (tyVar "a") (.equation (tyVar "a")
    (.app (.const "I" identity.ty) (.bound 0 (tyVar "a"))) (.bound 0 (tyVar "a")))
  carrier := tyVar "a"

theorem accepted_copies : copies.Accepted (run identityRun).kernel where
  name_new := rfl
  ctor_new := rfl
  dtor_new := rfl
  ctor_ne_dtor := by decide
  closed := rfl
  typed := Kernel.checkTerm_eq_ok_iff.mp (by decide +kernel)

/-- Two assignments that agree at `a` and nowhere else. -/
theorem definitions_coherent_copies :
    let θ : TyVar Unit → HolType := fun _ => .bool
    let θ' : TyVar Unit → HolType := fun v => if v.name = "a" then .bool else .fn .bool .bool
    (run identityRun).kernel.definitions.get? "I" = some identity.thm ∧
      identity.term.atTypes θ = identity.term.atTypes θ' ∧
      ((Kernel.defineSubtype "copy" "mk" "get" copies.pred).run (run identityRun).kernel).1 =
        .ok (copies.ctorThm, copies.dtorThm) ∧
      copies.pred.atTypes θ = copies.pred.atTypes θ' ∧
      copies.ctorTy.subst θ = copies.ctorTy.subst θ' := by
  intro θ θ'
  obtain ⟨hconst, -, htype⟩ := definitions_coherent identityRun
  have hI : (run identityRun).kernel.definitions.get? "I" = some identity.thm := by decide +kernel
  obtain ⟨ty, t, hthm, ht⟩ := hconst "I" identity.thm hI
  have hequation : Term.equation identity.ty (.const "I" identity.ty) identity.term =
      .equation ty (.const "I" ty) t := congrArg Theorem.conclusion hthm
  simp only [Term.equation, Term.app.injEq, Term.const.injEq, true_and] at hequation
  obtain ⟨⟨-, rfl⟩, rfl⟩ := hequation
  have hrun := Kernel.defineSubtype_of_accepted accepted_copies
  obtain ⟨ty, ctorTy, dtorTy, rfl, -, hctor, -, -, hcopies⟩ :=
    htype "copy" "mk" "get" copies.pred _ _ hrun
  obtain rfl := Option.some.inj ((TypeDefinition.constType?_ctor accepted_copies).symm.trans hctor)
  obtain ⟨hpred, hctorTy, -⟩ := hcopies θ θ' (by rfl)
  exact ⟨hI, ht θ θ' (by rfl), congrArg Prod.fst hrun, hpred, hctorTy⟩

end Development

end HolSearch
