import HolSearch.Proofs.Kernel.WellFormed

/-!
# Factories and checks

The type of a term is computed in two ways.  The checks of the kernel go through a term with the
types of the binders around and look up every constant and type constructor; the factories `mkApp`
and `mkEq` compare only what the annotations tell.  On terms that pass the check the two agree: a
factory succeeds just if the check accepts what it builds, and refuses with the same error.  `mkAbs`
refuses nothing, and `mkConstAt` and `mkType` look up what the checks look up.

Main statement: `factories_agree`.
-/

namespace HolSearch

namespace Kernel

variable {k : Kernel} {f x l r : HolTerm} {a b dom cod : HolType}

/-! ## Applications -/

theorem checkTerm_app_fn (hf : k.checkTerm f = .ok (.fn dom cod)) (hx : k.checkTerm x = .ok b) :
    k.checkTerm (.app f x) = if dom = b then .ok cod else .error .typeMismatch := by
  rw [checkTerm] at hf hx
  rw [checkTerm, checkUnder, hf, hx]
  rfl

theorem checkTerm_app_of_destFn? (hf : k.checkTerm f = .ok a) (hx : k.checkTerm x = .ok b)
    (ha : a.destFn? = none) : k.checkTerm (.app f x) = .error .notAFunction := by
  rw [checkTerm] at hf hx
  rw [checkTerm, checkUnder, hf, hx]
  simp only [bind, Except.bind, ha]

/-- An application is built just if the check accepts it, and refused for the same reason. -/
theorem mkApp_eq (hf : k.checkTerm f = .ok a) (hx : k.checkTerm x = .ok b) :
    f.mkApp x = (k.checkTerm (.app f x)).map fun _ => .app f x := by
  have hftype := (checkTerm_eq_ok_iff.mp hf).typeOf?_eq
  have hxtype := (checkTerm_eq_ok_iff.mp hx).typeOf?_eq
  rw [Term.mkApp, hftype, hxtype, Option.bind_some]
  cases hfn : a.destFn? with
  | none =>
      rw [checkTerm_app_of_destFn? hf hx hfn]
      rfl
  | some sides =>
      obtain ⟨dom, cod⟩ := sides
      rw [Ty.destFn?_eq_some_iff.mp hfn] at hf
      rw [checkTerm_app_fn hf hx]
      by_cases hdom : dom = b
      · simp [hdom, Except.map]
      · simp [hdom, Ne.symm hdom, Except.map]

/-! ## Equations -/

/-- An equation is built just if the check accepts it, and refused for the same reason. -/
theorem mkEq_eq (hk : initial ≤ k) (hl : k.checkTerm l = .ok a) (hr : k.checkTerm r = .ok b) :
    l.mkEq r = (k.checkTerm (.equation a l r)).map fun _ => .equation a l r := by
  have hltype := checkTerm_eq_ok_iff.mp hl
  have hrtype := (checkTerm_eq_ok_iff.mp hr).typeOf?_eq
  -- the equality constant applied to the left side
  have hpartial : k.HasType .empty (.app (.const Term.eqName (.fn a (.fn a .bool))) l)
      (.fn a .bool) :=
    .app (.const (isType_eqType hk (hltype.isType_of_closed hk)) (constType?_eq hk)
      (isInstanceOf_eqType_iff.mpr ⟨a, rfl⟩)) hltype
  rw [Term.equation, checkTerm_app_fn (checkTerm_eq_ok_iff.mpr hpartial) hr, Term.mkEq,
    hltype.typeOf?_eq, hrtype]
  by_cases hsides : a = b
  · simp [hsides, Except.map, Term.equation]
  · simp [hsides, Ne.symm hsides, Except.map]

/-! ## Abstractions and constants -/

theorem checkTerm_mkAbs {v : HolVar} {body : HolTerm} {ty : HolType}
    (hv : k.checkType v.ty = .ok ()) (hbody : k.checkTerm body = .ok ty) :
    k.checkTerm (Term.mkAbs v body) = .ok (.fn v.ty ty) :=
  checkTerm_eq_ok_iff.mpr ((checkTerm_eq_ok_iff.mp hbody).mkAbs hv)

theorem mkConstAt_eq_checkTerm (name : Name) (ty : HolType) :
    k.mkConstAt name ty = (k.checkTerm (.const name ty)).map fun _ => .const name ty := by
  rw [mkConstAt_eq, checkTerm, checkUnder]
  cases k.checkConst name ty with
  | error e => rfl
  | ok => rfl

end Kernel

namespace Development

/-- **Factories and checks agree.**  In every kernel that a run leads to, a term that passes the
check has the type that its annotations tell and no loose bound variable.  Applications and
equations of such terms are built just if the check accepts them, and refused with the same error,
and abstractions have the type that they should have.  Constants and types are made of any arguments
just if the check accepts them, and refused with the same error. -/
theorem factories_agree (ops : List Operation) :
    let k := (run ops).kernel
    (∀ t ty, k.checkTerm t = .ok ty → t.typeOf? = some ty ∧ t.hasLooseBound 0 = false) ∧
    (∀ f x a b, k.checkTerm f = .ok a → k.checkTerm x = .ok b →
      f.mkApp x = (k.checkTerm (.app f x)).map fun _ => .app f x) ∧
    (∀ l r a b, k.checkTerm l = .ok a → k.checkTerm r = .ok b →
      l.mkEq r = (k.checkTerm (.equation a l r)).map fun _ => .equation a l r) ∧
    (∀ v body ty, k.checkType v.ty = .ok () → k.checkTerm body = .ok ty →
      k.checkTerm (Term.mkAbs v body) = .ok (.fn v.ty ty)) ∧
    (∀ name ty,
      k.mkConstAt name ty = (k.checkTerm (.const name ty)).map fun _ => .const name ty) ∧
    ∀ name args,
      k.mkType name args = (k.checkType (.app name args)).map fun _ => .app name args := by
  intro k
  refine ⟨fun t ty ht => ?_, fun f x a b => Kernel.mkApp_eq, fun l r a b => ?_,
    fun v body ty => Kernel.checkTerm_mkAbs, Kernel.mkConstAt_eq_checkTerm, Kernel.mkType_eq⟩
  · have htype := Kernel.checkTerm_eq_ok_iff.mp ht
    exact ⟨htype.typeOf?_eq, htype.hasLooseBound_eq_false⟩
  · exact Kernel.mkEq_eq (initial_le_run ops)

/-- The identity, a variable of type `a` and one of type `bool`. -/
theorem factories_agree_identity :
    let k := (run identityRun).kernel
    let i : HolTerm := .const "I" identity.ty
    let x := freeVar "x" (tyVar "a")
    let p := freeVar "p" .bool
    k.checkTerm i = .ok identity.ty ∧ k.checkTerm x = .ok (tyVar "a") ∧
      k.checkTerm p = .ok .bool ∧ i.mkApp x = .ok (.app i x) ∧ i.mkApp p = .error .typeMismatch ∧
      x.mkApp p = .error .notAFunction ∧ x.mkEq p = .error .typeMismatch ∧
      k.checkTerm (Term.mkAbs ⟨(), "x", tyVar "a"⟩ x) = .ok identity.ty := by
  intro k i x p
  obtain ⟨-, happ, heq, habs, -, -⟩ := factories_agree identityRun
  have hi : k.checkTerm i = .ok identity.ty := by decide +kernel
  have hx : k.checkTerm x = .ok (tyVar "a") := by decide +kernel
  have hp : k.checkTerm p = .ok .bool := by decide +kernel
  refine ⟨hi, hx, hp, (happ i x _ _ hi hx).trans ?_, (happ i p _ _ hi hp).trans ?_,
    (happ x p _ _ hx hp).trans ?_, (heq x p _ _ hx hp).trans ?_, habs _ x _ rfl hx⟩
  all_goals decide +kernel

end Development

end HolSearch
