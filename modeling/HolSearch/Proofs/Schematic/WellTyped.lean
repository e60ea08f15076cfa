import HolSearch.Proofs.Schematic.Instantiate

/-!
# Instantiation makes well-formed terms

Schematic terms are raw: a bound variable may have any annotation, constants and type constructors
may be unknown, and functions may be applied to what they do not take.  Instantiation compares types
only where it applies one term to another, and it compares those that the annotations tell.  This
suffices, as long as the values of the metavariables are well-formed: whatever instantiation makes
is well-formed, and it makes every well-formed term that replacing the metavariables makes
(`instantiate_makes_wellFormed`).

The invariant is that a converted part is well-formed *outside of all binders*
(`hasType_of_convert`).  It can be, because a bound variable has been converted to a free one of the
type of its binder, and it is bound again only when the binder is put around the part.
-/

namespace HolSearch

/-- The kernel accepts the values of all type variables and of all variables. -/
structure MetaSubst.WellFormed (k : Kernel) (s : MetaSubst) : Prop where
  types : ∀ name ty, s.types.get? name = some ty → k.checkType ty = .ok ()
  terms : ∀ name tm, s.terms.get? name = some tm → ∃ ty, k.checkTerm tm = .ok ty

variable {k : Kernel} {s : MetaSubst}

/-! ## Types -/

namespace MetaType

theorem isType_of_instantiate (hs : s.WellFormed k) {pat : MetaType} {ty : HolType}
    (h : instantiate k s pat = .ok ty) : k.IsType ty := by
  cases pat with
  | var v =>
      rw [instantiate] at h
      split at h
      · cases h
        exact Kernel.isType_var _
      · split at h
        · rename_i hget
          cases h
          exact hs.types v.name ty hget
        · cases h
  | app name args =>
      rw [instantiate, bind_eq_ok] at h
      obtain ⟨args', -, hmk⟩ := h
      obtain ⟨hty, rfl⟩ := Kernel.mkType_eq_ok_iff.mp (ofKernel_eq_ok_iff.mp hmk)
      exact hty

/-- Of a schematic type, instantiation makes what replacing makes of it, if that is well-formed. -/
theorem instantiate_eq_ok_iff (hs : s.WellFormed k) {pat : MetaType} {ty : HolType} :
    instantiate k s pat = .ok ty ↔ pat.under s.types = .ok ty ∧ k.IsType ty := by
  constructor
  · intro h
    exact ⟨fits_iff.mp (fits_of_instantiate h), isType_of_instantiate hs h⟩
  · rintro ⟨hunder, hty⟩
    exact (fits_iff.mpr hunder).instantiate hty

end MetaType

/-! ## Terms -/

namespace MetaTerm

/-- A part of a schematic term is converted to a well-formed term without loose bound variables, if
the variables that stand for the binders around it are well-formed. -/
theorem hasType_of_convert (hs : s.WellFormed k) {avoid : List Name} {binders : Stack HolVar}
    (hbinders : ∀ i x, binders.get? i = some x → k.IsType x.ty) {pat : MetaTerm} {tm : HolTerm}
    (h : convert k s avoid binders pat = .ok tm) : ∃ ty, k.HasType .empty tm ty := by
  induction pat generalizing binders tm with
  | abs pty pbody ih =>
      simp only [convert, bind_eq_ok, pure_eq_ok] at h
      obtain ⟨dom, hdom, body, hbody, rfl⟩ := h
      have hty : k.IsType dom := MetaType.isType_of_instantiate hs hdom
      obtain ⟨cod, hcod⟩ := ih (Stack.forall_get?_push.mpr ⟨hty, hbinders⟩) hbody
      exact ⟨.fn dom cod, hcod.mkAbs hty⟩
  | app pf px ihf ihx =>
      simp only [convert, bind_eq_ok, ofKernel_eq_ok_iff] at h
      obtain ⟨f, hf, x, hx, happ⟩ := h
      obtain ⟨dom, cod, hfn, harg, rfl⟩ := Term.mkApp_eq_ok_iff.mp happ
      obtain ⟨fty, hfty⟩ := ihf hbinders hf
      obtain ⟨xty, hxty⟩ := ihx hbinders hx
      -- the types that were compared are those of the two terms
      rw [hfty.typeOf?_eq, Option.some.injEq] at hfn
      rw [hxty.typeOf?_eq, Option.some.injEq] at harg
      subst hfn harg
      exact ⟨cod, .app hfty hxty⟩
  | const name pty =>
      simp only [convert, bind_eq_ok, ofKernel_eq_ok_iff, Kernel.mkConstAt_eq_ok_iff] at h
      obtain ⟨ty, -, hcheck, rfl⟩ := h
      obtain ⟨hty, declared, hdeclared, hinst⟩ := Kernel.checkConst_eq_ok_iff.mp hcheck
      exact ⟨ty, .const hty hdeclared hinst⟩
  | var v =>
      rw [convert] at h
      split at h
      · obtain ⟨ty, hty, hpure⟩ := bind_eq_ok.mp h
        cases hpure
        exact ⟨ty, .var (MetaType.isType_of_instantiate hs hty)⟩
      · split at h
        · rename_i value hget
          cases h
          obtain ⟨ty, hcheck⟩ := hs.terms v.name tm hget
          exact ⟨ty, Kernel.checkTerm_eq_ok_iff.mp hcheck⟩
        · cases h
  | bound i pty =>
      rw [convert] at h
      split at h
      · rename_i x hget
        cases h
        exact ⟨x.ty, .var (hbinders i x hget)⟩
      · cases h

theorem hasType_of_instantiate (hs : s.WellFormed k) {pat : MetaTerm} {tm : HolTerm}
    (h : instantiate k s pat = .ok tm) : ∃ ty, k.HasType .empty tm ty := by
  refine hasType_of_convert hs (fun i x hget => ?_) h
  cases hget

end MetaTerm

/-- **What is instantiated is well-formed.**  If the kernel accepts the values of a substitution,
then it accepts every term and every type that instantiation makes by it.  These are just the terms
and types that the kernel accepts among those that replacing the metavariables makes. -/
theorem instantiate_makes_wellFormed (k : Kernel) (s : MetaSubst) (hs : s.WellFormed k) :
    (∀ pat tm, MetaTerm.instantiate k s pat = .ok tm ↔
      MetaTerm.replaced s .empty pat = .ok tm ∧ ∃ ty, k.checkTerm tm = .ok ty) ∧
    ∀ pat ty, MetaType.instantiate k s pat = .ok ty ↔
      pat.under s.types = .ok ty ∧ k.checkType ty = .ok () := by
  refine ⟨fun pat tm => ⟨fun h => ?_, fun h => ?_⟩, fun pat ty => ?_⟩
  · obtain ⟨ty, hty⟩ := MetaTerm.hasType_of_instantiate hs h
    have hreplaced := MetaTerm.becomes_iff.mp (MetaTerm.becomes_of_instantiate h)
    exact ⟨hreplaced, ty, Kernel.checkTerm_eq_ok_iff.mpr hty⟩
  · obtain ⟨hreplaced, ty, hcheck⟩ := h
    exact (MetaTerm.becomes_iff.mpr hreplaced).instantiate_eq (Kernel.checkTerm_eq_ok_iff.mp hcheck)
  · exact MetaType.instantiate_eq_ok_iff hs

/-- The pattern `λ ?a. ?f #0`, which gives the bound variable a type that no kernel knows. -/
def mistypedPattern : MetaTerm :=
  .abs (.var ⟨.unfixed, "a"⟩) (.app (.var ⟨.fixed, "f", .bool⟩) (.bound 0 (.app "unknown" [])))

/-- The value of `f` has a variable with the name that the binder would have been given. -/
def mistypedValues : MetaSubst where
  terms := .insert {} "f" (.abs .bool (freeVar "x0" .bool))
  types := .insert {} "a" .bool

theorem wellFormed_mistypedValues : mistypedValues.WellFormed .initial where
  types name ty hget := by
    rcases Table.eq_or_get?_of_insert hget with rfl | hnone
    · decide
    · cases hnone
  terms name tm hget := by
    rcases Table.eq_or_get?_of_insert hget with rfl | hnone
    · exact ⟨.fn .bool .bool, by decide⟩
    · cases hnone

theorem instantiate_makes_wellFormed_mistyped :
    let tm : HolTerm :=
      .abs .bool (.app (.abs .bool (freeVar "x0" .bool)) (.bound 0 .bool))
    MetaTerm.instantiate .initial mistypedValues mistypedPattern = .ok tm ∧
      ∃ ty, Kernel.initial.checkTerm tm = .ok ty := by
  intro tm
  have hinst : MetaTerm.instantiate .initial mistypedValues mistypedPattern = .ok tm := by
    decide +kernel
  have hmakes := instantiate_makes_wellFormed .initial mistypedValues wellFormed_mistypedValues
  exact ⟨hinst, ((hmakes.1 mistypedPattern tm).mp hinst).2⟩

end HolSearch
