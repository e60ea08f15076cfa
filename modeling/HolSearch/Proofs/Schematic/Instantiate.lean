import HolSearch.Proofs.Kernel.Typing
import HolSearch.Proofs.Schematic.FreshName
import HolSearch.Proofs.Schematic.Matching

/-!
# What instantiation makes of a schematic term

Instantiation gives names to bound variables and binds them again.  These names are fresh, so they
leave no trace: `MetaTerm.Becomes` describes the result by the tree of the schematic term alone,
with bound variables at the types of their binders (`becomes_of_instantiate`).  The same tree can be
computed without any names, by `MetaTerm.replaced` (`becomes_iff`).

Where the schematic term fits a term `t`, the result can differ from `t` only in the types that `t`
gives to bound variables.  It is then one of the `retypings` of `t`, of which there are finitely
many.  If `t` is well-formed then its bound variables have the types of their binders: instantiation
succeeds, and its result is `t`.
-/

namespace HolSearch

/-! ## Types -/

theorem ofKernel_eq_ok_iff {α : Type} {x : Except KernelError α} {a : α} :
    ofKernel x = .ok a ↔ x = .ok a := by
  cases x with
  | ok b => simp [ofKernel]
  | error e => simp [ofKernel]

theorem Kernel.mkType_eq_ok_iff {k : Kernel} {name : Name} {args : List HolType} {ty : HolType} :
    k.mkType name args = .ok ty ↔ k.IsType (.app name args) ∧ ty = .app name args := by
  rw [mkType_eq, map_eq_ok]
  constructor
  · rintro ⟨_, hty, rfl⟩
    exact ⟨hty, rfl⟩
  · rintro ⟨hty, rfl⟩
    exact ⟨(), hty, rfl⟩

namespace MetaType

variable {k : Kernel} {s : MetaSubst}

theorem instantiateList_eq_ok_iff {tys : List MetaType} {tys' : List HolType} :
    instantiateList k s tys = .ok tys' ↔
      List.Forall₂ (fun ty ty' => instantiate k s ty = .ok ty') tys tys' := by
  induction tys generalizing tys' with
  | nil =>
      rw [instantiateList, List.forall₂_nil_left_iff, Except.ok.injEq, eq_comm]
  | cons ty tys ih =>
      simp only [instantiateList, bind_eq_ok, pure_eq_ok, ih, List.forall₂_cons_left_iff]
      constructor
      · rintro ⟨ty', hty, tys', htys, rfl⟩
        exact ⟨ty', tys', hty, htys, rfl⟩
      · rintro ⟨ty', tys', hty, htys, rfl⟩
        exact ⟨ty', hty, tys', htys, rfl⟩

/-- A schematic type is instantiated by the type that it fits. -/
theorem fits_of_instantiate {pat : MetaType} {ty : HolType} (h : instantiate k s pat = .ok ty) :
    Fits s pat ty := by
  induction pat using Ty.induct generalizing ty with
  | var v =>
      rw [instantiate] at h
      split at h
      · rename_i hmark
        cases h
        exact .plain hmark
      · rename_i hmark
        split at h
        · rename_i value hget
          cases h
          exact .value hmark hget
        · cases h
  | app name args ih =>
      rw [instantiate, bind_eq_ok] at h
      obtain ⟨args', hargs, hmk⟩ := h
      obtain ⟨-, rfl⟩ := Kernel.mkType_eq_ok_iff.mp (ofKernel_eq_ok_iff.mp hmk)
      refine .app ?_
      rw [instantiateList_eq_ok_iff] at hargs
      clear hmk
      induction hargs with
      | nil => exact .nil
      | cons harg _ ihargs =>
          rw [List.forall_mem_cons] at ih
          exact .cons (ih.1 harg) (ihargs ih.2)

/-- Instantiation succeeds if the type that the schematic type fits is well-formed. -/
theorem Fits.instantiate {pat : MetaType} {ty : HolType} (h : Fits s pat ty) (hty : k.IsType ty) :
    MetaType.instantiate k s pat = .ok ty := by
  induction pat using Ty.induct generalizing ty with
  | var v =>
      rw [MetaType.instantiate]
      split
      · rename_i hmark
        rw [← h.unique (.plain hmark)]
      · rename_i hmark
        obtain ⟨value, hget⟩ := h.assigned v (by simp) hmark
        rw [hget, ← h.unique (.value hmark hget)]
  | app name args ih =>
      obtain ⟨hassigned, rfl⟩ := h
      rw [Ty.subst_app] at hty ⊢
      have hargs : MetaType.instantiateList k s args =
          .ok (args.map (Ty.subst (MetaSubst.onTyVar s))) := by
        rw [instantiateList_eq_ok_iff, List.forall₂_map_right_iff, List.forall₂_same]
        intro arg harg
        refine ih arg harg ⟨fun v hv => hassigned v ?_, rfl⟩ ?_
        · rw [Ty.leaves_app]
          exact List.mem_flatMap.mpr ⟨arg, harg, hv⟩
        · exact (Kernel.isType_app_iff.mp hty).2 _ (List.mem_map_of_mem harg)
      rw [MetaType.instantiate, hargs]
      exact ofKernel_eq_ok_iff.mpr (Kernel.mkType_eq_ok_iff.mpr ⟨hty, rfl⟩)

end MetaType

/-! ## Terms -/

/-- Binding a variable that does not occur changes nothing. -/
theorem Term.bind_eq_self {t : HolTerm} {x : HolVar} (h : x ∉ t.leaves) (depth : Nat) :
    t.bind x depth = t := by
  induction t generalizing depth with
  | abs ty body ih => rw [Term.bind, ih h]
  | app f y ihf ihy =>
      rw [Term.leaves, List.mem_append, not_or] at h
      rw [Term.bind, ihf h.1, ihy h.2]
  | const name ty => rfl
  | var v =>
      rw [Term.leaves, List.mem_singleton] at h
      rw [Term.bind, if_neg fun hv => h hv.symm]
  | bound i ty => rfl

theorem Term.typeOf?_bind (t : HolTerm) (x : HolVar) (depth : Nat) :
    (t.bind x depth).typeOf? = t.typeOf? := by
  induction t generalizing depth with
  | abs ty body ih => simp only [Term.bind, Term.typeOf?, ih]
  | app f y ihf ihy => simp only [Term.bind, Term.typeOf?, ihf]
  | const name ty => rfl
  | var v =>
      by_cases hv : v = x
      · rw [Term.bind, if_pos hv, hv]
        rfl
      · rw [Term.bind, if_neg hv]
  | bound i ty => rfl

namespace MetaTerm

/-- What the schematic term becomes below binders of the types `Γ`, which in turn stand below
binders that have been given the names in `binders`: metavariables are replaced by their values, and
a bound variable gets the type of its binder, or the name that the binder has been given. -/
inductive Becomes (s : MetaSubst) (binders : Stack HolVar) :
    List HolType → MetaTerm → HolTerm → Prop where
  | abs {Γ : List HolType} {pty : MetaType} {ty : HolType} {pbody : MetaTerm} {body : HolTerm}
      (hty : MetaType.Fits s pty ty) (hbody : Becomes s binders (ty :: Γ) pbody body) :
      Becomes s binders Γ (.abs pty pbody) (.abs ty body)
  | app {Γ : List HolType} {pf px : MetaTerm} {f x : HolTerm} (hf : Becomes s binders Γ pf f)
      (hx : Becomes s binders Γ px x) : Becomes s binders Γ (.app pf px) (.app f x)
  | const {Γ : List HolType} {name : Name} {pty : MetaType} {ty : HolType}
      (hty : MetaType.Fits s pty ty) : Becomes s binders Γ (.const name pty) (.const name ty)
  | plain {Γ : List HolType} {v : MetaVar} {ty : HolType} (hmark : v.mark = .plain)
      (hty : MetaType.Fits s v.ty ty) : Becomes s binders Γ (.var v) (freeVar v.name ty)
  | value {Γ : List HolType} {v : MetaVar} {tm : HolTerm} (hmark : v.mark ≠ .plain)
      (hget : s.terms.get? v.name = some tm) : Becomes s binders Γ (.var v) tm
  | inner {Γ : List HolType} {i : Nat} {pty : MetaType} {ty : HolType} (hget : Γ[i]? = some ty) :
      Becomes s binders Γ (.bound i pty) (.bound i ty)
  | outer {Γ : List HolType} {i : Nat} {pty : MetaType} {x : HolVar}
      (hget : binders.get? i = some x) : Becomes s binders Γ (.bound (Γ.length + i) pty) (.var x)

variable {k : Kernel} {s : MetaSubst} {avoid : List Name} {binders : Stack HolVar}

/-- The names to be avoided are those of the variables in values and of plain variables. -/
structure Avoids (s : MetaSubst) (avoid : List Name) (pat : MetaTerm) : Prop where
  values : ∀ name tm, s.terms.get? name = some tm → ∀ v ∈ tm.leaves, v.name ∈ avoid
  plains : ∀ v ∈ pat.leaves, v.mark = .plain → v.name ∈ avoid

theorem avoids_avoided (s : MetaSubst) (pat : MetaTerm) : Avoids s (avoided s pat) pat where
  values name tm hget v hv := by
    refine List.mem_append_left _ (List.mem_flatMap.mpr ⟨tm, Table.mem_values_of_get? hget, ?_⟩)
    exact List.mem_map_of_mem (mem_distinct.mpr hv)
  plains v hv hmark := by
    refine List.mem_append_right _ (List.mem_map_of_mem (List.mem_filter.mpr ⟨?_, ?_⟩))
    · exact mem_distinct.mpr hv
    · simp [Mark.isMeta, hmark]

/-- Binding the name of the innermost binder again gives its variable the type of the binder. -/
theorem Becomes.bind {Γ : List HolType} {pat : MetaTerm} {tm : HolTerm} {x : HolVar}
    (h : Becomes s (binders.push x) Γ pat tm) (havoids : Avoids s avoid pat)
    (hx : x.name ∉ binders.items.map Var.name ++ avoid) :
    Becomes s binders (Γ ++ [x.ty]) pat (tm.bind x Γ.length) := by
  rw [List.mem_append, not_or] at hx
  induction h with
  | abs hty _ ih => exact .abs hty (ih ⟨havoids.values, havoids.plains⟩)
  | app _ _ ihf ihx =>
      have hplains := List.forall_mem_append.mp havoids.plains
      exact .app (ihf ⟨havoids.values, hplains.1⟩) (ihx ⟨havoids.values, hplains.2⟩)
  | const hty => exact .const hty
  | @plain Γ v ty hmark hty =>
      have hname : v.name ∈ avoid := havoids.plains v (by simp [Term.leaves]) hmark
      rw [Term.bind_eq_self]
      · exact .plain hmark hty
      · intro hmem
        rw [freeVar, Term.leaves, List.mem_singleton] at hmem
        exact hx.2 (hmem ▸ hname)
  | value hmark hget =>
      rw [Term.bind_eq_self fun hmem => hx.2 (havoids.values _ _ hget x hmem)]
      exact .value hmark hget
  | inner hget =>
      refine .inner ?_
      rw [List.getElem?_append_left (List.getElem?_eq_some_iff.mp hget).1, hget]
  | @outer Γ i pty y hget =>
      -- the innermost name becomes a bound variable, and the others are names still
      cases i with
      | zero =>
          cases hget
          rw [Term.bind, if_pos rfl]
          exact .inner List.getElem?_concat_length
      | succ i =>
          have hy : y ≠ x := by
            intro heq
            exact hx.1 (heq ▸ List.mem_map_of_mem (List.mem_of_getElem? hget))
          rw [Term.bind, if_neg hy]
          have hindex : Γ.length + (i + 1) = (Γ ++ [x.ty]).length + i := by
            rw [List.length_append, List.length_singleton]
            omega
          rw [hindex]
          exact .outer hget

theorem becomes_of_convert {pat : MetaTerm} {tm : HolTerm} (havoids : Avoids s avoid pat)
    (h : convert k s avoid binders pat = .ok tm) : Becomes s binders [] pat tm := by
  induction pat generalizing binders tm with
  | abs pty pbody ih =>
      simp only [convert, bind_eq_ok, pure_eq_ok] at h
      obtain ⟨ty, hty, body, hbody, rfl⟩ := h
      have hbecomes := ih ⟨havoids.values, havoids.plains⟩ hbody
      have hfresh := freshName_not_mem binders avoid
      exact .abs (MetaType.fits_of_instantiate hty)
        (hbecomes.bind ⟨havoids.values, havoids.plains⟩ hfresh)
  | app pf px ihf ihx =>
      simp only [convert, bind_eq_ok, ofKernel_eq_ok_iff] at h
      obtain ⟨f, hf, x, hx, happ⟩ := h
      obtain ⟨_, _, -, -, rfl⟩ := Term.mkApp_eq_ok_iff.mp happ
      have hplains := List.forall_mem_append.mp havoids.plains
      exact .app (ihf ⟨havoids.values, hplains.1⟩ hf) (ihx ⟨havoids.values, hplains.2⟩ hx)
  | const name pty =>
      simp only [convert, bind_eq_ok, ofKernel_eq_ok_iff, Kernel.mkConstAt_eq_ok_iff] at h
      obtain ⟨ty, hty, -, rfl⟩ := h
      exact .const (MetaType.fits_of_instantiate hty)
  | var v =>
      rw [convert] at h
      split at h
      · rename_i hmark
        obtain ⟨ty, hty, hpure⟩ := bind_eq_ok.mp h
        cases hpure
        exact .plain hmark (MetaType.fits_of_instantiate hty)
      · rename_i hmark
        split at h
        · rename_i value hget
          cases h
          exact .value hmark hget
        · cases h
  | bound i pty =>
      rw [convert] at h
      split at h
      · rename_i x hget
        cases h
        have hi : i = ([] : List HolType).length + i := (Nat.zero_add i).symm
        rw [hi]
        exact .outer hget
      · cases h

/-- **The names given to binders leave no trace in the result of instantiation.** -/
theorem becomes_of_instantiate {pat : MetaTerm} {tm : HolTerm} (h : instantiate k s pat = .ok tm) :
    Becomes s .empty [] pat tm :=
  becomes_of_convert (avoids_avoided s pat) h

/-! ## Replacing directly -/

/-- The term with its metavariables replaced by their values, below binders of the types in `Γ`.  No
variable is renamed and nothing is checked: a bound variable keeps its number and gets the type of
its binder. -/
def replaced (s : MetaSubst) (Γ : Stack HolType) : MetaTerm → Except SchematicError HolTerm
  | .abs ty body => do
      let ty' ← (ty.under s.types).mapError .unassigned
      return .abs ty' (← replaced s (Γ.push ty') body)
  | .app f x => do
      let f' ← replaced s Γ f
      return .app f' (← replaced s Γ x)
  | .const name ty => do return .const name (← (ty.under s.types).mapError .unassigned)
  | .var v => (v.under s).mapError .unassigned
  | .bound i _ =>
      match Γ.get? i with
      | some ty => .ok (.bound i ty)
      | none => .error .looseBound

theorem mapError_eq_ok_iff {ε ε' α : Type} {f : ε → ε'} {x : Except ε α} {a : α} :
    x.mapError f = .ok a ↔ x = .ok a := by
  cases x with
  | ok b => simp [Except.mapError]
  | error e => simp [Except.mapError]

theorem replaced_var_eq_ok_iff {Γ : Stack HolType} {v : MetaVar} {tm : HolTerm} :
    replaced s Γ (.var v) = .ok tm ↔ v.under s = .ok tm := by
  rw [replaced, mapError_eq_ok_iff]

/-- Below binders that have no names, a schematic term becomes what replacing makes of it. -/
theorem becomes_iff {Γ : List HolType} {pat : MetaTerm} {tm : HolTerm} :
    Becomes s .empty Γ pat tm ↔ replaced s ⟨Γ⟩ pat = .ok tm := by
  constructor
  · intro h
    induction h with
    | abs hty _ ih =>
        simp only [replaced, bind_eq_ok, pure_eq_ok, mapError_eq_ok_iff]
        exact ⟨_, MetaType.fits_iff.mp hty, _, ih, rfl⟩
    | app _ _ ihf ihx =>
        simp only [replaced, bind_eq_ok, pure_eq_ok]
        exact ⟨_, ihf, _, ihx, rfl⟩
    | const hty =>
        simp only [replaced, bind_eq_ok, pure_eq_ok, mapError_eq_ok_iff]
        exact ⟨_, MetaType.fits_iff.mp hty, rfl⟩
    | plain hmark hty =>
        rw [replaced_var_eq_ok_iff]
        exact (Var.under_plain_iff hmark).mpr ⟨_, MetaType.fits_iff.mp hty, rfl⟩
    | value hmark hget =>
        rw [replaced_var_eq_ok_iff]
        exact (Var.under_eq_ok_iff hmark).mpr hget
    | @inner Γ i _ ty hget =>
        have hΓ : (Stack.mk Γ).get? i = some ty := hget
        simp only [replaced, hΓ]
    | outer hget => cases hget
  · intro h
    induction pat generalizing Γ tm with
    | abs pty pbody ih =>
        simp only [replaced, bind_eq_ok, pure_eq_ok, mapError_eq_ok_iff] at h
        obtain ⟨ty, hty, body, hbody, rfl⟩ := h
        exact .abs (MetaType.fits_iff.mpr hty) (ih hbody)
    | app pf px ihf ihx =>
        simp only [replaced, bind_eq_ok, pure_eq_ok] at h
        obtain ⟨f, hf, x, hx, rfl⟩ := h
        exact .app (ihf hf) (ihx hx)
    | const name pty =>
        simp only [replaced, bind_eq_ok, pure_eq_ok, mapError_eq_ok_iff] at h
        obtain ⟨ty, hty, rfl⟩ := h
        exact .const (MetaType.fits_iff.mpr hty)
    | var v =>
        rw [replaced_var_eq_ok_iff] at h
        by_cases hmark : v.mark = .plain
        · obtain ⟨ty, hty, rfl⟩ := (Var.under_plain_iff hmark).mp h
          exact .plain hmark (MetaType.fits_iff.mpr hty)
        · exact .value hmark ((Var.under_eq_ok_iff hmark).mp h)
    | bound i pty =>
        rw [replaced] at h
        split at h
        · rename_i ty hget
          cases h
          exact .inner hget
        · cases h

/-! ## Instantiating what fits a term -/

/-- A pattern that fits a well-formed term becomes this term. -/
theorem Fits.becomes {Γ : List HolType} {pat : MetaTerm} {tm : HolTerm} {ty : HolType}
    (hfits : Fits s pat tm) (htm : k.HasType ⟨Γ⟩ tm ty) : Becomes s .empty Γ pat tm := by
  induction hfits generalizing Γ ty with
  | abs hty _ ih =>
      cases htm with
      | abs _ hbody => exact .abs hty (ih hbody)
  | app _ _ ihf ihx =>
      cases htm with
      | app hf hx => exact .app (ihf hf) (ihx hx)
  | const hty => exact .const hty
  | bound =>
      cases htm with
      | bound hget => exact .inner hget
  | plain hmark hty => exact .plain hmark hty
  | value hmark hget => exact .value hmark hget

/-- What becomes a well-formed term can be converted, to a term of the same type. -/
theorem Becomes.exists_convert {pat : MetaTerm} {tm : HolTerm} {ty : HolType}
    (h : Becomes s .empty (binders.items.map Var.ty) pat tm)
    (htm : k.HasType ⟨binders.items.map Var.ty⟩ tm ty) :
    ∃ tm', convert k s avoid binders pat = .ok tm' ∧ tm'.typeOf? = some ty := by
  induction pat generalizing binders tm ty with
  | abs pty pbody ih =>
      cases h with
      | @abs _ _ dom _ body hty hbecomes =>
          cases htm with
          | abs hdom hbody =>
              let x : HolVar := ⟨(), freshName binders avoid, dom⟩
              obtain ⟨body', hconvert, htype⟩ := ih (show Becomes s .empty
                ((binders.push x).items.map Var.ty) pbody body from hbecomes) hbody
              refine ⟨Term.mkAbs x body', ?_, ?_⟩
              · simp only [convert, bind_eq_ok, pure_eq_ok]
                exact ⟨dom, hty.instantiate hdom, body', hconvert, rfl⟩
              · rw [Term.mkAbs, Term.typeOf?, Term.typeOf?_bind, htype]
                rfl
  | app pf px ihf ihx =>
      cases h with
      | app hbecomes hbecomes' =>
          cases htm with
          | app hf hx =>
              obtain ⟨f', hconvert, htype⟩ := ihf hbecomes hf
              obtain ⟨x', hconvert', htype'⟩ := ihx hbecomes' hx
              refine ⟨.app f' x', ?_, ?_⟩
              · simp only [convert, bind_eq_ok, ofKernel_eq_ok_iff]
                exact ⟨f', hconvert, x', hconvert',
                  Term.mkApp_eq_ok_iff.mpr ⟨_, _, htype, htype', rfl⟩⟩
              · simp [Term.typeOf?, htype]
  | const name pty =>
      cases h with
      | @const _ _ _ ty hty =>
          cases htm with
          | const hty' hdeclared hinst =>
              refine ⟨.const name ty, ?_, rfl⟩
              simp only [convert, bind_eq_ok, ofKernel_eq_ok_iff, Kernel.mkConstAt_eq_ok_iff]
              exact ⟨ty, hty.instantiate hty',
                Kernel.checkConst_eq_ok_iff.mpr ⟨hty', _, hdeclared, hinst⟩, rfl⟩
  | var v =>
      cases h with
      | @plain _ _ ty hmark hty =>
          cases htm with
          | var hty' =>
              refine ⟨freeVar v.name ty, ?_, rfl⟩
              simp only [convert, hmark, hty.instantiate hty']
              rfl
      | value hmark hget =>
          refine ⟨tm, ?_, htm.typeOf?_eq⟩
          simp only [convert, hget]
  | bound i pty =>
      cases h with
      | @inner _ _ _ ty' hget =>
          cases htm with
          | bound _ =>
              rw [List.getElem?_map, Option.map_eq_some_iff] at hget
              obtain ⟨x, hx, rfl⟩ := hget
              refine ⟨.var x, ?_, rfl⟩
              rw [convert, show binders.get? i = some x from hx]
      | outer hget => cases hget

/-- **Instantiation succeeds if replacing makes a well-formed term, and gives this term.** -/
theorem Becomes.instantiate_eq {pat : MetaTerm} {tm : HolTerm} {ty : HolType}
    (h : Becomes s .empty [] pat tm) (htm : k.HasType .empty tm ty) :
    instantiate k s pat = .ok tm := by
  have hexists : ∃ tm', instantiate k s pat = .ok tm' ∧ tm'.typeOf? = some ty :=
    exists_convert (show Becomes s .empty (Stack.empty.items.map Var.ty) pat tm from h) htm
  obtain ⟨tm', hinst, -⟩ := hexists
  have hreplaced := becomes_iff.mp (becomes_of_instantiate hinst)
  rw [becomes_iff.mp h, Except.ok.injEq] at hreplaced
  rw [hinst, hreplaced]

/-- **Instantiating a pattern that fits a well-formed term gives back the term.** -/
theorem Fits.instantiate_eq {pat : MetaTerm} {tm : HolTerm} {ty : HolType} (hfits : Fits s pat tm)
    (htm : k.HasType .empty tm ty) : instantiate k s pat = .ok tm :=
  (hfits.becomes htm).instantiate_eq htm

end MetaTerm

/-! ## Other types of bound variables -/

namespace Term

/-- The terms that arise by giving types from a list to the bound variables of a term. -/
def retypings (tys : List HolType) : HolTerm → List HolTerm
  | .abs ty body => (retypings tys body).map (.abs ty)
  | .app f x => (retypings tys f).flatMap fun f' => (retypings tys x).map (.app f')
  | .const name ty => [.const name ty]
  | .var v => [.var v]
  | .bound i _ => tys.map (.bound i)

variable {tys : List HolType}

theorem mem_retypings_self {t : HolTerm} (h : ∀ ty ∈ t.types, ty ∈ tys) : t ∈ t.retypings tys := by
  induction t with
  | abs ty body ih =>
      rw [types, List.forall_mem_cons] at h
      exact List.mem_map_of_mem (ih h.2)
  | app f x ihf ihx =>
      rw [types, List.forall_mem_append] at h
      exact List.mem_flatMap.mpr ⟨f, ihf h.1, List.mem_map_of_mem (ihx h.2)⟩
  | const name ty => exact List.mem_singleton_self _
  | var v => exact List.mem_singleton_self _
  | bound i ty =>
      rw [types, List.forall_mem_singleton] at h
      exact List.mem_map_of_mem h

theorem types_of_mem_retypings {t t' : HolTerm} (h : t' ∈ t.retypings tys)
    (ht : ∀ ty ∈ t.types, ty ∈ tys) : ∀ ty ∈ t'.types, ty ∈ tys := by
  induction t generalizing t' with
  | abs ty body ih =>
      obtain ⟨body', hbody, rfl⟩ := List.mem_map.mp h
      rw [types, List.forall_mem_cons] at ht ⊢
      exact ⟨ht.1, ih hbody ht.2⟩
  | app f x ihf ihx =>
      obtain ⟨f', hf, happ⟩ := List.mem_flatMap.mp h
      obtain ⟨x', hx, rfl⟩ := List.mem_map.mp happ
      rw [types, List.forall_mem_append] at ht ⊢
      exact ⟨ihf hf ht.1, ihx hx ht.2⟩
  | const name ty =>
      obtain rfl := List.mem_singleton.mp h
      exact ht
  | var v =>
      obtain rfl := List.mem_singleton.mp h
      exact ht
  | bound i ty =>
      obtain ⟨ty', hty, rfl⟩ := List.mem_map.mp h
      rw [types, List.forall_mem_singleton]
      exact hty

theorem mem_retypings_trans {t t' t'' : HolTerm} (h : t' ∈ t.retypings tys)
    (h' : t'' ∈ t'.retypings tys) : t'' ∈ t.retypings tys := by
  induction t generalizing t' t'' with
  | abs ty body ih =>
      obtain ⟨body', hbody, rfl⟩ := List.mem_map.mp h
      obtain ⟨body'', hbody', rfl⟩ := List.mem_map.mp h'
      exact List.mem_map_of_mem (ih hbody hbody')
  | app f x ihf ihx =>
      obtain ⟨f', hf, happ⟩ := List.mem_flatMap.mp h
      obtain ⟨x', hx, rfl⟩ := List.mem_map.mp happ
      obtain ⟨f'', hf', happ'⟩ := List.mem_flatMap.mp h'
      obtain ⟨x'', hx', rfl⟩ := List.mem_map.mp happ'
      exact List.mem_flatMap.mpr ⟨f'', ihf hf hf', List.mem_map_of_mem (ihx hx hx')⟩
  | const name ty =>
      obtain rfl := List.mem_singleton.mp h
      exact h'
  | var v =>
      obtain rfl := List.mem_singleton.mp h
      exact h'
  | bound i ty =>
      obtain ⟨ty', -, rfl⟩ := List.mem_map.mp h
      exact h'

end Term

/-- A pattern that fits a term becomes this term up to the types of bound variables, which are types
of binders. -/
theorem MetaTerm.Becomes.mem_retypings {s : MetaSubst} {Γ tys : List HolType} {pat : MetaTerm}
    {tm tm' : HolTerm} (hfits : MetaTerm.Fits s pat tm) (h : MetaTerm.Becomes s .empty Γ pat tm')
    (htys : ∀ ty ∈ tm.types, ty ∈ tys) (hΓ : ∀ ty ∈ Γ, ty ∈ tys) : tm' ∈ tm.retypings tys := by
  induction hfits generalizing Γ tm' with
  | abs hty _ ih =>
      cases h with
      | abs hty' hbody' =>
          rw [Term.types, List.forall_mem_cons] at htys
          obtain rfl := hty'.unique hty
          exact List.mem_map_of_mem (ih hbody' htys.2 (List.forall_mem_cons.mpr ⟨htys.1, hΓ⟩))
  | app _ _ ihf ihx =>
      cases h with
      | app hf' hx' =>
          rw [Term.types, List.forall_mem_append] at htys
          exact List.mem_flatMap.mpr
            ⟨_, ihf hf' htys.1 hΓ, List.mem_map_of_mem (ihx hx' htys.2 hΓ)⟩
  | const hty =>
      cases h with
      | const hty' =>
          rw [hty'.unique hty]
          exact List.mem_singleton_self _
  | bound =>
      cases h with
      | inner hget' => exact List.mem_map_of_mem (hΓ _ (List.mem_of_getElem? hget'))
      | outer hget' => cases hget'
  | plain hmark hty =>
      cases h with
      | plain _ hty' =>
          rw [hty'.unique hty]
          exact List.mem_singleton_self _
      | value hmark' => exact absurd hmark hmark'
  | value hmark hget =>
      cases h with
      | plain hmark' => exact absurd hmark' hmark
      | value _ hget' =>
          rw [Option.some.inj (hget'.symm.trans hget)]
          exact Term.mem_retypings_self htys

/-! ## Sequents -/

namespace Schema

variable {k : Kernel} {s : MetaSubst} {extra : List HolTerm} {schema : Schema} {conj : Conjecture}

/-- An instance of a schema has the instances of its members, and the extra premises. -/
theorem members_of_instantiate (h : schema.instantiate k s extra = .ok conj) :
    MetaTerm.instantiate k s schema.conclusion = .ok conj.conclusion ∧
      ∀ q, q ∈ conj.premises ↔
        (∃ p ∈ schema.premises, MetaTerm.instantiate k s p = .ok q) ∨ q ∈ extra := by
  simp only [instantiate, bind_eq_ok, pure_eq_ok] at h
  obtain ⟨premises, hpremises, conclusion, hconclusion, rfl⟩ := h
  rw [mapM_eq_ok_iff_forall₂] at hpremises
  refine ⟨hconclusion, fun q => ?_⟩
  rw [Sequent.ofList_premises, mem_distinct, List.mem_append]
  refine or_congr_left ⟨fun hq => ?_, fun ⟨p, hp, hinst⟩ => ?_⟩
  · exact exists_mem_of_forall₂ hpremises.flip hq
  · obtain ⟨q', hq', hinst'⟩ := exists_mem_of_forall₂ hpremises hp
    rwa [Except.ok.inj (hinst.symm.trans hinst')]

theorem exists_instantiate (hconclusion : ∃ tm, MetaTerm.instantiate k s schema.conclusion = .ok tm)
    (hpremises : ∀ p ∈ schema.premises, ∃ tm, MetaTerm.instantiate k s p = .ok tm)
    (extra : List HolTerm) : ∃ conj, schema.instantiate k s extra = .ok conj := by
  obtain ⟨conclusion, hconclusion⟩ := hconclusion
  obtain ⟨premises, hpremises⟩ := exists_mapM_eq_ok hpremises
  simp only [instantiate, bind_eq_ok, pure_eq_ok]
  exact ⟨_, premises, hpremises, conclusion, hconclusion, rfl⟩

/-- What is made of a schema that fits into a target, under the premises of the target, is the
target up to the types of bound variables. -/
theorem FitsInto.mem_retypings {tgt : Conjecture} (hfits : FitsInto s schema tgt)
    (h : schema.instantiate k s tgt.premises = .ok conj) {tys : List HolType}
    (htys : ∀ t ∈ tgt.members, ∀ ty ∈ t.types, ty ∈ tys) :
    ∀ t' ∈ conj.members, ∃ t ∈ tgt.members, t' ∈ t.retypings tys := by
  rw [Sequent.members, List.forall_mem_append, List.forall_mem_singleton] at htys
  obtain ⟨hconclusion, hpremises⟩ := members_of_instantiate h
  intro t' ht'
  rcases List.mem_append.mp ht' with ht' | ht'
  · rcases (hpremises t').mp ht' with ⟨p, hp, hinst⟩ | hextra
    · obtain ⟨q, hq, hpq⟩ := hfits.premises p hp
      refine ⟨q, List.mem_append_left _ hq, ?_⟩
      exact (MetaTerm.becomes_of_instantiate hinst).mem_retypings hpq (htys.1 q hq) nofun
    · exact ⟨t', List.mem_append_left _ hextra, Term.mem_retypings_self (htys.1 t' hextra)⟩
  · obtain rfl := List.mem_singleton.mp ht'
    refine ⟨tgt.conclusion, List.mem_append_right _ (List.mem_singleton_self _), ?_⟩
    exact (MetaTerm.becomes_of_instantiate hconclusion).mem_retypings hfits.conclusion htys.2 nofun

/-- If the target is well-formed, then it is made again. -/
theorem FitsInto.exists_instantiate_equiv {tgt : Conjecture} (hfits : FitsInto s schema tgt)
    (htgt : ∀ t ∈ tgt.members, ∃ ty, k.HasType .empty t ty) :
    ∃ conj, schema.instantiate k s tgt.premises = .ok conj ∧ conj ≈ tgt := by
  rw [Sequent.members, List.forall_mem_append, List.forall_mem_singleton] at htgt
  obtain ⟨hpremises, _, hconclusion⟩ := htgt
  have hconclusion := hfits.conclusion.instantiate_eq hconclusion
  have hpremise : ∀ p ∈ schema.premises, ∃ q ∈ tgt.premises,
      MetaTerm.instantiate k s p = .ok q := by
    intro p hp
    obtain ⟨q, hq, hpq⟩ := hfits.premises p hp
    obtain ⟨_, htype⟩ := hpremises q hq
    exact ⟨q, hq, hpq.instantiate_eq htype⟩
  obtain ⟨conj, hconj⟩ := exists_instantiate ⟨_, hconclusion⟩
    (fun p hp => (hpremise p hp).imp fun q hq => hq.2) tgt.premises
  obtain ⟨hconclusion', hmem⟩ := members_of_instantiate hconj
  refine ⟨conj, hconj, Sequent.equiv_iff.mpr ⟨?_, fun q => ?_⟩⟩
  · exact Except.ok.inj (hconclusion'.symm.trans hconclusion)
  · rw [hmem q]
    refine ⟨?_, Or.inr⟩
    rintro (⟨p, hp, hinst⟩ | hextra)
    · obtain ⟨q', hq', hinst'⟩ := hpremise p hp
      rwa [Except.ok.inj (hinst.symm.trans hinst')]
    · exact hextra

end Schema

end HolSearch
