import HolSearch.Kernel.Basic
import HolSearch.Proofs.Matching.Ty
import HolSearch.Proofs.Syntax.Term

/-!
# Well-formed types and terms

`Kernel.HasType` gives the rules by which a term below binders has a type, and
`checkUnder_eq_ok_iff` says that the kernel's check follows them.  From the rules we read off

* that the type is the one that the annotations tell (`HasType.typeOf?_eq`);
* that typing survives the growth of the registries (`HasType.mono`);
* that a closed term keeps its type below binders, that binding a variable does not change the type
  (`HasType.bind`), and that a simultaneous replacement of variables and type variables maps the
  type along (`HasType.subst`).

Kernels are ordered by what they know.  `Kernel.initial ≤ k` says that `k` knows functions,
propositions and equality, which is all that most lemmas ask of `k`.
-/

namespace HolSearch

namespace Kernel

variable {k k' : Kernel} {Γ Γ' : Stack HolType}

/-! ## What a kernel knows -/

/-- `k'` has all type constructors and constants of `k`, at the same arities and types. -/
instance : Preorder Kernel where
  le k k' := k.types ≤ k'.types ∧ k.consts ≤ k'.consts
  le_refl k := ⟨le_refl k.types, le_refl k.consts⟩
  le_trans _ _ _ h h' := ⟨le_trans h.1 h'.1, le_trans h.2 h'.2⟩

theorem arity?_mono (h : k ≤ k') {name : Name} {arity : Nat} (harity : k.arity? name = some arity) :
    k'.arity? name = some arity :=
  h.1 name arity harity

theorem constType?_mono (h : k ≤ k') {name : Name} {ty : HolType}
    (hty : k.constType? name = some ty) : k'.constType? name = some ty :=
  h.2 name ty hty

theorem arity?_fun (hk : initial ≤ k) : k.arity? Ty.funName = some 2 :=
  arity?_mono hk rfl

theorem arity?_bool (hk : initial ≤ k) : k.arity? Ty.boolName = some 0 :=
  arity?_mono hk rfl

theorem constType?_eq (hk : initial ≤ k) :
    k.constType? Term.eqName = some (.fn (tyVar "a") (.fn (tyVar "a") .bool)) :=
  constType?_mono hk rfl

/-! ## Types -/

/-- Every constructor in the type is known and has as many arguments as it takes. -/
def IsType (k : Kernel) (ty : HolType) : Prop := k.checkType ty = .ok ()

theorem checkTypes_eq_ok_iff {tys : List HolType} :
    k.checkTypes tys = .ok () ↔ ∀ ty ∈ tys, k.IsType ty := by
  induction tys with
  | nil => simp [checkTypes]
  | cons ty tys ih =>
      rw [checkTypes, bind_eq_ok, List.forall_mem_cons, ← ih]
      exact ⟨fun ⟨_, hty, htys⟩ => ⟨hty, htys⟩, fun ⟨hty, htys⟩ => ⟨(), hty, htys⟩⟩

@[simp] theorem isType_var (v : TyVar Unit) : k.IsType (.var v) := by
  rw [IsType, checkType]

theorem isType_app_iff {name : Name} {args : List HolType} :
    k.IsType (.app name args) ↔ k.arity? name = some args.length ∧ ∀ ty ∈ args, k.IsType ty := by
  rw [IsType, checkType]
  cases harity : k.arity? name with
  | none => simp
  | some arity =>
      by_cases hlength : arity = args.length
      · simp [hlength, checkTypes_eq_ok_iff]
      · simp [hlength]

theorem IsType.mono (h : k ≤ k') {ty : HolType} (hty : k.IsType ty) : k'.IsType ty := by
  induction ty using Ty.induct with
  | var v => exact isType_var v
  | app name args ih =>
      obtain ⟨harity, hargs⟩ := isType_app_iff.mp hty
      exact isType_app_iff.mpr ⟨arity?_mono h harity, fun ty hmem => ih ty hmem (hargs ty hmem)⟩

theorem isType_bool (hk : initial ≤ k) : k.IsType .bool :=
  isType_app_iff.mpr ⟨arity?_bool hk, nofun⟩

theorem isType_fn_iff (hk : initial ≤ k) {a b : HolType} :
    k.IsType (.fn a b) ↔ k.IsType a ∧ k.IsType b := by
  simp [Ty.fn, isType_app_iff, arity?_fun hk]

/-- The arguments of a well-formed function type are well-formed, whatever the kernel knows. -/
theorem IsType.of_fn {a b : HolType} (h : k.IsType (.fn a b)) : k.IsType a ∧ k.IsType b := by
  have hargs := (isType_app_iff.mp h).2
  exact ⟨hargs a (by simp), hargs b (by simp)⟩

/-- An instance is well-formed just if the pattern and the values of its variables are. -/
theorem isType_subst_iff {θ : TyVar Unit → HolType} {ty : HolType} :
    k.IsType (ty.subst θ) ↔ k.IsType ty ∧ ∀ v ∈ ty.leaves, k.IsType (θ v) := by
  induction ty using Ty.induct with
  | var v => simp
  | app name args ih =>
      simp only [Ty.subst_app, isType_app_iff, List.length_map, List.forall_mem_map, Ty.leaves_app,
        List.mem_flatMap, and_assoc]
      refine and_congr_right fun _ => ⟨fun h => ⟨fun ty hty => ?_, ?_⟩, fun h ty hty => ?_⟩
      · exact ((ih ty hty).mp (h ty hty)).1
      · rintro v ⟨ty, hty, hv⟩
        exact ((ih ty hty).mp (h ty hty)).2 v hv
      · exact (ih ty hty).mpr ⟨h.1 ty hty, fun v hv => h.2 v ⟨ty, hty, hv⟩⟩

/-! ## Terms -/

/-- The rules by which a term has a type below binders of the given types. -/
inductive HasType (k : Kernel) : Stack HolType → HolTerm → HolType → Prop where
  | abs {Γ : Stack HolType} {ty cod : HolType} {body : HolTerm} (hty : k.IsType ty)
      (hbody : HasType k (Γ.push ty) body cod) : HasType k Γ (.abs ty body) (.fn ty cod)
  | app {Γ : Stack HolType} {dom cod : HolType} {f x : HolTerm} (hf : HasType k Γ f (.fn dom cod))
      (hx : HasType k Γ x dom) : HasType k Γ (.app f x) cod
  | const {Γ : Stack HolType} {name : Name} {ty declared : HolType} (hty : k.IsType ty)
      (hdeclared : k.constType? name = some declared) (hinst : ty.isInstanceOf declared = true) :
      HasType k Γ (.const name ty) ty
  | var {Γ : Stack HolType} {v : HolVar} (hty : k.IsType v.ty) : HasType k Γ (.var v) v.ty
  | bound {Γ : Stack HolType} {i : Nat} {ty : HolType} (hget : Γ.get? i = some ty) :
      HasType k Γ (.bound i ty) ty

theorem checkConst_eq_ok_iff {name : Name} {ty : HolType} :
    k.checkConst name ty = .ok () ↔
      k.IsType ty ∧ ∃ declared, k.constType? name = some declared ∧
        ty.isInstanceOf declared = true := by
  rw [checkConst, bind_eq_ok]
  refine ⟨fun ⟨_, hty, hname⟩ => ⟨hty, ?_⟩, fun ⟨hty, hname⟩ => ⟨(), hty, ?_⟩⟩
  · split at hname
    · cases hname
    · rename_i declared hdeclared
      exact ⟨declared, hdeclared, (ite_eq_ok.mp hname).1⟩
  · obtain ⟨declared, hdeclared, hinst⟩ := hname
    simp [hdeclared, hinst]

/-- A type is made just if its check succeeds, and refused for the same reason. -/
theorem mkType_eq (name : Name) (args : List HolType) :
    k.mkType name args = (k.checkType (.app name args)).map fun _ => .app name args := by
  rw [mkType, checkType]
  cases k.arity? name with
  | none => rfl
  | some arity =>
      dsimp only
      split
      · rfl
      · cases k.checkTypes args with
        | error e => rfl
        | ok => rfl

/-- A constant is made just if its check succeeds, and refused for the same reason. -/
theorem mkConstAt_eq (name : Name) (ty : HolType) :
    k.mkConstAt name ty = (k.checkConst name ty).map fun _ => .const name ty := by
  rw [mkConstAt, checkConst]
  cases k.checkType ty with
  | error e => rfl
  | ok =>
      cases k.constType? name with
      | none => rfl
      | some declared =>
          cases hinst : ty.isInstanceOf declared with
          | false => simp [bind, Except.bind, Except.map, hinst]
          | true => simp [bind, Except.bind, Except.map, hinst]

theorem mkConstAt_eq_ok_iff {name : Name} {ty : HolType} {t : HolTerm} :
    k.mkConstAt name ty = .ok t ↔ k.checkConst name ty = .ok () ∧ t = .const name ty := by
  rw [mkConstAt_eq, map_eq_ok]
  constructor
  · rintro ⟨_, hcheck, rfl⟩
    exact ⟨hcheck, rfl⟩
  · rintro ⟨hcheck, rfl⟩
    exact ⟨(), hcheck, rfl⟩

/-- **The check of a term follows the typing rules.** -/
theorem checkUnder_eq_ok_iff {t : HolTerm} {ty : HolType} :
    k.checkUnder Γ t = .ok ty ↔ k.HasType Γ t ty := by
  induction t generalizing Γ ty with
  | abs dom body ih =>
      simp only [checkUnder, bind_eq_ok, pure_eq_ok, ih]
      constructor
      · rintro ⟨_, hdom, cod, hbody, rfl⟩
        exact .abs hdom hbody
      · rintro (⟨hdom, hbody⟩ | _)
        exact ⟨(), hdom, _, hbody, rfl⟩
  | app f x ihf ihx =>
      simp only [checkUnder, bind_eq_ok, ihf, ihx]
      constructor
      · rintro ⟨fty, hf, xty, hx, hmatch⟩
        split at hmatch
        · cases hmatch
        · rename_i dom cod hfn
          rw [Ty.destFn?_eq_some_iff] at hfn
          obtain ⟨rfl, hcod⟩ := ite_eq_ok.mp hmatch
          cases hcod
          exact .app (hfn ▸ hf) hx
      · rintro (_ | ⟨hf, hx⟩)
        exact ⟨_, hf, _, hx, by simp⟩
  | const name cty =>
      simp only [checkUnder, bind_eq_ok, pure_eq_ok]
      constructor
      · rintro ⟨_, hconst, rfl⟩
        obtain ⟨hty, declared, hdeclared, hinst⟩ := checkConst_eq_ok_iff.mp hconst
        exact .const hty hdeclared hinst
      · rintro (_ | _ | ⟨hty, hdeclared, hinst⟩)
        exact ⟨(), checkConst_eq_ok_iff.mpr ⟨hty, _, hdeclared, hinst⟩, rfl⟩
  | var v =>
      simp only [checkUnder, bind_eq_ok, pure_eq_ok]
      constructor
      · rintro ⟨_, hty, rfl⟩
        exact .var hty
      · rintro (_ | _ | _ | hty)
        exact ⟨(), hty, rfl⟩
  | bound i bty =>
      rw [checkUnder]
      constructor
      · intro h
        split at h
        · cases h
        · rename_i binder hget
          obtain ⟨rfl, hty⟩ := ite_eq_ok.mp h
          cases hty
          exact .bound hget
      · rintro (_ | _ | _ | _ | hget)
        simp [hget]

theorem checkTerm_eq_ok_iff {t : HolTerm} {ty : HolType} :
    k.checkTerm t = .ok ty ↔ k.HasType .empty t ty :=
  checkUnder_eq_ok_iff

theorem checkProp_eq_ok_iff {t : HolTerm} :
    k.checkProp t = .ok () ↔ k.HasType .empty t .bool := by
  rw [checkProp, bind_eq_ok, ← checkTerm_eq_ok_iff]
  constructor
  · rintro ⟨ty, hty, hbool⟩
    rw [hty, Ty.isBool_iff.mp (ite_eq_ok.mp hbool).1]
  · intro h
    exact ⟨.bool, h, rfl⟩

theorem checkProps_eq_ok_iff {ts : List HolTerm} :
    k.checkProps ts = .ok () ↔ ∀ t ∈ ts, k.HasType .empty t .bool := by
  induction ts with
  | nil => simp [checkProps]
  | cons t ts ih =>
      rw [checkProps, bind_eq_ok, List.forall_mem_cons, ← ih, ← checkProp_eq_ok_iff]
      exact ⟨fun ⟨_, ht, hts⟩ => ⟨ht, hts⟩, fun ⟨ht, hts⟩ => ⟨(), ht, hts⟩⟩

namespace HasType

variable {t : HolTerm} {ty : HolType}

theorem unique (h : k.HasType Γ t ty) {ty' : HolType} (h' : k.HasType Γ t ty') : ty = ty' := by
  rw [← checkUnder_eq_ok_iff] at h h'
  exact Except.ok.inj (h.symm.trans h')

/-- The type of a well-formed term is the one that its annotations tell. -/
theorem typeOf?_eq (h : k.HasType Γ t ty) : t.typeOf? = some ty := by
  induction h with
  | abs _ _ ih => simp [Term.typeOf?, ih]
  | app _ _ ihf _ => simp [Term.typeOf?, ihf]
  | const => rfl
  | var => rfl
  | bound => rfl

theorem mono (hle : k ≤ k') (h : k.HasType Γ t ty) : k'.HasType Γ t ty := by
  induction h with
  | abs hty _ ih => exact .abs (hty.mono hle) ih
  | app _ _ ihf ihx => exact .app ihf ihx
  | const hty hdeclared hinst => exact .const (hty.mono hle) (constType?_mono hle hdeclared) hinst
  | var hty => exact .var (hty.mono hle)
  | bound hget => exact .bound hget

theorem isType (hk : initial ≤ k) (h : k.HasType Γ t ty)
    (hΓ : ∀ i τ, Γ.get? i = some τ → k.IsType τ) : k.IsType ty := by
  induction h with
  | abs hty _ ih =>
      exact (isType_fn_iff hk).mpr ⟨hty, ih (Stack.forall_get?_push.mpr ⟨hty, hΓ⟩)⟩
  | app _ _ ihf _ => exact (ihf hΓ).of_fn.2
  | const hty => exact hty
  | var hty => exact hty
  | bound hget => exact hΓ _ _ hget

theorem isType_of_closed (hk : initial ≤ k) (h : k.HasType .empty t ty) : k.IsType ty :=
  h.isType hk nofun

/-- The type of a term has no variables that its annotations do not have. -/
theorem mem_typeVars (h : k.HasType Γ t ty) {v : TyVar Unit} (hv : v ∈ ty.leaves) :
    v ∈ t.typeVars := by
  rw [Term.mem_typeVars]
  induction h with
  | abs _ _ ih =>
      rw [Ty.leaves_fn, List.mem_append] at hv
      rcases hv with hv | hv
      · exact ⟨_, List.mem_cons_self, hv⟩
      · obtain ⟨τ, hτ, hv⟩ := ih hv
        exact ⟨τ, List.mem_cons_of_mem _ hτ, hv⟩
  | app _ _ ihf _ =>
      obtain ⟨τ, hτ, hv⟩ := ihf (by rw [Ty.leaves_fn]; exact List.mem_append_right _ hv)
      exact ⟨τ, List.mem_append_left _ hτ, hv⟩
  | const => exact ⟨_, List.mem_singleton_self _, hv⟩
  | var => exact ⟨_, List.mem_singleton_self _, hv⟩
  | bound => exact ⟨_, List.mem_singleton_self _, hv⟩

/-! ## Typing below other binders -/

theorem weaken (h : k.HasType Γ t ty) (hΓ : Γ.Maps id Γ') : k.HasType Γ' t ty := by
  induction h generalizing Γ' with
  | abs hty _ ih => exact .abs hty (ih (hΓ.push _))
  | app _ _ ihf ihx => exact .app (ihf hΓ) (ihx hΓ)
  | const hty hdeclared hinst => exact .const hty hdeclared hinst
  | var hty => exact .var hty
  | bound hget => exact .bound (hΓ _ _ hget)

/-- A term refers to no binders but those that it is typed below. -/
theorem hasLooseBound_eq_false (h : k.HasType Γ t ty) : t.hasLooseBound Γ.size = false := by
  induction h with
  | abs _ _ ih => exact ih
  | app _ _ ihf ihx => rw [Term.hasLooseBound, ihf, ihx, Bool.or_self]
  | const => rfl
  | var => rfl
  | bound hget =>
      have hlt := (List.getElem?_eq_some_iff.mp hget).1
      exact decide_eq_false (Nat.not_le_of_lt hlt)

/-- The binders that a term does not refer to do not matter. -/
theorem strengthen (h : k.HasType Γ t ty) {depth : Nat} (hloose : t.hasLooseBound depth = false)
    (hΓ : ∀ i < depth, Γ'.get? i = Γ.get? i) : k.HasType Γ' t ty := by
  induction h generalizing Γ' depth with
  | abs hty _ ih =>
      refine .abs hty (ih hloose fun i hi => ?_)
      cases i with
      | zero => rfl
      | succ i => exact hΓ i (Nat.lt_of_succ_lt_succ hi)
  | app _ _ ihf ihx =>
      rw [Term.hasLooseBound, Bool.or_eq_false_iff] at hloose
      exact .app (ihf hloose.1 hΓ) (ihx hloose.2 hΓ)
  | const hty hdeclared hinst => exact .const hty hdeclared hinst
  | var hty => exact .var hty
  | bound hget =>
      refine .bound (Eq.trans (hΓ _ ?_) hget)
      exact Nat.lt_of_not_le (of_decide_eq_false hloose)

/-- Binding a variable to a binder of its type does not change the type of a term. -/
theorem bind (h : k.HasType Γ t ty) {v : HolVar} {depth : Nat} (hΓ : Γ.Maps id Γ')
    (hv : Γ'.get? depth = some v.ty) : k.HasType Γ' (t.bind v depth) ty := by
  induction h generalizing Γ' depth with
  | abs hty _ ih => exact .abs hty (ih (hΓ.push _) hv)
  | app _ _ ihf ihx => exact .app (ihf hΓ hv) (ihx hΓ hv)
  | const hty hdeclared hinst => exact .const hty hdeclared hinst
  | var hty =>
      rename_i w
      by_cases hw : w = v
      · subst hw
        rw [Term.bind, if_pos rfl]
        exact .bound hv
      · rw [Term.bind, if_neg hw]
        exact .var hty
  | bound hget => exact .bound (hΓ _ _ hget)

theorem mkAbs (h : k.HasType .empty t ty) {v : HolVar} (hv : k.IsType v.ty) :
    k.HasType .empty (Term.mkAbs v t) (.fn v.ty ty) :=
  .abs hv (h.bind (Stack.maps_empty id _) rfl)

/-- A simultaneous replacement of variables by closed terms and of type variables by types maps the
type of a term along, if each variable is replaced by a term of the new type of the variable. -/
theorem subst {θ : TyVar Unit → HolType} {fv : HolVar → HolTerm} (hθ : ∀ v, k.IsType (θ v))
    (h : k.HasType Γ t ty) (hfv : ∀ v ∈ t.leaves, k.HasType .empty (fv v) (v.ty.subst θ))
    (hΓ : Γ.Maps (Ty.subst θ) Γ') :
    k.HasType Γ' (t.subst fv (Ty.subst θ)) (ty.subst θ) := by
  have hinstance : ∀ {ty : HolType}, k.IsType ty → k.IsType (ty.subst θ) :=
    fun hty => isType_subst_iff.mpr ⟨hty, fun v _ => hθ v⟩
  induction h generalizing Γ' with
  | abs hty _ ih =>
      rw [Ty.subst_fn]
      exact .abs (hinstance hty) (ih hfv (hΓ.push _))
  | app _ _ ihf ihx =>
      rw [Term.leaves, List.forall_mem_append] at hfv
      have hf := ihf hfv.1 hΓ
      rw [Ty.subst_fn] at hf
      exact .app hf (ihx hfv.2 hΓ)
  | const hty hdeclared hinst =>
      exact .const (hinstance hty) hdeclared (Ty.isInstanceOf_subst hinst θ)
  | var hty => exact (hfv _ (by simp [Term.leaves])).weaken (Stack.maps_empty id _)
  | bound hget => exact .bound (hΓ _ _ hget)

end HasType

/-! ## Equations -/

theorem isInstanceOf_eqType_iff {ty : HolType} :
    ty.isInstanceOf (.fn (tyVar "a") (.fn (tyVar "a") .bool)) = true ↔
      ∃ a, ty = .fn a (.fn a .bool) := by
  rw [Ty.isInstanceOf_iff]
  constructor
  · rintro ⟨θ, rfl⟩
    exact ⟨θ ⟨(), "a"⟩, by simp [tyVar]⟩
  · rintro ⟨a, rfl⟩
    exact ⟨fun _ => a, by simp [tyVar]⟩

theorem isType_eqType (hk : initial ≤ k) {a : HolType} (ha : k.IsType a) :
    k.IsType (.fn a (.fn a .bool)) := by
  rw [isType_fn_iff hk, isType_fn_iff hk]
  exact ⟨ha, ha, isType_bool hk⟩

theorem HasType.equation (hk : initial ≤ k) {a : HolType} {l r : HolTerm} (ha : k.IsType a)
    (hl : k.HasType Γ l a) (hr : k.HasType Γ r a) : k.HasType Γ (.equation a l r) .bool := by
  have heq := HasType.const (Γ := Γ) (isType_eqType hk ha) (constType?_eq hk)
    (isInstanceOf_eqType_iff.mpr ⟨a, rfl⟩)
  exact .app (.app heq hl) hr

/-- A well-formed term that looks like an equation is one, at the type of its two sides. -/
theorem HasType.of_destEq? (hk : initial ≤ k) {t l r : HolTerm} {ty : HolType}
    (h : k.HasType Γ t ty) (hsides : t.destEq? = some (l, r)) :
    ∃ a, t = .equation a l r ∧ ty = .bool ∧ k.HasType Γ l a ∧ k.HasType Γ r a := by
  obtain ⟨eqTy, rfl⟩ := Term.destEq?_eq_some_iff.mp hsides
  cases h with
  | app hf hr =>
      cases hf with
      | app hconst hl =>
          generalize hfn : Ty.fn _ (Ty.fn _ ty) = fnTy at hconst
          cases hconst with
          | const _ hdeclared hinst =>
              rw [constType?_eq hk] at hdeclared
              cases hdeclared
              obtain ⟨a, rfl⟩ := isInstanceOf_eqType_iff.mp hinst
              simp only [Ty.fn_inj] at hfn
              obtain ⟨rfl, rfl, rfl⟩ := hfn
              exact ⟨_, rfl, rfl, hl, hr⟩

theorem HasType.of_equation (hk : initial ≤ k) {a ty : HolType} {l r : HolTerm}
    (h : k.HasType Γ (.equation a l r) ty) : k.HasType Γ l a ∧ k.HasType Γ r a := by
  obtain ⟨b, heq, _, hl, hr⟩ := h.of_destEq? hk (Term.destEq?_equation a l r)
  simp only [Term.equation, Term.app.injEq, Term.const.injEq, Ty.fn_inj, true_and] at heq
  rw [heq.1.1.1]
  exact ⟨hl, hr⟩

end Kernel

namespace Term

theorem mkApp_eq_ok_iff {f x t : HolTerm} :
    f.mkApp x = .ok t ↔
      ∃ dom cod, f.typeOf? = some (.fn dom cod) ∧ x.typeOf? = some dom ∧ t = .app f x := by
  unfold mkApp
  constructor
  · intro h
    split at h
    · cases h
    · rename_i dom cod hfn
      obtain ⟨hx, ht⟩ := ite_eq_ok.mp h
      obtain ⟨fty, hf, hdest⟩ := Option.bind_eq_some_iff.mp hfn
      rw [Ty.destFn?_eq_some_iff] at hdest
      cases ht
      exact ⟨dom, cod, hdest ▸ hf, hx, rfl⟩
  · rintro ⟨dom, cod, hf, hx, rfl⟩
    simp [hf, hx]

theorem mkEq_eq_ok_iff {l r t : HolTerm} :
    l.mkEq r = .ok t ↔
      ∃ ty, l.typeOf? = some ty ∧ r.typeOf? = some ty ∧ t = .equation ty l r := by
  unfold mkEq
  constructor
  · intro h
    split at h
    · cases h
    · rename_i ty hl
      obtain ⟨hr, ht⟩ := ite_eq_ok.mp h
      cases ht
      exact ⟨ty, hl, hr, rfl⟩
  · rintro ⟨ty, hl, hr, rfl⟩
    simp [hl, hr]

end Term

end HolSearch
