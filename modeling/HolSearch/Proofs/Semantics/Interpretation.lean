import HolSearch.Proofs.Kernel.Typing
import HolSearch.Proofs.Semantics.Sets

/-!
# The meaning of types and terms

An interpretation takes type constructors to operations on nonempty sets and constants to elements.
A constant has one element for each choice of sets for the type variables of its declared type,
which a kernel tells, so that its meaning at an instance is found by matching the instance against
the declared type.  Abstractions mean graphs, and the values of bound variables are listed from the
innermost binder outward.

Three lemmas carry all later arguments:

* `Agrees.term_eq`: a term means the same under interpretations that agree on what the kernel knows
  and valuations that agree on the variables that occur;
* `term_bind`: binding a variable is the same as changing its value;
* `term_subst`: replacing variables and type variables at once is the same as giving them the
  meanings of what replaces them.
-/

namespace HolSearch

universe u

/-- Sets for the type constructors, and elements for the constants. -/
structure Interpretation where
  tyOp : Name → List NonemptySet.{u} → NonemptySet.{u}
  const : Name → List NonemptySet.{u} → ZFSet.{u}

namespace Interpretation

noncomputable section

variable (I : Interpretation.{u})

/-! ## Types -/

mutual

/-- The set that a type means if its variables mean the sets given by `ρ`. -/
def type (ρ : TyVar Unit → NonemptySet.{u}) : HolType → NonemptySet.{u}
  | .app name args => I.tyOp name (types ρ args)
  | .var v => ρ v

def types (ρ : TyVar Unit → NonemptySet.{u}) : List HolType → List NonemptySet.{u}
  | [] => []
  | ty :: tys => type ρ ty :: types ρ tys

end

variable {I} {I' : Interpretation.{u}} {k k' : Kernel} {ρ ρ' : TyVar Unit → NonemptySet.{u}}

theorem types_eq (tys : List HolType) : I.types ρ tys = tys.map (I.type ρ) := by
  induction tys with
  | nil => rfl
  | cons ty tys ih => rw [types, ih, List.map_cons]

@[simp] theorem type_app (name : Name) (args : List HolType) :
    I.type ρ (.app name args) = I.tyOp name (args.map (I.type ρ)) := by
  rw [type, types_eq]

@[simp] theorem type_var (v : TyVar Unit) : I.type ρ (.var v) = ρ v := by
  rw [type]

theorem type_subst (θ : TyVar Unit → HolType) (ty : HolType) :
    I.type ρ (ty.subst θ) = I.type (fun v => I.type ρ (θ v)) ty := by
  induction ty using Ty.induct with
  | var v => simp
  | app name args ih =>
      rw [Ty.subst_app, type_app, type_app, List.map_map]
      exact congrArg (I.tyOp name) (List.map_congr_left ih)

/-- A well-formed type means the same under type constructors that agree where the kernel knows them
and sets that agree on the variables that occur. -/
theorem type_congr
    (hop : ∀ name args, k.arity? name = some args.length → I.tyOp name args = I'.tyOp name args)
    {ty : HolType} (hty : k.IsType ty) (hρ : ∀ v ∈ ty.leaves, ρ v = ρ' v) :
    I.type ρ ty = I'.type ρ' ty := by
  induction ty using Ty.induct with
  | var v =>
      rw [type_var, type_var]
      exact hρ v (by simp)
  | app name args ih =>
      obtain ⟨harity, hargs⟩ := Kernel.isType_app_iff.mp hty
      have hmap : args.map (I.type ρ) = args.map (I'.type ρ') := by
        refine List.map_congr_left fun arg harg => ih arg harg (hargs arg harg) fun v hv => hρ v ?_
        rw [Ty.leaves_app, List.mem_flatMap]
        exact ⟨arg, harg, hv⟩
      rw [type_app, type_app, hmap]
      exact hop name _ (by rw [harity, List.length_map])

variable (I) in
/-- `I` and `I'` agree on the type constructors that the kernel knows and on the constants that it
knows at well-formed types. -/
structure Agrees (k : Kernel) (I' : Interpretation.{u}) : Prop where
  tyOp : ∀ name args, k.arity? name = some args.length → I.tyOp name args = I'.tyOp name args
  const : ∀ name declared, k.constType? name = some declared → k.IsType declared → ∀ ρ,
    I.const name (declared.vars.map ρ) = I'.const name (declared.vars.map ρ)

theorem Agrees.refl (I : Interpretation.{u}) (k : Kernel) : I.Agrees k I :=
  ⟨fun _ _ _ => rfl, fun _ _ _ _ _ => rfl⟩

/-! ## Terms -/

variable (I) in
/-- Sets for the type variables, and elements of their types for the variables. -/
structure Valuation where
  ty : TyVar Unit → NonemptySet.{u}
  var : HolVar → ZFSet.{u}
  var_mem : ∀ v, var v ∈ (I.type ty v.ty).1

/-- The valuation that gives each variable the value `f` proposes, where that is of its type. -/
def Valuation.ofPartial (ρ : TyVar Unit → NonemptySet.{u}) (f : HolVar → ZFSet.{u}) :
    I.Valuation where
  ty := ρ
  var v := (I.type ρ v.ty).clamp (f v)
  var_mem _ := NonemptySet.clamp_mem _ _

theorem Valuation.ofPartial_var {f : HolVar → ZFSet.{u}} {v : HolVar}
    (hv : f v ∈ (I.type ρ v.ty).1) : (ofPartial (I := I) ρ f).var v = f v :=
  NonemptySet.clamp_of_mem hv

variable (I) in
/-- The sets that the type variables of a declared type mean at one of its instances. -/
def constArgs (ρ : TyVar Unit → NonemptySet.{u}) (declared ty : HolType) : List NonemptySet.{u} :=
  declared.vars.map fun v => I.type ρ (declared.valueIn ty v)

variable (I) in
/-- The meaning of a term, where bound variables have the values `env`. -/
def term (k : Kernel) (σ : I.Valuation) : List ZFSet.{u} → HolTerm → ZFSet.{u}
  | env, .abs ty body => Sets.graph (I.type σ.ty ty).1 fun x => term k σ (x :: env) body
  | env, .app f x => Sets.apply (term k σ env f) (term k σ env x)
  | _, .const name ty =>
      match k.constType? name with
      | none => ∅
      | some declared => I.const name (I.constArgs σ.ty declared ty)
  | _, .var v => σ.var v
  | env, .bound i _ => env[i]?.getD ∅

variable {σ : I.Valuation} {σ' : I'.Valuation} {env env' : List ZFSet.{u}} {Γ : Stack HolType}
  {t : HolTerm} {ty : HolType}

theorem term_const {name : Name} {declared : HolType}
    (hdeclared : k.constType? name = some declared) :
    I.term k σ env (.const name ty) = I.const name (I.constArgs σ.ty declared ty) := by
  simp only [term, hdeclared]

/-- The values of bound variables lie in the types of their binders. -/
def Fits (σ : I.Valuation) (Γ : Stack HolType) (env : List ZFSet.{u}) : Prop :=
  ∀ i ty, Γ.get? i = some ty → ∃ x ∈ (I.type σ.ty ty).1, env[i]? = some x

theorem fits_empty (σ : I.Valuation) (env : List ZFSet.{u}) : Fits σ .empty env := nofun

theorem Fits.push (h : Fits σ Γ env) {x : ZFSet.{u}} (hx : x ∈ (I.type σ.ty ty).1) :
    Fits σ (Γ.push ty) (x :: env) := by
  intro i a hget
  cases i with
  | zero =>
      cases hget
      exact ⟨x, hx, rfl⟩
  | succ i => exact h i a hget

/-- **A term means the same under interpretations that agree on what the kernel knows and valuations
that agree on what occurs in the term.** -/
theorem Agrees.term_eq (hle : k ≤ k') (hI : I.Agrees k I') (h : k.HasType Γ t ty)
    (hty : ∀ τ ∈ t.types, ∀ v ∈ τ.leaves, σ.ty v = σ'.ty v)
    (hvar : ∀ v ∈ t.leaves, σ.var v = σ'.var v)
    (henv : ∀ i τ, Γ.get? i = some τ → env[i]? = env'[i]?) :
    I.term k σ env t = I'.term k' σ' env' t := by
  induction h generalizing env env' with
  | @abs Γ dom cod body hdom _ ih =>
      rw [Term.types, List.forall_mem_cons] at hty
      have hset : I.type σ.ty dom = I'.type σ'.ty dom := type_congr hI.tyOp hdom hty.1
      rw [term, term, hset]
      refine Sets.graph_congr fun x _ => ih hty.2 hvar fun i τ hget => ?_
      cases i with
      | zero => rfl
      | succ i => exact henv i τ hget
  | app _ _ ihf ihx =>
      rw [Term.types, List.forall_mem_append] at hty
      rw [Term.leaves, List.forall_mem_append] at hvar
      rw [term, term, ihf hty.1 hvar.1 henv, ihx hty.2 hvar.2 henv]
  | @const _ name ty declared hisType hdeclared hinst =>
      -- the instance determines the types of the variables of the declared type
      have hsubst := Ty.subst_valueIn hinst
      have hwell := hisType
      rw [← hsubst, Kernel.isType_subst_iff] at hwell
      have hargs : I.constArgs σ.ty declared ty = I'.constArgs σ'.ty declared ty := by
        refine List.map_congr_left fun v hv => ?_
        rw [Ty.mem_vars] at hv
        refine type_congr hI.tyOp (hwell.2 v hv) fun w hw => hty ty (by simp [Term.types]) w ?_
        rw [← hsubst]
        exact Ty.mem_leaves_subst.mpr ⟨v, hv, hw⟩
      rw [term_const hdeclared, term_const (Kernel.constType?_mono hle hdeclared), hargs]
      exact hI.const name declared hdeclared hwell.1 _
  | var => exact hvar _ (by simp [Term.leaves])
  | bound hget => rw [term, term, henv _ _ hget]

theorem Agrees.term_eq_of_empty (hle : k ≤ k') (hI : I.Agrees k I') (h : k.HasType .empty t ty)
    (hty : ∀ τ ∈ t.types, ∀ v ∈ τ.leaves, σ.ty v = σ'.ty v)
    (hvar : ∀ v ∈ t.leaves, σ.var v = σ'.var v) :
    I.term k σ env t = I'.term k' σ' env' t :=
  hI.term_eq hle h hty hvar nofun

/-- Without free variables, only the type variables matter. -/
theorem Agrees.term_eq_of_closed (hle : k ≤ k') (hI : I.Agrees k I') (h : k.HasType .empty t ty)
    (hclosed : t.leaves = []) (hty : ∀ v ∈ t.typeVars, σ.ty v = σ'.ty v) :
    I.term k σ env t = I'.term k' σ' env' t := by
  refine hI.term_eq_of_empty hle h ?_ ?_
  · exact fun τ hτ v hv => hty v (Term.mem_typeVars.mpr ⟨τ, hτ, hv⟩)
  · rw [hclosed]
    exact nofun

theorem term_closed (h : k.HasType .empty t ty) (env env' : List ZFSet.{u}) :
    I.term k σ env t = I.term k σ env' t :=
  (Agrees.refl I k).term_eq_of_empty (le_refl k) h (fun _ _ _ _ => rfl) fun _ _ => rfl

/-! ## Changing the value of a variable -/

/-- The valuation that gives `v` the value `x` and is `σ` elsewhere. -/
def Valuation.update (σ : I.Valuation) (v : HolVar) (x : ZFSet.{u})
    (hx : x ∈ (I.type σ.ty v.ty).1) : I.Valuation where
  ty := σ.ty
  var w := if w = v then x else σ.var w
  var_mem w := by
    by_cases hw : w = v
    · rw [if_pos hw, hw]
      exact hx
    · rw [if_neg hw]
      exact σ.var_mem w

/-- Binding a variable is the same as giving it the value of the binder. -/
theorem term_bind {v : HolVar} {x : ZFSet.{u}} (hx : x ∈ (I.type σ.ty v.ty).1) {depth : Nat}
    (henv : env[depth]? = some x) :
    I.term k σ env (t.bind v depth) = I.term k (σ.update v x hx) env t := by
  induction t generalizing env depth with
  | abs dom body ih =>
      rw [Term.bind, term, term]
      exact Sets.graph_congr fun y _ => ih (by simpa using henv)
  | app f x ihf ihx => rw [Term.bind, term, term, ihf henv, ihx henv]
  | const name ty => rfl
  | var w =>
      by_cases hw : w = v
      · simp [Term.bind, term, Valuation.update, hw, henv]
      · simp [Term.bind, term, Valuation.update, hw]
  | bound i ty => rfl

theorem term_update_of_notMem {v : HolVar} {x : ZFSet.{u}} (hx : x ∈ (I.type σ.ty v.ty).1)
    (h : k.HasType Γ t ty) (hv : v ∉ t.leaves) :
    I.term k (σ.update v x hx) env t = I.term k σ env t := by
  refine (Agrees.refl I k).term_eq (le_refl k) h (fun _ _ _ _ => rfl) (fun w hw => if_neg ?_)
    fun _ _ _ => rfl
  rintro rfl
  exact hv hw

theorem term_bind_zero {v : HolVar} {x : ZFSet.{u}} (hx : x ∈ (I.type σ.ty v.ty).1)
    (h : k.HasType .empty t ty) :
    I.term k σ (x :: env) (t.bind v 0) = I.term k (σ.update v x hx) env t := by
  rw [term_bind hx rfl]
  exact term_closed h _ _

/-! ## Replacing variables -/

variable {σ₁ : I.Valuation}

theorem constArgs_subst {declared : HolType} (hinst : ty.isInstanceOf declared = true)
    (θ : TyVar Unit → HolType) :
    I.constArgs ρ declared (ty.subst θ) = I.constArgs (fun v => I.type ρ (θ v)) declared ty := by
  have hsubst : ty.subst θ = declared.subst fun v => (declared.valueIn ty v).subst θ := by
    rw [← Ty.subst_subst, Ty.subst_valueIn hinst]
  refine List.map_congr_left fun v hv => ?_
  rw [Ty.mem_vars] at hv
  rw [hsubst, Ty.valueIn_subst _ v hv, type_subst]

/-- **Replacing variables and type variables at once is the same as giving them the meanings of what
replaces them.** -/
theorem term_subst {θ : TyVar Unit → HolType} {fv : HolVar → HolTerm} (h : k.HasType Γ t ty)
    (hfv : ∀ v ∈ t.leaves, k.HasType .empty (fv v) (v.ty.subst θ))
    (hty : σ₁.ty = fun v => I.type σ.ty (θ v))
    (hvar : ∀ v ∈ t.leaves, σ₁.var v = I.term k σ [] (fv v)) :
    I.term k σ env (t.subst fv (Ty.subst θ)) = I.term k σ₁ env t := by
  induction h generalizing env with
  | abs _ _ ih =>
      rw [Term.subst, term, term, type_subst, hty]
      exact Sets.graph_congr fun x _ => ih hfv hvar
  | app _ _ ihf ihx =>
      rw [Term.leaves, List.forall_mem_append] at hfv hvar
      rw [Term.subst, term, term, ihf hfv.1 hvar.1, ihx hfv.2 hvar.2]
  | const _ hdeclared hinst =>
      rw [Term.subst, term_const hdeclared, term_const hdeclared, constArgs_subst hinst, hty]
  | @var _ v _ =>
      have hv : v ∈ (Term.var v : HolTerm).leaves := by simp [Term.leaves]
      rw [Term.subst, term, hvar v hv]
      exact term_closed (hfv v hv) _ _
  | bound => rfl

end

end Interpretation

end HolSearch
