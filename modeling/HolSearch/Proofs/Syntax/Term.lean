import HolSearch.Proofs.Data.Basic
import HolSearch.Proofs.Syntax.Ty
import HolSearch.Syntax.Term

/-!
# Replacing the variables of terms

A replacement that may fail succeeds just if it does at every variable that occurs.

A `Replacement` acts on types and terms at once: it puts types in place of type variables, and in
place of each variable a closed term of the type that the variable's type becomes.  So it maps the
type of a term along, leaves bound variables alone, and two replacements in a row are one.
-/

namespace HolSearch.Term

variable {μ ν ε : Type}

theorem destEq?_eq_some_iff {t l r : Term μ} :
    t.destEq? = some (l, r) ↔ ∃ ty, t = .app (.app (.const eqName ty) l) r := by
  constructor
  · intro h
    unfold destEq? at h
    split at h
    · split at h
      · rename_i ty _ _ hname
        cases h
        exact ⟨ty, by rw [hname]⟩
      · cases h
    · cases h
  · rintro ⟨ty, rfl⟩
    simp [destEq?]

theorem trySubst_eq_ok_iff {fv : Var μ → Except ε (Term ν)} {P : Var μ → Prop}
    {gv : Var μ → Term ν} {gt : Ty μ → Ty ν} (hfv : ∀ v tm, fv v = .ok tm ↔ P v ∧ tm = gv v)
    {t : Term μ} {t' : Term ν} :
    t.trySubst fv (fun ty => .ok (gt ty)) = .ok t' ↔
      (∀ v ∈ t.leaves, P v) ∧ t' = t.subst gv gt := by
  induction t generalizing t' with
  | abs ty body ih =>
      simp only [trySubst, bind_eq_ok, pure_eq_ok, ih, leaves, subst]
      constructor
      · rintro ⟨_, hty, _, ⟨hbody, rfl⟩, rfl⟩
        cases hty
        exact ⟨hbody, rfl⟩
      · rintro ⟨hbody, rfl⟩
        exact ⟨_, rfl, _, ⟨hbody, rfl⟩, rfl⟩
  | app f x ihf ihx =>
      simp only [trySubst, bind_eq_ok, pure_eq_ok, ihf, ihx, leaves, subst, List.forall_mem_append]
      constructor
      · rintro ⟨_, ⟨hf, rfl⟩, _, ⟨hx, rfl⟩, rfl⟩
        exact ⟨⟨hf, hx⟩, rfl⟩
      · rintro ⟨⟨hf, hx⟩, rfl⟩
        exact ⟨_, ⟨hf, rfl⟩, _, ⟨hx, rfl⟩, rfl⟩
  | var v => simp [trySubst, hfv, leaves, subst]
  | const name ty =>
      simp only [trySubst, bind_eq_ok, pure_eq_ok, leaves, subst]
      simp [eq_comm]
  | bound i ty =>
      simp only [trySubst, bind_eq_ok, pure_eq_ok, leaves, subst]
      simp [eq_comm]

/-- A replacement that leaves the types and the variables that occur in place leaves the term. -/
theorem subst_eq_self {fv : Var μ → Term μ} {t : Term μ} (hfv : ∀ v ∈ t.leaves, fv v = .var v) :
    t.subst fv id = t := by
  induction t with
  | abs ty body ih => rw [subst, ih hfv, id]
  | app f x ihf ihx =>
      rw [leaves, List.forall_mem_append] at hfv
      rw [subst, ihf hfv.1, ihx hfv.2]
  | const name ty => rfl
  | var v => exact hfv v (by simp [leaves])
  | bound i ty => rfl

/-- The result of a replacement depends on what it does to the variables that occur. -/
theorem subst_congr {fv gv : Var μ → Term ν} {ft : Ty μ → Ty ν} {t : Term μ}
    (h : ∀ v ∈ t.leaves, fv v = gv v) : t.subst fv ft = t.subst gv ft := by
  induction t with
  | abs ty body ih => rw [subst, subst, ih h]
  | app f x ihf ihx =>
      rw [leaves, List.forall_mem_append] at h
      rw [subst, subst, ihf h.1, ihx h.2]
  | const name ty => rfl
  | var v => exact h v (by simp [leaves])
  | bound i ty => rfl

/-- Two replacements in a row are one. -/
theorem subst_subst {ξ : Type} (fv : Var μ → Term ν) (ft : Ty μ → Ty ν) (gv : Var ν → Term ξ)
    (gt : Ty ν → Ty ξ) (t : Term μ) :
    (t.subst fv ft).subst gv gt = t.subst (fun v => (fv v).subst gv gt) fun ty => gt (ft ty) := by
  induction t with
  | abs ty body ih => rw [subst, subst, subst, ih]
  | app f x ihf ihx => rw [subst, subst, subst, ihf, ihx]
  | const name ty => rfl
  | var v => rfl
  | bound i ty => rfl

theorem leaves_subst_var (g : Var μ → Var ν) (ft : Ty μ → Ty ν) (t : Term μ) :
    (t.subst (fun v => .var (g v)) ft).leaves = t.leaves.map g := by
  induction t with
  | abs ty body ih => exact ih
  | app f x ihf ihx => rw [subst, leaves, leaves, ihf, ihx, List.map_append]
  | const name ty => rfl
  | var v => rfl
  | bound i ty => rfl

theorem types_subst_var {g : Var μ → Var ν} {ft : Ty μ → Ty ν} (h : ∀ v, (g v).ty = ft v.ty)
    (t : Term μ) : (t.subst (fun v => .var (g v)) ft).types = t.types.map ft := by
  induction t with
  | abs ty body ih => rw [subst, types, types, ih, List.map_cons]
  | app f x ihf ihx => rw [subst, types, types, ihf, ihx, List.map_append]
  | const name ty => rfl
  | var v => rw [subst, types, types, h, List.map_singleton]
  | bound i ty => rfl

theorem hasLooseBound_of_le {t : Term μ} {m n : Nat} (h : t.hasLooseBound m = false)
    (hle : m ≤ n) : t.hasLooseBound n = false := by
  induction t generalizing m n with
  | abs ty body ih => exact ih h (Nat.succ_le_succ hle)
  | app f x ihf ihx =>
      rw [hasLooseBound, Bool.or_eq_false_iff] at h ⊢
      exact ⟨ihf h.1 hle, ihx h.2 hle⟩
  | const name ty => rfl
  | var v => rfl
  | bound i ty =>
      simp only [hasLooseBound, decide_eq_false_iff_not] at h ⊢
      omega

theorem leaves_of_not_hasVars {t : Term μ} (h : ¬t.hasVars = true) : t.leaves = [] := by
  simpa [hasVars] using h

variable [DecidableEq μ]

theorem contains_iff {t : Term μ} {v : Var μ} : t.contains v = true ↔ v ∈ t.leaves := by
  simp [contains]

theorem mem_typeVars {t : Term μ} {v : TyVar μ} :
    v ∈ t.typeVars ↔ ∃ ty ∈ t.types, v ∈ ty.leaves := by
  rw [typeVars, mem_distinct, List.mem_flatMap]

end HolSearch.Term

namespace HolSearch

/-- Types in place of type variables and closed terms in place of variables, each term of the type
that the type of its variable becomes. -/
structure Replacement where
  onTyVar : TyVar Unit → HolType
  onVar : HolVar → HolTerm
  typeOf?_onVar : ∀ v, (onVar v).typeOf? = some (v.ty.subst onTyVar)
  closed_onVar : ∀ v, (onVar v).hasLooseBound 0 = false

namespace Replacement

/-- The term with its variables and type variables replaced. -/
def apply (r : Replacement) (t : HolTerm) : HolTerm := t.subst r.onVar (Ty.subst r.onTyVar)

@[simp] theorem apply_abs (r : Replacement) (ty : HolType) (body : HolTerm) :
    r.apply (.abs ty body) = .abs (ty.subst r.onTyVar) (r.apply body) := rfl

@[simp] theorem apply_app (r : Replacement) (f x : HolTerm) :
    r.apply (.app f x) = .app (r.apply f) (r.apply x) := rfl

@[simp] theorem apply_const (r : Replacement) (name : Name) (ty : HolType) :
    r.apply (.const name ty) = .const name (ty.subst r.onTyVar) := rfl

@[simp] theorem apply_var (r : Replacement) (v : HolVar) : r.apply (.var v) = r.onVar v := rfl

@[simp] theorem apply_bound (r : Replacement) (i : Nat) (ty : HolType) :
    r.apply (.bound i ty) = .bound i (ty.subst r.onTyVar) := rfl

theorem hasLooseBound_apply (r : Replacement) (t : HolTerm) (depth : Nat) :
    (r.apply t).hasLooseBound depth = t.hasLooseBound depth := by
  induction t generalizing depth with
  | abs ty body ih => exact ih (depth + 1)
  | app f x ihf ihx => rw [apply_app, Term.hasLooseBound, Term.hasLooseBound, ihf, ihx]
  | const name ty => rfl
  | var v => exact Term.hasLooseBound_of_le (r.closed_onVar v) (Nat.zero_le depth)
  | bound i ty => rfl

theorem typeOf?_apply (r : Replacement) {t : HolTerm} {ty : HolType} (h : t.typeOf? = some ty) :
    (r.apply t).typeOf? = some (ty.subst r.onTyVar) := by
  induction t generalizing ty with
  | abs dom body ih =>
      obtain ⟨cod, hbody, hty⟩ := Option.bind_eq_some_iff.mp h
      cases hty
      simp [Term.typeOf?, ih hbody]
  | app f x ihf _ =>
      obtain ⟨fty, hf, hcod⟩ := Option.bind_eq_some_iff.mp h
      obtain ⟨⟨dom, cod⟩, hfn, hty⟩ := Option.bind_eq_some_iff.mp hcod
      cases hty
      rw [Ty.destFn?_eq_some_iff.mp hfn] at hf
      simp [Term.typeOf?, ihf hf]
  | const name cty =>
      cases h
      rfl
  | var v =>
      cases h
      exact r.typeOf?_onVar v
  | bound i bty =>
      cases h
      rfl

/-- The replacement that leaves every term as it is. -/
def refl : Replacement where
  onTyVar := .var
  onVar := .var
  typeOf?_onVar v := by rw [Ty.subst_var_eq, Term.typeOf?]
  closed_onVar _ := rfl

theorem apply_refl (t : HolTerm) : refl.apply t = t := by
  have hty : Ty.subst refl.onTyVar = id := funext fun ty => Ty.subst_var_eq ty
  rw [apply, hty]
  exact Term.subst_eq_self fun _ _ => rfl

/-- The replacement `r` and then the replacement `r'`. -/
def comp (r r' : Replacement) : Replacement where
  onTyVar v := (r.onTyVar v).subst r'.onTyVar
  onVar v := r'.apply (r.onVar v)
  typeOf?_onVar v := by rw [← Ty.subst_subst, r'.typeOf?_apply (r.typeOf?_onVar v)]
  closed_onVar v := by rw [r'.hasLooseBound_apply, r.closed_onVar v]

theorem apply_comp (r r' : Replacement) (t : HolTerm) :
    (r.comp r').apply t = r'.apply (r.apply t) := by
  have hty : Ty.subst (r.comp r').onTyVar = fun ty => (ty.subst r.onTyVar).subst r'.onTyVar :=
    funext fun ty => (Ty.subst_subst _ _ ty).symm
  rw [apply, apply, apply, Term.subst_subst, hty]
  rfl

end Replacement

end HolSearch
