import HolSearch.Proofs.Matching.Term

/-!
# Matching is exact and most general

A pattern of either kind, object-level or schematic, is matched with a target of either kind.  What
matching promises is said by *replacing* alone: `pat.under s` puts in place of every variable of the
pattern what it stands for under the substitution `s`.  A plain variable stands for itself and any
other for its value; there is no result if some variable has none.

* Matching is sound: it keeps the values that there are, and the pattern under what it finds is the
  target (`matchTerm_sound`).  That a value once assigned is never taken back is what makes this an
  induction: the pattern becomes the same under every extension (`Term.under_mono`).
* Matching is most general: if some extension `t` of the substitution makes the target of an
  object-level pattern, and its values are closed and of the right types, then matching succeeds and
  finds nothing that `t` does not have (`matchTerm_most_general`).
-/

namespace HolSearch

/-- The mark of those variables of a target that stand for themselves. -/
class PlainMark (ν : Type) [Marking ν] where
  plain : ν
  asTarget_eq_plain_iff : ∀ m : ν, Marking.asTarget m = .plain ↔ m = plain

instance : PlainMark Unit := ⟨(), fun _ => ⟨fun _ => rfl, fun _ => rfl⟩⟩

instance : PlainMark Mark := ⟨.plain, fun _ => Iff.rfl⟩

/-- `s'` has every value that `s` has. -/
instance {κ μ : Type} [DecidableEq κ] : Preorder (Subst κ μ) where
  le s s' := s.terms ≤ s'.terms ∧ s.types ≤ s'.types
  le_refl s := ⟨le_refl s.terms, le_refl s.types⟩
  le_trans _ _ _ h h' := ⟨le_trans h.1 h'.1, le_trans h.2 h'.2⟩

/-! ## Replacing -/

section Under

variable {κ μ ν : Type} [DecidableEq κ] [Marking μ] [PatternKey μ κ] [Marking ν] [PlainMark ν]

/-- What a type variable of a pattern stands for, or its name if it has no value. -/
def TyVar.under (v : TyVar μ) (types : Table Name (Ty ν)) : Except Name (Ty ν) :=
  match Marking.asPattern v.mark with
  | .plain => .ok (.var ⟨PlainMark.plain, v.name⟩)
  | _ =>
      match types.get? v.name with
      | some ty => .ok ty
      | none => .error v.name

/-- The pattern with its variables replaced by what they stand for. -/
def Ty.under (pat : Ty μ) (types : Table Name (Ty ν)) : Except Name (Ty ν) :=
  pat.trySubst (·.under types)

/-- What a variable of a pattern stands for, or its name if it has no value.  A plain variable gets
the type that its own type becomes, and the type of any other is not looked at. -/
def Var.under (v : Var μ) (s : Subst κ ν) : Except Name (Term ν) :=
  match Marking.asPattern v.mark with
  | .plain => do return .var ⟨PlainMark.plain, v.name, ← v.ty.under s.types⟩
  | _ =>
      match s.terms.get? (PatternKey.key v) with
      | some tm => .ok tm
      | none => .error v.name

/-- The pattern with its variables and type variables replaced by what they stand for. -/
def Term.under (pat : Term μ) (s : Subst κ ν) : Except Name (Term ν) :=
  pat.trySubst (·.under s) (·.under s.types)

end Under

theorem Ty.trySubstList_eq_ok_iff {μ ν ε : Type} {f : TyVar μ → Except ε (Ty ν)}
    {tys : List (Ty μ)} {tys' : List (Ty ν)} :
    trySubstList f tys = .ok tys' ↔
      List.Forall₂ (fun ty ty' => ty.trySubst f = .ok ty') tys tys' := by
  induction tys generalizing tys' with
  | nil => rw [trySubstList, pure_eq_ok, List.forall₂_nil_left_iff, eq_comm]
  | cons ty tys ih =>
      simp only [trySubstList, bind_eq_ok, pure_eq_ok, ih, List.forall₂_cons_left_iff]
      constructor
      · rintro ⟨ty', hty, tys', htys, rfl⟩
        exact ⟨ty', tys', hty, htys, rfl⟩
      · rintro ⟨ty', tys', hty, htys, rfl⟩
        exact ⟨ty', hty, tys', htys, rfl⟩

section Laws

variable {κ μ ν : Type} [DecidableEq κ] [Marking μ] [PatternKey μ κ] [Marking ν] [PlainMark ν]
variable {types types' : Table Name (Ty ν)} {s s' : Subst κ ν}

theorem Ty.under_var (v : TyVar μ) : (Ty.var v).under types = v.under types := by
  rw [Ty.under, Ty.trySubst]

theorem Ty.under_app_iff {name : Name} {args : List (Ty μ)} {ty : Ty ν} :
    (Ty.app name args).under types = .ok ty ↔
      ∃ args', List.Forall₂ (fun arg arg' => arg.under types = .ok arg') args args' ∧
        ty = .app name args' := by
  simp only [Ty.under, Ty.trySubst, bind_eq_ok, pure_eq_ok, Ty.trySubstList_eq_ok_iff]
  exact exists_congr fun _ => and_congr_right fun _ => eq_comm

theorem TyVar.under_of_plain {v : TyVar μ} (h : Marking.asPattern v.mark = .plain) :
    v.under types = .ok (.var ⟨PlainMark.plain, v.name⟩) := by
  simp only [TyVar.under, h]

theorem TyVar.under_eq_ok_iff {v : TyVar μ} {ty : Ty ν} (h : Marking.asPattern v.mark ≠ .plain) :
    v.under types = .ok ty ↔ types.get? v.name = some ty := by
  unfold TyVar.under
  split
  · contradiction
  · cases types.get? v.name with
    | none => simp
    | some value => simp

theorem Ty.under_mono {pat : Ty μ} {ty : Ty ν} (hle : types ≤ types')
    (h : pat.under types = .ok ty) : pat.under types' = .ok ty := by
  induction pat generalizing ty with
  | var v =>
      rw [under_var] at h ⊢
      by_cases hplain : Marking.asPattern v.mark = .plain
      · rw [TyVar.under_of_plain hplain] at h ⊢
        exact h
      · rw [TyVar.under_eq_ok_iff hplain] at h ⊢
        exact hle _ _ h
  | app name args ih =>
      obtain ⟨args', hargs, rfl⟩ := under_app_iff.mp h
      refine under_app_iff.mpr ⟨args', ?_, rfl⟩
      clear h
      induction hargs with
      | nil => exact .nil
      | cons harg _ ihargs =>
          rw [List.forall_mem_cons] at ih
          exact .cons (ih.1 harg) (ihargs ih.2)

theorem Var.under_plain_iff {v : Var μ} {tm : Term ν} (h : Marking.asPattern v.mark = .plain) :
    v.under s = .ok tm ↔
      ∃ ty, v.ty.under s.types = .ok ty ∧ tm = .var ⟨PlainMark.plain, v.name, ty⟩ := by
  simp only [Var.under, h, bind_eq_ok, pure_eq_ok]
  exact exists_congr fun _ => and_congr_right fun _ => eq_comm

theorem Var.under_eq_ok_iff {v : Var μ} {tm : Term ν} (h : Marking.asPattern v.mark ≠ .plain) :
    v.under s = .ok tm ↔ s.terms.get? (PatternKey.key v) = some tm := by
  unfold Var.under
  split
  · contradiction
  · cases s.terms.get? (PatternKey.key v) with
    | none => simp
    | some value => simp

namespace Term

theorem under_abs_iff {pty : Ty μ} {pbody : Term μ} {tm : Term ν} :
    (abs pty pbody).under s = .ok tm ↔
      ∃ ty body, pty.under s.types = .ok ty ∧ pbody.under s = .ok body ∧ tm = .abs ty body := by
  simp only [under, trySubst, bind_eq_ok, pure_eq_ok]
  constructor
  · rintro ⟨ty, hty, body, hbody, rfl⟩
    exact ⟨ty, body, hty, hbody, rfl⟩
  · rintro ⟨ty, body, hty, hbody, rfl⟩
    exact ⟨ty, hty, body, hbody, rfl⟩

theorem under_app_iff {pf px : Term μ} {tm : Term ν} :
    (app pf px).under s = .ok tm ↔
      ∃ f x, pf.under s = .ok f ∧ px.under s = .ok x ∧ tm = .app f x := by
  simp only [under, trySubst, bind_eq_ok, pure_eq_ok]
  constructor
  · rintro ⟨f, hf, x, hx, rfl⟩
    exact ⟨f, x, hf, hx, rfl⟩
  · rintro ⟨f, x, hf, hx, rfl⟩
    exact ⟨f, hf, x, hx, rfl⟩

theorem under_const_iff {name : Name} {pty : Ty μ} {tm : Term ν} :
    (const name pty).under s = .ok tm ↔
      ∃ ty, pty.under s.types = .ok ty ∧ tm = .const name ty := by
  simp only [under, trySubst, bind_eq_ok, pure_eq_ok]
  exact exists_congr fun _ => and_congr_right fun _ => eq_comm

theorem under_bound_iff {i : Nat} {pty : Ty μ} {tm : Term ν} :
    (bound i pty).under s = .ok tm ↔
      ∃ ty, pty.under s.types = .ok ty ∧ tm = .bound i ty := by
  simp only [under, trySubst, bind_eq_ok, pure_eq_ok]
  exact exists_congr fun _ => and_congr_right fun _ => eq_comm

theorem under_var (v : Var μ) : (var v).under s = v.under s := rfl

/-- Under an extension of the substitution the pattern becomes the same. -/
theorem under_mono {pat : Term μ} {tm : Term ν} (hle : s ≤ s') (h : pat.under s = .ok tm) :
    pat.under s' = .ok tm := by
  induction pat generalizing tm with
  | abs pty pbody ih =>
      obtain ⟨ty, body, hty, hbody, rfl⟩ := under_abs_iff.mp h
      exact under_abs_iff.mpr ⟨ty, body, Ty.under_mono hle.2 hty, ih hbody, rfl⟩
  | app pf px ihf ihx =>
      obtain ⟨f, x, hf, hx, rfl⟩ := under_app_iff.mp h
      exact under_app_iff.mpr ⟨f, x, ihf hf, ihx hx, rfl⟩
  | const name pty =>
      obtain ⟨ty, hty, rfl⟩ := under_const_iff.mp h
      exact under_const_iff.mpr ⟨ty, Ty.under_mono hle.2 hty, rfl⟩
  | bound i pty =>
      obtain ⟨ty, hty, rfl⟩ := under_bound_iff.mp h
      exact under_bound_iff.mpr ⟨ty, Ty.under_mono hle.2 hty, rfl⟩
  | var v =>
      rw [under_var] at h ⊢
      by_cases hplain : Marking.asPattern v.mark = .plain
      · obtain ⟨ty, hty, rfl⟩ := (Var.under_plain_iff hplain).mp h
        exact (Var.under_plain_iff hplain).mpr ⟨ty, Ty.under_mono hle.2 hty, rfl⟩
      · rw [Var.under_eq_ok_iff hplain] at h ⊢
        exact hle.1 _ _ h

end Term

end Laws

/-! ## Soundness -/

section Soundness

variable {κ μ ν : Type} [DecidableEq κ] [Marking μ] [PatternKey μ κ] [Marking ν] [PlainMark ν]
variable [DecidableEq ν]

theorem matchTyVar_sound {v : TyVar μ} {tgt : Ty ν} {s s' : Table Name (Ty ν)}
    (h : matchTyVar v tgt s = .ok s') : s ≤ s' ∧ v.under s' = .ok tgt := by
  unfold matchTyVar at h
  split at h
  · rename_i hplain
    rw [TyVar.under_of_plain hplain]
    split at h
    · rename_i w
      obtain ⟨⟨hw, hname⟩, hs⟩ := ite_eq_ok.mp h
      cases hs
      rw [PlainMark.asTarget_eq_plain_iff] at hw
      rw [← hw, ← hname]
      exact ⟨le_refl s, rfl⟩
    · cases h
  · rename_i hfixed
    obtain ⟨hget, hs⟩ := ite_eq_ok.mp h
    cases hs
    exact ⟨le_refl s, (TyVar.under_eq_ok_iff (by simp [hfixed])).mpr hget⟩
  · rename_i hunfixed
    rw [TyVar.under_eq_ok_iff (by simp [hunfixed])]
    split at h
    · rename_i ty hget
      obtain ⟨rfl, hs⟩ := ite_eq_ok.mp h
      cases hs
      exact ⟨le_refl s, hget⟩
    · rename_i hget
      cases h
      exact ⟨Table.le_insert hget tgt, by rw [Table.get?_insert, if_pos rfl]⟩

/-- Matching of arguments, if matching of each of them is sound. -/
theorem matchTys_sound {pats : List (Ty μ)} {tgts : List (Ty ν)} {s s' : Table Name (Ty ν)}
    (hmatch : ∀ pat ∈ pats, ∀ (tgt : Ty ν) (s s' : Table Name (Ty ν)),
      matchTy pat tgt s = .ok s' → s ≤ s' ∧ pat.under s' = .ok tgt)
    (hlength : pats.length = tgts.length) (h : matchTys pats tgts s = .ok s') :
    s ≤ s' ∧ List.Forall₂ (fun pat tgt => pat.under s' = .ok tgt) pats tgts := by
  induction pats generalizing tgts s with
  | nil =>
      cases h
      rw [List.eq_nil_of_length_eq_zero hlength.symm]
      exact ⟨le_refl _, .nil⟩
  | cons pat pats ih =>
      rw [List.forall_mem_cons] at hmatch
      cases tgts with
      | nil => cases hlength
      | cons tgt tgts =>
          obtain ⟨s₁, hfirst, hrest⟩ := bind_eq_ok.mp h
          obtain ⟨hkeeps, hunder⟩ := hmatch.1 tgt s s₁ hfirst
          obtain ⟨hkeeps', hunders⟩ := ih hmatch.2 (Nat.succ.inj hlength) hrest
          -- what is assigned for later arguments leaves the first one as it is
          exact ⟨le_trans hkeeps hkeeps', .cons (Ty.under_mono hkeeps' hunder) hunders⟩

/-- Matching of types keeps the values that there are, and makes the target of the pattern. -/
theorem matchTy_sound {pat : Ty μ} {tgt : Ty ν} {s s' : Table Name (Ty ν)}
    (h : matchTy pat tgt s = .ok s') : s ≤ s' ∧ pat.under s' = .ok tgt := by
  induction pat generalizing tgt s s' with
  | var v =>
      rw [matchTy] at h
      rw [Ty.under_var]
      exact matchTyVar_sound h
  | app name args ih =>
      cases tgt with
      | var w => simp [matchTy] at h
      | app name' args' =>
          rw [matchTy] at h
          obtain ⟨⟨rfl, hlength⟩, hargs⟩ := ite_eq_ok.mp h
          obtain ⟨hkeeps, hunder⟩ := matchTys_sound (fun _ harg _ _ _ => ih _ harg) hlength hargs
          exact ⟨hkeeps, Ty.under_app_iff.mpr ⟨args', hunder, rfl⟩⟩

omit [PatternKey μ κ] in
theorem matchTyIn_sound {pat : Ty μ} {tgt : Ty ν} {s s' : Subst κ ν}
    (h : matchTyIn pat tgt s = .ok s') : s ≤ s' ∧ pat.under s'.types = .ok tgt := by
  obtain ⟨types, hty, rfl⟩ := matchTyIn_eq_ok_iff.mp h
  obtain ⟨hkeeps, hunder⟩ := matchTy_sound hty
  exact ⟨⟨le_refl s.terms, hkeeps⟩, hunder⟩

theorem matchVar_sound {v : Var μ} {tgt : Term ν} {s s' : Subst κ ν}
    (h : matchVar v tgt s = .ok s') : s ≤ s' ∧ v.under s' = .ok tgt := by
  unfold matchVar at h
  split at h
  · rename_i hplain
    rw [Var.under_plain_iff hplain]
    split at h
    · rename_i w
      obtain ⟨⟨hw, hname⟩, hty⟩ := ite_eq_ok.mp h
      obtain ⟨hkeeps, hunder⟩ := matchTyIn_sound hty
      rw [PlainMark.asTarget_eq_plain_iff] at hw
      refine ⟨hkeeps, w.ty, hunder, ?_⟩
      rw [← hw, ← hname]
    · cases h
  · rename_i hfixed
    obtain ⟨hget, hs⟩ := ite_eq_ok.mp h
    cases hs
    exact ⟨le_refl s, (Var.under_eq_ok_iff (by simp [hfixed])).mpr hget⟩
  · rename_i hunfixed
    rw [Var.under_eq_ok_iff (by simp [hunfixed])]
    rcases capture_eq_ok_iff.mp h with ⟨hget, rfl⟩ | ⟨hget, -, ty, types, -, hty, rfl⟩
    · exact ⟨le_refl s', hget⟩
    · refine ⟨⟨Table.le_insert hget tgt, (matchTy_sound hty).1⟩, ?_⟩
      rw [Table.get?_insert, if_pos rfl]

/-- Matching of terms keeps the values that there are, and makes the target of the pattern. -/
theorem matchTerm_sound {pat : Term μ} {tgt : Term ν} {s s' : Subst κ ν}
    (h : matchTerm pat tgt s = .ok s') : s ≤ s' ∧ pat.under s' = .ok tgt := by
  induction pat generalizing tgt s s' with
  | abs pty pbody ih =>
      cases tgt with
      | abs tty tbody =>
          rw [matchTerm] at h
          obtain ⟨s₁, hty, hbody⟩ := bind_eq_ok.mp h
          obtain ⟨hkeeps, hunder⟩ := matchTyIn_sound hty
          obtain ⟨hkeeps', hunder'⟩ := ih hbody
          exact ⟨le_trans hkeeps hkeeps', Term.under_abs_iff.mpr
            ⟨tty, tbody, Ty.under_mono hkeeps'.2 hunder, hunder', rfl⟩⟩
      | _ => cases h
  | app pf px ihf ihx =>
      cases tgt with
      | app tf tx =>
          rw [matchTerm] at h
          obtain ⟨s₁, hf, hx⟩ := bind_eq_ok.mp h
          obtain ⟨hkeeps, hunder⟩ := ihf hf
          obtain ⟨hkeeps', hunder'⟩ := ihx hx
          exact ⟨le_trans hkeeps hkeeps', Term.under_app_iff.mpr
            ⟨tf, tx, Term.under_mono hkeeps' hunder, hunder', rfl⟩⟩
      | _ => cases h
  | const c pty =>
      cases tgt with
      | const d tty =>
          rw [matchTerm] at h
          obtain ⟨rfl, hty⟩ := ite_eq_ok.mp h
          obtain ⟨hkeeps, hunder⟩ := matchTyIn_sound hty
          exact ⟨hkeeps, Term.under_const_iff.mpr ⟨tty, hunder, rfl⟩⟩
      | _ => cases h
  | bound i pty =>
      cases tgt with
      | bound j tty =>
          rw [matchTerm] at h
          obtain ⟨rfl, hty⟩ := ite_eq_ok.mp h
          obtain ⟨hkeeps, hunder⟩ := matchTyIn_sound hty
          exact ⟨hkeeps, Term.under_bound_iff.mpr ⟨tty, hunder, rfl⟩⟩
      | _ => cases h
  | var v =>
      rw [matchTerm] at h
      rw [Term.under_var]
      exact matchVar_sound h

end Soundness

/-! ## Generality -/

section Generality

variable {ν : Type} [Marking ν] [PlainMark ν] [DecidableEq ν]

theorem matchTyVar_most_general {v : TyVar Unit} {tgt : Ty ν} {s t : Table Name (Ty ν)}
    (hle : s ≤ t) (h : v.under t = .ok tgt) : ∃ s', matchTyVar v tgt s = .ok s' ∧ s' ≤ t := by
  rw [TyVar.under_eq_ok_iff (by simp [Marking.asPattern])] at h
  unfold matchTyVar
  simp only [Marking.asPattern]
  cases hget : s.get? v.name with
  | none => exact ⟨_, rfl, Table.insert_le hle h⟩
  | some ty =>
      have hty : ty = tgt := Option.some.inj ((hle _ _ hget).symm.trans h)
      exact ⟨s, if_pos hty, hle⟩

/-- Matching of types assigns only what every other way to make the target assigns as well. -/
theorem matchTy_most_general {pat : HolType} {tgt : Ty ν} {s t : Table Name (Ty ν)} (hle : s ≤ t)
    (h : pat.under t = .ok tgt) : ∃ s', matchTy pat tgt s = .ok s' ∧ s' ≤ t := by
  induction pat using Ty.induct generalizing tgt s with
  | var v =>
      rw [Ty.under_var] at h
      rw [matchTy]
      exact matchTyVar_most_general hle h
  | app name args ih =>
      obtain ⟨args', hargs, rfl⟩ := Ty.under_app_iff.mp h
      rw [matchTy, if_pos ⟨rfl, hargs.length_eq⟩]
      clear h
      induction hargs generalizing s with
      | nil => exact ⟨s, rfl, hle⟩
      | cons harg _ ihargs =>
          rw [List.forall_mem_cons] at ih
          obtain ⟨s₁, hfirst, hle₁⟩ := ih.1 hle harg
          obtain ⟨s', hrest, hle'⟩ := ihargs ih.2 hle₁
          exact ⟨s', bind_eq_ok.mpr ⟨s₁, hfirst, hrest⟩, hle'⟩

theorem matchTyIn_most_general {pat : HolType} {tgt : Ty ν} {s t : Subst HolVar ν} (hle : s ≤ t)
    (h : pat.under t.types = .ok tgt) : ∃ s', matchTyIn pat tgt s = .ok s' ∧ s' ≤ t := by
  obtain ⟨types, hty, hle'⟩ := matchTy_most_general hle.2 h
  exact ⟨_, matchTyIn_eq_ok_iff.mpr ⟨types, hty, rfl⟩, hle.1, hle'⟩

/-- The variable has a value without loose bound variables, and of the type that the type of the
variable becomes. -/
def Var.TypedUnder (v : HolVar) (s : Subst HolVar ν) : Prop :=
  ∃ tm ty, s.terms.get? v = some tm ∧ tm.hasLooseBound 0 = false ∧
    v.ty.under s.types = .ok ty ∧ tm.typeOf? = some ty

theorem matchVar_most_general {v : HolVar} {tgt : Term ν} {s t : Subst HolVar ν} (hle : s ≤ t)
    (hv : v.TypedUnder t) (h : v.under t = .ok tgt) :
    ∃ s', matchVar v tgt s = .ok s' ∧ s' ≤ t := by
  rw [Var.under_eq_ok_iff (by simp [Marking.asPattern])] at h
  obtain ⟨tm, ty, hget, hclosed, hty, htype⟩ := hv
  obtain rfl : tm = tgt := Option.some.inj (hget.symm.trans h)
  show ∃ s', capture v v.ty tm s = .ok s' ∧ s' ≤ t
  cases hknown : s.terms.get? v with
  | some value =>
      have hvalue : value = tm := Option.some.inj ((hle.1 _ _ hknown).symm.trans hget)
      exact ⟨s, capture_eq_ok_iff.mpr (.inl ⟨hvalue ▸ hknown, rfl⟩), hle⟩
  | none =>
      obtain ⟨types, hmatch, hle'⟩ := matchTy_most_general hle.2 hty
      exact ⟨_, capture_eq_ok_iff.mpr (.inr ⟨hknown, hclosed, ty, types, htype, hmatch, rfl⟩),
        Table.insert_le hle.1 hget, hle'⟩

/-- Matching of terms assigns only what every other way to make the target assigns as well. -/
theorem matchTerm_most_general {pat : HolTerm} {tgt : Term ν} {s t : Subst HolVar ν} (hle : s ≤ t)
    (hvars : ∀ v ∈ pat.leaves, v.TypedUnder t) (h : pat.under t = .ok tgt) :
    ∃ s', matchTerm pat tgt s = .ok s' ∧ s' ≤ t := by
  induction pat generalizing tgt s with
  | abs pty pbody ih =>
      obtain ⟨ty, body, hty, hbody, rfl⟩ := Term.under_abs_iff.mp h
      obtain ⟨s₁, hfirst, hle₁⟩ := matchTyIn_most_general hle hty
      obtain ⟨s', hrest, hle'⟩ := ih hle₁ hvars hbody
      exact ⟨s', bind_eq_ok.mpr ⟨s₁, hfirst, hrest⟩, hle'⟩
  | app pf px ihf ihx =>
      rw [Term.leaves, List.forall_mem_append] at hvars
      obtain ⟨f, x, hf, hx, rfl⟩ := Term.under_app_iff.mp h
      obtain ⟨s₁, hfirst, hle₁⟩ := ihf hle hvars.1 hf
      obtain ⟨s', hrest, hle'⟩ := ihx hle₁ hvars.2 hx
      exact ⟨s', bind_eq_ok.mpr ⟨s₁, hfirst, hrest⟩, hle'⟩
  | const name pty =>
      obtain ⟨ty, hty, rfl⟩ := Term.under_const_iff.mp h
      rw [matchTerm, if_pos rfl]
      exact matchTyIn_most_general hle hty
  | bound i pty =>
      obtain ⟨ty, hty, rfl⟩ := Term.under_bound_iff.mp h
      rw [matchTerm, if_pos rfl]
      exact matchTyIn_most_general hle hty
  | var v =>
      rw [Term.under_var] at h
      rw [matchTerm]
      exact matchVar_most_general hle (hvars v (by simp [Term.leaves])) h

end Generality

/-- **Matching is sound and most general.**  For a pattern of either kind, what matching finds keeps
the values that there were, and under it the pattern is the target.  An object-level pattern is
matched with every target that some extension `t` of the substitution makes of it by closed values
of the right types, and what is found is part of `t`. -/
theorem matching_sound_most_general (ν : Type) [Marking ν] [PlainMark ν] [DecidableEq ν] :
    (∀ {κ μ : Type} [DecidableEq κ] [Marking μ] (pat : Ty μ) (tgt : Ty ν) (s s' : Subst κ ν),
      matchTyIn pat tgt s = .ok s' → s ≤ s' ∧ pat.under s'.types = .ok tgt) ∧
    (∀ {κ μ : Type} [DecidableEq κ] [Marking μ] [PatternKey μ κ] (pat : Term μ) (tgt : Term ν)
      (s s' : Subst κ ν), matchTerm pat tgt s = .ok s' → s ≤ s' ∧ pat.under s' = .ok tgt) ∧
    ∀ (pat : HolTerm) (tgt : Term ν) (s t : Subst HolVar ν), s ≤ t →
      (∀ v ∈ pat.vars, v.TypedUnder t) → pat.under t = .ok tgt →
        ∃ s', matchTerm pat tgt s = .ok s' ∧ s ≤ s' ∧ s' ≤ t := by
  refine ⟨fun pat tgt s s' h => matchTyIn_sound h, fun pat tgt s s' h => matchTerm_sound h, ?_⟩
  intro pat tgt s t hle hvars h
  obtain ⟨s', hmatch, hle'⟩ :=
    matchTerm_most_general hle (fun v hv => hvars v (mem_distinct.mpr hv)) h
  exact ⟨s', hmatch, (matchTerm_sound hmatch).1, hle'⟩

/-- The pattern `λ z. f z = y`, where the types of `z` and `y` are variables. -/
def pointwisePattern : HolTerm :=
  let f := freeVar "f" (.fn (tyVar "a") (tyVar "b"))
  .abs (tyVar "a") (.equation (tyVar "b") (.app f (.bound 0 (tyVar "a"))) (freeVar "y" (tyVar "b")))

/-- The target `λ z. (λ w. w) z = p`. -/
def pointwiseTarget : HolTerm :=
  .abs .bool (.equation .bool (.app (.abs .bool (.bound 0 .bool)) (.bound 0 .bool))
    (freeVar "p" .bool))

/-- `y` is known from the start, and matching finds what `f` is and the types. -/
theorem matching_sound_most_general_pointwise :
    let s : HolSubst := { terms := .insert {} ⟨(), "y", tyVar "b"⟩ (freeVar "p" .bool) }
    let t : HolSubst :=
      { terms := s.terms.insert ⟨(), "f", .fn (tyVar "a") (tyVar "b")⟩ (.abs .bool (.bound 0 .bool))
        types := .insert (.insert {} "a" .bool) "b" .bool }
    ∃ s', matchTerm pointwisePattern pointwiseTarget s = .ok s' ∧ s ≤ s' ∧ s' ≤ t ∧
      pointwisePattern.under s' = .ok pointwiseTarget := by
  intro s t
  obtain ⟨-, hsound, hgeneral⟩ := matching_sound_most_general Unit
  have hle : s ≤ t := ⟨Table.le_insert (by decide) _, nofun⟩
  have hvars : ∀ v ∈ pointwisePattern.vars, v.TypedUnder t := by
    have hvars : pointwisePattern.vars =
        [⟨(), "f", .fn (tyVar "a") (tyVar "b")⟩, ⟨(), "y", tyVar "b"⟩] := by decide
    rw [hvars, List.forall_mem_cons, List.forall_mem_singleton]
    exact ⟨⟨.abs .bool (.bound 0 .bool), .fn .bool .bool, by decide, by decide, by rfl, by decide⟩,
      ⟨freeVar "p" .bool, .bool, by decide, by decide, by rfl, by decide⟩⟩
  obtain ⟨s', hmatch, hkeeps, hle'⟩ :=
    hgeneral pointwisePattern pointwiseTarget s t hle hvars (by rfl)
  exact ⟨s', hmatch, hkeeps, hle', (hsound _ _ _ _ hmatch).2⟩

end HolSearch
