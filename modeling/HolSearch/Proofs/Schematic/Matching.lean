import HolSearch.Proofs.Matching.MostGeneral
import HolSearch.Proofs.Matching.Sequent
import HolSearch.Schematic.Basic

/-!
# Matching of schematic patterns

A schematic pattern *fits* a term under a substitution if the term arises from it by putting values
in place of its metavariables.  `MetaType.Fits` and `MetaTerm.Fits` say this node by node, and
`MetaTerm.fits_iff` that it is the same as what the pattern becomes under the substitution.  Whether
a metavariable is fixed or unfixed makes no difference to them, since that only tells where its
value comes from.

Matching extends a substitution to one under which the pattern fits the target, and the pattern fits
under every further extension.  So the match of a sequent makes all its parts fit at once:
`Schema.fitsInto_of_mem_matchings`.
-/

namespace HolSearch

/-! ## Types -/

/-- What a schematic type variable stands for; a metavariable without value stands for itself. -/
def MetaSubst.onTyVar (s : MetaSubst) (v : TyVar Mark) : HolType :=
  if v.mark = .plain then tyVar v.name else (s.types.get? v.name).getD (tyVar v.name)

namespace MetaSubst

variable {s : MetaSubst} {v : TyVar Mark}

theorem onTyVar_plain (h : v.mark = .plain) : onTyVar s v = tyVar v.name := if_pos h

theorem onTyVar_meta (h : v.mark ≠ .plain) {ty : HolType} (hget : s.types.get? v.name = some ty) :
    onTyVar s v = ty := by
  rw [onTyVar, if_neg h, hget, Option.getD_some]

end MetaSubst

/-- The metavariables of the schematic type have values, and these make it the given type. -/
structure MetaType.Fits (s : MetaSubst) (pat : MetaType) (ty : HolType) : Prop where
  assigned : ∀ v ∈ pat.leaves, v.mark ≠ .plain → ∃ value, s.types.get? v.name = some value
  subst_eq : pat.subst (MetaSubst.onTyVar s) = ty

namespace MetaType.Fits

variable {s : MetaSubst}

theorem unique {pat : MetaType} {ty ty' : HolType} (h : Fits s pat ty) (h' : Fits s pat ty') :
    ty = ty' :=
  h.subst_eq.symm.trans h'.subst_eq

theorem plain {v : TyVar Mark} (h : v.mark = .plain) : Fits s (.var v) (tyVar v.name) where
  assigned w hw hmark := by
    rw [Ty.leaves_var, List.mem_singleton] at hw
    exact absurd h (hw ▸ hmark)
  subst_eq := MetaSubst.onTyVar_plain h

theorem value {v : TyVar Mark} (h : v.mark ≠ .plain) {ty : HolType}
    (hget : s.types.get? v.name = some ty) : Fits s (.var v) ty where
  assigned w hw _ := by
    rw [Ty.leaves_var, List.mem_singleton] at hw
    exact ⟨ty, hw ▸ hget⟩
  subst_eq := MetaSubst.onTyVar_meta h hget

theorem app {name : Name} {args : List MetaType} {args' : List HolType}
    (h : List.Forall₂ (Fits s) args args') : Fits s (.app name args) (.app name args') where
  assigned v hv hmark := by
    rw [Ty.leaves_app, List.mem_flatMap] at hv
    obtain ⟨arg, harg, hv⟩ := hv
    obtain ⟨_, -, hfits⟩ := exists_mem_of_forall₂ h harg
    exact hfits.assigned v hv hmark
  subst_eq := by
    rw [Ty.subst_app]
    congr 1
    rw [← List.forall₂_eq_eq_eq, List.forall₂_map_left_iff]
    exact h.imp fun _ _ hfits => hfits.subst_eq

end MetaType.Fits

/-- A schematic type fits what it becomes under the substitution. -/
theorem MetaType.fits_iff {s : MetaSubst} {pat : MetaType} {ty : HolType} :
    MetaType.Fits s pat ty ↔ pat.under s.types = .ok ty := by
  induction pat using Ty.induct generalizing ty with
  | var v =>
      rw [Ty.under_var]
      by_cases hmark : v.mark = .plain
      · rw [TyVar.under_of_plain hmark, Except.ok.injEq]
        constructor
        · exact fun h => (Fits.plain hmark).unique h
        · rintro rfl
          exact .plain hmark
      · rw [TyVar.under_eq_ok_iff hmark]
        constructor
        · intro h
          obtain ⟨value, hget⟩ := h.assigned v (by simp) hmark
          rw [h.unique (.value hmark hget), hget]
        · exact .value hmark
  | app name args ih =>
      rw [Ty.under_app_iff]
      constructor
      · rintro ⟨hassigned, rfl⟩
        refine ⟨args.map (Ty.subst (MetaSubst.onTyVar s)), ?_, Ty.subst_app _ _ _⟩
        rw [List.forall₂_map_right_iff, List.forall₂_same]
        intro arg harg
        refine (ih arg harg).mp ⟨fun v hv => hassigned v ?_, rfl⟩
        rw [Ty.leaves_app]
        exact List.mem_flatMap.mpr ⟨arg, harg, hv⟩
      · rintro ⟨args', hargs, rfl⟩
        refine .app ?_
        induction hargs with
        | nil => exact .nil
        | cons harg _ ihargs =>
            rw [List.forall_mem_cons] at ih
            exact .cons (ih.1.mpr harg) (ihargs ih.2)

/-! ## Terms -/

/-- The term arises from the schematic term by putting values in place of metavariables. -/
inductive MetaTerm.Fits (s : MetaSubst) : MetaTerm → HolTerm → Prop where
  | abs {pty : MetaType} {ty : HolType} {pbody : MetaTerm} {body : HolTerm}
      (hty : MetaType.Fits s pty ty) (hbody : Fits s pbody body) :
      Fits s (.abs pty pbody) (.abs ty body)
  | app {pf px : MetaTerm} {f x : HolTerm} (hf : Fits s pf f) (hx : Fits s px x) :
      Fits s (.app pf px) (.app f x)
  | const {name : Name} {pty : MetaType} {ty : HolType} (hty : MetaType.Fits s pty ty) :
      Fits s (.const name pty) (.const name ty)
  | bound {i : Nat} {pty : MetaType} {ty : HolType} (hty : MetaType.Fits s pty ty) :
      Fits s (.bound i pty) (.bound i ty)
  | plain {v : MetaVar} {ty : HolType} (hmark : v.mark = .plain) (hty : MetaType.Fits s v.ty ty) :
      Fits s (.var v) (freeVar v.name ty)
  | value {v : MetaVar} {tm : HolTerm} (hmark : v.mark ≠ .plain)
      (hget : s.terms.get? v.name = some tm) : Fits s (.var v) tm

/-- A schematic term fits what it becomes under the substitution. -/
theorem MetaTerm.fits_iff {s : MetaSubst} {pat : MetaTerm} {tm : HolTerm} :
    MetaTerm.Fits s pat tm ↔ pat.under s = .ok tm := by
  constructor
  · intro h
    induction h with
    | abs hty _ ih => exact Term.under_abs_iff.mpr ⟨_, _, MetaType.fits_iff.mp hty, ih, rfl⟩
    | app _ _ ihf ihx => exact Term.under_app_iff.mpr ⟨_, _, ihf, ihx, rfl⟩
    | const hty => exact Term.under_const_iff.mpr ⟨_, MetaType.fits_iff.mp hty, rfl⟩
    | bound hty => exact Term.under_bound_iff.mpr ⟨_, MetaType.fits_iff.mp hty, rfl⟩
    | plain hmark hty =>
        exact (Var.under_plain_iff hmark).mpr ⟨_, MetaType.fits_iff.mp hty, rfl⟩
    | value hmark hget => exact (Var.under_eq_ok_iff hmark).mpr hget
  · intro h
    induction pat generalizing tm with
    | abs pty pbody ih =>
        obtain ⟨ty, body, hty, hbody, rfl⟩ := Term.under_abs_iff.mp h
        exact .abs (MetaType.fits_iff.mpr hty) (ih hbody)
    | app pf px ihf ihx =>
        obtain ⟨f, x, hf, hx, rfl⟩ := Term.under_app_iff.mp h
        exact .app (ihf hf) (ihx hx)
    | const name pty =>
        obtain ⟨ty, hty, rfl⟩ := Term.under_const_iff.mp h
        exact .const (MetaType.fits_iff.mpr hty)
    | bound i pty =>
        obtain ⟨ty, hty, rfl⟩ := Term.under_bound_iff.mp h
        exact .bound (MetaType.fits_iff.mpr hty)
    | var v =>
        rw [Term.under_var] at h
        by_cases hmark : v.mark = .plain
        · obtain ⟨ty, hty, rfl⟩ := (Var.under_plain_iff hmark).mp h
          exact .plain hmark (MetaType.fits_iff.mpr hty)
        · exact .value hmark ((Var.under_eq_ok_iff hmark).mp h)

theorem MetaTerm.Fits.mono {s s' : MetaSubst} {pat : MetaTerm} {tm : HolTerm} (hle : s ≤ s')
    (h : MetaTerm.Fits s pat tm) : MetaTerm.Fits s' pat tm :=
  MetaTerm.fits_iff.mpr (Term.under_mono hle (MetaTerm.fits_iff.mp h))

/-! ## Sequents -/

/-- Matching of pairs keeps the values that there are, and makes each pattern fit its target. -/
theorem matchPairs_spec {pats : List MetaTerm} {tgts : List HolTerm} {s s' : MetaSubst}
    (hlength : pats.length = tgts.length) (h : matchPairs (pats.zip tgts) s = some s') :
    s ≤ s' ∧ List.Forall₂ (MetaTerm.Fits s') pats tgts := by
  induction pats generalizing tgts s with
  | nil =>
      cases h
      rw [List.eq_nil_of_length_eq_zero hlength.symm]
      exact ⟨le_refl _, .nil⟩
  | cons pat pats ih =>
      cases tgts with
      | nil => cases hlength
      | cons tgt tgts =>
          rw [List.zip_cons_cons] at h
          obtain ⟨s₁, hmatch, hpairs⟩ := matchPairs_cons_eq_some_iff.mp h
          obtain ⟨hkeeps, hunder⟩ := matchTerm_sound hmatch
          obtain ⟨hkeeps', hfits⟩ := ih (Nat.succ.inj hlength) hpairs
          exact ⟨le_trans hkeeps hkeeps',
            .cons ((MetaTerm.fits_iff.mpr hunder).mono hkeeps') hfits⟩

namespace Schema

/-- The conclusion of the schema fits that of the target, and each of its premises fits some premise
of the target. -/
structure FitsInto (s : MetaSubst) (pat : Schema) (tgt : Conjecture) : Prop where
  conclusion : MetaTerm.Fits s pat.conclusion tgt.conclusion
  premises : ∀ p ∈ pat.premises, ∃ q ∈ tgt.premises, MetaTerm.Fits s p q

/-- A match that leaves no premise of the schema out makes its conclusion fit that of the target,
and its premises fit, one by one, as many different premises of the target. -/
theorem exists_fits_of_mem_matchings {pat : Schema} {tgt : Conjecture} {s s' : MetaSubst}
    {extras : Bool} (h : s' ∈ (pat.matchings tgt s extras false).toList) :
    MetaTerm.Fits s' pat.conclusion tgt.conclusion ∧
      ∃ qs, qs.Nodup ∧ (∀ q ∈ qs, q ∈ tgt.premises) ∧
        List.Forall₂ (MetaTerm.Fits s') pat.premises qs := by
  obtain ⟨s₀, hmatch, qs, hlength, hnodup, hsub, hpairs⟩ :=
    Sequent.mem_matchings_extras_iff.mp (Sequent.mem_matchings_extras h)
  obtain ⟨hkeeps, hpremises⟩ := matchPairs_spec hlength hpairs
  have hconclusion := MetaTerm.fits_iff.mpr (matchTerm_sound hmatch).2
  exact ⟨hconclusion.mono hkeeps, qs, hnodup, hsub, hpremises⟩

/-- Under a match with a target that may have more premises, the schema fits into the target. -/
theorem fitsInto_of_mem_matchings {pat : Schema} {tgt : Conjecture} {s s' : MetaSubst}
    (h : s' ∈ (pat.matchings tgt s true false).toList) : FitsInto s' pat tgt := by
  obtain ⟨hconclusion, qs, -, hsub, hpremises⟩ := exists_fits_of_mem_matchings h
  refine ⟨hconclusion, fun p hp => ?_⟩
  obtain ⟨q, hq, hfits⟩ := exists_mem_of_forall₂ hpremises hp
  exact ⟨q, hsub q hq, hfits⟩

end Schema

/-! ## Fixed names -/

/-- Fixing a variable keeps its name, and whether it is plain. -/
theorem Mark.fix_eq_plain_iff {m : Mark} : m.fix = .plain ↔ m = .plain := by
  cases m with
  | plain => exact Iff.rfl
  | fixed => exact Iff.rfl
  | unfixed => exact ⟨nofun, nofun⟩

theorem MetaType.Fits.fixNames {s : MetaSubst} {pat : MetaType} {ty : HolType}
    (h : MetaType.Fits s pat ty) (names : List Name) :
    MetaType.Fits s (MetaType.fixNames names pat) ty := by
  constructor
  · intro w hw hplain
    obtain ⟨v, hv, hvw⟩ := Ty.mem_leaves_subst.mp hw
    rw [Ty.leaves_var, List.mem_singleton] at hvw
    subst hvw
    by_cases hname : v.name ∈ names
    · rw [if_pos hname] at hplain ⊢
      exact h.assigned v hv fun hv => hplain (Mark.fix_eq_plain_iff.mpr hv)
    · rw [if_neg hname] at hplain ⊢
      exact h.assigned v hv hplain
  · rw [← h.subst_eq, MetaType.fixNames, Ty.subst_subst]
    refine congrArg (Ty.subst · pat) (funext fun v => ?_)
    rw [Ty.subst_var]
    by_cases hname : v.name ∈ names
    · rw [if_pos hname, MetaSubst.onTyVar, MetaSubst.onTyVar]
      simp only [Mark.fix_eq_plain_iff]
    · rw [if_neg hname]

theorem MetaTerm.Fits.fixNames {s : MetaSubst} {pat : MetaTerm} {tm : HolTerm}
    (h : MetaTerm.Fits s pat tm) (names : Names) :
    MetaTerm.Fits s (MetaTerm.fixNames names pat) tm := by
  have hmark : ∀ v : MetaVar, ((MetaVar.fixNames names v).mark = .plain ↔ v.mark = .plain) := by
    intro v
    unfold MetaVar.fixNames
    split
    · exact Mark.fix_eq_plain_iff
    · exact Iff.rfl
  induction h with
  | abs hty _ ih => exact .abs (hty.fixNames names.types) ih
  | app _ _ ihf ihx => exact .app ihf ihx
  | const hty => exact .const (hty.fixNames names.types)
  | bound hty => exact .bound (hty.fixNames names.types)
  | plain hplain hty => exact .plain ((hmark _).mpr hplain) (hty.fixNames names.types)
  | value hplain hget => exact .value (fun h => hplain ((hmark _).mp h)) hget

/-- What fits also fits after some of its names have been fixed. -/
theorem Schema.FitsInto.fixNames {s : MetaSubst} {pat : Schema} {tgt : Conjecture}
    (h : Schema.FitsInto s pat tgt) (names : Names) :
    Schema.FitsInto s (Schema.fixNames names pat) tgt := by
  refine ⟨h.conclusion.fixNames names, fun fixed hfixed => ?_⟩
  obtain ⟨p, hp, rfl⟩ := List.mem_map.mp (mem_distinct.mp hfixed)
  obtain ⟨q, hq, hfits⟩ := h.premises p hp
  exact ⟨q, hq, hfits.fixNames names⟩

end HolSearch
