import HolSearch.Proofs.Matching.Ty
import HolSearch.Proofs.Syntax.Term

/-!
# Matching of object-level terms

Matching of terms extends matching of types, and is compared with replacements in the same way.

A variable is looked up by name and type, and a variable without a value gets the target only if the
target is closed and its type matches the type of the variable.  A replacement puts only such terms
in place of variables, so it cannot be missed for these checks:

* `agrees_iff_of_matchTerm`: what matching finds agrees with just those replacements that agree with
  the substitution before and make the target of the pattern.
* `matchTerm_ok_of_agrees`: matching succeeds if there is such a replacement.

In the other direction a substitution gives a replacement only if its values are closed and have the
types of their variables.  A substitution is *coherent* if that is so however the type variables
that have no value yet will be replaced.  Matching keeps substitutions coherent, so a match agrees
with a replacement at least: its own.
-/

namespace HolSearch

/-! ## What matching can do -/

/-- The ways in which a pattern matches a target, with the substitutions before and after. -/
inductive MatchesTerm : HolTerm → HolTerm → HolSubst → HolSubst → Prop where
  | abs {s s' : HolSubst} {types : Table Name HolType} {pty tty : HolType} {pbody tbody : HolTerm}
      (hty : matchTy pty tty s.types = .ok types)
      (hbody : MatchesTerm pbody tbody { s with types } s') :
      MatchesTerm (.abs pty pbody) (.abs tty tbody) s s'
  | app {s s₁ s' : HolSubst} {pf px tf tx : HolTerm} (hf : MatchesTerm pf tf s s₁)
      (hx : MatchesTerm px tx s₁ s') : MatchesTerm (.app pf px) (.app tf tx) s s'
  | const {s : HolSubst} {types : Table Name HolType} {name : Name} {pty tty : HolType}
      (hty : matchTy pty tty s.types = .ok types) :
      MatchesTerm (.const name pty) (.const name tty) s { s with types }
  | bound {s : HolSubst} {types : Table Name HolType} {i : Nat} {pty tty : HolType}
      (hty : matchTy pty tty s.types = .ok types) :
      MatchesTerm (.bound i pty) (.bound i tty) s { s with types }
  | known {s : HolSubst} {v : HolVar} {tgt : HolTerm} (hget : s.terms.get? v = some tgt) :
      MatchesTerm (.var v) tgt s s
  | captured {s : HolSubst} {types : Table Name HolType} {v : HolVar} {tgt : HolTerm} {ty : HolType}
      (hget : s.terms.get? v = none) (hclosed : tgt.hasLooseBound 0 = false)
      (htype : tgt.typeOf? = some ty) (hty : matchTy v.ty ty s.types = .ok types) :
      MatchesTerm (.var v) tgt s ⟨s.terms.insert v tgt, types⟩

section

variable {κ μ ν : Type} [DecidableEq κ] [Marking μ] [Marking ν] [DecidableEq ν]

omit [DecidableEq κ] in
theorem matchTyIn_eq_ok_iff {pat : Ty μ} {tgt : Ty ν} {s s' : Subst κ ν} :
    matchTyIn pat tgt s = .ok s' ↔
      ∃ types, matchTy pat tgt s.types = .ok types ∧ s' = { s with types } := by
  unfold matchTyIn
  cases matchTy pat tgt s.types with
  | ok types => simp [eq_comm]
  | error types => simp

/-- A variable that has a value matches only this value, and otherwise it takes as its value any
closed term whose type matches its own. -/
theorem capture_eq_ok_iff {key : κ} {pty : Ty μ} {tgt : Term ν} {s s' : Subst κ ν} :
    capture key pty tgt s = .ok s' ↔
      s.terms.get? key = some tgt ∧ s' = s ∨
      s.terms.get? key = none ∧ tgt.hasLooseBound 0 = false ∧
        ∃ ty types, tgt.typeOf? = some ty ∧ matchTy pty ty s.types = .ok types ∧
          s' = ⟨s.terms.insert key tgt, types⟩ := by
  unfold capture
  constructor
  · intro h
    split at h
    · rename_i value hget
      obtain ⟨rfl, hs⟩ := ite_eq_ok.mp h
      cases hs
      exact Or.inl ⟨hget, rfl⟩
    · rename_i hget
      split at h
      · cases h
      · rename_i hloose
        split at h
        · cases h
        · rename_i ty htype
          cases hmatch : matchTyIn pty ty s with
          | error s₁ =>
              rw [hmatch] at h
              cases h
          | ok s₁ =>
              obtain ⟨types, hty, rfl⟩ := matchTyIn_eq_ok_iff.mp hmatch
              rw [hmatch] at h
              cases h
              exact Or.inr ⟨hget, eq_false_of_ne_true hloose, ty, types, htype, hty, rfl⟩
  · rintro (⟨hget, rfl⟩ | ⟨hget, hclosed, ty, types, htype, hty, rfl⟩)
    · simp [hget]
    · simp [hget, hclosed, htype, matchTyIn_eq_ok_iff.mpr ⟨_, hty, rfl⟩, Except.map]

end

theorem capture_var_eq_ok_iff {v : HolVar} {tgt : HolTerm} {s s' : HolSubst} :
    capture v v.ty tgt s = .ok s' ↔ MatchesTerm (.var v) tgt s s' := by
  rw [capture_eq_ok_iff]
  constructor
  · rintro (⟨hget, rfl⟩ | ⟨hget, hclosed, ty, types, htype, hty, rfl⟩)
    · exact .known hget
    · exact .captured hget hclosed htype hty
  · intro h
    cases h with
    | known hget => exact Or.inl ⟨hget, rfl⟩
    | captured hget hclosed htype hty => exact Or.inr ⟨hget, hclosed, _, _, htype, hty, rfl⟩

/-- **Matching does what `MatchesTerm` lists.** -/
theorem matchTerm_eq_ok_iff {pat tgt : HolTerm} {s s' : HolSubst} :
    matchTerm pat tgt s = .ok s' ↔ MatchesTerm pat tgt s s' := by
  induction pat generalizing tgt s s' with
  | abs pty pbody ih =>
      cases tgt with
      | abs tty tbody =>
          rw [matchTerm]
          constructor
          · intro h
            obtain ⟨s₁, hty, hbody⟩ := bind_eq_ok.mp h
            obtain ⟨types, hmatch, rfl⟩ := matchTyIn_eq_ok_iff.mp hty
            exact .abs hmatch (ih.mp hbody)
          · intro h
            cases h with
            | abs hty hbody =>
                exact bind_eq_ok.mpr ⟨_, matchTyIn_eq_ok_iff.mpr ⟨_, hty, rfl⟩, ih.mpr hbody⟩
      | _ => exact ⟨nofun, nofun⟩
  | app pf px ihf ihx =>
      cases tgt with
      | app tf tx =>
          rw [matchTerm]
          constructor
          · intro h
            obtain ⟨s₁, hf, hx⟩ := bind_eq_ok.mp h
            exact .app (ihf.mp hf) (ihx.mp hx)
          · intro h
            cases h with
            | app hf hx => exact bind_eq_ok.mpr ⟨_, ihf.mpr hf, ihx.mpr hx⟩
      | _ => exact ⟨nofun, nofun⟩
  | const c pty =>
      cases tgt with
      | const d tty =>
          rw [matchTerm, ite_eq_ok, matchTyIn_eq_ok_iff]
          constructor
          · rintro ⟨rfl, types, hty, rfl⟩
            exact .const hty
          · intro h
            cases h with
            | const hty => exact ⟨rfl, _, hty, rfl⟩
      | _ => exact ⟨nofun, nofun⟩
  | bound i pty =>
      cases tgt with
      | bound j tty =>
          rw [matchTerm, ite_eq_ok, matchTyIn_eq_ok_iff]
          constructor
          · rintro ⟨rfl, types, hty, rfl⟩
            exact .bound hty
          · intro h
            cases h with
            | bound hty => exact ⟨rfl, _, hty, rfl⟩
      | _ => exact ⟨nofun, nofun⟩
  | var v =>
      rw [matchTerm]
      exact capture_var_eq_ok_iff

/-! ## Matching and replacements -/

/-- The replacement puts in place of each variable and each type variable the value that it has in
the substitution. -/
structure Replacement.Agrees (r : Replacement) (s : HolSubst) : Prop where
  types : HolSearch.Agrees s.types r.onTyVar
  terms : ∀ v tm, s.terms.get? v = some tm → r.onVar v = tm

variable {r : Replacement} {s s' : HolSubst} {pat tgt : HolTerm}

theorem Replacement.agrees_empty (r : Replacement) : r.Agrees .empty :=
  ⟨HolSearch.agrees_empty _, nofun⟩

theorem agrees_iff_of_matchTy_types {types : Table Name HolType} {pty tty : HolType}
    (h : matchTy pty tty s.types = .ok types) :
    r.Agrees { s with types } ↔ r.Agrees s ∧ pty.subst r.onTyVar = tty := by
  constructor
  · rintro ⟨htypes, hterms⟩
    obtain ⟨htypes, hsubst⟩ := (agrees_iff_of_matchTy h).mp htypes
    exact ⟨⟨htypes, hterms⟩, hsubst⟩
  · rintro ⟨⟨htypes, hterms⟩, hsubst⟩
    exact ⟨(agrees_iff_of_matchTy h).mpr ⟨htypes, hsubst⟩, hterms⟩

/-- What a substitution found by matching agrees with are the replacements that agree with the
substitution before and make the target of the pattern. -/
theorem agrees_iff_of_matchTerm (h : matchTerm pat tgt s = .ok s') :
    r.Agrees s' ↔ r.Agrees s ∧ r.apply pat = tgt := by
  rw [matchTerm_eq_ok_iff] at h
  induction h with
  | abs hty _ ih =>
      rw [ih, agrees_iff_of_matchTy_types hty,
        Replacement.apply_abs, Term.abs.injEq, and_assoc]
  | app _ _ ihf ihx =>
      rw [ihx, ihf, Replacement.apply_app, Term.app.injEq, and_assoc]
  | const hty =>
      rw [agrees_iff_of_matchTy_types hty, Replacement.apply_const, Term.const.injEq, eq_self,
        true_and]
  | bound hty =>
      rw [agrees_iff_of_matchTy_types hty, Replacement.apply_bound, Term.bound.injEq, eq_self,
        true_and]
  | known hget => exact ⟨fun hr => ⟨hr, hr.terms _ _ hget⟩, And.left⟩
  | @captured s types v tgt ty hget hclosed htype hty =>
      rw [Replacement.apply_var]
      constructor
      · rintro ⟨htypes, hterms⟩
        refine ⟨⟨((agrees_iff_of_matchTy hty).mp htypes).1, fun w tm hw => ?_⟩, ?_⟩
        · exact hterms w tm (Table.le_insert hget tgt w tm hw)
        · exact hterms v tgt (by simp [Table.get?_insert])
      · rintro ⟨hr, hv⟩
        -- a replacement gives the variable a term of the right type, so the types match as well
        have hsubst : v.ty.subst r.onTyVar = ty := by
          have htypeOf := r.typeOf?_onVar v
          rw [hv, htype] at htypeOf
          exact (Option.some.inj htypeOf).symm
        refine ⟨(agrees_iff_of_matchTy hty).mpr ⟨hr.types, hsubst⟩, fun w tm hw => ?_⟩
        rw [Table.get?_insert] at hw
        split at hw
        · rename_i hwv
          cases hw
          rw [hwv, hv]
        · exact hr.terms w tm hw

/-- Matching succeeds if some replacement makes the target of the pattern and agrees with the
substitution so far. -/
theorem matchTerm_ok_of_agrees (hr : r.Agrees s) (h : r.apply pat = tgt) :
    ∃ s', matchTerm pat tgt s = .ok s' := by
  simp only [matchTerm_eq_ok_iff]
  induction pat generalizing tgt s with
  | abs pty pbody ih =>
      subst h
      obtain ⟨types, hty⟩ := matchTy_ok_of_agrees hr.types (rfl : pty.subst _ = _)
      obtain ⟨s', hbody⟩ := ih ((agrees_iff_of_matchTy_types hty).mpr ⟨hr, rfl⟩) rfl
      exact ⟨s', .abs hty hbody⟩
  | app pf px ihf ihx =>
      subst h
      obtain ⟨s₁, hf⟩ := ihf hr rfl
      have hr₁ : r.Agrees s₁ :=
        (agrees_iff_of_matchTerm (matchTerm_eq_ok_iff.mpr hf)).mpr ⟨hr, rfl⟩
      obtain ⟨s', hx⟩ := ihx hr₁ rfl
      exact ⟨s', .app hf hx⟩
  | const name pty =>
      subst h
      obtain ⟨types, hty⟩ := matchTy_ok_of_agrees hr.types (rfl : pty.subst _ = _)
      exact ⟨_, .const hty⟩
  | bound i pty =>
      subst h
      obtain ⟨types, hty⟩ := matchTy_ok_of_agrees hr.types (rfl : pty.subst _ = _)
      exact ⟨_, .bound hty⟩
  | var v =>
      subst h
      cases hget : s.terms.get? v with
      | some tm =>
          refine ⟨s, .known ?_⟩
          rw [hget, Replacement.apply_var, hr.terms v tm hget]
      | none =>
          obtain ⟨types, hty⟩ := matchTy_ok_of_agrees hr.types (rfl : v.ty.subst _ = _)
          exact ⟨_, .captured hget (r.closed_onVar v) (r.typeOf?_onVar v) hty⟩

/-! ## Coherent substitutions -/

/-- The values of variables are closed and have the types of the variables, however the type
variables that have no value are replaced. -/
structure HolSubst.Coherent (s : HolSubst) : Prop where
  closed : ∀ v tm, s.terms.get? v = some tm → tm.hasLooseBound 0 = false
  typed : ∀ v tm, s.terms.get? v = some tm →
    ∀ θ, Agrees s.types θ → tm.typeOf? = some (v.ty.subst θ)

theorem HolSubst.coherent_empty : HolSubst.Coherent .empty := ⟨nofun, nofun⟩

theorem coherent_of_matchTy_types {types : Table Name HolType} {pty tty : HolType}
    (h : matchTy pty tty s.types = .ok types) (hs : HolSubst.Coherent s) :
    HolSubst.Coherent { s with types } :=
  ⟨hs.closed, fun v tm hv θ hθ => hs.typed v tm hv θ ((agrees_iff_of_matchTy h).mp hθ).1⟩

theorem coherent_of_matchTerm (h : matchTerm pat tgt s = .ok s') (hs : HolSubst.Coherent s) :
    HolSubst.Coherent s' := by
  rw [matchTerm_eq_ok_iff] at h
  induction h with
  | abs hty _ ih => exact ih (coherent_of_matchTy_types hty hs)
  | app _ _ ihf ihx => exact ihx (ihf hs)
  | const hty => exact coherent_of_matchTy_types hty hs
  | bound hty => exact coherent_of_matchTy_types hty hs
  | known => exact hs
  | @captured s types v tgt ty hget hclosed htype hty =>
      constructor
      · intro w tm hw
        rcases Table.eq_or_get?_of_insert hw with rfl | hw
        · exact hclosed
        · exact hs.closed w tm hw
      · intro w tm hw θ hθ
        obtain ⟨hθ, hsubst⟩ := (agrees_iff_of_matchTy hty).mp hθ
        rw [Table.get?_insert] at hw
        split at hw
        · rename_i hwv
          cases hw
          rw [hwv, hsubst, htype]
        · exact hs.typed w tm hw θ hθ

end HolSearch
