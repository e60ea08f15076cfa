import HolSearch.Matching.Term
import HolSearch.Proofs.Data.Basic
import HolSearch.Proofs.Syntax.Ty

/-!
# Matching of object-level types

At the object level every variable of a pattern may be instantiated, so matching finds the values
of the variables whenever there are any.  An assignment is compared with a replacement: the two
*agree* if the replacement puts in place of a variable the value that the assignment has for it.

* `agrees_iff_of_matchTy`: what matching finds agrees with just those replacements that agree with
  the assignment before and make the target of the pattern.
* `matchTy_ok_of_agrees`: matching succeeds if there is such a replacement.

Together they say that `Ty.isInstanceOf` decides whether a type is an instance of another.
-/

namespace HolSearch

/-- The replacement puts in place of each variable the value it has in the assignment. -/
def Agrees (s : Table Name HolType) (θ : TyVar Unit → HolType) : Prop :=
  ∀ v ty, s.get? v.name = some ty → θ v = ty

theorem agrees_empty (θ : TyVar Unit → HolType) : Agrees .empty θ := nofun

theorem matchTyVar_ok_iff {v : TyVar Unit} {tgt : HolType} {s s' : Table Name HolType} :
    matchTyVar v tgt s = .ok s' ↔
      s.get? v.name = some tgt ∧ s' = s ∨ s.get? v.name = none ∧ s' = s.insert v.name tgt := by
  unfold matchTyVar
  simp only [Marking.asPattern]
  cases hget : s.get? v.name with
  | none => simp [eq_comm]
  | some ty =>
      by_cases hty : ty = tgt
      · simp [hty, eq_comm]
      · simp [hty]

/-- Matching a variable succeeds just if the assignment can agree with a replacement that maps it to
the target. -/
theorem agrees_iff_of_matchTyVar {v : TyVar Unit} {tgt : HolType} {s s' : Table Name HolType}
    {θ : TyVar Unit → HolType} (h : matchTyVar v tgt s = .ok s') :
    Agrees s' θ ↔ Agrees s θ ∧ θ v = tgt := by
  rcases matchTyVar_ok_iff.mp h with ⟨hget, rfl⟩ | ⟨hget, rfl⟩
  · exact ⟨fun hs => ⟨hs, hs v tgt hget⟩, And.left⟩
  · constructor
    · intro hs
      refine ⟨fun w ty hw => hs w ty ?_, hs v tgt (by simp [Table.get?_insert])⟩
      rw [Table.get?_insert, if_neg, hw]
      rintro hname
      rw [hname, hget] at hw
      cases hw
    · rintro ⟨hs, hv⟩ w ty hw
      rw [Table.get?_insert] at hw
      split at hw
      · rename_i hname
        have hwv : w = v := by
          cases w
          cases v
          simp_all
        cases hw
        rw [hwv, hv]
      · exact hs w ty hw

/-- What an assignment found by matching agrees with are the replacements that agree with the
assignment before and make the target of the pattern. -/
theorem agrees_iff_of_matchTy {pat tgt : HolType} {s s' : Table Name HolType}
    {θ : TyVar Unit → HolType} (h : matchTy pat tgt s = .ok s') :
    Agrees s' θ ↔ Agrees s θ ∧ pat.subst θ = tgt := by
  induction pat using Ty.induct generalizing tgt s s' with
  | var v =>
      rw [matchTy] at h
      exact agrees_iff_of_matchTyVar h
  | app name args ih =>
      cases tgt with
      | var w => simp [matchTy] at h
      | app name' args' =>
          rw [matchTy] at h
          split at h
          · rename_i hfits
            obtain ⟨rfl, hlength⟩ := hfits
            have hargs : Agrees s' θ ↔ Agrees s θ ∧ args.map (Ty.subst θ) = args' := by
              induction args generalizing args' s with
              | nil =>
                  cases h
                  simp [List.eq_nil_of_length_eq_zero hlength.symm]
              | cons arg args ihargs =>
                  cases args' with
                  | nil => cases hlength
                  | cons arg' args' =>
                      obtain ⟨t, harg, hrest⟩ := bind_eq_ok.mp h
                      rw [ihargs (fun ty hty => ih ty (List.mem_cons_of_mem _ hty)) _ hrest
                        (Nat.succ.inj hlength), ih arg List.mem_cons_self harg, List.map_cons,
                        List.cons.injEq, and_assoc]
            rw [hargs, Ty.subst_app, Ty.app.injEq, eq_self, true_and]
          · cases h

/-- Matching succeeds if some replacement makes the target of the pattern and agrees with the
assignment so far. -/
theorem matchTy_ok_of_agrees {pat tgt : HolType} {s : Table Name HolType}
    {θ : TyVar Unit → HolType} (hs : Agrees s θ) (h : pat.subst θ = tgt) :
    ∃ s', matchTy pat tgt s = .ok s' := by
  induction pat using Ty.induct generalizing tgt s with
  | var v =>
      rw [Ty.subst_var] at h
      simp only [matchTy, matchTyVar_ok_iff]
      cases hget : s.get? v.name with
      | none => exact ⟨_, Or.inr ⟨rfl, rfl⟩⟩
      | some ty =>
          rw [← hs v ty hget, h]
          exact ⟨s, Or.inl ⟨rfl, rfl⟩⟩
  | app name args ih =>
      rw [Ty.subst_app] at h
      rw [← h, matchTy, if_pos ⟨rfl, (List.length_map _).symm⟩]
      clear h
      induction args generalizing s with
      | nil => exact ⟨s, rfl⟩
      | cons arg args ihargs =>
          obtain ⟨t, ht⟩ := ih arg List.mem_cons_self hs rfl
          have hagrees : Agrees t θ := (agrees_iff_of_matchTy ht).mpr ⟨hs, rfl⟩
          obtain ⟨s', hs'⟩ := ihargs (fun ty hty => ih ty (List.mem_cons_of_mem _ hty)) hagrees
          exact ⟨s', bind_eq_ok.mpr ⟨t, ht, hs'⟩⟩

/-! ## Instances -/

namespace Ty

/-- What the variables of the pattern stand for in an instance of it. -/
def valueIn (pat ty : HolType) (v : TyVar Unit) : HolType :=
  match matchTy pat ty .empty with
  | .ok s => (s.get? v.name).getD (.var v)
  | .error _ => .var v

theorem subst_valueIn {pat ty : HolType} (h : ty.isInstanceOf pat = true) :
    pat.subst (pat.valueIn ty) = ty := by
  unfold isInstanceOf at h
  cases hmatch : matchTy pat ty .empty with
  | error s => simp [hmatch, Except.isOk, Except.toBool] at h
  | ok s =>
      have hagrees : Agrees s (pat.valueIn ty) := by
        intro v value hv
        simp [valueIn, hmatch, hv]
      exact ((agrees_iff_of_matchTy hmatch).mp hagrees).2

/-- `isInstanceOf` decides whether a type arises from another by a replacement of variables. -/
theorem isInstanceOf_iff {ty pat : HolType} :
    ty.isInstanceOf pat = true ↔ ∃ θ, pat.subst θ = ty := by
  constructor
  · exact fun h => ⟨_, subst_valueIn h⟩
  · rintro ⟨θ, h⟩
    obtain ⟨s, hs⟩ := matchTy_ok_of_agrees (agrees_empty θ) h
    simp [isInstanceOf, hs, Except.isOk, Except.toBool]

theorem isInstanceOf_self (ty : HolType) : ty.isInstanceOf ty = true :=
  isInstanceOf_iff.mpr ⟨.var, subst_var_eq ty⟩

theorem isInstanceOf_subst {ty pat : HolType} (h : ty.isInstanceOf pat = true)
    (θ : TyVar Unit → HolType) : (ty.subst θ).isInstanceOf pat = true := by
  obtain ⟨δ, rfl⟩ := isInstanceOf_iff.mp h
  exact isInstanceOf_iff.mpr ⟨_, (subst_subst δ θ pat).symm⟩

/-- The variables of a pattern stand for the same types however the instance was made. -/
theorem valueIn_subst {pat : HolType} (θ : TyVar Unit → HolType) :
    ∀ v ∈ pat.leaves, pat.valueIn (pat.subst θ) v = θ v :=
  eq_of_subst_eq (subst_valueIn (isInstanceOf_iff.mpr ⟨θ, rfl⟩))

end Ty

end HolSearch
