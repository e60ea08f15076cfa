import HolSearch.Syntax.Ty

/-!
# Replacing the variables of types

The result of a replacement depends on what it does to the variables that occur, and it determines
that.  Two replacements in a row are one.
-/

namespace HolSearch.Ty

variable {μ ν ξ : Type}

@[simp] theorem subst_app (f : TyVar μ → Ty ν) (name : Name) (args : List (Ty μ)) :
    (app name args).subst f = .app name (args.map (subst f)) := by
  rw [subst, substList_eq]

@[simp] theorem subst_var (f : TyVar μ → Ty ν) (v : TyVar μ) : (var v).subst f = f v := rfl

@[simp] theorem leaves_app (name : Name) (args : List (Ty μ)) :
    (app name args).leaves = args.flatMap leaves := by
  rw [leaves, leavesList_eq]

@[simp] theorem leaves_var (v : TyVar μ) : (var v).leaves = [v] := rfl

@[simp] theorem subst_fn (f : TyVar μ → Ty ν) (a b : Ty μ) :
    (fn a b).subst f = fn (a.subst f) (b.subst f) := by
  simp [fn]

@[simp] theorem subst_bool (f : TyVar μ → Ty ν) : bool.subst f = bool := by
  simp [bool]

theorem leaves_fn (a b : Ty μ) : (fn a b).leaves = a.leaves ++ b.leaves := by
  simp [fn]

theorem fn_inj {a b c d : Ty μ} : fn a b = fn c d ↔ a = c ∧ b = d := by
  simp [fn]

/-- A replacement determines what was put in place of the variables that occur. -/
theorem eq_of_subst_eq {f g : TyVar μ → Ty ν} {ty : Ty μ} (h : ty.subst f = ty.subst g) :
    ∀ v ∈ ty.leaves, f v = g v := by
  induction ty with
  | var v =>
      intro w hw
      rw [leaves_var, List.mem_singleton] at hw
      rw [hw]
      exact h
  | app name args ih =>
      intro v hv
      rw [leaves_app] at hv
      obtain ⟨arg, harg, hv⟩ := List.mem_flatMap.mp hv
      simp only [subst_app, app.injEq, true_and] at h
      exact ih arg harg (List.map_inj_left.mp h arg harg) v hv

/-- Replacements make the same of a type just if they agree at the variables that occur. -/
theorem subst_eq_iff {f g : TyVar μ → Ty ν} {ty : Ty μ} :
    ty.subst f = ty.subst g ↔ ∀ v ∈ ty.leaves, f v = g v := by
  refine ⟨eq_of_subst_eq, fun h => ?_⟩
  induction ty with
  | var v => exact h v (by simp)
  | app name args ih =>
      rw [subst_app, subst_app]
      congr 1
      refine List.map_congr_left fun arg harg => ih arg harg fun v hv => h v ?_
      rw [leaves_app]
      exact List.mem_flatMap.mpr ⟨arg, harg, hv⟩

theorem subst_subst (f : TyVar μ → Ty ν) (g : TyVar ν → Ty ξ) (ty : Ty μ) :
    (ty.subst f).subst g = ty.subst fun v => (f v).subst g := by
  induction ty with
  | var v => rfl
  | app name args ih =>
      simp only [subst_app, List.map_map, app.injEq, true_and]
      exact List.map_congr_left fun arg harg => ih arg harg

theorem mem_leaves_subst {f : TyVar μ → Ty ν} {ty : Ty μ} {w : TyVar ν} :
    w ∈ (ty.subst f).leaves ↔ ∃ v ∈ ty.leaves, w ∈ (f v).leaves := by
  induction ty with
  | var v => simp
  | app name args ih =>
      simp only [subst_app, leaves_app, List.mem_flatMap, List.mem_map]
      constructor
      · rintro ⟨_, ⟨arg, harg, rfl⟩, hw⟩
        obtain ⟨v, hv, hw⟩ := (ih arg harg).mp hw
        exact ⟨v, ⟨arg, harg, hv⟩, hw⟩
      · rintro ⟨v, ⟨arg, harg, hv⟩, hw⟩
        exact ⟨arg.subst f, ⟨arg, harg, rfl⟩, (ih arg harg).mpr ⟨v, hv, hw⟩⟩

theorem leaves_subst_var (g : TyVar μ → TyVar ν) (ty : Ty μ) :
    (ty.subst fun v => .var (g v)).leaves = ty.leaves.map g := by
  induction ty with
  | var v => rfl
  | app name args ih =>
      rw [subst_app, leaves_app, leaves_app, List.flatMap_map, List.map_flatMap, List.flatMap_def,
        List.flatMap_def, List.map_congr_left ih]

@[simp] theorem subst_var_eq (ty : Ty μ) : ty.subst var = ty := by
  induction ty with
  | var v => rfl
  | app name args ih =>
      rw [subst_app, List.map_congr_left ih, List.map_id']

variable [DecidableEq μ]

theorem mem_vars {ty : Ty μ} {v : TyVar μ} : v ∈ ty.vars ↔ v ∈ ty.leaves := by
  simp [vars]

theorem contains_iff {ty : Ty μ} {v : TyVar μ} : ty.contains v = true ↔ v ∈ ty.leaves := by
  simp [contains]

end HolSearch.Ty
