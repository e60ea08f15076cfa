import HolSearch.Syntax.Mark

/-!
# Types of higher-order logic

A type is a variable or a constructor applied to types.  Nothing is known here about which
constructors exist or how many arguments they take: that is what the kernel checks.

The arguments of a constructor form a list, so functions on types come in pairs, one for a type and
one for a list of types.  The lemmas `…List_eq` turn the second of each pair into the library's
function on lists.
-/

namespace HolSearch

/-- A type variable. -/
structure TyVar (μ : Type) where
  mark : μ
  name : Name
deriving DecidableEq

/-- A type whose variables are marked by `μ`. -/
inductive Ty (μ : Type) where
  /-- a type constructor applied to arguments, such as `fun<a, bool>` -/
  | app (name : Name) (args : List (Ty μ))
  | var (v : TyVar μ)

namespace Ty

variable {μ ν ε : Type}

/-! ## Induction -/

/-- Induction over a type: the motive may be assumed of the arguments of a constructor. -/
@[elab_as_elim, induction_eliminator]
theorem induct {motive : Ty μ → Prop}
    (app : ∀ name args, (∀ ty ∈ args, motive ty) → motive (.app name args))
    (var : ∀ v, motive (.var v)) : ∀ ty, motive ty
  | .app name args => app name args fun ty _ => induct app var ty
  | .var v => var v

/-! ## Equality -/

mutual

/-- Equality of types is decided constructor by constructor. -/
def decEq [DecidableEq μ] : (s t : Ty μ) → Decidable (s = t)
  | .app n as, .app m bs =>
      if hn : n = m then
        match decEqList as bs with
        | isTrue h => isTrue (by rw [hn, h])
        | isFalse h => isFalse fun heq => h (Ty.app.inj heq).2
      else
        isFalse fun heq => hn (Ty.app.inj heq).1
  | .var v, .var w =>
      if h : v = w then isTrue (by rw [h]) else isFalse fun heq => h (Ty.var.inj heq)
  | .app .., .var _ => isFalse nofun
  | .var _, .app .. => isFalse nofun

def decEqList [DecidableEq μ] : (ss ts : List (Ty μ)) → Decidable (ss = ts)
  | [], [] => isTrue rfl
  | s :: ss, t :: ts =>
      match decEq s t with
      | isTrue h =>
          match decEqList ss ts with
          | isTrue h' => isTrue (by rw [h, h'])
          | isFalse h' => isFalse fun heq => h' (List.cons.inj heq).2
      | isFalse h => isFalse fun heq => h (List.cons.inj heq).1
  | [], _ :: _ => isFalse nofun
  | _ :: _, [] => isFalse nofun

end

instance [DecidableEq μ] : DecidableEq (Ty μ) := decEq

/-! ## The types every kernel knows -/

/-- The name of the function type constructor. -/
def funName : Name := "fun"

/-- The name of the type of propositions. -/
def boolName : Name := "bool"

/-- The type of functions from `a` to `b`. -/
def fn (a b : Ty μ) : Ty μ := .app funName [a, b]

/-- The type of propositions. -/
def bool : Ty μ := .app boolName []

/-- Whether the type is that of propositions. -/
def isBool : Ty μ → Bool
  | .app name [] => name = boolName
  | _ => false

/-- The two sides of a function type. -/
def destFn? : Ty μ → Option (Ty μ × Ty μ)
  | .app name [a, b] => if name = funName then some (a, b) else none
  | _ => none

@[simp] theorem destFn?_fn (a b : Ty μ) : (fn a b).destFn? = some (a, b) := rfl

theorem destFn?_eq_some_iff {ty a b : Ty μ} : ty.destFn? = some (a, b) ↔ ty = fn a b := by
  constructor
  · intro h
    unfold destFn? at h
    split at h
    · split at h
      · rename_i hname
        cases h
        rw [hname]
        rfl
      · cases h
    · cases h
  · rintro rfl
    rfl

theorem isBool_iff {ty : Ty μ} : ty.isBool = true ↔ ty = bool := by
  constructor
  · intro h
    unfold isBool at h
    split at h
    · rename_i name
      have hname : name = boolName := by simpa using h
      rw [hname]
      rfl
    · cases h
  · rintro rfl
    rfl

/-! ## Replacing variables -/

mutual

/-- Replace every variable by a type. -/
def subst (f : TyVar μ → Ty ν) : Ty μ → Ty ν
  | .app name args => .app name (substList f args)
  | .var v => f v

def substList (f : TyVar μ → Ty ν) : List (Ty μ) → List (Ty ν)
  | [] => []
  | ty :: tys => ty.subst f :: substList f tys

end

@[simp] theorem substList_eq (f : TyVar μ → Ty ν) (tys : List (Ty μ)) :
    substList f tys = tys.map (subst f) := by
  induction tys with
  | nil => rfl
  | cons ty tys ih => rw [substList, ih, List.map_cons]

mutual

/-- Replace every variable by a type; the first replacement that fails decides the error. -/
def trySubst (f : TyVar μ → Except ε (Ty ν)) : Ty μ → Except ε (Ty ν)
  | .app name args => do return .app name (← trySubstList f args)
  | .var v => f v

def trySubstList (f : TyVar μ → Except ε (Ty ν)) : List (Ty μ) → Except ε (List (Ty ν))
  | [] => return []
  | ty :: tys => do
      let ty' ← ty.trySubst f
      let tys' ← trySubstList f tys
      return ty' :: tys'

end

/-! ## Variables -/

mutual

/-- The variables of a type from left to right, with repetitions. -/
def leaves : Ty μ → List (TyVar μ)
  | .app _ args => leavesList args
  | .var v => [v]

def leavesList : List (Ty μ) → List (TyVar μ)
  | [] => []
  | ty :: tys => ty.leaves ++ leavesList tys

end

@[simp] theorem leavesList_eq (tys : List (Ty μ)) : leavesList tys = tys.flatMap leaves := by
  induction tys with
  | nil => rfl
  | cons ty tys ih => rw [leavesList, ih, List.flatMap_cons]

/-- The variables of a type in the order of their first occurrence. -/
def vars [DecidableEq μ] (ty : Ty μ) : List (TyVar μ) := distinct ty.leaves

/-- Whether the variable occurs in the type. -/
def contains [DecidableEq μ] (ty : Ty μ) (v : TyVar μ) : Bool := v ∈ ty.leaves

end Ty

/-- A type of the object level. -/
abbrev HolType := Ty Unit

/-- A schematic type. -/
abbrev MetaType := Ty Mark

/-- The object-level type variable of the given name. -/
def tyVar (name : Name) : HolType := .var ⟨(), name⟩

end HolSearch
