/-!
# Lists without repetition

Premises of a sequent, variables of a term and names seen so far are all kept as lists in which an
element stands once, at the place of its first occurrence.  `distinct` builds such a list and
`addAllNew` extends one.
-/

namespace HolSearch

variable {α : Type} [DecidableEq α]

/-- `xs` with `x` at its end, unless `x` is there already. -/
def addNew (xs : List α) (x : α) : List α :=
  if x ∈ xs then xs else xs ++ [x]

/-- `xs` followed by the elements of `ys` that are new, each once and in order. -/
def addAllNew (xs ys : List α) : List α :=
  ys.foldl addNew xs

/-- The elements of `xs`, each where it first occurs. -/
def distinct (xs : List α) : List α :=
  addAllNew [] xs

@[simp] theorem mem_addNew {xs : List α} {x y : α} : y ∈ addNew xs x ↔ y ∈ xs ∨ y = x := by
  unfold addNew
  split
  · rename_i h
    constructor
    · exact Or.inl
    · rintro (hy | rfl)
      · exact hy
      · exact h
  · simp

@[simp] theorem mem_addAllNew {xs ys : List α} {y : α} :
    y ∈ addAllNew xs ys ↔ y ∈ xs ∨ y ∈ ys := by
  induction ys generalizing xs with
  | nil => simp [addAllNew]
  | cons z ys ih =>
      have hstep : addAllNew xs (z :: ys) = addAllNew (addNew xs z) ys := rfl
      rw [hstep, ih, mem_addNew, List.mem_cons, or_assoc]

@[simp] theorem mem_distinct {xs : List α} {y : α} : y ∈ distinct xs ↔ y ∈ xs := by
  simp [distinct]

theorem nodup_addNew {xs : List α} (h : xs.Nodup) (x : α) : (addNew xs x).Nodup := by
  unfold addNew
  split
  · exact h
  · rename_i hx
    refine List.nodup_append.mpr ⟨h, by simp, ?_⟩
    intro a ha b hb
    rw [List.mem_singleton] at hb
    subst hb
    exact fun heq => hx (heq ▸ ha)

theorem nodup_addAllNew {xs : List α} (h : xs.Nodup) (ys : List α) : (addAllNew xs ys).Nodup := by
  induction ys generalizing xs with
  | nil => exact h
  | cons y ys ih => exact ih (nodup_addNew h y)

theorem nodup_distinct (xs : List α) : (distinct xs).Nodup :=
  nodup_addAllNew List.nodup_nil xs

end HolSearch
