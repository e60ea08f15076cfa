import HolSearch.Proofs.Syntax.Term

/-!
# Binding and unbinding a variable

`bindAt` turns a variable into the bound variable that refers to an abstraction around the term, and
`unbindAt` goes the other way.  On raw terms neither undoes the other in general.  A bound variable
that referred to this abstraction before becomes the variable `v` when it is unbound, whether or not
it came from `v`, and `bindAt` gives it the type of `v`, whatever type it had.  Main statement
(`bindAt_unbindAt_inverse_iff`): nothing else can go wrong.

Which abstraction a bound variable refers to depends on how many abstractions of the term lie around
it, so `boundLeaves` records this number for each of them.  Depths are words: below `k` abstractions
of the term, the index of the abstraction `depth` levels above the term is the sum `depth + k` of
words.  As long as no sum passes the largest word, the depths count as natural numbers do, and
`bindAt` is the `bind` of the kernel (`bindAt_eq_bind`).
-/

namespace HolSearch

/-! ## Counting in words -/

theorem toNat_add_one_add (depth : UInt64) (levels : Nat) :
    ((depth + 1).toNat + levels) % UInt64.size = (depth.toNat + (levels + 1)) % UInt64.size := by
  have hsucc : (depth + 1).toNat = (depth.toNat + 1) % UInt64.size := UInt64.toNat_add depth 1
  rw [hsucc, Nat.mod_add_mod, Nat.add_assoc, Nat.add_comm 1 levels]

theorem toNat_add_zero_mod (depth : UInt64) : (depth.toNat + 0) % UInt64.size = depth.toNat :=
  Nat.mod_eq_of_lt depth.toNat_lt

theorem toNat_add_one {depth : UInt64} (h : depth.toNat + 1 < UInt64.size) :
    (depth + 1).toNat = depth.toNat + 1 :=
  (UInt64.toNat_add depth 1).trans (Nat.mod_eq_of_lt h)

/-! ## Depths that stay within a word -/

namespace Term

variable {μ : Type}

/-- The largest number of abstractions of a term that lie around one place in it. -/
def nesting : Term μ → Nat
  | .abs _ body => body.nesting + 1
  | .app f x => max f.nesting x.nesting
  | .const .. => 0
  | .var _ => 0
  | .bound .. => 0

theorem hasLooseBoundAt_eq_hasLooseBound {t : Term μ} {depth : UInt64}
    (h : depth.toNat + t.nesting < UInt64.size) :
    t.hasLooseBoundAt depth = t.hasLooseBound depth.toNat := by
  induction t generalizing depth with
  | abs ty body ih =>
      rw [nesting] at h
      have hsucc : (depth + 1).toNat = depth.toNat + 1 := toNat_add_one (by omega)
      rw [hasLooseBoundAt, hasLooseBound, ih (by rw [hsucc]; omega), hsucc]
  | app f x ihf ihx =>
      rw [nesting] at h
      rw [hasLooseBoundAt, hasLooseBound, ihf (by omega), ihx (by omega)]
  | const name ty => rfl
  | var w => rfl
  | bound i ty => rfl

/-- At depth 0, where the kernel binds, this holds of every term with fewer nested abstractions than
there are words. -/
theorem bindAt_eq_bind [DecidableEq μ] {t : Term μ} {v : Var μ} {depth : UInt64}
    (h : depth.toNat + t.nesting < UInt64.size) : t.bindAt v depth = t.bind v depth.toNat := by
  induction t generalizing depth with
  | abs ty body ih =>
      rw [nesting] at h
      have hsucc : (depth + 1).toNat = depth.toNat + 1 := toNat_add_one (by omega)
      rw [bindAt, bind, ih (by rw [hsucc]; omega), hsucc]
  | app f x ihf ihx =>
      rw [nesting] at h
      rw [bindAt, bind, ihf (by omega), ihx (by omega)]
  | const name ty => rfl
  | var w => rfl
  | bound i ty => rfl

end Term

/-! ## Bound variables and the abstractions around them -/

/-- A bound variable as it stands in a term. -/
structure BoundLeaf (μ : Type) where
  /-- how many abstractions of the term are around it -/
  levels : Nat
  index : Nat
  ty : Ty μ
deriving DecidableEq

namespace BoundLeaf

variable {μ : Type}

/-- The bound variable as it stands in an abstraction over the term. -/
def under (b : BoundLeaf μ) : BoundLeaf μ := { b with levels := b.levels + 1 }

@[simp] theorem ty_under (b : BoundLeaf μ) : b.under.ty = b.ty := rfl

/-- From inside an abstraction, what lies outside is one level further up. -/
theorem index_under_iff (b : BoundLeaf μ) (depth : UInt64) :
    b.under.index = (depth.toNat + b.under.levels) % UInt64.size ↔
      b.index = ((depth + 1).toNat + b.levels) % UInt64.size := by
  rw [toNat_add_one_add]
  rfl

end BoundLeaf

namespace Term

variable {μ : Type}

/-- The bound variables of a term from left to right. -/
def boundLeaves : Term μ → List (BoundLeaf μ)
  | .abs _ body => body.boundLeaves.map BoundLeaf.under
  | .app f x => f.boundLeaves ++ x.boundLeaves
  | .bound i ty => [⟨0, i, ty⟩]
  | .const .. => []
  | .var _ => []

/-! ## Round trips -/

variable [DecidableEq μ]

/-- What was bound is found again unless something else is bound there. -/
theorem unbindAt_bindAt_eq_iff (t : Term μ) (v : Var μ) (depth : UInt64) :
    (t.bindAt v depth).unbindAt v depth = t ↔
      ∀ b ∈ t.boundLeaves, b.index ≠ (depth.toNat + b.levels) % UInt64.size := by
  induction t generalizing depth with
  | abs ty body ih =>
      simp only [bindAt, unbindAt, abs.injEq, true_and, ih, boundLeaves, List.forall_mem_map,
        ne_eq, BoundLeaf.index_under_iff]
  | app f x ihf ihx =>
      simp only [bindAt, unbindAt, app.injEq, ihf, ihx, boundLeaves, List.forall_mem_append]
  | const name ty => simp [bindAt, unbindAt, boundLeaves]
  | var w =>
      by_cases hw : w = v
      · simp [bindAt, unbindAt, boundLeaves, hw]
      · simp [bindAt, unbindAt, boundLeaves, hw]
  | bound i ty =>
      simp only [bindAt, unbindAt, boundLeaves, List.forall_mem_singleton, toNat_add_zero_mod]
      by_cases hi : i = depth.toNat
      · simp [hi]
      · simp [hi]

/-- What was unbound is bound again together with all other occurrences of the variable. -/
theorem bindAt_unbindAt_eq_iff (t : Term μ) (v : Var μ) (depth : UInt64) :
    (t.unbindAt v depth).bindAt v depth = t ↔
      v ∉ t.leaves ∧
        ∀ b ∈ t.boundLeaves, b.index = (depth.toNat + b.levels) % UInt64.size → b.ty = v.ty := by
  induction t generalizing depth with
  | abs ty body ih =>
      simp only [bindAt, unbindAt, abs.injEq, true_and, ih, leaves, boundLeaves,
        List.forall_mem_map, BoundLeaf.index_under_iff, BoundLeaf.ty_under]
  | app f x ihf ihx =>
      have hleaves : v ∉ (app f x).leaves ↔ v ∉ f.leaves ∧ v ∉ x.leaves := by
        rw [leaves, List.mem_append, not_or]
      rw [hleaves, boundLeaves, List.forall_mem_append, and_and_and_comm, ← ihf, ← ihx, unbindAt,
        bindAt, app.injEq]
  | const name ty => simp [bindAt, unbindAt, leaves, boundLeaves]
  | var w =>
      by_cases hw : w = v
      · simp [bindAt, unbindAt, leaves, boundLeaves, hw]
      · simp [bindAt, unbindAt, leaves, boundLeaves, hw, Ne.symm hw]
  | bound i ty =>
      simp only [unbindAt, leaves, boundLeaves, List.forall_mem_singleton, toNat_add_zero_mod]
      by_cases hi : i = depth.toNat
      · simp [bindAt, hi, eq_comm]
      · simp [bindAt, hi]

/-- **Binding and unbinding a variable are inverse just where nothing is confused.**  Unbinding
undoes binding just if the term has no bound variable that refers to the abstraction already.
Binding undoes unbinding just if the variable does not occur in the term and the bound variables
that refer to the abstraction have its type.  A bound variable below `k` abstractions of the term
refers to the abstraction if its index is the depth plus `k`, which are added as words. -/
theorem bindAt_unbindAt_inverse_iff (t : Term μ) (v : Var μ) (depth : UInt64) :
    ((t.bindAt v depth).unbindAt v depth = t ↔
      ∀ b ∈ t.boundLeaves, b.index ≠ (depth.toNat + b.levels) % UInt64.size) ∧
    ((t.unbindAt v depth).bindAt v depth = t ↔
      t.contains v = false ∧
        ∀ b ∈ t.boundLeaves, b.index = (depth.toNat + b.levels) % UInt64.size →
          b.ty = v.ty) := by
  have hcontains : t.contains v = false ↔ v ∉ t.leaves := by
    rw [← contains_iff, Bool.not_eq_true]
  rw [hcontains]
  exact ⟨unbindAt_bindAt_eq_iff t v depth, bindAt_unbindAt_eq_iff t v depth⟩

/-- The abstraction above the largest depth has depth 0, so its own variable is confused. -/
example (x : HolVar) :
    ((abs .bool (bound 0 .bool)).bindAt x (-1)).unbindAt x (-1) = abs .bool (var x) := rfl

end Term

end HolSearch
