/-!
# Injective assignments

To pair the premises of two sequents, each position on one side is given a value on the other, no
value twice.  `Permutation len max` builds such an assignment of the positions below `len` to values
below `max`, one position at a time, and remembers which values are taken.

A search goes through assignments by giving positions larger and larger values.  `Permutation.work`
bounds how long it can go on.
-/

namespace HolSearch

/-- An injective assignment of values to the first few of `len` positions. -/
structure Permutation where
  /-- the values of the positions assigned so far -/
  values : List Nat
  /-- for each value, whether it is taken -/
  used : List Bool
  /-- how many positions there are -/
  len : Nat
deriving DecidableEq

namespace Permutation

/-- No position assigned yet, and `max` values to choose from. -/
def start (len max : Nat) : Permutation where
  values := []
  used := List.replicate max false
  len := len

/-- Whether every position has a value. -/
def isComplete (p : Permutation) : Bool := p.values.length = p.len

/-- The values that are not taken, in increasing order. -/
def unused (p : Permutation) : List Nat :=
  (List.range p.used.length).filter fun v => p.used[v]? = some false

/-- Give the next position the value `v`. -/
def push (p : Permutation) (v : Nat) : Permutation :=
  { p with values := p.values ++ [v], used := p.used.set v true }

/-- Give the next position the least value that is not taken and not below `n`. -/
def pushFrom (p : Permutation) (n : Nat) : Option (Nat × Permutation) :=
  if p.isComplete then none
  else (p.unused.find? (n ≤ ·)).map fun v => (v, p.push v)

/-- Take the value of the last assigned position back. -/
def pop (p : Permutation) : Option (Nat × Permutation) :=
  p.values.getLast?.map fun v =>
    (v, { p with values := p.values.dropLast, used := p.used.set v false })

section Lemmas

variable {p p' : Permutation} {v n : Nat}

theorem mem_unused : v ∈ p.unused ↔ p.used[v]? = some false := by
  unfold unused
  rw [List.mem_filter, List.mem_range, decide_eq_true_eq]
  refine ⟨And.right, fun h => ⟨?_, h⟩⟩
  exact (List.getElem?_eq_some_iff.mp h).1

theorem pushFrom_eq_some (h : p.pushFrom n = some (v, p')) :
    p.used[v]? = some false ∧ n ≤ v ∧ p' = p.push v := by
  unfold pushFrom at h
  split at h
  · cases h
  · obtain ⟨w, hw, hpair⟩ := Option.map_eq_some_iff.mp h
    cases hpair
    have hle : n ≤ v := by simpa using List.find?_some hw
    exact ⟨mem_unused.mp (List.mem_of_find?_eq_some hw), hle, rfl⟩

theorem pop_eq_some (h : p.pop = some (v, p')) :
    p.values = p'.values ++ [v] ∧ p'.used = p.used.set v false ∧ p'.len = p.len := by
  unfold pop at h
  obtain ⟨w, hw, hpair⟩ := Option.map_eq_some_iff.mp h
  cases hpair
  obtain ⟨init, hinit⟩ := List.getLast?_eq_some_iff.mp hw
  simp [hinit]

end Lemmas

/-! ## How long assignments can be changed -/

/-- The assignment read as a number, in which the digit of a position counts what can still be tried
there: a larger value, or going back. -/
def above (p : Permutation) : Nat :=
  p.values.foldl (fun sum v => sum * (p.used.length + 2) + (p.used.length - (v + 1) + 1)) 0

/-- A bound on how often a search can go on from the assignment, if the next position is to get a
value from `n` on. -/
def work (p : Permutation) (n : Nat) : Nat :=
  (p.above * (p.used.length + 2) + (p.used.length - n + 1)) *
    Nat.pow (p.used.length + 2) (p.used.count false)

section Work

variable {p p' : Permutation} {v n : Nat}

theorem work_pos : 0 < p.work n :=
  Nat.mul_pos (Nat.succ_pos _) (Nat.pow_pos (Nat.succ_pos _))

/-- There is less to do once a value has been tried. -/
theorem work_succ_lt (hv : p.used[v]? = some false) (hn : n ≤ v) : p.work (v + 1) < p.work n := by
  have hlt : v < p.used.length := (List.getElem?_eq_some_iff.mp hv).1
  unfold work
  apply Nat.mul_lt_mul_of_pos_right
  · omega
  · exact Nat.pow_pos (Nat.succ_pos _)

/-- There is less to do below a value than there was with the value still to be tried. -/
theorem work_push_lt (hv : p.used[v]? = some false) (hn : n ≤ v) :
    (p.push v).work 0 < p.work n := by
  obtain ⟨hlt, hfalse⟩ := List.getElem?_eq_some_iff.mp hv
  have hlength : (p.push v).used.length = p.used.length := List.length_set
  have habove : (p.push v).above =
      p.above * (p.used.length + 2) + (p.used.length - (v + 1) + 1) := by
    simp [above, push]
  have hcount : p.used.count false = (p.push v).used.count false + 1 := by
    have hpos : 0 < p.used.count false := List.count_pos_iff.mpr (List.mem_of_getElem hfalse)
    have hset : (p.push v).used.count false = p.used.count false - 1 := by
      simp [push, List.count_set hlt, hfalse]
    omega
  unfold work
  rw [habove, hlength, hcount, Nat.pow_eq, Nat.pow_eq, Nat.pow_succ', ← Nat.mul_assoc]
  apply Nat.mul_lt_mul_of_pos_right
  · calc
      _ < (p.above * (p.used.length + 2) + (p.used.length - (v + 1) + 1)) * (p.used.length + 2) +
          (p.used.length + 2) := by omega
      _ = (p.above * (p.used.length + 2) + (p.used.length - (v + 1) + 1) + 1) *
          (p.used.length + 2) := (Nat.succ_mul _ _).symm
      _ ≤ _ := Nat.mul_le_mul_right _ (by omega)
  · exact Nat.pow_pos (Nat.succ_pos _)

/-- There is less to do once the last position is to get another value. -/
theorem work_pop_lt (h : p.pop = some (v, p')) : p'.work (v + 1) < p.work n := by
  obtain ⟨hvalues, hused, -⟩ := pop_eq_some h
  have hlength : p'.used.length = p.used.length := by rw [hused, List.length_set]
  have habove : p.above = p'.above * (p.used.length + 2) + (p.used.length - (v + 1) + 1) := by
    simp [above, hvalues, hlength]
  have hcount : p'.used.count false ≤ p.used.count false + 1 := by
    rw [hused]
    by_cases hv : v < p.used.length
    · rw [List.count_set hv]
      split <;> simp
    · rw [List.set_eq_of_length_le (by omega)]
      omega
  unfold work
  rw [hlength, ← habove]
  calc
    _ ≤ p.above * (p.used.length + 2) ^ (p.used.count false + 1) :=
        Nat.mul_le_mul_left _ (Nat.pow_le_pow_right (by omega) hcount)
    _ = p.above * (p.used.length + 2) * (p.used.length + 2) ^ p.used.count false := by
        rw [Nat.pow_succ', Nat.mul_assoc]
    _ < _ := Nat.mul_lt_mul_of_pos_right (by omega) (Nat.pow_pos (Nat.succ_pos _))

end Work

end Permutation

end HolSearch
