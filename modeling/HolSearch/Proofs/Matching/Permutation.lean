import HolSearch.Matching.Permutation
import Mathlib.Order.Bounds.Basic

/-!
# What an assignment under construction satisfies

The values of an assignment are distinct, there are at most as many as positions, and a value is
marked as taken just if a position has it.  This is `Permutation.Valid`; it holds at the start and
is kept by `push` and `pop`.

The values that the next position can get are the `candidates` from some number on.  `pushFrom`
takes the first of them, and leaves those above it for later (`candidates_eq_cons`).

An assignment is built by calls of `pushFrom` and `pop` in any order.  Main statement
(`assignment_after_moves`): after all of them the invariant holds, `pushFrom` finds the least
candidate if there is any, and `pop` takes back just what was given last.
-/

namespace HolSearch.Permutation

variable {p p' : Permutation} {v n : Nat}

/-- Distinct values, no more than positions, and marked as taken just if assigned. -/
structure Valid (p : Permutation) : Prop where
  nodup : p.values.Nodup
  length_le : p.values.length ≤ p.len
  taken : ∀ v, p.used[v]? = some true ↔ v ∈ p.values

theorem valid_start (len max : Nat) : (start len max).Valid where
  nodup := List.nodup_nil
  length_le := Nat.zero_le _
  taken v := by simp [start, List.getElem?_replicate]

theorem isComplete_iff : p.isComplete = true ↔ p.values.length = p.len := by
  simp [isComplete]

theorem pop_eq_none_iff : p.pop = none ↔ p.values = [] := by
  simp [pop]

/-- Taking back the value that was given last restores the assignment. -/
theorem pop_push (hv : p.used[v]? = some false) : (p.push v).pop = some (v, p) := by
  obtain ⟨hlt, hfalse⟩ := List.getElem?_eq_some_iff.mp hv
  have hused : (p.used.set v true).set v false = p.used := by
    rw [List.set_set, ← hfalse, List.set_getElem_self]
  simp [push, pop, hused]

namespace Valid

theorem unused_iff (h : p.Valid) : p.used[v]? = some false ↔ v < p.used.length ∧ v ∉ p.values := by
  rw [← h.taken v]
  constructor
  · intro hv
    exact ⟨(List.getElem?_eq_some_iff.mp hv).1, by simp [hv]⟩
  · rintro ⟨hlt, hv⟩
    rw [List.getElem?_eq_getElem hlt] at hv ⊢
    simpa using hv

theorem push (h : p.Valid) (hv : p.used[v]? = some false) (hlt : p.values.length < p.len) :
    (p.push v).Valid := by
  obtain ⟨hrange, hnew⟩ := h.unused_iff.mp hv
  refine ⟨?_, ?_, fun w => ?_⟩
  · refine List.nodup_append.mpr ⟨h.nodup, by simp, ?_⟩
    intro a ha b hb
    rw [List.mem_singleton] at hb
    rintro rfl
    exact hnew (hb ▸ ha)
  · simp only [Permutation.push, List.length_append, List.length_singleton]
    omega
  · simp only [Permutation.push, List.getElem?_set, List.mem_append, List.mem_singleton]
    by_cases hw : v = w
    · subst hw
      simp [hrange]
    · rw [if_neg hw, h.taken w]
      exact ⟨Or.inl, fun hmem => hmem.resolve_right fun heq => hw heq.symm⟩

theorem pop (h : p.Valid) (hpop : p.pop = some (v, p')) : p'.Valid := by
  obtain ⟨hvalues, hused, hlen⟩ := pop_eq_some hpop
  have hnodup := h.nodup
  rw [hvalues] at hnodup
  obtain ⟨hshorter, -, hdisjoint⟩ := List.nodup_append.mp hnodup
  refine ⟨hshorter, ?_, fun w => ?_⟩
  · have hle := h.length_le
    rw [hvalues, List.length_append, List.length_singleton] at hle
    omega
  · rw [hused, List.getElem?_set]
    by_cases hw : v = w
    · subst hw
      have hgone : v ∉ p'.values := fun hmem => hdisjoint v hmem v (List.mem_singleton_self v) rfl
      by_cases hrange : v < p.used.length
      · simp [hrange, hgone]
      · simp [hrange, hgone]
    · rw [if_neg hw, h.taken w, hvalues, List.mem_append, List.mem_singleton]
      exact ⟨fun hmem => hmem.resolve_right fun heq => hw heq.symm, Or.inl⟩

end Valid

/-! ## Candidates -/

/-- The values from `n` on, below `max`, that are not among those taken already. -/
def candidates (max : Nat) (taken : List Nat) (n : Nat) : List Nat :=
  (List.range max).filter fun v => v ∉ taken ∧ n ≤ v

theorem mem_candidates {max : Nat} {taken : List Nat} :
    v ∈ candidates max taken n ↔ v < max ∧ v ∉ taken ∧ n ≤ v := by
  simp [candidates]

theorem pairwise_candidates (max : Nat) (taken : List Nat) (n : Nat) :
    (candidates max taken n).Pairwise (· < ·) :=
  List.Pairwise.filter _ List.pairwise_lt_range

theorem head?_candidates (h : p.Valid) :
    (candidates p.used.length p.values n).head? = p.unused.find? (n ≤ ·) := by
  have hunused : p.unused = (List.range p.used.length).filter fun v => v ∉ p.values := by
    unfold unused
    refine List.filter_congr fun v hv => decide_eq_decide.mpr ?_
    rw [h.unused_iff]
    exact and_iff_right (List.mem_range.mp hv)
  rw [← List.head?_filter, hunused, List.filter_filter, candidates]
  congr 2
  funext v
  simp [and_comm]

/-- Of candidates in increasing order, those above the first are the others. -/
theorem candidates_eq_cons {max : Nat} {taken : List Nat}
    (h : (candidates max taken n).head? = some v) :
    candidates max taken n = v :: candidates max taken (v + 1) := by
  obtain ⟨rest, hrest⟩ := List.head?_eq_some_iff.mp h
  have hsorted := pairwise_candidates max taken n
  rw [hrest, List.pairwise_cons] at hsorted
  have hn : n ≤ v := (mem_candidates.mp (List.mem_of_mem_head? h)).2.2
  have habove : candidates max taken (v + 1) =
      (candidates max taken n).filter fun w => v + 1 ≤ w := by
    rw [candidates, candidates, List.filter_filter]
    refine List.filter_congr fun w _ => ?_
    by_cases hw : v + 1 ≤ w
    · have hnw : n ≤ w := by omega
      simp [hw, hnw]
    · simp [hw]
  rw [habove, hrest, List.filter_cons_of_neg (by simp)]
  congr 1
  refine (List.filter_eq_self.mpr fun w hw => ?_).symm
  exact decide_eq_true (hsorted.1 w hw)

theorem candidates_eq_nil_of_pushFrom (h : p.Valid) (hcomplete : p.isComplete = false)
    (hpush : p.pushFrom n = none) : candidates p.used.length p.values n = [] := by
  unfold pushFrom at hpush
  rw [hcomplete] at hpush
  rw [← List.head?_eq_none_iff, head?_candidates h]
  simpa using hpush

theorem candidates_eq_cons_of_pushFrom (h : p.Valid) (hpush : p.pushFrom n = some (v, p')) :
    candidates p.used.length p.values n = v :: candidates p.used.length p.values (v + 1) := by
  apply candidates_eq_cons
  rw [head?_candidates h]
  unfold pushFrom at hpush
  split at hpush
  · cases hpush
  · obtain ⟨w, hw, hpair⟩ := Option.map_eq_some_iff.mp hpush
    cases hpair
    exact hw

theorem isLeast_of_pushFrom (h : p.Valid) (hpush : p.pushFrom n = some (v, p')) :
    IsLeast {w | n ≤ w ∧ w < p.used.length ∧ w ∉ p.values} v := by
  have hcandidates := candidates_eq_cons_of_pushFrom h hpush
  constructor
  · have hv : v ∈ candidates p.used.length p.values n := by
      rw [hcandidates]
      exact List.mem_cons_self
    obtain ⟨hlt, hnew, hle⟩ := mem_candidates.mp hv
    exact ⟨hle, hlt, hnew⟩
  · intro w hw
    obtain ⟨hle, hlt, hnew⟩ := hw
    have hmem : w ∈ candidates p.used.length p.values n := mem_candidates.mpr ⟨hlt, hnew, hle⟩
    rw [hcandidates, List.mem_cons, mem_candidates] at hmem
    omega

theorem isComplete_of_pushFrom (hpush : p.pushFrom n = some (v, p')) : p.isComplete = false := by
  unfold pushFrom at hpush
  split at hpush
  · cases hpush
  · rename_i hcomplete
    exact Bool.eq_false_of_not_eq_true hcomplete

theorem pushFrom_eq_none_iff (h : p.Valid) :
    p.pushFrom n = none ↔
      p.values.length = p.len ∨ ¬∃ w, n ≤ w ∧ w < p.used.length ∧ w ∉ p.values := by
  constructor
  · intro hnone
    by_cases hcomplete : p.isComplete = true
    · exact Or.inl (isComplete_iff.mp hcomplete)
    · right
      intro hexists
      obtain ⟨w, hle, hlt, hnew⟩ := hexists
      have hnil := candidates_eq_nil_of_pushFrom h (Bool.eq_false_of_not_eq_true hcomplete) hnone
      have hw : w ∈ candidates p.used.length p.values n := mem_candidates.mpr ⟨hlt, hnew, hle⟩
      rw [hnil] at hw
      cases hw
  · intro hnot
    cases hpush : p.pushFrom n with
    | none => rfl
    | some pushed =>
        obtain ⟨v, p'⟩ := pushed
        rcases hnot with hlength | hnone
        · have hcomplete := isComplete_of_pushFrom hpush
          rw [isComplete_iff.mpr hlength] at hcomplete
          cases hcomplete
        · exact absurd ⟨v, (isLeast_of_pushFrom h hpush).1⟩ hnone

/-! ## Sequences of calls -/

/-- A call that may change an assignment. -/
inductive Move where
  | pushFrom (n : Nat)
  | pop

/-- The assignment after a call.  A call without a result leaves it as it is. -/
def apply (p : Permutation) : Move → Permutation
  | .pushFrom n => (p.pushFrom n).elim p Prod.snd
  | .pop => p.pop.elim p Prod.snd

/-- The assignment after calls one after the other. -/
def applyAll (p : Permutation) (moves : List Move) : Permutation := moves.foldl apply p

/-- A valid assignment of values below `max` to positions below `len`. -/
structure ValidFor (len max : Nat) (p : Permutation) : Prop extends p.Valid where
  len_eq : p.len = len
  length_used : p.used.length = max

namespace ValidFor

variable {len max : Nat}

theorem pushFrom (h : p.ValidFor len max) (hpush : p.pushFrom n = some (v, p')) :
    p'.ValidFor len max := by
  have hcomplete := isComplete_of_pushFrom hpush
  have hlength : p.values.length ≠ p.len := by simpa [isComplete] using hcomplete
  obtain ⟨hfree, -, rfl⟩ := pushFrom_eq_some hpush
  have hle := h.length_le
  refine ⟨h.toValid.push hfree (by omega), h.len_eq, ?_⟩
  rw [Permutation.push, List.length_set, h.length_used]

theorem pop (h : p.ValidFor len max) (hpop : p.pop = some (v, p')) : p'.ValidFor len max := by
  obtain ⟨-, hused, hlen⟩ := pop_eq_some hpop
  refine ⟨h.toValid.pop hpop, hlen.trans h.len_eq, ?_⟩
  rw [hused, List.length_set, h.length_used]

theorem apply (h : p.ValidFor len max) (move : Move) : (p.apply move).ValidFor len max := by
  cases move with
  | pushFrom n =>
      cases hpush : p.pushFrom n with
      | none => simpa [Permutation.apply, hpush] using h
      | some pushed => simpa [Permutation.apply, hpush] using h.pushFrom hpush
  | pop =>
      cases hpop : p.pop with
      | none => simpa [Permutation.apply, hpop] using h
      | some popped => simpa [Permutation.apply, hpop] using h.pop hpop

theorem applyAll (h : p.ValidFor len max) (moves : List Move) :
    (p.applyAll moves).ValidFor len max := by
  induction moves generalizing p with
  | nil => exact h
  | cons move moves ih => exact ih (h.apply move)

theorem lt_of_mem (h : p.ValidFor len max) (hv : v ∈ p.values) : v < max := by
  rw [← h.length_used]
  exact (List.getElem?_eq_some_iff.mp ((h.taken v).mpr hv)).1

end ValidFor

theorem validFor_start (len max : Nat) : (start len max).ValidFor len max :=
  ⟨valid_start len max, rfl, List.length_replicate⟩

/-- **Assignments stay valid under all calls.**  The values are distinct and below `max`, there are
at most `len`, and the marks say just which values are taken, so that the mark that `pop` removes is
there.  The next position gets the least value from `n` on that is not taken, unless no position or
no such value is left, and `pop` takes it back. -/
theorem assignment_after_moves (len max : Nat) (moves : List Move) :
    let p := (start len max).applyAll moves
    (p.values.Nodup ∧ (∀ v ∈ p.values, v < max) ∧ p.values.length ≤ len ∧ p.used.length = max ∧
      ∀ v, p.used[v]? = some true ↔ v ∈ p.values) ∧
    (∀ v p', p.pop = some (v, p') → v < p.used.length) ∧
    ∀ n,
      (∀ v p', p.pushFrom n = some (v, p') →
        IsLeast {w | n ≤ w ∧ w < max ∧ w ∉ p.values} v ∧ p'.values = p.values ++ [v] ∧
          p'.pop = some (v, p)) ∧
      (p.pushFrom n = none ↔
        p.values.length = len ∨ ¬∃ w, n ≤ w ∧ w < max ∧ w ∉ p.values) := by
  intro p
  have h : p.ValidFor len max := (validFor_start len max).applyAll moves
  have hlength : p.values.length ≤ len := h.len_eq ▸ h.length_le
  refine ⟨⟨h.nodup, fun v => h.lt_of_mem, hlength, h.length_used, h.taken⟩, ?_, fun n => ⟨?_, ?_⟩⟩
  · intro v p' hpop
    obtain ⟨hvalues, -, -⟩ := pop_eq_some hpop
    rw [h.length_used]
    exact h.lt_of_mem (by simp [hvalues])
  · intro v p' hpush
    have hleast := isLeast_of_pushFrom h.toValid hpush
    rw [h.length_used] at hleast
    obtain ⟨hfree, -, rfl⟩ := pushFrom_eq_some hpush
    exact ⟨hleast, rfl, pop_push hfree⟩
  · rw [pushFrom_eq_none_iff h.toValid, h.len_eq, h.length_used]

/-- Two positions and three values: a number beyond the range has no effect, and after 0 and 1 are
given and 1 is taken back, the second position can get 2 instead. -/
theorem assignment_after_moves_again :
    let p := (start 2 3).applyAll [.pushFrom 0, .pushFrom 7, .pushFrom 0, .pop]
    ∃ p', p.pushFrom 2 = some (2, p') ∧ p'.values = [0, 2] ∧ p'.pop = some (2, p) ∧
      IsLeast {w | 2 ≤ w ∧ w < 3 ∧ w ∉ p.values} 2 := by
  intro p
  obtain ⟨-, -, hpushes⟩ :=
    assignment_after_moves 2 3 [.pushFrom 0, .pushFrom 7, .pushFrom 0, .pop]
  have hpush : p.pushFrom 2 = some (2, p.push 2) := by decide
  obtain ⟨hleast, -, hpop⟩ := (hpushes 2).1 2 (p.push 2) hpush
  exact ⟨p.push 2, hpush, by decide, hpop, hleast⟩

end HolSearch.Permutation
