import HolSearch.Schematic.Instantiate
import Mathlib.Computability.StateTransition
import Mathlib.Data.Finset.Card
import Mathlib.Order.Interval.Finset.Nat

/-!
# Fresh names

The names that bound variables are given are numbered, and different numbers make different names.
So of more numbers than there are taken names, one is free (`exists_binderName_notMem`), and
`freshFrom` finds the least one with as many tries as there are taken names (`isLeast_freshFrom`).

How many tries are enough is a matter of proof, not of the search.  `firstFree` has no bound on its
tries, and goes on for as long as it meets taken names.  Main statement (`freshName_found`): it
stops all the same, at the number that makes the fresh name.
-/

namespace HolSearch

/-! ## Free numbers -/

theorem binderName_injective : Function.Injective binderName := by
  intro i j h
  have hlist := congrArg String.toList h
  rw [binderName, binderName, String.toList_append, String.toList_append, List.append_right_inj,
    Nat.toList_repr, Nat.toList_repr] at hlist
  rw [← Nat.ofDigitChars_ten_toDigits (n := i), hlist, Nat.ofDigitChars_ten_toDigits]

/-- Of more numbers than there are taken names, one has a name that is not taken. -/
theorem exists_binderName_notMem (taken : List Name) (i : Nat) :
    ∃ n, i ≤ n ∧ n ≤ i + taken.length ∧ binderName n ∉ taken := by
  let names := (Finset.Icc i (i + taken.length)).image binderName
  have hcard : taken.toFinset.card < names.card := by
    have htaken := taken.toFinset_card_le
    rw [Finset.card_image_of_injective _ binderName_injective, Nat.card_Icc]
    omega
  obtain ⟨name, hname, hfree⟩ := Finset.exists_mem_notMem_of_card_lt_card hcard
  obtain ⟨n, hn, rfl⟩ := Finset.mem_image.mp hname
  rw [Finset.mem_Icc] at hn
  exact ⟨n, hn.1, hn.2, fun hmem => hfree (List.mem_toFinset.mpr hmem)⟩

/-- The number found is the least one that is free, unless more than `fuel` are taken. -/
theorem freshFrom_spec (taken : List Name) (fuel i : Nat) :
    i ≤ freshFrom taken fuel i ∧
      (∀ j, i ≤ j → j < freshFrom taken fuel i → binderName j ∈ taken) ∧
      (binderName (freshFrom taken fuel i) ∈ taken → freshFrom taken fuel i = i + fuel) := by
  induction fuel generalizing i with
  | zero => exact ⟨Nat.le_refl i, fun j hij hji => absurd hji (Nat.not_lt.mpr hij), fun _ => rfl⟩
  | succ fuel ih =>
      rw [freshFrom]
      split
      · rename_i htaken
        obtain ⟨hle, hbelow, hlast⟩ := ih (i + 1)
        refine ⟨by omega, fun j hij hji => ?_, fun h => by rw [hlast h]; omega⟩
        rcases Nat.eq_or_lt_of_le hij with rfl | hlt
        · exact htaken
        · exact hbelow j hlt hji
      · rename_i hfree
        exact ⟨Nat.le_refl i, fun j hij hji => absurd hji (Nat.not_lt.mpr hij),
          fun h => absurd h hfree⟩

/-- As many tries as there are taken names are enough. -/
theorem isLeast_freshFrom (taken : List Name) (i : Nat) :
    IsLeast {j | i ≤ j ∧ binderName j ∉ taken} (freshFrom taken taken.length i) := by
  obtain ⟨hle, hbelow, hlast⟩ := freshFrom_spec taken taken.length i
  refine ⟨⟨hle, fun hmem => ?_⟩, fun j hj => ?_⟩
  · -- the tries have come to an end, so the free number is the last one or lies before it
    obtain ⟨n, hin, hn, hfree⟩ := exists_binderName_notMem taken i
    rw [← hlast hmem] at hn
    rcases Nat.eq_or_lt_of_le hn with rfl | hlt
    · exact hfree hmem
    · exact hfree (hbelow n hin hlt)
  · exact Nat.not_lt.mp fun hlt => hj.2 (hbelow j hj.1 hlt)

theorem freshFrom_le (taken : List Name) (i : Nat) :
    freshFrom taken taken.length i ≤ i + taken.length := by
  obtain ⟨n, hin, hn, hfree⟩ := exists_binderName_notMem taken i
  exact Nat.le_trans ((isLeast_freshFrom taken i).2 ⟨hin, hfree⟩) hn

/-- A fresh name is neither that of an enclosing binder nor to be avoided. -/
theorem freshName_not_mem (binders : Stack HolVar) (avoid : List Name) :
    freshName binders avoid ∉ binders.items.map Var.name ++ avoid :=
  (isLeast_freshFrom (binders.items.map Var.name ++ avoid) binders.size).1.2

theorem notMem_map_name_append_iff {binders : Stack HolVar} {avoid : List Name} {name : Name} :
    name ∉ binders.items.map Var.name ++ avoid ↔
      (∀ x ∈ binders.items, x.name ≠ name) ∧ name ∉ avoid := by
  rw [List.mem_append, not_or, List.mem_map]
  simp only [not_exists, not_and, ne_eq]

/-! ## The search without a bound -/

/-- One try: from a number whose name is taken the search goes on to the next one, and at a number
whose name is free it stops. -/
def nextTry (taken : List Name) (i : Nat) : Option Nat :=
  if binderName i ∈ taken then some (i + 1) else none

/-- The number at which the search from `i` on stops.  It has no value if the search goes on
forever. -/
def firstFree (taken : List Name) (i : Nat) : Part Nat :=
  StateTransition.eval (nextTry taken) i

theorem succ_mem_nextTry {taken : List Name} {i : Nat} (h : binderName i ∈ taken) :
    i + 1 ∈ nextTry taken i := by
  rw [nextTry, if_pos h]
  rfl

theorem nextTry_eq_none {taken : List Name} {i : Nat} (h : binderName i ∉ taken) :
    nextTry taken i = none := by
  rw [nextTry, if_neg h]

/-- The search passes over taken names. -/
theorem reaches_of_forall_mem {taken : List Name} {i n : Nat} (hle : i ≤ n)
    (h : ∀ j, i ≤ j → j < n → binderName j ∈ taken) :
    StateTransition.Reaches (nextTry taken) i n := by
  induction n, hle using Nat.le_induction with
  | base => exact .refl
  | succ n hin ih =>
      have hreaches := ih fun j hij hjn => h j hij (Nat.lt_succ_of_lt hjn)
      exact hreaches.tail (succ_mem_nextTry (h n hin (Nat.lt_succ_self n)))

/-- The search stops at the least free number if there is one. -/
theorem firstFree_eq_some {taken : List Name} {i n : Nat}
    (h : IsLeast {j | i ≤ j ∧ binderName j ∉ taken} n) : firstFree taken i = Part.some n := by
  obtain ⟨⟨hle, hfree⟩, hleast⟩ := h
  have hreaches : StateTransition.Reaches (nextTry taken) i n := by
    refine reaches_of_forall_mem hle fun j hij hjn => ?_
    by_contra hnot
    exact absurd (hleast ⟨hij, hnot⟩) (Nat.not_le.mpr hjn)
  exact Part.eq_some_iff.mpr (StateTransition.mem_eval.mpr ⟨hreaches, nextTry_eq_none hfree⟩)

/-- **Fresh names are found, and they are fresh.**  Whatever the binders and the names to avoid are,
the search from the number of binders on stops, and it fails at most as often as there are such
names.  The fresh name is `x` followed by the number found, which is the least one whose name is
neither that of a binder nor to be avoided. -/
theorem freshName_found (binders : Stack HolVar) (avoid : List Name) :
    (∀ x ∈ binders.items, x.name ≠ freshName binders avoid) ∧
    freshName binders avoid ∉ avoid ∧
    ∃ n, firstFree (binders.items.map Var.name ++ avoid) binders.size = Part.some n ∧
      freshName binders avoid = "x" ++ toString n ∧
      IsLeast {i | binders.size ≤ i ∧ (∀ x ∈ binders.items, x.name ≠ "x" ++ toString i) ∧
        "x" ++ toString i ∉ avoid} n ∧
      n ≤ binders.size + (binders.size + avoid.length) := by
  obtain ⟨hbinders, havoid⟩ := notMem_map_name_append_iff.mp (freshName_not_mem binders avoid)
  let taken := binders.items.map Var.name ++ avoid
  have hleast := isLeast_freshFrom taken binders.size
  have hlength : taken.length = binders.size + avoid.length := by
    rw [List.length_append, List.length_map, Stack.size]
  refine ⟨hbinders, havoid, freshFrom taken taken.length binders.size, firstFree_eq_some hleast,
    rfl, ?_, ?_⟩
  · simp only [taken, notMem_map_name_append_iff] at hleast
    exact hleast
  · rw [← hlength]
    exact freshFrom_le taken binders.size

/-- Below a binder of the name `x1`, and with `x2` to be avoided, the search fails twice. -/
example : freshName ⟨[⟨(), "x1", .bool⟩]⟩ ["x2"] = "x3" := by decide

end HolSearch
