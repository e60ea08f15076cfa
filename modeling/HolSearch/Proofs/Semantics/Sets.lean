import Mathlib.SetTheory.ZFC.Basic

/-!
# Sets as types

Types of higher-order logic stand for nonempty sets.  Here is what they are made from: the set of
all functions between two sets, with the graph of a function and the value of a graph at an
argument, and the set of the two truth values.
-/

namespace HolSearch.Sets

universe u

noncomputable section

variable {A B f x : ZFSet.{u}}

/-! ## Functions -/

/-- The graph of `f` on `A`. -/
def graph (A : ZFSet.{u}) (f : ZFSet.{u} → ZFSet.{u}) : ZFSet.{u} :=
  @ZFSet.map f (Classical.allZFSetDefinable _) A

/-- The value at `x` of the function whose graph is `f`. -/
def apply (f x : ZFSet.{u}) : ZFSet.{u} :=
  Classical.epsilon fun y => ZFSet.pair x y ∈ f

theorem mem_graph {g : ZFSet → ZFSet} {z : ZFSet} :
    z ∈ graph A g ↔ ∃ a ∈ A, ZFSet.pair a (g a) = z :=
  @ZFSet.mem_map g (Classical.allZFSetDefinable _) A z

theorem graph_congr {g h : ZFSet → ZFSet} (hgh : ∀ a ∈ A, g a = h a) : graph A g = graph A h := by
  ext z
  rw [mem_graph, mem_graph]
  refine exists_congr fun a => and_congr_right fun ha => ?_
  rw [hgh a ha]

theorem graph_mem_funs {g : ZFSet → ZFSet} (hg : ∀ a ∈ A, g a ∈ B) : graph A g ∈ ZFSet.funs A B :=
  ZFSet.mem_funs.mpr ((@ZFSet.map_isFunc g (Classical.allZFSetDefinable _) A B).mpr hg)

theorem apply_graph {g : ZFSet → ZFSet} (hx : x ∈ A) : apply (graph A g) x = g x := by
  have hvalue : ∃ y, ZFSet.pair x y ∈ graph A g := ⟨g x, mem_graph.mpr ⟨x, hx, rfl⟩⟩
  obtain ⟨a, _, hpair⟩ := mem_graph.mp (Classical.epsilon_spec hvalue)
  obtain ⟨rfl, hy⟩ := ZFSet.pair_inj.mp hpair
  exact hy.symm

theorem apply_mem (hf : f ∈ ZFSet.funs A B) (hx : x ∈ A) : apply f x ∈ B := by
  obtain ⟨hsub, hvalue⟩ := ZFSet.mem_funs.mp hf
  have hpair := Classical.epsilon_spec (hvalue x hx).exists
  exact (ZFSet.pair_mem_prod.mp (hsub hpair)).2

/-! ## Truth values -/

/-- The truth value of a proposition. -/
def truth (p : Prop) : ZFSet.{u} := open Classical in if p then {∅} else ∅

/-- The set of the two truth values. -/
def truthValues : ZFSet.{u} := {truth False, truth True}

theorem truth_mem (p : Prop) : truth p ∈ truthValues.{u} := by
  unfold truthValues
  by_cases hp : p <;> simp [hp]

theorem truth_inj {p q : Prop} : truth.{u} p = truth q ↔ (p ↔ q) := by
  have hne : ({∅} : ZFSet.{u}) ≠ ∅ := by
    intro h
    have hnonempty := ZFSet.singleton_nonempty (∅ : ZFSet.{u})
    rw [h] at hnonempty
    exact ZFSet.not_nonempty_empty hnonempty
  by_cases hp : p <;> by_cases hq : q <;> simp [truth, hp, hq, hne, hne.symm]

theorem truth_eq_true {p : Prop} : truth.{u} p = truth True ↔ p := by
  simp [truth_inj]

theorem eq_truth_of_mem (hx : x ∈ truthValues) : x = truth (x = truth True) := by
  rcases ZFSet.mem_pair.mp hx with rfl | rfl
  · simp [truth_inj]
  · simp

/-- The function that compares two elements of `A`. -/
def equality (A : ZFSet.{u}) : ZFSet.{u} := graph A fun x => graph A fun y => truth (x = y)

theorem apply_equality {y : ZFSet} (hx : x ∈ A) (hy : y ∈ A) :
    apply (apply (equality A) x) y = truth (x = y) := by
  rw [equality, apply_graph hx, apply_graph hy]

theorem equality_mem_funs : equality A ∈ ZFSet.funs A (ZFSet.funs A truthValues) :=
  graph_mem_funs fun _ _ => graph_mem_funs fun _ _ => truth_mem _

end

end HolSearch.Sets

namespace HolSearch

universe u

abbrev NonemptySet : Type (u + 1) := { A : ZFSet.{u} // A.Nonempty }

namespace NonemptySet

noncomputable section

def some (A : NonemptySet.{u}) : ZFSet.{u} := A.2.choose

theorem some_mem (A : NonemptySet.{u}) : A.some ∈ A.1 := A.2.choose_spec

/-- `x` if it is in the set, and some element of the set otherwise. -/
def clamp (A : NonemptySet.{u}) (x : ZFSet.{u}) : ZFSet.{u} :=
  open Classical in if x ∈ A.1 then x else A.some

theorem clamp_mem (A : NonemptySet.{u}) (x : ZFSet.{u}) : A.clamp x ∈ A.1 := by
  unfold clamp
  split
  · assumption
  · exact A.some_mem

theorem clamp_of_mem {A : NonemptySet.{u}} {x : ZFSet.{u}} (hx : x ∈ A.1) : A.clamp x = x :=
  if_pos hx

/-- The set of all functions from `A` to `B`. -/
def fn (A B : NonemptySet.{u}) : NonemptySet.{u} :=
  ⟨ZFSet.funs A.1 B.1, _, Sets.graph_mem_funs fun _ _ => B.some_mem⟩

def bool : NonemptySet.{u} := ⟨Sets.truthValues, _, Sets.truth_mem True⟩

def unit : NonemptySet.{u} := ⟨{∅}, ZFSet.singleton_nonempty ∅⟩

instance : Inhabited NonemptySet.{u} := ⟨unit⟩

end

end NonemptySet

end HolSearch
