import HolSearch.Text.Display

/-!
# Theorems

A theorem is a sequent that was derived.  Theorems are made by the rules and definitions of the
kernel and nowhere else.
-/

namespace HolSearch

/-- A sequent that the kernel has derived. -/
structure Theorem where
  sequent : Conjecture
deriving DecidableEq

namespace Theorem

/-- The theorem with the given premises, where later repetitions are dropped. -/
def ofList (premises : List HolTerm) (conclusion : HolTerm) : Theorem :=
  ⟨.ofList premises conclusion⟩

def premises (thm : Theorem) : List HolTerm := thm.sequent.premises

def conclusion (thm : Theorem) : HolTerm := thm.sequent.conclusion

/-- Two theorems say the same if their sequents do. -/
instance : HasEquiv Theorem := ⟨fun s t => s.sequent ≈ t.sequent⟩

instance (s t : Theorem) : Decidable (s ≈ t) :=
  inferInstanceAs (Decidable (s.sequent ≈ t.sequent))

instance : Display Theorem := ⟨fun thm => display thm.sequent⟩

@[simp] theorem ofList_premises (premises : List HolTerm) (conclusion : HolTerm) :
    (ofList premises conclusion).premises = distinct premises := rfl

@[simp] theorem ofList_conclusion (premises : List HolTerm) (conclusion : HolTerm) :
    (ofList premises conclusion).conclusion = conclusion := rfl

end Theorem

end HolSearch
