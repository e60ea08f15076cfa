import HolSearch.Syntax.Term

/-!
# Sequents

A sequent has premises and a conclusion.  Its premises are kept in the order in which they were
given and without repetition.  Two sequents mean the same if their conclusions are equal and they
have the same premises in any order: that is `Sequent.Equiv`, written `s ≈ t`.

A sequent can be a key of a hash table.  Its hash reads the premises in an order that must not
matter, so it takes in only the digests of the single premises, combined by exclusive or.
-/

namespace HolSearch

/-- A way to compute hashes: a single element has a digest, and the state of a hash takes in numbers
and elements one after the other. -/
structure Hasher (α σ : Type) where
  digest : α → UInt64
  number : UInt64 → σ → σ
  element : α → σ → σ

/-- Premises, none of them repeated, and a conclusion. -/
@[ext]
structure Sequent (α : Type) where
  premises : List α
  conclusion : α
  nodup : premises.Nodup
deriving DecidableEq

namespace Sequent

variable {α β ε σ : Type}

/-- The sequent with the given premises, where later repetitions are dropped. -/
def ofList [DecidableEq α] (premises : List α) (conclusion : α) : Sequent α where
  premises := distinct premises
  conclusion := conclusion
  nodup := nodup_distinct premises

/-- Whether every premise of `s` is a premise of `t`. -/
def Within (s t : Sequent α) : Prop := ∀ p ∈ s.premises, p ∈ t.premises

instance [DecidableEq α] (s t : Sequent α) : Decidable (s.Within t) :=
  inferInstanceAs (Decidable (∀ p ∈ s.premises, p ∈ t.premises))

/-- Equal conclusions, as many premises, and every premise of `s` among those of `t`. -/
def Equiv (s t : Sequent α) : Prop :=
  s.conclusion = t.conclusion ∧ s.premises.length = t.premises.length ∧ s.Within t

instance : HasEquiv (Sequent α) := ⟨Equiv⟩

instance [DecidableEq α] (s t : Sequent α) : Decidable (s ≈ t) :=
  inferInstanceAs (Decidable
    (s.conclusion = t.conclusion ∧ s.premises.length = t.premises.length ∧ s.Within t))

/-- The state of a hash after it has taken in the sequent. -/
def hashInto (h : Hasher α σ) (s : Sequent α) (state : σ) : σ :=
  let premises := s.premises.foldl (fun acc p => acc ^^^ h.digest p) 0
  h.element s.conclusion (h.number premises state)

/-- Apply `f` to all premises and the conclusion; premises that become equal are merged. -/
def map [DecidableEq β] (f : α → β) (s : Sequent α) : Sequent β :=
  ofList (s.premises.map f) (f s.conclusion)

/-- As `map`, for an `f` that may fail; the conclusion comes last. -/
def tryMap [DecidableEq β] (f : α → Except ε β) (s : Sequent α) : Except ε (Sequent β) := do
  let premises ← s.premises.mapM f
  return ofList premises (← f s.conclusion)

/-- The premises and then the conclusion. -/
def members (s : Sequent α) : List α := s.premises ++ [s.conclusion]

@[simp] theorem ofList_premises [DecidableEq α] (premises : List α) (conclusion : α) :
    (ofList premises conclusion).premises = distinct premises := rfl

@[simp] theorem ofList_conclusion [DecidableEq α] (premises : List α) (conclusion : α) :
    (ofList premises conclusion).conclusion = conclusion := rfl

end Sequent

/-- A sequent that is to be proved. -/
abbrev Conjecture := Sequent HolTerm

/-- A sequent with metavariables. -/
abbrev Schema := Sequent MetaTerm

end HolSearch
