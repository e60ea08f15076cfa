/-!
# Choices computed on demand

A backtracking search tries one alternative after the other and mostly stops early, while the
number of alternatives may grow like a factorial.  `Choices` lists alternatives so that each is
computed only when the ones before it have been rejected.  Every operation has a lemma that relates
it to the same operation on lists, so statements speak of `toList` and the order of evaluation
changes nothing.
-/

namespace HolSearch

/-- A finite sequence whose elements are computed one at a time. -/
inductive Choices (α : Type) where
  | nil
  | cons (first : α) (rest : Unit → Choices α)

namespace Choices

variable {α : Type}

/-- All alternatives, in order. -/
def toList : Choices α → List α
  | nil => []
  | cons a rest => a :: toList (rest ())

@[simp] theorem toList_nil : (nil : Choices α).toList = [] := rfl

@[simp] theorem toList_cons (a : α) (rest : Unit → Choices α) :
    (cons a rest).toList = a :: (rest ()).toList := rfl

/-- The first alternative. -/
def head? : Choices α → Option α
  | nil => none
  | cons a _ => some a

theorem head?_eq (c : Choices α) : c.head? = c.toList.head? := by
  cases c <;> rfl

end Choices

end HolSearch
