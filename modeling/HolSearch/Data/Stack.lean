/-!
# Stacks

Binders around a subterm, scopes of a workspace, goals in progress and the theorems that a running
strategy has produced are all visited from the newest one.
-/

namespace HolSearch

/-- A sequence whose elements are listed from the most recently pushed one. -/
structure Stack (α : Type) where
  items : List α := []
deriving DecidableEq

namespace Stack

variable {α β : Type}

/-- The stack without elements. -/
def empty : Stack α := {}

def push (s : Stack α) (x : α) : Stack α := ⟨x :: s.items⟩

/-- The newest element, if there is one, and what lies below it. -/
def pop (s : Stack α) : Option α × Stack α :=
  (s.items.head?, ⟨s.items.tail⟩)

/-- The stack below its newest element. -/
def drop (s : Stack α) : Stack α := ⟨s.items.tail⟩

/-- The element pushed `n` pushes before the newest one. -/
def get? (s : Stack α) (n : Nat) : Option α := s.items[n]?

def size (s : Stack α) : Nat := s.items.length

def isEmpty (s : Stack α) : Bool := s.items.isEmpty

/-- The stack with its newest element changed by `f`; without elements it stays as it is. -/
def modifyTop (s : Stack α) (f : α → α) : Stack α :=
  match s.items with
  | [] => s
  | x :: rest => ⟨f x :: rest⟩

/-- Run `f` with `x` on top, and drop one element of the stack that `f` leaves. -/
def withPushed (s : Stack α) (x : α) (f : Stack α → β × Stack α) : β × Stack α :=
  let (y, s') := f (s.push x)
  (y, s'.drop)

@[simp] theorem drop_push (s : Stack α) (x : α) : (s.push x).drop = s := rfl

@[simp] theorem pop_push (s : Stack α) (x : α) : (s.push x).pop = (some x, s) := rfl

@[simp] theorem get?_push_zero (s : Stack α) (x : α) : (s.push x).get? 0 = some x := rfl

@[simp] theorem get?_push_succ (s : Stack α) (x : α) (n : Nat) :
    (s.push x).get? (n + 1) = s.get? n := rfl

theorem items_eq_of_get?_zero {s : Stack α} {x : α} (h : s.get? 0 = some x) :
    s.items = x :: s.drop.items := by
  obtain ⟨items⟩ := s
  cases items with
  | nil => cases h
  | cons y rest =>
      cases h
      rfl

@[simp] theorem size_push (s : Stack α) (x : α) : (s.push x).size = s.size + 1 := rfl

/-- A body that leaves the stack as it found it is run without a trace. -/
theorem withPushed_of_neutral (s : Stack α) (x : α) (f : Stack α → β × Stack α)
    (h : (f (s.push x)).2 = s.push x) : s.withPushed x f = ((f (s.push x)).1, s) := by
  simp [withPushed, h]

end Stack

end HolSearch
