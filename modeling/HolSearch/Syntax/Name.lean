import HolSearch.Data.Distinct

/-!
# Names

Constants, type constructors, variables, strategies and theorems are known by names.  Names are
compared by their characters and ordered by code point.
-/

namespace HolSearch

/-- The name of a constant, a type constructor, a variable, a strategy or a theorem. -/
abbrev Name := String

namespace Name

/-- The distinct names in the order of their code points. -/
def sorted (names : List Name) : List Name :=
  (distinct names).mergeSort fun a b => !decide (b < a)

/-- The name filled up with blanks on the left to at least `width` characters. -/
def alignRight (width : Nat) (name : Name) : String :=
  "".pushn ' ' (width - name.length) ++ name

/-- The name filled up with blanks on the right to at least `width` characters. -/
def alignLeft (width : Nat) (name : Name) : String :=
  name.pushn ' ' (width - name.length)

end Name

end HolSearch
