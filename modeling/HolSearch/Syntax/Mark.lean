import HolSearch.Syntax.Name

/-!
# Marks

Types and terms are the same trees at two levels.  At the object level a variable is just a
variable.  At the schematic level every variable carries a mark: it is *plain* (it stands for
itself), *fixed* (it stands for a value assigned earlier) or *unfixed* (it stands for a value that
matching will assign).

Matching has a pattern and a target, and reads an unmarked variable differently on the two sides:
in a pattern it may be instantiated, in a target it stands for itself.
-/

namespace HolSearch

/-- What a schematic variable stands for. -/
inductive Mark where
  /-- stands for itself -/
  | plain
  /-- stands for the value already assigned to it -/
  | fixed
  /-- stands for a value to be assigned by matching -/
  | unfixed
deriving DecidableEq

namespace Mark

/-- The mark of a variable whose value is known from now on. -/
def fix : Mark → Mark
  | unfixed => fixed
  | m => m

/-- Whether the variable stands for something other than itself. -/
def isMeta (m : Mark) : Bool := m ≠ plain

/-- The mark of a metavariable whose name is, or is not, among the fixed ones. -/
def ofFixed (isFixed : Bool) : Mark :=
  if isFixed then fixed else unfixed

@[simp] theorem fix_fix (m : Mark) : m.fix.fix = m.fix := by
  cases m <;> rfl

end Mark

/-- How the variables of a kind of tree are read by matching. -/
class Marking (μ : Type) where
  /-- the reading of a variable in a pattern -/
  asPattern : μ → Mark
  /-- the reading of a variable in a target -/
  asTarget : μ → Mark

/-- Object-level variables are instantiable in patterns and stand for themselves in targets. -/
instance : Marking Unit where
  asPattern _ := .unfixed
  asTarget _ := .plain

/-- Schematic variables are read as they are marked. -/
instance : Marking Mark where
  asPattern m := m
  asTarget m := m

end HolSearch
