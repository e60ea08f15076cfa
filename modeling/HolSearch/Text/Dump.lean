import HolSearch.Syntax.Subst
import HolSearch.Text.Display
import HolSearch.Text.Quoted

/-!
# The constructor text of values

Error reports show a value in full, constructor by constructor and with every type: a constructor
is followed by its arguments in parentheses, a record lists its fields in braces.
-/

namespace HolSearch

/-- Values with a text that shows their whole structure. -/
class Dump (α : Type) where
  dump : α → String

export Dump (dump)

/-- A constructor applied to arguments. -/
def dumpCall (name : String) (args : List String) : String :=
  name ++ "(" ++ ", ".intercalate args ++ ")"

/-- A record with named fields. -/
def dumpRecord (name : String) (fields : List (String × String)) : String :=
  name ++ " \x7b " ++ ", ".intercalate (fields.map fun f => f.1 ++ ": " ++ f.2) ++ " \x7d"

/-- The values of a list in brackets. -/
def dumpList (items : List String) : String :=
  "[" ++ ", ".intercalate items ++ "]"

/-- The entries of a table in braces. -/
def dumpTable (entries : List (String × String)) : String :=
  "\x7b" ++ ", ".intercalate (entries.map fun e => e.1 ++ ": " ++ e.2) ++ "\x7d"

instance : Dump Name := ⟨fun name => dumpCall "Symbol" [quoted name]⟩

/-- Marks are shown by a constructor around the variable that bears them. -/
class DumpMark (μ : Type) where
  wrap : μ → String → String

instance : DumpMark Unit := ⟨fun _ inner => inner⟩

instance : DumpMark Mark where
  wrap
    | .plain, inner => dumpCall "Plain" [inner]
    | .fixed, inner => dumpCall "Fixed" [inner]
    | .unfixed, inner => dumpCall "Unfixed" [inner]

variable {μ : Type} [DumpMark μ]

instance : Dump (TyVar μ) := ⟨fun v => DumpMark.wrap v.mark (dump v.name)⟩

mutual

def Ty.dumpText : Ty μ → String
  | .app name args => dumpCall "App" [dump name, dumpList (Ty.dumpTexts args)]
  | .var v => dumpCall "Var" [dump v]

def Ty.dumpTexts : List (Ty μ) → List String
  | [] => []
  | ty :: tys => ty.dumpText :: Ty.dumpTexts tys

end

instance : Dump (Ty μ) := ⟨Ty.dumpText⟩

instance : Dump (Var μ) where
  dump v := DumpMark.wrap v.mark (dumpRecord "Free" [("name", dump v.name), ("ty", dump v.ty)])

def Term.dumpText : Term μ → String
  | .abs ty body => dumpCall "Abs" [dump ty, body.dumpText]
  | .app f x => dumpCall "App" [f.dumpText, x.dumpText]
  | .const name ty => dumpCall "Const" [dump name, dump ty]
  | .var v => dumpCall "Var" [dump v]
  | .bound i ty => dumpCall "Bound" [display i, dump ty]

instance : Dump (Term μ) := ⟨Term.dumpText⟩

instance {α : Type} [Dump α] : Dump (Sequent α) where
  dump s := dumpRecord "Sequent"
    [("premises", dumpList (s.premises.map dump)), ("conclusion", dump s.conclusion)]

instance {κ : Type} [Dump κ] : Dump (Subst κ μ) where
  dump s := dumpRecord "Subst"
    [("terms", dumpTable (s.terms.entries.map fun e => (dump e.1, dump e.2))),
      ("types", dumpTable (s.types.entries.map fun e => (dump e.1, dump e.2)))]

end HolSearch
