import HolSearch.Syntax.Sequent

/-!
# The display of types, terms and sequents

Function types and equations are shown with an infix sign, applications and abstractions in
parentheses.  Types of constants and variables are not shown.  A fixed metavariable is shown with
`!` before its name and an unfixed one with `?`.
-/

namespace HolSearch

/-- Values with a text for the reader. -/
class Display (α : Type) where
  display : α → String

export Display (display)

instance : Display String := ⟨id⟩

instance : Display Nat := ⟨Nat.repr⟩

/-- The sign that stands before the names of variables of a mark. -/
instance : Display Mark where
  display
    | .plain => ""
    | .fixed => "!"
    | .unfixed => "?"

instance : Display Unit := ⟨fun _ => ""⟩

variable {μ : Type} [Display μ]

instance : Display (TyVar μ) := ⟨fun v => display v.mark ++ v.name⟩

instance : Display (Var μ) := ⟨fun v => display v.mark ++ v.name⟩

mutual

/-- The text of a type: `(a -> b)`, `name` or `name<t1, t2>`. -/
def Ty.text : Ty μ → String
  | .var v => display v
  | .app name [] => name
  | .app name [a, b] =>
      if name = Ty.funName then
        "(" ++ a.text ++ " -> " ++ b.text ++ ")"
      else
        name ++ "<" ++ a.text ++ ", " ++ b.text ++ ">"
  | .app name (a :: args) => name ++ "<" ++ a.text ++ Ty.textRest args ++ ">"

/-- The texts of the arguments after the first one, each after a comma. -/
def Ty.textRest : List (Ty μ) → String
  | [] => ""
  | a :: args => ", " ++ a.text ++ Ty.textRest args

end

instance : Display (Ty μ) := ⟨Ty.text⟩

/-- The text of a term. -/
def Term.text : Term μ → String
  | .app (.app (.const name ty) l) r =>
      if name = Term.eqName then
        "(" ++ l.text ++ " = " ++ r.text ++ ")"
      else
        "(" ++ (Term.app (.const name ty) l).text ++ " " ++ r.text ++ ")"
  | .app f x => "(" ++ f.text ++ " " ++ x.text ++ ")"
  | .abs ty body => "(λ " ++ display ty ++ ". " ++ body.text ++ ")"
  | .const name _ => name
  | .var v => display v
  | .bound i _ => "β" ++ display i

instance : Display (Term μ) := ⟨Term.text⟩

instance {α : Type} [Display α] : Display (Sequent α) where
  display s :=
    ", ".intercalate (s.premises.map display) ++ (if s.premises.isEmpty then "" else " ") ++
      "⊢ " ++ display s.conclusion

end HolSearch
