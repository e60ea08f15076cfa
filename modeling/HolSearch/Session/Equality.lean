import HolSearch.Session.Basic

/-!
# Sessions about equality

Five sessions that derive laws of equality.  They start from four strategies that apply one rule
each: assumption, reflexivity, congruence and modus ponens.

* `symmetry` and `transitivity` prove the laws for propositions by two steps each.
* `chain` proves transitivity as a lemma, adds a strategy that uses it, and proves an instance from
  the equations in scope.
* `elimination` and `commutativity` prove that the identity on propositions equals a constant that
  is defined as it, by strategies that discharge a premise and that turn an equation around.
-/

namespace HolSearch

open ProofM

namespace Session

/-- A variable for a proposition. -/
def prop (name : Name) : HolTerm := freeVar name .bool

/-- A sequent without premises. -/
def fact (tm : HolTerm) : Conjecture := .ofList [] tm

/-- Equality of propositions. -/
def iff (l r : HolTerm) : HolTerm := .equation .bool l r

/-! ## Strategies for single rules -/

/-- Proves `p ⊢ p`. -/
def assumption : Strategy :=
  .ofScript "Assume" (.ofList [prop "p"] (prop "p")) [.assume (prop "p")]

/-- Proves `⊢ x = x`. -/
def reflexivity : Strategy :=
  let a := tyVar "a"
  let x := freeVar "x" a
  .ofScript "Reflexivity" (fact (.equation a x x)) [.refl x]

/-- Proves `⊢ f x = g y` by `⊢ f = g` and `⊢ x = y`. -/
def congruence : Strategy :=
  let a := tyVar "a"
  let b := tyVar "b"
  let f := freeVar "f" (.fn a b)
  let g := freeVar "g" (.fn a b)
  let x := freeVar "x" a
  let y := freeVar "y" a
  .ofScript "Congruence" (fact (.equation b (.app f x) (.app g y)))
    [.cong (fact (.equation (.fn a b) f g)) (fact (.equation a x y))]

/-- Proves `⊢ p` by a known `⊢ q = p` and by `⊢ q`. -/
def modusPonens : Strategy :=
  let p := prop "p"
  let q := prop "q"
  .ofScript "EqModusPonens" (fact p)
    [.proveLocal (fact (iff q p)), .eqMp (fact (iff q p)) (fact q)]

/-- Add the strategies for single rules. -/
def prepareRules : ProofM WorkspaceError Unit := do
  addStrategy assumption .global
  addStrategy reflexivity .global
  addStrategy congruence .global
  addStrategy modusPonens .global

/-! ## Symmetry and transitivity -/

/-- The goal `p = q ⊢ q = p` at a type. -/
def symmetricGoal (ty : HolType) : Conjecture :=
  let p := freeVar "p" ty
  let q := freeVar "q" ty
  .ofList [.equation ty p q] (.equation ty q p)

/-- By congruence, `p = q` turns `p = p` into `q = p`. -/
def symmetricSteps (ty : HolType) : List Step :=
  let p := freeVar "p" ty
  let q := freeVar "q" ty
  [.prove (.ofList [.equation ty p q] (iff (.equation ty p p) (.equation ty q p))),
    .prove (symmetricGoal ty)]

def symmetry : Session where
  name := "symmetry"
  goal := symmetricGoal .bool
  steps := symmetricSteps .bool
  prepare _ := prepareRules

/-- The goal `p = q, q = r ⊢ p = r`. -/
def transitiveGoal : Conjecture :=
  .ofList [iff (prop "p") (prop "q"), iff (prop "q") (prop "r")] (iff (prop "p") (prop "r"))

/-- By congruence, `q = r` turns `p = q` into `p = r`. -/
def transitiveSteps : List Step :=
  [.prove (.ofList [iff (prop "q") (prop "r")]
      (iff (iff (prop "p") (prop "q")) (iff (prop "p") (prop "r")))),
    .prove transitiveGoal]

def transitivity : Session where
  name := "transitivity"
  goal := transitiveGoal
  steps := transitiveSteps
  prepare _ := prepareRules

/-! ## Transitivity as a strategy -/

/-- Proves `⊢ p = r` by known `⊢ p = q` and `⊢ q = r`, and by the law of transitivity. -/
def transitive : Strategy :=
  let p := prop "p"
  let q := prop "q"
  let r := prop "r"
  .ofScript "Transitivity" (fact (iff p r))
    [.proveLocal (fact (iff p q)), .proveLocal (fact (iff q r)),
      .prove transitiveGoal, .prove (fact (iff p r))]

/-- Prove transitivity and add the strategy that uses it. -/
def prepareChain (prover : Prover) : ProofM WorkspaceError Unit := do
  prepareRules
  let thm ← prover.proveBlock transitiveGoal transitiveSteps
  addTheorem "trans" thm .global
  addStrategy transitive .global

def chain : Session :=
  let ab := iff (prop "a") (prop "b")
  let bc := iff (prop "b") (prop "c")
  let goal : Conjecture := .ofList [ab, bc] (iff (prop "a") (prop "c"))
  { name := "chain"
    goal := goal
    steps := [.prove (.ofList [ab] ab), .prove (.ofList [bc] bc), .prove goal]
    prepare := prepareChain }

/-! ## A constant for the identity -/

/-- The identity on propositions. -/
def identity : HolTerm := .mkAbs ⟨(), "x", .bool⟩ (prop "x")

/-- The constant that is defined as the identity. -/
def identityConst : HolTerm := .const "c" (.fn .bool .bool)

/-- Equality of functions on propositions. -/
def sameOnProps (l r : HolTerm) : HolTerm := .equation (.fn .bool .bool) l r

/-- Prove symmetry at all types and define the constant. -/
def prepareIdentity (prover : Prover) : ProofM WorkspaceError Unit := do
  prepareRules
  let thm ← prover.proveBlock (symmetricGoal (tyVar "a")) (symmetricSteps (tyVar "a"))
  addTheorem "sym" thm .global
  discard <| define "c" identity

/-- Proves `⊢ p` by known `q ⊢ p` and `⊢ q`. -/
def discharge : Strategy :=
  let p := prop "p"
  let q := prop "q"
  .ofScript "Elimination" (fact p)
    [.proveLocal (.ofList [q] p), .proveLocal (fact q),
      .antisym (fact q) (.ofList [q] p), .eqMp (fact (iff q p)) (fact q)]

def elimination : Session where
  name := "elimination"
  goal := fact (sameOnProps identity identityConst)
  steps :=
    [.prove (.ofList [sameOnProps identityConst identity] (sameOnProps identity identityConst)),
      .prove (fact (sameOnProps identity identityConst))]
  prepare prover := do
    prepareIdentity prover
    addStrategy discharge .global

/-- Proves `⊢ p = q` by `⊢ q = p`. -/
def turnAround : Strategy :=
  let a := tyVar "a"
  let p := freeVar "p" a
  let q := freeVar "q" a
  let pq := .equation a p q
  let qp := .equation a q p
  .ofScript "Commutativity" (fact pq)
    [.prove (fact qp), .prove (.ofList [qp] pq),
      .antisym (fact qp) (.ofList [qp] pq), .eqMp (fact (iff qp pq)) (fact qp)]

def commutativity : Session where
  name := "commutativity"
  goal := fact (sameOnProps identity identityConst)
  steps := [.prove (fact (sameOnProps identity identityConst))]
  prepare prover := do
    prepareIdentity prover
    addStrategy turnAround .global

/-- All sessions in the order in which they are replayed. -/
def all : List Session := [symmetry, transitivity, chain, elimination, commutativity]

end Session

end HolSearch
