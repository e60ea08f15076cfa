import HolSearch.Proofs.Search.State
import HolSearch.Session.Equality

/-!
# Searches return only derivable theorems

Strategies, goals and the terms in them are raw: nothing about them is checked before a search.
What a search returns is nevertheless derivable from the visible theorems, and it proves the goal.

The argument follows the search.  The instructions of a strategy derive theorems from derivable
ones, and what ends a run is an instance of one of them that was found to prove the goal:
`yields_step`, by induction on the instructions, for a prover that is sound.  Searches and runs ask
a prover of less fuel, so all provers are sound by induction on the fuel: `sound_ofFuel`.  A proof
block adds theorems to its scope, but only derivable ones.
-/

namespace HolSearch

open ProofM

/-- What the prover returns for a goal is derivable and proves the goal. -/
structure Prover.Sound (prover : Prover) : Prop where
  prove : ∀ d ds goal, Yields d ds (prover.prove goal) (d.Establishes goal)
  apply : ∀ d ds strategy goal, Yields d ds (prover.apply strategy goal) (d.Establishes goal)

/-! ## Runs of strategies -/

namespace Run

variable {prover : Prover} {goal : Conjecture} {d : Development} {ds : Stack Theorem}

theorem yields_attempt {ε α : Type} (fault : ε → Fault) (f : Kernel → Except ε α) :
    Yields d ds (do attempt fault (f (← workspace).kernel)) fun _ => True :=
  Yields.workspace.bind fun _ _ => (Yields.attempt _ _).mono fun _ _ => trivial

theorem yields_conjecture (s : Schema) (assigned : MetaSubst) :
    Yields d ds (conjecture goal s assigned) fun _ => True :=
  yields_attempt .schematic fun k => s.instantiate k assigned goal.premises

theorem yields_term (t : MetaTerm) (assigned : MetaSubst) :
    Yields d ds (term t assigned) fun _ => True :=
  yields_attempt .schematic fun k => t.instantiate k assigned

theorem yields_var (v : MetaVar) (assigned : MetaSubst) :
    Yields d ds (var v assigned) fun _ => True :=
  yields_attempt .schematic fun k => v.instantiate k assigned

theorem yields_type (ty : MetaType) (assigned : MetaSubst) :
    Yields d ds (type ty assigned) fun _ => True :=
  yields_attempt .schematic fun k => ty.instantiate k assigned

theorem yields_infer {i : Inference} (hoperands : ∀ operand ∈ i.operands, d.Derives operand) :
    Yields d ds (infer i) d.Derives := by
  refine (Yields.record _).bind fun _ _ => Yields.workspace.bind fun ws hws => ?_
  rw [hws.kernel]
  exact (Yields.attempt _ _).mono fun thm hthm => .infer hoperands hthm

theorem yields_operand (hprover : prover.Sound) (hds : ∀ thm ∈ ds.items, d.Derives thm)
    (s : Schema) (assigned : MetaSubst) :
    Yields d ds (operand prover goal s assigned) d.Derives := by
  refine (yields_conjecture s assigned).bind fun conj _ => ?_
  refine Yields.derived.bind fun thms hthms => ?_
  subst hthms
  refine (Yields.firstInstance? conj hds).bind fun found hfound => ?_
  cases found with
  | none => exact (hprover.prove d ds conj).mono fun _ h => h.derives
  | some thm => exact .pure (hfound thm rfl).derives

theorem yields_offer {thm : Theorem} {next : ProofM Stop Theorem} (hthm : d.Derives thm)
    (hnext : Yields d (ds.push thm) next (d.Establishes goal)) :
    Yields d ds (offer goal thm next) (d.Establishes goal) := by
  refine (Yields.instance? goal hthm).bind fun found hfound => ?_
  cases found with
  | none => exact .withDerived hnext
  | some inst => exact .pure (hfound inst rfl)

/-- The instructions of a strategy lead from derivable theorems to one that proves the goal. -/
theorem yields_step (hprover : prover.Sound) (name : Name) (i : Nat)
    (instructions : List (Instruction Mark)) (assigned : MetaSubst)
    (hds : ∀ thm ∈ ds.items, d.Derives thm) :
    Yields d ds (step prover goal name i instructions assigned) (d.Establishes goal) := by
  induction instructions generalizing i assigned ds with
  | nil => exact .throw _
  | cons instruction rest ih =>
      have hoperand : ∀ s, Yields d ds (operand prover goal s assigned) d.Derives :=
        fun s => yields_operand hprover hds s assigned
      have hoffer : ∀ thm, d.Derives thm → Yields d ds
          (offer goal thm (step prover goal name (i + 1) rest assigned)) (d.Establishes goal) :=
        fun thm hthm => yields_offer hthm
          (ih (i + 1) assigned (List.forall_mem_cons.mpr ⟨hthm, hds⟩))
      have hrule : ∀ inference : Inference, (∀ operand ∈ inference.operands, d.Derives operand) →
          Yields d ds (do
            offer goal (← infer inference) (step prover goal name (i + 1) rest assigned))
            (d.Establishes goal) :=
        fun inference hoperands => (yields_infer hoperands).bind hoffer
      unfold step
      refine (Yields.record _).bind fun _ _ => ?_
      cases instruction with
      | prove s =>
          refine (yields_conjecture s assigned).bind fun conj _ => ?_
          refine Yields.derived.bind fun thms hthms => ?_
          subst hthms
          refine (Yields.instances conj hds).bind fun known hknown => ?_
          refine .orElse (.firstOf fun thm hthm => hoffer thm (hknown thm hthm).derives) ?_
          exact (hprover.prove d ds conj).bind fun thm hthm => hoffer thm hthm.derives
      | proveLocal s =>
          refine Yields.derived.bind fun thms _ => Yields.workspace.bind fun ws _ => ?_
          exact .firstOf fun thm _ => .firstChoice (fun assigned => ih (i + 1) assigned hds) _
      | proveBy other s =>
          refine (yields_conjecture s assigned).bind fun conj _ => ?_
          refine Yields.workspace.bind fun ws _ => ?_
          refine (Yields.attempt _ _).bind fun strategy _ => ?_
          exact (hprover.apply d ds strategy conj).bind fun thm hthm => hoffer thm hthm.derives
      | refl t =>
          refine (yields_term t assigned).bind fun t _ => ?_
          exact hrule (.reflexivity t) (List.forall_mem_nil _)
      | cong fg xy =>
          refine (hoperand fg).bind fun fg hfg => (hoperand xy).bind fun xy hxy => ?_
          exact hrule (.congruence fg xy) (by simpa [Inference.operands] using ⟨hfg, hxy⟩)
      | abs v pq =>
          refine (yields_var v assigned).bind fun v _ => (hoperand pq).bind fun pq hpq => ?_
          exact hrule (.abstraction v pq) (by simpa [Inference.operands] using hpq)
      | typeAbs ty pq =>
          refine (yields_type ty assigned).bind fun ty _ => (hoperand pq).bind fun pq hpq => ?_
          exact hrule (.typeAbstraction ty pq) (by simpa [Inference.operands] using hpq)
      | beta v body =>
          refine (yields_var v assigned).bind fun v _ => ?_
          refine (yields_term body assigned).bind fun body _ => ?_
          exact hrule (.betaReduction v body) (List.forall_mem_nil _)
      | assume p =>
          refine (yields_term p assigned).bind fun p _ => ?_
          exact hrule (.assume p) (List.forall_mem_nil _)
      | eqMp major minor =>
          refine (hoperand major).bind fun major hmajor => ?_
          refine (hoperand minor).bind fun minor hminor => ?_
          exact hrule (.modusPonens major minor)
            (by simpa [Inference.operands] using ⟨hmajor, hminor⟩)
      | antisym left right =>
          refine (hoperand left).bind fun left hleft => ?_
          refine (hoperand right).bind fun right hright => ?_
          exact hrule (.antisymmetry left right)
            (by simpa [Inference.operands] using ⟨hleft, hright⟩)

/-- A run of a strategy starts without derived theorems. -/
theorem yields_strategy (hprover : prover.Sound) (s : Strategy) :
    Yields d ds (strategy prover goal s) (d.Establishes goal) := by
  have hstep : ∀ assigned, Yields d ds
      (withoutDerived (step prover goal s.name 0 s.instructions assigned)) (d.Establishes goal) :=
    fun assigned => .withoutDerived (yields_step hprover s.name 0 s.instructions assigned nofun)
  refine (Yields.record _).bind fun _ _ => ?_
  refine (Yields.firstChoice hstep _).bind fun thm hthm => ?_
  exact (Yields.record _).bind fun _ _ => .pure hthm

end Run

/-! ## Searches -/

namespace Prover

variable {prover : Prover} {d : Development} {ds : Stack Theorem}

theorem yields_search (hprover : prover.Sound) (goal : Conjecture) :
    Yields d ds (prover.search goal) (d.Establishes goal) := by
  refine Yields.workspace.bind fun ws hws => ?_
  refine (Yields.firstInstance? goal hws.theorems).bind fun found hfound => ?_
  cases found with
  | some thm => exact .pure (hfound thm rfl)
  | none => exact .firstOf fun strategy _ => hprover.apply d ds strategy goal

theorem yields_pose (hprover : prover.Sound) (goal : Conjecture) :
    Yields d ds (prover.pose goal) (d.Establishes goal) := by
  refine Yields.workspace.bind fun ws _ => ?_
  split
  · exact (Yields.record _).bind fun _ _ => .throw _
  · split
    · exact (Yields.record _).bind fun _ _ => .throw _
    · exact (Yields.record _).bind fun _ _ => .withGoal goal (yields_search hprover goal)

/-- Provers are sound however deep they nest searches and runs. -/
theorem sound_ofFuel (fuel : Nat) : (ofFuel fuel).Sound := by
  induction fuel with
  | zero => exact ⟨fun _ _ _ => .throw _, fun _ _ _ _ => .throw _⟩
  | succ fuel ih =>
      exact ⟨fun _ _ goal => yields_pose ih goal, fun _ _ s _ => Run.yields_strategy ih s⟩

/-! ## Commands -/

theorem yields_tryProve (hprover : prover.Sound) (goal : Conjecture) :
    Yields d ds (prover.tryProve goal) (d.Establishes goal) := by
  refine Yields.workspace.bind fun ws _ => ?_
  split
  · exact .throw _
  · exact (hprover.prove d ds goal).adapt _

theorem yields_proveBy (hprover : prover.Sound) (name : Name) (goal : Conjecture) :
    Yields d ds (prover.proveBy name goal) (d.Establishes goal) := by
  refine Yields.workspace.bind fun ws _ => (Yields.liftM _).bind fun strategy _ => ?_
  exact (hprover.apply d ds strategy goal).adapt _

theorem yields_proveStep (hprover : prover.Sound) (step : Step) :
    Yields d ds (prover.proveStep step) d.Derives := by
  cases step with
  | prove conj => exact (yields_tryProve hprover conj).mono fun _ h => h.derives
  | proveBy name conj => exact (yields_proveBy hprover name conj).mono fun _ h => h.derives

theorem yields_proveSteps (hprover : prover.Sound) (goal : Conjecture) (last : Option Theorem)
    (hlast : ∀ thm ∈ last, d.Derives thm) (steps : List Step) :
    Yields d ds (prover.proveSteps goal last steps) (d.Establishes goal) := by
  induction steps generalizing last with
  | nil =>
      unfold proveSteps
      split
      · rename_i thm hthm
        rw [Option.filter_eq_some_iff, decide_eq_true_eq] at hthm
        obtain ⟨hmem, hconclusion, -, hwithin⟩ := hthm
        exact .pure ⟨hlast thm hmem, hconclusion, hwithin⟩
      · exact yields_tryProve hprover goal
  | cons step rest ih =>
      refine (yields_proveStep hprover step).bind fun thm hthm => ?_
      refine Yields.workspace.bind fun ws hws => ?_
      refine (Yields.setWorkspace (hws.keepTheorem hthm)).bind fun _ _ => ih (some thm) ?_
      simpa using hthm

theorem yields_proveBlock (hprover : prover.Sound) (goal : Conjecture) (steps : List Step) :
    Yields d ds (prover.proveBlock goal steps) (d.Establishes goal) :=
  (Yields.record _).bind fun _ _ => .withScope (yields_proveSteps hprover goal none nofun steps)

/-- **Searches are sound.**  A theorem that a search, a command or a strategy returns is derivable
from the theorems in the scopes of the workspace, it has the conclusion of the goal, and its
premises are premises of the goal. -/
theorem search_sound (fuel : Nat) (s : ProofState) (goal : Conjecture) (thm : Theorem) :
    ((((ofFuel fuel).prove goal).run s).1 = .ok thm →
      s.workspace.development.Establishes goal thm) ∧
    ((((ofFuel fuel).tryProve goal).run s).1 = .ok thm →
      s.workspace.development.Establishes goal thm) ∧
    (∀ name, (((ofFuel fuel).proveBy name goal).run s).1 = .ok thm →
      s.workspace.development.Establishes goal thm) ∧
    (∀ steps, (((ofFuel fuel).proveBlock goal steps).run s).1 = .ok thm →
      s.workspace.development.Establishes goal thm) ∧
    ∀ strategy, (((ofFuel fuel).apply strategy goal).run s).1 = .ok thm →
      s.workspace.development.Establishes goal thm := by
  have hprover := sound_ofFuel fuel
  have hreturns : ∀ {ε : Type} {m : ProofM ε Theorem},
      Yields s.workspace.development s.derived m (s.workspace.development.Establishes goal) →
      (m.run s).1 = .ok thm → s.workspace.development.Establishes goal thm :=
    fun hm hrun => (hm s s.workspace.development_accountsFor rfl).2.2 thm hrun
  exact ⟨hreturns (hprover.prove _ _ goal), hreturns (yields_tryProve hprover goal),
    fun name => hreturns (yields_proveBy hprover name goal),
    fun steps => hreturns (yields_proveBlock hprover goal steps),
    fun strategy => hreturns (hprover.apply _ _ strategy goal)⟩

/-- The lemma `p = q ⊢ (p = p) = (q = p)`. -/
def symmetryLemma : Theorem :=
  let p := Session.prop "p"
  let q := Session.prop "q"
  .ofList [Session.iff p q] (Session.iff (Session.iff p p) (Session.iff q p))

/-- A workspace that holds the lemma and the strategies for single rules. -/
def symmetryState : ProofState :=
  let prepare : ProofM WorkspaceError Unit := do
    Session.prepareRules
    ProofM.addTheorem "lemma" symmetryLemma .global
  (prepare.run {}).2

/-- The goal `p = q, r ⊢ q = p`, of which the search does not need `r`. -/
def symmetryGoal : Conjecture :=
  let p := Session.prop "p"
  let q := Session.prop "q"
  .ofList [Session.iff p q, Session.prop "r"] (Session.iff q p)

theorem search_sound_symmetryGoal :
    let s := symmetryState
    let goal := symmetryGoal
    let thm : Theorem := ⟨Session.symmetricGoal .bool⟩
    (((ofFuel 4).prove goal).run s).1 = .ok thm ∧
      (((ofFuel 4).tryProve goal).run s).1 = .ok thm ∧
      (((ofFuel 4).proveBy "EqModusPonens" goal).run s).1 = .ok thm ∧
      (((ofFuel 4).proveBlock goal [.prove thm.sequent]).run s).1 = .ok thm ∧
      (((ofFuel 4).apply Session.modusPonens goal).run s).1 = .ok thm ∧
      s.workspace.development.Establishes goal thm := by
  intro s goal thm
  obtain ⟨hprove, -⟩ := search_sound 4 s goal thm
  exact ⟨by decide +kernel, by decide +kernel, by decide +kernel, by decide +kernel,
    by decide +kernel, hprove (by decide +kernel)⟩

end Prover

end HolSearch
