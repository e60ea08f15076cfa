import HolSearch.Proofs.Search.Termination

/-!
# Theorems and strategies that are found by name only

An explicit theorem or strategy is entered in an index and in no scope.  A search never reads the
index of theorems, and it reads the index of strategies only at `proveBy` instructions.  So it
cannot notice an explicit entry that no instruction names, neither by its outcome nor by whether it
ends (`explicit_unnoticed`).

The proof compares the searches without and with the entry.  `SameApartFrom hidden` holds of two
workspaces that differ at most in what the hidden names refer to, and in which no search gets to
these names: they are called neither by a strategy that is tried unasked nor by one to which another
name refers.  Everything that a search does to its workspace keeps this relation, and the relation
is symmetric.  So of the two searches each one follows the other.
-/

namespace HolSearch

open ProofM

/-- No instruction of the strategy runs a strategy that has one of the names. -/
def Strategy.Avoids (strategy : Strategy) (names : Set Name) : Prop :=
  ∀ name s, .proveBy name s ∈ strategy.instructions → name ∉ names

/-- No step runs a strategy that has one of the names. -/
def Step.Avoids : Step → Set Name → Prop
  | .prove _, _ => True
  | .proveBy name _, names => name ∉ names

namespace Workspace

/-- The strategy is tried unasked or found by a name. -/
def Holds (ws : Workspace) (strategy : Strategy) : Prop :=
  strategy ∈ ws.strategies ∨ ∃ name, ws.strategyNamed name = .ok strategy

/-- The workspaces differ at most in what the hidden names refer to, and no search gets to them. -/
structure SameApartFrom (hidden : Set Name) (ws ws' : Workspace) : Prop
    extends SameFacts ws ws' where
  strategies : ws'.strategies = ws.strategies
  goals : ws'.goals = ws.goals
  maxDepth : ws'.maxDepth = ws.maxDepth
  named : ∀ name ∉ hidden, ws'.strategyNamed name = ws.strategyNamed name
  strategies_avoid : ∀ strategy ∈ ws.strategies, strategy.Avoids hidden
  named_avoids : ∀ name ∉ hidden, ∀ strategy, ws.strategyNamed name = .ok strategy →
    strategy.Avoids hidden

theorem sameApartFrom_addTheorem (ws : Workspace) (name : Name) (thm : Theorem) :
    SameApartFrom ∅ ws (ws.addTheorem name thm .explicit) where
  kernel := rfl
  theorems := rfl
  strategies := rfl
  goals := rfl
  maxDepth := rfl
  named _ _ := rfl
  strategies_avoid _ _ name _ _ := Set.notMem_empty name
  named_avoids _ _ _ _ name _ _ := Set.notMem_empty name

theorem sameApartFrom_addStrategy {ws : Workspace} {strategy : Strategy}
    (h : ∀ held, ws.Holds held → held.Avoids {strategy.name}) :
    SameApartFrom {strategy.name} ws (ws.addStrategy strategy .explicit) where
  kernel := rfl
  theorems := rfl
  strategies := rfl
  goals := rfl
  maxDepth := rfl
  named name hname := by
    have hne : name ≠ strategy.name := hname
    have hget : (ws.strategyIndex.insert strategy.name strategy).get? name =
        ws.strategyIndex.get? name := by
      rw [Table.get?_insert, if_neg hne]
    unfold strategyNamed addStrategy
    rw [hget]
  strategies_avoid held hmem := h held (.inl hmem)
  named_avoids name _ held hnamed := h held (.inr ⟨name, hnamed⟩)

namespace SameApartFrom

variable {hidden : Set Name} {ws ws' : Workspace}

theorem symm (h : SameApartFrom hidden ws ws') : SameApartFrom hidden ws' ws where
  kernel := h.kernel.symm
  theorems := h.theorems.symm
  strategies := h.strategies.symm
  goals := h.goals.symm
  maxDepth := h.maxDepth.symm
  named name hname := (h.named name hname).symm
  strategies_avoid strategy hmem := h.strategies_avoid strategy (h.strategies ▸ hmem)
  named_avoids name hname strategy hnamed :=
    h.named_avoids name hname strategy ((h.named name hname).symm.trans hnamed)

theorem isAtDepthLimit (h : SameApartFrom hidden ws ws') :
    ws'.isAtDepthLimit = ws.isAtDepthLimit := by
  unfold Workspace.isAtDepthLimit
  rw [h.maxDepth, h.goals]

theorem pushGoal (h : SameApartFrom hidden ws ws') (goal : Conjecture) :
    SameApartFrom hidden { ws with goals := ws.goals.push goal }
      { ws' with goals := ws'.goals.push goal } :=
  { h with goals := congrArg (Stack.push · goal) h.goals }

/-- A scope with theorems is the first of the visible ones. -/
theorem keepTheorems (h : SameApartFrom hidden ws ws') (thms : List Theorem) :
    SameApartFrom hidden (ws.newScope.keepTheorems thms) (ws'.newScope.keepTheorems thms) := by
  rw [keepTheorems_newScope, keepTheorems_newScope]
  exact { h with theorems := congrArg (thms ++ ·) h.theorems }

end SameApartFrom

end Workspace

open Workspace

namespace Prover

variable {hidden : Set Name} {ws ws' : Workspace}

/-! ## Each search follows the other -/

/-- The prover, asked in `ws'`, follows itself, asked in `ws`, unless it is asked to run a strategy
that calls a hidden name. -/
structure AlikeApartFrom (hidden : Set Name) (ws ws' : Workspace) (prover : Prover) : Prop where
  prove : ∀ ds goal, Tracks True ws ws' ds (prover.prove goal) (prover.prove goal)
  apply : ∀ strategy, strategy.Avoids hidden → ∀ ds goal,
    Tracks True ws ws' ds (prover.apply strategy goal) (prover.apply strategy goal)

theorem alikeApartFrom_ofFuel (hws : SameApartFrom hidden ws ws') (fuel : Nat) :
    AlikeApartFrom hidden ws ws' (ofFuel fuel) := by
  induction fuel generalizing ws ws' with
  | zero => exact ⟨fun _ _ => .exhausted trivial _, fun _ _ _ _ => .exhausted trivial _⟩
  | succ fuel ih =>
      constructor
      · intro ds goal
        have hpushed := hws.pushGoal goal
        refine tracks_pose hws.goals hws.isAtDepthLimit fun _ => ?_
        refine tracks_search hpushed.toSameFacts hpushed.strategies fun strategy hmem => ?_
        exact (ih hpushed).apply strategy (hws.strategies_avoid strategy hmem) ds goal
      · -- the instructions look up names that are not hidden, and these lead to strategies that
        -- avoid the hidden ones as well
        intro strategy havoids ds goal
        refine Run.tracks_strategy hws.toSameFacts (ih hws).prove strategy fun other s hmem => ?_
        have hother : other ∉ hidden := havoids other s hmem
        exact ⟨hws.named other hother, fun called hcalled =>
          (ih hws).apply called (hws.named_avoids other hother called hcalled)⟩

theorem tracks_proveBy_of_sameApartFrom (hws : SameApartFrom hidden ws ws') {name : Name}
    (hname : name ∉ hidden) (fuel : Nat) (ds : Stack Theorem) (goal : Conjecture) :
    Tracks True ws ws' ds ((ofFuel fuel).proveBy name goal) ((ofFuel fuel).proveBy name goal) :=
  tracks_proveBy (hws.named name hname) fun strategy hstrategy =>
    (alikeApartFrom_ofFuel hws fuel).apply strategy
      (hws.named_avoids name hname strategy hstrategy) ds goal

theorem tracks_proveStep_of_sameApartFrom (hws : SameApartFrom hidden ws ws') {step : Step}
    (hstep : step.Avoids hidden) (fuel : Nat) (ds : Stack Theorem) :
    Tracks True ws ws' ds ((ofFuel fuel).proveStep step) ((ofFuel fuel).proveStep step) := by
  cases step with
  | prove conj => exact tracks_tryProve hws.goals ((alikeApartFrom_ofFuel hws fuel).prove ds conj)
  | proveBy name conj => exact tracks_proveBy_of_sameApartFrom hws hstep fuel ds conj

theorem tracks_proveBlock_of_sameApartFrom (hws : SameApartFrom hidden ws ws') {steps : List Step}
    (hsteps : ∀ step ∈ steps, step.Avoids hidden) (fuel : Nat) (ds : Stack Theorem)
    (goal : Conjecture) :
    Tracks True ws ws' ds ((ofFuel fuel).proveBlock goal steps)
      ((ofFuel fuel).proveBlock goal steps) := by
  have hall : ∀ step ∈ .prove goal :: steps, step.Avoids hidden :=
    List.forall_mem_cons.mpr ⟨trivial, hsteps⟩
  exact tracks_proveBlock_of_mem fun thms step hmem =>
    tracks_proveStep_of_sameApartFrom (hws.keepTheorems thms) (hall step hmem) fuel ds

/-! ## Both end in the same way -/

/-- The command ends in both states with the same outcome, or in none of them. -/
def EndsAlike {ε α : Type} [CutOff ε] (command : Prover → ProofM ε α) (s s' : ProofState) : Prop :=
  ∀ r, Ends command s r ↔ Ends command s' r

theorem endsAlike_of_outcome {ε α : Type} [CutOff ε] {command : Prover → ProofM ε α}
    {s s' : ProofState}
    (h : ∀ fuel, ((command (ofFuel fuel)).run s').1 = ((command (ofFuel fuel)).run s).1) :
    EndsAlike command s s' := by
  intro r
  constructor
  · rintro ⟨fuel, hr, houtcome⟩
    exact ⟨fuel, hr, fun more hle => (h more).trans (houtcome more hle)⟩
  · rintro ⟨fuel, hr, houtcome⟩
    exact ⟨fuel, hr, fun more hle => (h more).symm.trans (houtcome more hle)⟩

/-- Since the relation is symmetric, it is enough that one of the runs follows the other. -/
theorem endsAlike_of_tracks {ε α : Type} [CutOff ε] {command : Prover → ProofM ε α}
    (h : ∀ ws ws', SameApartFrom hidden ws ws' → ∀ fuel ds,
      Tracks True ws ws' ds (command (ofFuel fuel)) (command (ofFuel fuel)))
    {s s' : ProofState} (hws : SameApartFrom hidden s.workspace s'.workspace)
    (hderived : s'.derived = s.derived) : EndsAlike command s s' :=
  endsAlike_of_outcome fun fuel => (h _ _ hws fuel s.derived).outcome_eq_of_symm
    (h _ _ hws.symm fuel s.derived) ⟨rfl, rfl⟩ ⟨rfl, hderived⟩

/-- All that can be proved without a hidden name is proved alike in both states. -/
structure SearchesAlike (hidden : Set Name) (s s' : ProofState) : Prop where
  prove : ∀ goal, EndsAlike (·.prove goal) s s'
  tryProve : ∀ goal, EndsAlike (·.tryProve goal) s s'
  apply : ∀ strategy, strategy.Avoids hidden → ∀ goal, EndsAlike (·.apply strategy goal) s s'
  proveBy : ∀ name ∉ hidden, ∀ goal, EndsAlike (·.proveBy name goal) s s'
  proveBlock : ∀ goal steps, (∀ step ∈ steps, step.Avoids hidden) →
    EndsAlike (·.proveBlock goal steps) s s'

theorem searchesAlike {s s' : ProofState} (hws : SameApartFrom hidden s.workspace s'.workspace)
    (hderived : s'.derived = s.derived) : SearchesAlike hidden s s' where
  prove goal := endsAlike_of_tracks
    (fun _ _ h fuel ds => (alikeApartFrom_ofFuel h fuel).prove ds goal) hws hderived
  tryProve goal := endsAlike_of_tracks
    (fun _ _ h fuel ds => tracks_tryProve h.goals ((alikeApartFrom_ofFuel h fuel).prove ds goal))
    hws hderived
  apply strategy havoids goal := endsAlike_of_tracks
    (fun _ _ h fuel ds => (alikeApartFrom_ofFuel h fuel).apply strategy havoids ds goal)
    hws hderived
  proveBy _ hname goal := endsAlike_of_tracks
    (fun _ _ h fuel ds => tracks_proveBy_of_sameApartFrom h hname fuel ds goal) hws hderived
  proveBlock goal _ hsteps := endsAlike_of_tracks
    (fun _ _ h fuel ds => tracks_proveBlock_of_sameApartFrom h hsteps fuel ds goal) hws hderived

/-- **Explicit entries cannot be noticed by a search.**  An explicit theorem changes no search at
all.  An explicit strategy whose name is called by no strategy of the workspace changes none that is
not asked for that name; in particular the strategies of the workspace are run as before. -/
theorem explicit_unnoticed (s : ProofState) :
    (∀ name thm, SearchesAlike ∅ s
      ((addTheorem name thm .explicit : ProofM WorkspaceError Unit).run s).2) ∧
    ∀ strategy, (∀ held, s.workspace.Holds held → held.Avoids {strategy.name}) →
      SearchesAlike {strategy.name} s
        ((addStrategy strategy .explicit : ProofM WorkspaceError Unit).run s).2 :=
  ⟨fun name thm => searchesAlike (sameApartFrom_addTheorem s.workspace name thm) rfl,
    fun _ havoid => searchesAlike (sameApartFrom_addStrategy havoid) rfl⟩

theorem avoids_of_holds_relayWorkspace {held : Strategy} (h : relayWorkspace.Holds held) :
    held.Avoids {Session.assumption.name} := by
  have hnamed : ∃ name, relayWorkspace.strategyNamed name = .ok held := by
    -- the strategies that are tried unasked have names as well
    rcases h with hmem | hnamed
    · have hmem : held ∈ [inflation, relay] := hmem
      rw [List.mem_pair] at hmem
      rcases hmem with rfl | rfl
      · exact ⟨"Inflation", by decide +kernel⟩
      · exact ⟨"Relay", by decide +kernel⟩
    · exact hnamed
  obtain ⟨name, hnamed⟩ := hnamed
  rintro other s hmem (rfl : other = _)
  exact absurd (calls_relayWorkspace ⟨held, hnamed, s, hmem⟩).2 (by decide)

/-- In `relayWorkspace` the search for `p ⊢ p` fails.  It still does when there is an explicit
strategy that proves this goal if it is asked for by its name. -/
theorem explicit_unnoticed_relayWorkspace :
    let s : ProofState := { workspace := relayWorkspace }
    let s' := ((addStrategy Session.assumption .explicit : ProofM WorkspaceError Unit).run s).2
    let goal : Conjecture := .ofList [Session.prop "p"] (Session.prop "p")
    (∀ held, s.workspace.Holds held → held.Avoids {Session.assumption.name}) ∧
      Ends (·.prove goal) s (.error .failed) ∧ Ends (·.prove goal) s' (.error .failed) ∧
      (((ofFuel 1).proveBy Session.assumption.name goal).run s').1 = .ok ⟨goal⟩ := by
  intro s s' goal
  have havoid : ∀ held, s.workspace.Holds held → held.Avoids {Session.assumption.name} :=
    fun _ h => avoids_of_holds_relayWorkspace h
  have hends : Ends (·.prove goal) s (.error .failed) := ⟨8, endsBy_prove (by decide +kernel) nofun⟩
  have hsame := (explicit_unnoticed s).2 Session.assumption havoid
  exact ⟨havoid, hends, (hsame.prove goal _).mp hends, by decide +kernel⟩

end Prover

end HolSearch
