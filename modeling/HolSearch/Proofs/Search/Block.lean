import HolSearch.Proofs.Search.Neutrality
import HolSearch.Proofs.Search.Soundness

/-!
# Proof blocks that end in their goal

If all steps of a proof block have been proved and the last of them is the goal, then the block
should succeed.  It does so at once if the theorem of the last step is the goal.  But this theorem
may have fewer premises than the goal, and then the block searches for the goal again.

The search comes upon the theorem of the last step, if upon no other, since the scope of the block
holds it.  A theorem that proves the goal is found to have an instance that does, because leaving
all its variables in place maps it into the goal (`Kernel.isSome_instance?_of_proves`).  Hence
nothing depends on the strategies, and a search with the least fuel will do
(`exists_prove_of_mem_theorems`).  Main statement: `proveBlock_succeeds`.
-/

namespace HolSearch

open ProofM

/-- What the step is to prove. -/
def Step.goal : Step → Conjecture
  | .prove conj => conj
  | .proveBy _ conj => conj

/-! ## Searches for what is at hand -/

/-- A theorem that proves a well-formed goal has an instance that does. -/
theorem Kernel.isSome_instance?_of_proves {k : Kernel} (hk : initial ≤ k) {thm : Theorem}
    {goal : Conjecture} (hgoal : ∀ t ∈ goal.members, k.HasType .empty t .bool)
    (h : thm.Proves goal) : (k.instance? thm goal).isSome := by
  have hrefl := Replacement.MapsInto.refl thm.sequent
  refine (isSome_instance?_iff hk hgoal).mpr ⟨.refl, ?_, hrefl.nodup, ?_⟩
  · exact hrefl.conclusion.trans h.conclusion
  · intro p hp
    exact h.within _ (hrefl.within p hp)

theorem Theorem.Proves.of_equiv {thm : Theorem} {goal goal' : Conjecture} (h : thm.Proves goal)
    (heq : goal ≈ goal') : thm.Proves goal' := by
  obtain ⟨hconclusion, hmem⟩ := Sequent.equiv_iff.mp heq
  refine ⟨h.conclusion.trans hconclusion, ?_⟩
  intro p hp
  exact (hmem p).mp (h.within p hp)

namespace Workspace

/-- A search for the goal is not refused in the workspace, and its kernel knows what is in the
goal. -/
structure Admits (ws : Workspace) (goal : Conjecture) : Prop where
  kernel : Kernel.initial ≤ ws.kernel
  props : ∀ t ∈ goal.members, ws.kernel.HasType .empty t .bool
  free : ws.inProgress goal = false
  room : ws.isAtDepthLimit = false

/-- The theorems that were added to a scope are visible in it. -/
theorem mem_theorems_keepTheorems_newScope (ws : Workspace) {thms : List Theorem}
    {thm : Theorem} (h : thm ∈ thms) : thm ∈ (ws.newScope.keepTheorems thms).theorems := by
  rw [keepTheorems_newScope, mem_theorems]
  exact Or.inl ⟨{ theorems := thms }, List.mem_cons_self, h⟩

/-- If no goal is in progress, then the first is refused only by the bound `0`. -/
theorem not_refused_of_goals_empty {ws : Workspace} (hgoals : ws.goals = {})
    (hdepth : ∀ n ∈ ws.maxDepth, 1 ≤ n) (goal : Conjecture) :
    ws.inProgress goal = false ∧ ws.isAtDepthLimit = false := by
  unfold inProgress isAtDepthLimit
  rw [hgoals]
  refine ⟨rfl, ?_⟩
  split
  · rfl
  · rename_i n hn
    have hpos : 1 ≤ n := hdepth n hn
    exact decide_eq_false (Nat.not_le_of_lt hpos)

end Workspace

namespace Prover

variable {fuel : Nat} {s : ProofState} {goal : Conjecture} {thm : Theorem}

/-- No strategy is tried on a goal that is an instance of a visible theorem. -/
theorem outcome_search_of_findSome? {inst : Theorem}
    (h : s.workspace.theorems.findSome? (s.workspace.kernel.instance? · goal) = some inst) :
    (((ofFuel fuel).search goal).run s).1 = .ok inst := by
  rw [outcome_search, h]

/-- A goal that is admitted is proved if a visible theorem proves it. -/
theorem exists_prove_of_mem_theorems (hgoal : s.workspace.Admits goal)
    (hthm : thm ∈ s.workspace.theorems) (hproves : thm.Proves goal) :
    ∃ inst, (((ofFuel (fuel + 1)).prove goal).run s).1 = .ok inst := by
  have hthminst := Kernel.isSome_instance?_of_proves hgoal.kernel hgoal.props hproves
  have hfound : (s.workspace.theorems.findSome? (s.workspace.kernel.instance? · goal)).isSome :=
    List.findSome?_isSome_iff.mpr ⟨thm, hthm, hthminst⟩
  obtain ⟨inst, hinst⟩ := Option.isSome_iff_exists.mp hfound
  refine ⟨inst, ?_⟩
  rw [outcome_prove_succ, if_neg (by simp [hgoal.free, hgoal.room])]
  -- a goal more in progress changes neither the kernel nor the visible theorems
  exact outcome_search_of_findSome? hinst

theorem outcome_tryProve (hfree : s.workspace.inProgress goal = false) (prover : Prover) :
    ((prover.tryProve goal).run s).1 =
      ((prover.prove goal).run s).1.mapError (Stop.toError goal) := by
  unfold tryProve
  rw [run_workspace_bind, hfree]
  rfl

/-! ## Steps -/

/-- The steps are proved one after the other, each in a workspace that holds the theorems of those
before it. -/
inductive ProvesInTurn (prover : Prover) : ProofState → List Step → List Theorem → Prop where
  | nil (s : ProofState) : ProvesInTurn prover s [] []
  | cons {s : ProofState} {step : Step} {thm : Theorem} {rest : List Step} {thms : List Theorem}
      (hstep : ((prover.proveStep step).run s).1 = .ok thm)
      (hrest : ProvesInTurn prover { s with workspace := s.workspace.keepTheorem thm } rest thms) :
      ProvesInTurn prover s (step :: rest) (thm :: thms)

theorem neutral_proveStep (fuel : Nat) (step : Step) : Neutral ((ofFuel fuel).proveStep step) := by
  cases step with
  | prove conj => exact neutral_tryProve fuel conj
  | proveBy name conj => exact neutral_proveBy fuel conj name

theorem proves_of_proveStep {step : Step} (h : (((ofFuel fuel).proveStep step).run s).1 = .ok thm) :
    thm.Proves step.goal := by
  have hprover := sound_ofFuel fuel
  have haccounts := s.workspace.development_accountsFor
  cases step with
  | prove conj => exact ((yields_tryProve hprover conj s haccounts rfl).2.2 thm h).proves
  | proveBy name conj => exact ((yields_proveBy hprover name conj s haccounts rfl).2.2 thm h).proves

/-- Nothing is proved without fuel. -/
theorem fuel_pos_of_proveStep {step : Step}
    (h : (((ofFuel fuel).proveStep step).run s).1 = .ok thm) : 0 < fuel := by
  cases fuel with
  | succ fuel => exact Nat.succ_pos fuel
  | zero =>
      cases step with
      | prove conj =>
          change (((ofFuel 0).tryProve conj).run s).1 = .ok thm at h
          unfold tryProve at h
          rw [run_workspace_bind] at h
          split at h
          · cases h
          · cases h
      | proveBy name conj =>
          change (((ofFuel 0).proveBy name conj).run s).1 = .ok thm at h
          unfold proveBy at h
          rw [run_workspace_bind] at h
          cases hnamed : s.workspace.strategyNamed name with
          | error e =>
              rw [hnamed] at h
              cases h
          | ok strategy =>
              rw [hnamed] at h
              cases h

namespace ProvesInTurn

variable {steps : List Step} {thms : List Theorem}

theorem fuel_pos (h : (ofFuel fuel).ProvesInTurn s steps thms) (hne : steps ≠ []) : 0 < fuel := by
  cases h with
  | nil => exact absurd rfl hne
  | cons hstep _ => exact fuel_pos_of_proveStep hstep

/-- The last theorem proves what the last step asks for. -/
theorem exists_getLast? (h : (ofFuel fuel).ProvesInTurn s steps thms) {last : Step}
    (hlast : steps.getLast? = some last) :
    ∃ thm, thms.getLast? = some thm ∧ thm.Proves last.goal := by
  induction h with
  | nil => cases hlast
  | @cons s step thm rest thms hstep hrest ih =>
      cases hrest with
      | nil =>
          cases hlast
          exact ⟨thm, rfl, proves_of_proveStep hstep⟩
      | cons =>
          rw [List.getLast?_cons_cons] at hlast ⊢
          exact ih hlast

/-- After steps that are proved in turn a block is left with the last theorem, in a workspace that
holds them all. -/
theorem run_proveSteps (h : (ofFuel fuel).ProvesInTurn s steps thms) (goal : Conjecture)
    (last : Option Theorem) {t : ProofState} (ht : t.At s.workspace s.derived) :
    ∃ t', t'.At (s.workspace.keepTheorems thms) s.derived ∧
      ((ofFuel fuel).proveSteps goal last steps).run t =
        ((ofFuel fuel).proveSteps goal (thms.getLast?.or last) []).run t' := by
  induction h generalizing last t with
  | nil s => exact ⟨t, ht, rfl⟩
  | @cons s step thm rest thms hstep hrest ih =>
      have hneutral := neutral_proveStep fuel step
      have hthm := (hneutral.outcome s t ht.workspace ht.derived).trans hstep
      have hworkspace := (hneutral.workspace t).trans ht.workspace
      have hderived := (hneutral.derived t).trans ht.derived
      rw [run_proveSteps_cons]
      generalize ((ofFuel fuel).proveStep step).run t = done at hthm hworkspace hderived
      obtain ⟨r, u⟩ := done
      cases hthm
      have hu : ProofState.At { u with workspace := u.workspace.keepTheorem thm }
          (s.workspace.keepTheorem thm) s.derived :=
        ⟨congrArg (Workspace.keepTheorem · thm) hworkspace, hderived⟩
      obtain ⟨t', ht', hrun⟩ := ih (some thm) hu
      refine ⟨t', ht', hrun.trans ?_⟩
      rw [List.getLast?_cons, Option.or_some, Option.some_or]

end ProvesInTurn

/-! ## Blocks -/

/-- After the last step of a block, a goal that is admitted is proved if a visible theorem proves
it. -/
theorem exists_proveSteps_nil (hgoal : s.workspace.Admits goal)
    (hthm : thm ∈ s.workspace.theorems) (hproves : thm.Proves goal) (last : Option Theorem) :
    ∃ thm, (((ofFuel (fuel + 1)).proveSteps goal last []).run s).1 = .ok thm := by
  unfold proveSteps
  split
  · exact ⟨_, rfl⟩
  · obtain ⟨inst, hinst⟩ := exists_prove_of_mem_theorems hgoal hthm hproves
    refine ⟨inst, ?_⟩
    rw [outcome_tryProve hgoal.free, hinst]
    rfl

/-- A block whose steps are proved in turn returns a theorem if the goal is admitted and the theorem
of the last step proves it. -/
theorem exists_proveBlock (hgoal : s.workspace.Admits goal) {steps : List Step}
    {thms : List Theorem} (hproved : (ofFuel (fuel + 1)).ProvesInTurn
      { s with workspace := s.workspace.newScope } steps thms)
    (hlast : thms.getLast? = some thm) (hproves : thm.Proves goal) :
    ∃ thm, (((ofFuel (fuel + 1)).proveBlock goal steps).run s).1 = .ok thm := by
  -- the block has been recorded before its first step
  let start : ProofState :=
    { s with
      workspace := s.workspace.newScope
      journal := s.journal.add (.blockStarted goal) }
  obtain ⟨t, ⟨hws, -⟩, hrun⟩ := hproved.run_proveSteps goal none (t := start) ⟨rfl, rfl⟩
  have hmem : thm ∈ t.workspace.theorems := by
    rw [hws]
    exact s.workspace.mem_theorems_keepTheorems_newScope (List.mem_of_getLast? hlast)
  -- only the innermost scope differs from the workspace before the block
  rw [Workspace.keepTheorems_newScope] at hws
  have hadmits : t.workspace.Admits goal := by
    rw [hws]
    exact ⟨hgoal.kernel, hgoal.props, hgoal.free, hgoal.room⟩
  have hfound : ∃ thm, (((ofFuel (fuel + 1)).proveSteps goal (thms.getLast?.or none) []).run t).1 =
      .ok thm := exists_proveSteps_nil hadmits hmem hproves _
  rw [← hrun] at hfound
  exact hfound

/-- **A proof block that ends in its goal succeeds.**  No goal is in progress and at least one may
be, the goal is well-formed, the last step poses it, and all steps are proved in turn.  Then the
block returns a theorem that proves the goal, also if that of the last step has fewer premises. -/
theorem proveBlock_succeeds (ops : List Operation) (s : ProofState)
    (hkernel : s.workspace.kernel = (Development.run ops).kernel) (hgoals : s.workspace.goals = {})
    (hdepth : ∀ n ∈ s.workspace.maxDepth, 1 ≤ n) (goal : Conjecture)
    (hgoal : s.workspace.kernel.checkProps goal.members = .ok ()) (steps : List Step) (last : Step)
    (hlast : steps.getLast? = some last) (hposed : last.goal ≈ goal) (fuel : Nat)
    (thms : List Theorem)
    (hproved : (ofFuel fuel).ProvesInTurn { s with workspace := s.workspace.newScope } steps thms) :
    ∃ thm, (((ofFuel fuel).proveBlock goal steps).run s).1 = .ok thm ∧
      s.workspace.development.Establishes goal thm := by
  have hne : steps ≠ [] := by
    rintro rfl
    cases hlast
  obtain ⟨n, rfl⟩ : ∃ n, fuel = n + 1 := Nat.exists_eq_add_one.mpr (hproved.fuel_pos hne)
  obtain ⟨thm, hthm, hstep⟩ := hproved.exists_getLast? hlast
  obtain ⟨hfree, hroom⟩ := Workspace.not_refused_of_goals_empty hgoals hdepth goal
  have hadmits : s.workspace.Admits goal :=
    ⟨hkernel ▸ Development.initial_le_run ops, Kernel.checkProps_eq_ok_iff.mp hgoal, hfree, hroom⟩
  obtain ⟨found, hfound⟩ := exists_proveBlock hadmits hproved hthm (hstep.of_equiv hposed)
  have hsound := yields_proveBlock (sound_ofFuel (n + 1)) goal steps s
    s.workspace.development_accountsFor rfl
  exact ⟨found, hfound, hsound.2.2 found hfound⟩

/-- A workspace with the strategies for single rules, where three goals may be in progress. -/
def rulesState : ProofState := (Session.prepareRules.run { workspace := { maxDepth := some 3 } }).2

/-- The steps `p = q ⊢ (p = p) = (q = p)` and `r, p = q ⊢ q = p`. -/
def weakenedSteps : List Step :=
  let p := Session.prop "p"
  let q := Session.prop "q"
  [.prove symmetryLemma.sequent,
    .prove (.ofList [Session.prop "r", Session.iff p q] (Session.iff q p))]

/-- The last step is proved by a theorem without the premise `r`. -/
theorem proveBlock_succeeds_weakenedSteps :
    let last : Theorem := ⟨Session.symmetricGoal .bool⟩
    (ofFuel 6).ProvesInTurn { rulesState with workspace := rulesState.workspace.newScope }
        weakenedSteps [symmetryLemma, last] ∧
      last.premises.length < symmetryGoal.premises.length ∧
      ∃ thm, (((ofFuel 6).proveBlock symmetryGoal weakenedSteps).run rulesState).1 = .ok thm ∧
        rulesState.workspace.development.Establishes symmetryGoal thm := by
  intro last
  have hproved : (ofFuel 6).ProvesInTurn
      { rulesState with workspace := rulesState.workspace.newScope } weakenedSteps
      [symmetryLemma, last] :=
    .cons (by decide +kernel) (.cons (by decide +kernel) (.nil _))
  refine ⟨hproved, by decide +kernel, ?_⟩
  exact proveBlock_succeeds [] rulesState (by decide +kernel) (by decide +kernel)
    (by decide +kernel) symmetryGoal (by decide +kernel) weakenedSteps _ rfl (by decide +kernel) 6
    [symmetryLemma, last] hproved

end Prover

end HolSearch
