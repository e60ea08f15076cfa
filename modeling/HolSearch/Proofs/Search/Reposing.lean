import HolSearch.Proofs.Schematic.Instantiate
import HolSearch.Proofs.Search.Termination
import Mathlib.Data.Finset.Powerset
import Mathlib.Data.Finset.Prod

/-!
# Strategies that pose their own goal again

A strategy whose instructions pose its own pattern makes no progress: under a match with a goal, the
pattern is the goal again.  In a workspace that has no theorems and no other strategy, a search for
a goal cannot succeed then.  Whether it ends depends on the first instruction, the only one that is
ever executed.

If it is a `prove`, then the search ends, with and without a bound on the depth, since a goal that
is in progress is not tried again.  For this the goals that come up must be finitely many.  They are
not always the goal itself: a goal with bound variables of other types than their binders is posed
with other types there.  But all terms of these goals are `retypings` of terms of the first goal,
and the number of goals over such terms that are not in progress gets smaller with every goal.

If it is a `proveBy`, then neither the goals in progress nor the bound on the depth are consulted:
the strategy is run on its goal again and again, and the search for a well-formed goal that it
matches never ends.
-/

namespace HolSearch

open ProofM

namespace Workspace

/-- There are no theorems, and the one strategy has only instructions that pose its pattern again,
by a search or by the strategy itself. -/
structure Reposing (ws : Workspace) (name : Name) (pattern : Conjecture)
    (script : List (Instruction Unit)) : Prop where
  theorems : ws.theorems = []
  strategies : ws.strategies = [.ofScript name pattern script]
  named : ws.strategyNamed name = .ok (.ofScript name pattern script)
  script : ∀ i ∈ script, i = .prove pattern ∨ i = .proveBy name pattern

theorem Reposing.pushGoal {ws : Workspace} {name : Name} {pattern : Conjecture}
    {script : List (Instruction Unit)} (h : ws.Reposing name pattern script) (goal : Conjecture) :
    ({ ws with goals := ws.goals.push goal } : Workspace).Reposing name pattern script :=
  ⟨h.theorems, h.strategies, h.named, h.script⟩

/-! ## Goals that are not in progress -/

/-- A sequent up to the order of its premises. -/
def goalKey (goal : Conjecture) : HolTerm × Finset HolTerm :=
  (goal.conclusion, goal.premises.toFinset)

theorem goalKey_eq_iff {goal goal' : Conjecture} : goalKey goal = goalKey goal' ↔ goal ≈ goal' := by
  rw [Sequent.equiv_iff, goalKey, goalKey, Prod.mk.injEq, Finset.ext_iff]
  simp only [List.mem_toFinset]

/-- The goals over the given terms that are not in progress. -/
def unposed (ws : Workspace) (terms : Finset HolTerm) : Finset (HolTerm × Finset HolTerm) :=
  (terms ×ˢ terms.powerset) \ (ws.goals.items.map goalKey).toFinset

theorem inProgress_iff {ws : Workspace} {goal : Conjecture} :
    ws.inProgress goal = true ↔ goalKey goal ∈ ws.goals.items.map goalKey := by
  rw [inProgress, List.any_eq_true, List.mem_map]
  refine exists_congr fun g => and_congr_right fun _ => ?_
  rw [decide_eq_true_iff, goalKey_eq_iff]

theorem goalKey_mem_unposed {ws : Workspace} {terms : Finset HolTerm} {goal : Conjecture}
    (hgoal : ∀ t ∈ goal.members, t ∈ terms) (hprogress : ¬ws.inProgress goal = true) :
    goalKey goal ∈ ws.unposed terms := by
  rw [Sequent.members, List.forall_mem_append, List.forall_mem_singleton] at hgoal
  rw [unposed, Finset.mem_sdiff, List.mem_toFinset, ← inProgress_iff]
  refine ⟨Finset.mem_product.mpr ⟨hgoal.2, Finset.mem_powerset.mpr fun p hp => ?_⟩, hprogress⟩
  exact hgoal.1 p (List.mem_toFinset.mp hp)

/-- With each goal that comes into progress there are fewer that can. -/
theorem card_unposed_push_lt {ws : Workspace} {terms : Finset HolTerm} {goal : Conjecture}
    (hmem : goalKey goal ∈ ws.unposed terms) :
    (({ ws with goals := ws.goals.push goal } : Workspace).unposed terms).card <
      (ws.unposed terms).card := by
  have hpush : ({ ws with goals := ws.goals.push goal } : Workspace).unposed terms =
      (ws.unposed terms).erase (goalKey goal) := by
    show (terms ×ˢ terms.powerset) \ (goalKey goal :: ws.goals.items.map goalKey).toFinset = _
    rw [List.toFinset_cons, Finset.sdiff_insert]
    rfl
  rw [hpush]
  exact Finset.card_erase_lt_of_mem hmem

end Workspace

open Workspace

namespace Prover

/-- The operand of the first instruction: the pattern, whose variables are all fixed. -/
def reposed (pattern : Conjecture) : Schema :=
  .withFixed ((Schema.ofConjecture pattern).seenNames {}) pattern

/-- What the first instruction of a script asks for. -/
def firstRequest (prover : Prover) (strategy : Strategy) :
    List (Instruction Unit) → Conjecture → ProofM Stop Theorem
  | .prove _ :: _ => prover.prove
  | .proveBy _ _ :: _ => prover.apply strategy
  | _ => fun _ => throw .failed

section

variable {name : Name} {pattern : Conjecture} {script : List (Instruction Unit)}

/-- Under a match of the pattern with a goal, the operand of the first instruction fits into it. -/
theorem fitsInto_reposed {goal : Conjecture} {assigned : MetaSubst}
    (h : assigned ∈
      ((Schema.ofConjecture pattern).matchings goal Subst.empty true false).toList) :
    Schema.FitsInto assigned (reposed pattern) goal :=
  (Schema.fitsInto_of_mem_matchings h).fixNames _

/-! ## The first instruction -/

/-- An instruction fails if there is no instance of its operand. -/
theorem outcome_conjecture_bind_of_error {s : ProofState} {goal : Conjecture}
    {schema : Schema} {assigned : MetaSubst} {e : SchematicError}
    (hinst : schema.instantiate s.workspace.kernel assigned goal.premises = .error e)
    (event : Event) (f : Conjecture → ProofM Stop Theorem) :
    ((record event >>= fun _ => Run.conjecture goal schema assigned >>= f).run s).1 =
      .error .failed := by
  change (((attempt .schematic (schema.instantiate s.workspace.kernel assigned goal.premises) :
    ProofM Stop Conjecture) >>= f).run _).1 = _
  rw [hinst]
  rfl

section Steps

variable {fuel : Nat} {s : ProofState} (goal : Conjecture) (i : Nat) (schema : Schema)
variable (rest : List (Instruction Mark)) (assigned : MetaSubst)

/-- A run that does not succeed with what a `prove` asks for ends there. -/
theorem outcome_step_prove_of_stop (hderived : s.derived = {})
    (hstop : ∀ conj, ∃ stop, (((ofFuel fuel).prove conj).run s).1 = .error stop) :
    ((Run.step (ofFuel fuel) goal name i (.prove schema :: rest) assigned).run s).1 =
      match schema.instantiate s.workspace.kernel assigned goal.premises with
      | .ok conj => (((ofFuel fuel).prove conj).run s).1
      | .error _ => .error .failed := by
  cases hinst : schema.instantiate s.workspace.kernel assigned goal.premises with
  | error e =>
      rw [Run.step]
      exact outcome_conjecture_bind_of_error hinst _ _
  | ok conj =>
      obtain ⟨stop, hstop⟩ := hstop conj
      rw [outcome_step_prove fuel goal name i schema rest assigned s conj hinst, hderived]
      show firstEnd [_] = _
      rw [firstEnd_singleton]
      exact (outcome_bind_of_error hstop).trans hstop.symm

theorem outcome_step_proveBy_of_stop {strategy : Strategy}
    (hnamed : s.workspace.strategyNamed name = .ok strategy)
    (hstop : ∀ conj, ∃ stop, (((ofFuel fuel).apply strategy conj).run s).1 = .error stop) :
    ((Run.step (ofFuel fuel) goal name i (.proveBy name schema :: rest) assigned).run s).1 =
      match schema.instantiate s.workspace.kernel assigned goal.premises with
      | .ok conj => (((ofFuel fuel).apply strategy conj).run s).1
      | .error _ => .error .failed := by
  cases hinst : schema.instantiate s.workspace.kernel assigned goal.premises with
  | error e =>
      rw [Run.step]
      exact outcome_conjecture_bind_of_error hinst _ _
  | ok conj =>
      obtain ⟨stop, hstop⟩ := hstop conj
      rw [outcome_step_proveBy fuel goal name i schema rest assigned s name strategy conj hnamed
        hinst]
      exact (outcome_bind_of_error hstop).trans hstop.symm

end Steps

/-- The outcome of the first instruction under an assignment, unless it proves what it asks for. -/
def firstOutcome (fuel : Nat) (name : Name) (pattern : Conjecture)
    (script : List (Instruction Unit)) (s : ProofState) (goal : Conjecture)
    (assigned : MetaSubst) : Except Stop Theorem :=
  match (reposed pattern).instantiate s.workspace.kernel assigned goal.premises with
  | .ok conj =>
      ((firstRequest (ofFuel fuel) (.ofScript name pattern script) script conj).run s).1
  | .error _ => .error .failed

/-- If what the first instruction asks for is never proved, then no other is executed. -/
theorem outcome_firstStep {fuel : Nat} (s : ProofState)
    (hws : s.workspace.Reposing name pattern script) (hderived : s.derived = {})
    (hstop : ∀ conj, ∃ stop, ((firstRequest (ofFuel fuel) (.ofScript name pattern script) script
      conj).run s).1 = .error stop)
    (goal : Conjecture) (assigned : MetaSubst) :
    ((Run.step (ofFuel fuel) goal name 0 (Strategy.ofScript name pattern script).instructions
      assigned).run s).1 = firstOutcome fuel name pattern script s goal assigned := by
  cases script with
  | nil =>
      unfold firstOutcome
      split
      · rfl
      · rfl
  | cons i script =>
      rcases hws.script i (List.mem_cons_self ..) with rfl | rfl
      · exact outcome_step_prove_of_stop goal 0 (reposed pattern) _ assigned hderived hstop
      · exact outcome_step_proveBy_of_stop goal 0 (reposed pattern) _ assigned hws.named hstop

/-- A search for a goal runs the one strategy on it. -/
theorem outcome_search_of_reposing {s : ProofState}
    (hws : s.workspace.Reposing name pattern script) (fuel : Nat) (goal : Conjecture) :
    (((ofFuel fuel).search goal).run s).1 =
      (((ofFuel fuel).apply (.ofScript name pattern script) goal).run s).1 := by
  rw [outcome_search, hws.theorems, hws.strategies]
  exact firstEnd_singleton _

/-! ## Nothing is proved -/

theorem exists_stop_firstRequest (script : List (Instruction Unit)) {prover : Prover}
    {strategy : Strategy} {s : ProofState}
    (h : ∀ goal, (∃ stop, ((prover.prove goal).run s).1 = .error stop) ∧
      ∃ stop, ((prover.apply strategy goal).run s).1 = .error stop) (conj : Conjecture) :
    ∃ stop, ((firstRequest prover strategy script conj).run s).1 = .error stop := by
  unfold firstRequest
  split
  · exact (h conj).1
  · exact (h conj).2
  · exact ⟨.failed, rfl⟩

/-- Neither a search nor the strategy proves anything. -/
theorem exists_stop (fuel : Nat) : ∀ s : ProofState, s.workspace.Reposing name pattern script →
    ∀ goal, (∃ stop, (((ofFuel fuel).prove goal).run s).1 = .error stop) ∧
      ∃ stop, (((ofFuel fuel).apply (.ofScript name pattern script) goal).run s).1 =
        .error stop := by
  induction fuel with
  | zero => exact fun s _ goal => ⟨⟨.exhausted, rfl⟩, .exhausted, rfl⟩
  | succ fuel ih =>
      intro s hws goal
      refine ⟨?_, ?_⟩
      · rw [outcome_prove_succ]
        split
        · exact ⟨.failed, rfl⟩
        · rw [outcome_search_of_reposing (hws.pushGoal goal)]
          exact (ih _ (hws.pushGoal goal) goal).2
      · show ∃ stop, ((Run.strategy (ofFuel fuel) goal _).run s).1 = .error stop
        rw [outcome_strategy]
        have hstop := exists_stop_firstRequest script (ih { s with derived := {} } hws)
        refine firstEnd_map_of_forall (P := fun r => ∃ stop, r = .error stop) ⟨.failed, rfl⟩ ?_
        intro assigned _
        show ∃ stop, ((Run.step (ofFuel fuel) goal name 0 _ assigned).run _).1 = .error stop
        rw [outcome_firstStep { s with derived := {} } hws rfl hstop, firstOutcome]
        split
        · exact hstop _
        · exact ⟨.failed, rfl⟩

/-- A run of the strategy is a choice between its first instruction under each match. -/
theorem outcome_apply_succ {s : ProofState} (hws : s.workspace.Reposing name pattern script)
    (fuel : Nat) (goal : Conjecture) :
    (((ofFuel (fuel + 1)).apply (.ofScript name pattern script) goal).run s).1 =
      firstEnd (((Schema.ofConjecture pattern).matchings goal Subst.empty true false).toList.map
        (firstOutcome fuel name pattern script { s with derived := {} } goal)) := by
  have hstop := exists_stop_firstRequest script (exists_stop fuel { s with derived := {} } hws)
  refine Eq.trans (outcome_strategy fuel goal _ s) ?_
  exact congrArg (firstEnd ∘ (List.map · _))
    (funext fun assigned => outcome_firstStep { s with derived := {} } hws rfl hstop goal assigned)

/-! ## If the first instruction asks for a search -/

/-- The terms of the goals that come up in the search for a goal. -/
def goalTerms (goal : Conjecture) : Finset HolTerm :=
  (goal.members.flatMap (Term.retypings (goal.members.flatMap Term.types))).toFinset

theorem mem_goalTerms_iff {goal : Conjecture} {t : HolTerm} : t ∈ goalTerms goal ↔
    ∃ t₀ ∈ goal.members, t ∈ t₀.retypings (goal.members.flatMap Term.types) := by
  rw [goalTerms, List.mem_toFinset, List.mem_flatMap]

theorem types_mem_of_mem_members {goal : Conjecture} {t : HolTerm} (ht : t ∈ goal.members) :
    ∀ ty ∈ t.types, ty ∈ goal.members.flatMap Term.types :=
  fun _ hty => List.mem_flatMap.mpr ⟨t, ht, hty⟩

theorem mem_goalTerms_self {goal : Conjecture} {t : HolTerm} (ht : t ∈ goal.members) :
    t ∈ goalTerms goal :=
  mem_goalTerms_iff.mpr ⟨t, ht, Term.mem_retypings_self (types_mem_of_mem_members ht)⟩

/-- A goal over these terms is posed again as a goal over these terms. -/
theorem mem_goalTerms_of_instantiate {k : Kernel} {goal₀ goal conj : Conjecture} {schema : Schema}
    {assigned : MetaSubst} (hgoal : ∀ t ∈ goal.members, t ∈ goalTerms goal₀)
    (hfits : Schema.FitsInto assigned schema goal)
    (hinst : schema.instantiate k assigned goal.premises = .ok conj) :
    ∀ t ∈ conj.members, t ∈ goalTerms goal₀ := by
  have htys : ∀ t ∈ goal.members, ∀ ty ∈ t.types, ty ∈ goal₀.members.flatMap Term.types := by
    intro t ht
    obtain ⟨t₀, ht₀, hretyped⟩ := mem_goalTerms_iff.mp (hgoal t ht)
    exact Term.types_of_mem_retypings hretyped (types_mem_of_mem_members ht₀)
  intro t' ht'
  obtain ⟨t, ht, hretyped'⟩ := hfits.mem_retypings hinst htys t' ht'
  obtain ⟨t₀, ht₀, hretyped⟩ := mem_goalTerms_iff.mp (hgoal t ht)
  exact mem_goalTerms_iff.mpr ⟨t₀, ht₀, Term.mem_retypings_trans hretyped hretyped'⟩

theorem outcome_firstRequest_of_failed {prover : Prover} {strategy : Strategy} {s : ProofState}
    (hws : s.workspace.Reposing name pattern script)
    (hfirst : script.head? ≠ some (.proveBy name pattern)) {conj : Conjecture}
    (hfailed : ((prover.prove conj).run s).1 = .error .failed) :
    ((firstRequest prover strategy script conj).run s).1 = .error .failed := by
  cases script with
  | nil => rfl
  | cons i script =>
      rcases hws.script i (List.mem_cons_self ..) with rfl | rfl
      · exact hfailed
      · exact absurd rfl hfirst

/-- A run of the strategy fails if the searches for the goals that come up do. -/
theorem outcome_apply_eq_failed (hfirst : script.head? ≠ some (.proveBy name pattern))
    {s : ProofState} (hws : s.workspace.Reposing name pattern script) {goal₀ goal : Conjecture}
    (hgoal : ∀ t ∈ goal.members, t ∈ goalTerms goal₀) {fuel : Nat}
    (hprove : ∀ conj : Conjecture, (∀ t ∈ conj.members, t ∈ goalTerms goal₀) →
      (((ofFuel fuel).prove conj).run { s with derived := {} }).1 = .error .failed) :
    (((ofFuel (fuel + 1)).apply (.ofScript name pattern script) goal).run s).1 =
      .error .failed := by
  rw [outcome_apply_succ hws]
  refine firstEnd_map_of_forall (P := (· = .error .failed)) rfl fun assigned hassigned => ?_
  unfold firstOutcome
  split
  · rename_i conj hinst
    have hconj := mem_goalTerms_of_instantiate hgoal (fitsInto_reposed hassigned) hinst
    exact outcome_firstRequest_of_failed (s := { s with derived := {} }) hws hfirst
      (hprove conj hconj)
  · rfl

/-- A search ends if the first instruction is not a `proveBy`, by induction on the number of goals
that may still come into progress. -/
theorem outcome_prove_eq_failed (hfirst : script.head? ≠ some (.proveBy name pattern))
    (goal₀ : Conjecture) (n : Nat) : ∀ ws : Workspace, ws.Reposing name pattern script →
    (ws.unposed (goalTerms goal₀)).card < n → ∀ s : ProofState, s.workspace = ws →
    ∀ goal : Conjecture, (∀ t ∈ goal.members, t ∈ goalTerms goal₀) →
      (((ofFuel (2 * n)).prove goal).run s).1 = .error .failed := by
  induction n with
  | zero =>
      intro ws _ hcard
      omega
  | succ n ih =>
      rintro ws hws hcard s rfl goal hgoal
      rw [show 2 * (n + 1) = 2 * n + 1 + 1 by omega, outcome_prove_succ]
      split
      · rfl
      · rename_i hposed
        have hlt := card_unposed_push_lt (goalKey_mem_unposed hgoal fun h => hposed (Or.inl h))
        have hws' := hws.pushGoal goal
        have hprove := ih _ hws' (by omega)
        rw [outcome_search_of_reposing hws']
        exact outcome_apply_eq_failed hfirst hws' hgoal (hprove _ rfl)

/-! ## If the first instruction asks for a run of the strategy -/

/-- A well-formed goal that the pattern matches. -/
structure Repeats (k : Kernel) (pattern goal : Conjecture) : Prop where
  typed : ∀ t ∈ goal.members, k.HasType .empty t .bool
  matched : ∃ assigned, assigned ∈
    ((Schema.ofConjecture pattern).matchings goal Subst.empty true false).toList

/-- Such a goal is posed again as such a goal. -/
theorem Repeats.exists_instantiate {k : Kernel} {goal : Conjecture} (h : Repeats k pattern goal)
    {assigned : MetaSubst}
    (hassigned : assigned ∈
      ((Schema.ofConjecture pattern).matchings goal Subst.empty true false).toList) :
    ∃ conj, (reposed pattern).instantiate k assigned goal.premises = .ok conj ∧
      Repeats k pattern conj := by
  obtain ⟨conj, hinst, hequiv⟩ := (fitsInto_reposed hassigned).exists_instantiate_equiv
    fun t ht => ⟨.bool, h.typed t ht⟩
  obtain ⟨hconclusion, hpremises⟩ := Sequent.equiv_iff.mp hequiv
  have hmembers : ∀ t ∈ conj.members, t ∈ goal.members := by
    intro t ht
    rw [Sequent.members, List.mem_append, hpremises, hconclusion, ← List.mem_append] at ht
    exact ht
  have hequiv' : goal ≈ conj :=
    Sequent.equiv_iff.mpr ⟨hconclusion.symm, fun p => (hpremises p).symm⟩
  exact ⟨conj, hinst, fun t ht => h.typed t (hmembers t ht),
    assigned, Sequent.mem_matchings_of_equiv hequiv' hassigned⟩

/-- No fuel suffices for the strategy if its first instruction is a `proveBy`. -/
theorem outcome_apply_eq_exhausted (hfirst : script.head? = some (.proveBy name pattern))
    (fuel : Nat) : ∀ s : ProofState, s.workspace.Reposing name pattern script →
    ∀ goal, Repeats s.workspace.kernel pattern goal →
      (((ofFuel fuel).apply (.ofScript name pattern script) goal).run s).1 =
        .error .exhausted := by
  induction fuel with
  | zero => exact fun s _ goal _ => rfl
  | succ fuel ih =>
      intro s hws goal hgoal
      -- under each match the strategy is run again, on a goal of the same kind
      have hagain : ∀ assigned ∈
          ((Schema.ofConjecture pattern).matchings goal Subst.empty true false).toList,
          firstOutcome fuel name pattern script { s with derived := {} } goal assigned =
            .error .exhausted := by
        intro assigned hassigned
        obtain ⟨conj, hinst, hconj⟩ := hgoal.exists_instantiate hassigned
        obtain ⟨rest, rfl⟩ := List.head?_eq_some_iff.mp hfirst
        show (match (reposed pattern).instantiate s.workspace.kernel assigned goal.premises with
          | .ok conj => _
          | .error _ => _) = _
        rw [hinst]
        exact ih { s with derived := {} } hws conj hconj
      rw [outcome_apply_succ hws]
      obtain ⟨assigned, hassigned⟩ := hgoal.matched
      obtain ⟨first, others, hlist⟩ := List.exists_cons_of_ne_nil (List.ne_nil_of_mem hassigned)
      rw [hlist] at hagain ⊢
      rw [List.map_cons, hagain first (List.mem_cons_self ..)]
      rfl

/-- The search for a goal does not end if the strategy is run on it and does not. -/
theorem outcome_prove_eq_exhausted (hfirst : script.head? = some (.proveBy name pattern))
    {s : ProofState} (hws : s.workspace.Reposing name pattern script) {goal : Conjecture}
    (hgoal : Repeats s.workspace.kernel pattern goal)
    (hposed : ¬(s.workspace.inProgress goal = true ∨ s.workspace.isAtDepthLimit = true))
    (fuel : Nat) : (((ofFuel fuel).prove goal).run s).1 = .error .exhausted := by
  cases fuel with
  | zero => rfl
  | succ fuel =>
      rw [outcome_prove_succ, if_neg hposed, outcome_search_of_reposing (hws.pushGoal goal)]
      exact outcome_apply_eq_exhausted hfirst fuel _ (hws.pushGoal goal) goal hgoal

end

/-- **Strategies that only pose their own goal again.**  If there are no theorems and no other
strategies, then no search succeeds.  It ends in failure if the first instruction is not a
`proveBy`.  If it is one, then the search for a well-formed goal ends only where this instruction is
not reached, whatever the bound on the depth is: the goal is refused at once, or the pattern does
not match it. -/
theorem reposing_search (name : Name) (pattern : Conjecture) (script : List (Instruction Unit))
    (s : ProofState) (hws : s.workspace.Reposing name pattern script) (goal : Conjecture) :
    (∀ fuel thm, (((ofFuel fuel).prove goal).run s).1 ≠ .ok thm) ∧
    (script.head? ≠ some (.proveBy name pattern) → Ends (·.prove goal) s (.error .failed)) ∧
    (s.workspace.kernel.checkProps goal.members = .ok () →
      ((∃ r, Ends (·.prove goal) s r) ↔
        script.head? ≠ some (.proveBy name pattern) ∨
        s.workspace.inProgress goal = true ∨ s.workspace.isAtDepthLimit = true ∨
        ((Schema.ofConjecture pattern).matchings goal Subst.empty true false).toList = [])) := by
  have hends : script.head? ≠ some (.proveBy name pattern) →
      Ends (·.prove goal) s (.error .failed) := by
    intro hfirst
    have hrun := outcome_prove_eq_failed hfirst goal _ _ hws (Nat.lt_succ_self _) s rfl goal
      fun t ht => mem_goalTerms_self ht
    exact ⟨_, endsBy_prove hrun nofun⟩
  refine ⟨fun fuel thm hok => ?_, hends, fun htyped => ⟨fun hend => ?_, fun hcause => ?_⟩⟩
  · obtain ⟨stop, hstop⟩ := (exists_stop fuel s hws goal).1
    cases hok.symm.trans hstop
  · by_contra hcause
    rw [not_or, not_or, not_or, not_not] at hcause
    obtain ⟨hfirst, hprogress, hlimit, hmatched⟩ := hcause
    have hgoal : Repeats s.workspace.kernel pattern goal :=
      ⟨Kernel.checkProps_eq_ok_iff.mp htyped, List.exists_mem_of_ne_nil _ hmatched⟩
    obtain ⟨r, fuel, hr, houtcome⟩ := hend
    refine hr ((houtcome fuel (Nat.le_refl fuel)).symm.trans ?_)
    exact outcome_prove_eq_exhausted hfirst hws hgoal (not_or.mpr ⟨hprogress, hlimit⟩) fuel
  · by_cases hfirst : script.head? = some (.proveBy name pattern)
    · -- two nested operations are enough to see that the goal is refused or does not match
      have hfailed : (((ofFuel 2).prove goal).run s).1 = .error .failed := by
        rw [outcome_prove_succ]
        split
        · rfl
        · rename_i hposed
          obtain ⟨hprogress, hlimit⟩ := not_or.mp hposed
          have hunmatched := ((hcause.resolve_left (not_not.mpr hfirst)).resolve_left
            hprogress).resolve_left hlimit
          rw [outcome_search_of_reposing (hws.pushGoal goal),
            outcome_apply_succ (hws.pushGoal goal), hunmatched]
          rfl
      exact ⟨_, 2, endsBy_prove hfailed nofun⟩
    · exact ⟨_, hends hfirst⟩

/-- Instructions to prove `⊢ p` by the strategy `Repose`, and then by a search. -/
def reposingScript : List (Instruction Unit) :=
  let p := Session.fact (Session.prop "p")
  [.proveBy "Repose" p, .prove p]

/-- A workspace in which `Repose` has these instructions, and three goals may be in progress. -/
def reposingWorkspace : Workspace :=
  ({ maxDepth := some 3 } : Workspace).addStrategy
    (.ofScript "Repose" (Session.fact (Session.prop "p")) reposingScript) .global

/-- In `reposingWorkspace` the search for `⊢ p` does not end. -/
theorem reposing_search_reposingWorkspace :
    reposingWorkspace.Reposing "Repose" (Session.fact (Session.prop "p")) reposingScript ∧
      reposingWorkspace.maxDepth = some 3 ∧
      ¬∃ r, Ends (·.prove (Session.fact (Session.prop "p")))
        { workspace := reposingWorkspace } r := by
  have hws : reposingWorkspace.Reposing "Repose" (Session.fact (Session.prop "p"))
      reposingScript :=
    ⟨rfl, rfl, rfl, by decide⟩
  have hends := (reposing_search _ _ _ { workspace := reposingWorkspace } hws
    (Session.fact (Session.prop "p"))).2.2 (by decide +kernel)
  exact ⟨hws, rfl, mt hends.mp (by decide +kernel)⟩

end Prover

end HolSearch
