import HolSearch.Proofs.Search.Tracking

/-!
# Searches leave the state as they found it

The instructions of a strategy push derived theorems, a search pushes its goal, and a proof block
opens a scope and adds theorems to it.  All of this is undone on every way out.  So a search changes
nothing but the journal, and since it does not read the journal, its outcome depends only on the
workspace and the derived theorems that it starts with: it is `Neutral`.

Neutral alternatives cannot influence each other.  The outcome of a choice between them is the first
that is not a failure among the outcomes that they have in the state before the choice, whatever has
been tried in between (`outcome_firstOf`).  `Prover.ChoosesInPlace` says this of all choices that
searches make.
-/

namespace HolSearch

namespace ProofM

variable {ε α β : Type}

/-- The operation leaves the workspace and the derived theorems as they were, however it ends, and
its outcome depends on nothing else. -/
structure Neutral (m : ProofM ε α) : Prop where
  workspace : ∀ s, (m.run s).2.workspace = s.workspace
  derived : ∀ s, (m.run s).2.derived = s.derived
  outcome : ∀ s s' : ProofState, s'.workspace = s.workspace → s'.derived = s.derived →
    (m.run s').1 = (m.run s).1

/-- An operation is neutral just if it follows itself. -/
theorem neutral_iff_tracks [CutOff ε] {m : ProofM ε α} :
    Neutral m ↔ ∀ ws ds, Tracks True ws ws ds m m := by
  constructor
  · rintro h ws ds s s' ⟨rfl, rfl⟩ ⟨hworkspace, hderived⟩
    refine ⟨⟨h.workspace s, h.derived s⟩, ?_⟩
    by_cases hr : (m.run s).1 = .error CutOff.cutOff
    · exact .cutOff trivial hr
    · have hsame : m.run s' = ((m.run s).1, (m.run s').2) :=
        Prod.ext (h.outcome s s' hworkspace hderived) rfl
      rw [hsame]
      exact .same hr ⟨(h.workspace s').trans hworkspace, (h.derived s').trans hderived⟩
  · intro h
    refine ⟨fun s => (h _ _ s s ⟨rfl, rfl⟩ ⟨rfl, rfl⟩).1.workspace,
      fun s => (h _ _ s s ⟨rfl, rfl⟩ ⟨rfl, rfl⟩).1.derived, fun s s' hworkspace hderived => ?_⟩
    exact (h _ _).outcome_eq_of_symm (h _ _) ⟨rfl, rfl⟩ ⟨hworkspace, hderived⟩

/-- An operation stops where its first part does. -/
theorem outcome_bind_of_error {m : ProofM ε α} {f : α → ProofM ε β} {s : ProofState} {e : ε}
    (h : (m.run s).1 = .error e) : ((m >>= f).run s).1 = .error e := by
  rw [run_bind]
  generalize m.run s = done at h
  obtain ⟨r, t⟩ := done
  cases h
  rfl

namespace Neutral

theorem tracks [CutOff ε] {m : ProofM ε α} (h : Neutral m) (ws : Workspace) (ds : Stack Theorem) :
    Tracks True ws ws ds m m :=
  neutral_iff_tracks.mp h ws ds

theorem of_tracks [CutOff ε] {m : ProofM ε α} (h : ∀ ws ds, Tracks True ws ws ds m m) : Neutral m :=
  neutral_iff_tracks.mpr h

theorem outcome_bind {m : ProofM ε α} {f : α → ProofM ε β} (hm : Neutral m)
    (hf : ∀ a, Neutral (f a)) (s : ProofState) :
    ((m >>= f).run s).1 = (m.run s).1 >>= fun a => ((f a).run s).1 := by
  have hworkspace := hm.workspace s
  have hderived := hm.derived s
  rw [run_bind]
  generalize m.run s = done at hworkspace hderived
  obtain ⟨r, t⟩ := done
  cases r with
  | error e => rfl
  | ok a => exact (hf a).outcome s t hworkspace hderived

theorem bind {m : ProofM Stop α} {f : α → ProofM Stop β} (hm : Neutral m)
    (hf : ∀ a, Neutral (f a)) : Neutral (m >>= f) :=
  .of_tracks fun ws ds => (hm.tracks ws ds).bind fun a => (hf a).tracks ws ds

theorem firstOf {f : α → ProofM Stop β} {as : List α} (h : ∀ a ∈ as, Neutral (f a)) :
    Neutral (firstOf f as) :=
  .of_tracks fun ws ds => .firstOf fun a ha => (h a ha).tracks ws ds

end Neutral

/-! ## Choices between neutral alternatives -/

/-- The first outcome that is not a failure. -/
def firstEnd : List (Except Stop α) → Except Stop α
  | [] => .error .failed
  | .error .failed :: rest => firstEnd rest
  | r :: _ => r

theorem firstEnd_singleton (r : Except Stop α) : firstEnd [r] = r := by
  match r with
  | .ok a => rfl
  | .error .failed => rfl
  | .error .exhausted => rfl

theorem firstEnd_cons (r : Except Stop α) (rs : List (Except Stop α)) :
    firstEnd (r :: rs) = firstEnd [r, firstEnd rs] := by
  match r with
  | .ok a => rfl
  | .error .failed => exact (firstEnd_singleton (firstEnd rs)).symm
  | .error .exhausted => rfl

theorem firstEnd_append (xs ys : List (Except Stop α)) :
    firstEnd (xs ++ ys) = firstEnd [firstEnd xs, firstEnd ys] := by
  induction xs with
  | nil => exact (firstEnd_singleton (firstEnd ys)).symm
  | cons x xs ih =>
      match x with
      | .ok a => rfl
      | .error .failed => exact ih
      | .error .exhausted => rfl

/-- A choice fails or ends like one of the alternatives. -/
theorem firstEnd_map_of_forall {P : Except Stop β → Prop} {f : α → Except Stop β} {as : List α}
    (hfailed : P (.error .failed)) (h : ∀ a ∈ as, P (f a)) : P (firstEnd (as.map f)) := by
  induction as with
  | nil => exact hfailed
  | cons a as ih =>
      rw [List.forall_mem_cons] at h
      obtain ⟨hfirst, hrest⟩ := h
      rw [List.map_cons]
      generalize f a = r at hfirst
      match r with
      | .ok b => exact hfirst
      | .error .failed => exact ih hrest
      | .error .exhausted => exact hfirst

theorem outcome_orElse {m : ProofM Stop α} {n : Unit → ProofM Stop α} (hm : Neutral m)
    (hn : Neutral (n ())) (s : ProofState) :
    ((orElse m n).run s).1 = firstEnd [(m.run s).1, ((n ()).run s).1] := by
  have hworkspace := hm.workspace s
  have hderived := hm.derived s
  rw [run_orElse]
  generalize m.run s = done at hworkspace hderived
  obtain ⟨r, t⟩ := done
  cases r with
  | ok a => rfl
  | error stop =>
      cases stop with
      | exhausted => rfl
      | failed =>
          rw [firstEnd, firstEnd_singleton]
          exact hn.outcome s t hworkspace hderived

/-- Each alternative has the outcome that it has in the state before the choice. -/
theorem outcome_firstOf {f : α → ProofM Stop β} {as : List α} (h : ∀ a ∈ as, Neutral (f a))
    (s : ProofState) :
    ((firstOf f as).run s).1 = firstEnd (as.map fun a => ((f a).run s).1) := by
  induction as with
  | nil => rfl
  | cons a as ih =>
      rw [List.forall_mem_cons] at h
      calc ((firstOf f (a :: as)).run s).1
          = firstEnd [((f a).run s).1, ((firstOf f as).run s).1] :=
            outcome_orElse h.1 (.firstOf h.2) s
        _ = firstEnd [((f a).run s).1, firstEnd (as.map fun a => ((f a).run s).1)] := by
            rw [ih h.2]
        _ = firstEnd ((a :: as).map fun a => ((f a).run s).1) := (firstEnd_cons _ _).symm

theorem firstChoice_eq_firstOf (f : α → ProofM Stop β) (choices : Choices α) :
    firstChoice f choices = firstOf f choices.toList := by
  induction choices with
  | nil => rfl
  | cons a rest ih =>
      rw [firstChoice, Choices.toList_cons, firstOf]
      exact congrArg _ (funext fun _ => ih ())

theorem outcome_firstChoice {f : α → ProofM Stop β} (h : ∀ a, Neutral (f a)) (choices : Choices α)
    (s : ProofState) :
    ((firstChoice f choices).run s).1 = firstEnd (choices.toList.map fun a => ((f a).run s).1) := by
  rw [firstChoice_eq_firstOf]
  exact outcome_firstOf (fun a _ => h a) s

/-- Choices between choices are made as if they were one. -/
theorem firstEnd_flatMap (f : α → List (Except Stop β)) (as : List α) :
    firstEnd (as.map fun a => firstEnd (f a)) = firstEnd (as.flatMap f) := by
  induction as with
  | nil => rfl
  | cons a as ih =>
      rw [List.map_cons, firstEnd_cons, ih, List.flatMap_cons, firstEnd_append]

/-! ## Outcomes of the operations of a search -/

theorem outcome_record_bind (e : Event) {f : Unit → ProofM ε α} (hf : Neutral (f ()))
    (s : ProofState) : ((record e >>= f).run s).1 = ((f ()).run s).1 :=
  hf.outcome s { s with journal := s.journal.add e } rfl rfl

theorem neutral_instance? (thm : Theorem) (goal : Conjecture) :
    Neutral (instance? thm goal : ProofM Stop (Option Theorem)) :=
  .of_tracks fun _ _ => .instance? rfl thm goal

theorem outcome_instance? (thm : Theorem) (goal : Conjecture) (s : ProofState) :
    ((instance? thm goal : ProofM Stop (Option Theorem)).run s).1 =
      .ok (s.workspace.kernel.instance? thm goal) := by
  unfold instance? Kernel.instance?
  rw [run_workspace_bind]
  rcases s.workspace.kernel.matchGoal? thm goal with _ | _ | _
  · rfl
  · rfl
  · rfl

theorem neutral_firstInstance? (goal : Conjecture) (thms : List Theorem) :
    Neutral (firstInstance? goal thms : ProofM Stop (Option Theorem)) :=
  .of_tracks fun _ _ => .firstInstance? rfl goal thms

theorem outcome_firstInstance? (goal : Conjecture) (thms : List Theorem) (s : ProofState) :
    ((firstInstance? goal thms : ProofM Stop (Option Theorem)).run s).1 =
      .ok (thms.findSome? (s.workspace.kernel.instance? · goal)) := by
  induction thms with
  | nil => rfl
  | cons thm thms ih =>
      unfold firstInstance?
      rw [(neutral_instance? thm goal).outcome_bind, outcome_instance?, List.findSome?_cons]
      · cases s.workspace.kernel.instance? thm goal with
        | none => exact ih
        | some inst => rfl
      · intro found
        cases found with
        | none => exact neutral_firstInstance? goal thms
        | some inst => exact .of_tracks fun _ _ => .pure _

theorem neutral_instances (goal : Conjecture) (thms : List Theorem) :
    Neutral (instances goal thms : ProofM Stop (List Theorem)) :=
  .of_tracks fun _ _ => .instances rfl goal thms

theorem outcome_instances (goal : Conjecture) (thms : List Theorem) (s : ProofState) :
    ((instances goal thms : ProofM Stop (List Theorem)).run s).1 =
      .ok (thms.filterMap (s.workspace.kernel.instance? · goal)) := by
  induction thms with
  | nil => rfl
  | cons thm thms ih =>
      unfold instances
      have hrest : ∀ inst : Option Theorem, Neutral (do
          let insts ← instances goal thms
          return inst.toList ++ insts : ProofM Stop (List Theorem)) :=
        fun inst => .of_tracks fun _ _ => (Tracks.instances rfl goal thms).bind fun _ => .pure _
      rw [(neutral_instance? thm goal).outcome_bind hrest, outcome_instance?]
      change ((instances goal thms >>= _ : ProofM Stop (List Theorem)).run s).1 = _
      rw [(neutral_instances goal thms).outcome_bind (fun _ => .of_tracks fun _ _ => .pure _), ih]
      rw [List.filterMap_cons]
      cases s.workspace.kernel.instance? thm goal with
      | none => rfl
      | some inst => rfl

section

variable {use : Theorem → ProofM Stop α} {search : ProofM Stop α}
variable (huse : ∀ thm, Neutral (use thm)) (hsearch : Neutral search)

include huse hsearch

theorem neutral_known_or_search (goal : Conjecture) : Neutral (do
    let known ← instances goal (← derived)
    orElse (firstOf use known) fun _ => search : ProofM Stop α) := by
  refine .of_tracks fun ws ds => .derived_bind ?_
  refine (Tracks.instances rfl goal ds.items).bind fun known => .orElse ?_ (hsearch.tracks ws ds)
  exact .firstOf fun thm _ => (huse thm).tracks ws ds

/-- A choice between the derived theorems that prove a goal and a search for it. -/
theorem outcome_known_or_search (goal : Conjecture) (s : ProofState) :
    ((do
      let known ← instances goal (← derived)
      orElse (firstOf use known) fun _ => search : ProofM Stop α).run s).1 =
      firstEnd ((s.derived.items.filterMap (s.workspace.kernel.instance? · goal)).map
        (fun thm => ((use thm).run s).1) ++ [(search.run s).1]) := by
  have hfirst : ∀ known, Neutral (firstOf use known) := fun known => .firstOf fun thm _ => huse thm
  have hchoice : ∀ known, Neutral (orElse (firstOf use known) fun _ => search) :=
    fun known => .of_tracks fun ws ds =>
      .orElse ((hfirst known).tracks ws ds) (hsearch.tracks ws ds)
  change ((instances goal s.derived.items >>= fun known =>
    orElse (firstOf use known) fun _ => search).run s).1 = _
  rw [(neutral_instances goal _).outcome_bind hchoice, outcome_instances, firstEnd_append,
    firstEnd_singleton, ← outcome_firstOf fun thm _ => huse thm]
  exact outcome_orElse (hfirst _) hsearch s

end

end ProofM

open ProofM

/-! ## Searches -/

namespace Prover

variable (fuel : Nat) (goal : Conjecture)

theorem alike_self (ws : Workspace) : Alike True ws ws (ofFuel fuel) (ofFuel fuel) :=
  alike_ofFuel (Nat.le_refl fuel) (ws.sameLimit_self fuel)

theorem neutral_prove : Neutral ((ofFuel fuel).prove goal) :=
  .of_tracks fun ws ds => (alike_self fuel ws).prove ds goal

theorem neutral_apply (strategy : Strategy) : Neutral ((ofFuel fuel).apply strategy goal) :=
  .of_tracks fun ws ds => (alike_self fuel ws).apply ds strategy goal

theorem neutral_search : Neutral ((ofFuel fuel).search goal) :=
  .of_tracks fun ws ds => tracks_search ⟨rfl, rfl⟩ rfl fun strategy _ =>
    (alike_self fuel ws).apply ds strategy goal

theorem neutral_tryProve : Neutral ((ofFuel fuel).tryProve goal) :=
  .of_tracks fun ws ds => tracks_tryProve rfl ((alike_self fuel ws).prove ds goal)

theorem neutral_proveBy (name : Name) : Neutral ((ofFuel fuel).proveBy name goal) :=
  .of_tracks fun ws ds =>
    tracks_proveBy rfl fun strategy _ => (alike_self fuel ws).apply ds strategy goal

theorem neutral_proveBlock (steps : List Step) : Neutral ((ofFuel fuel).proveBlock goal steps) :=
  .of_tracks fun ws ds =>
    tracks_proveBlock_ofFuel (Nat.le_refl fuel) (ws.sameLimit_self fuel) ds goal steps

theorem neutral_step (name : Name) (i : Nat) (instructions : List (Instruction Mark))
    (assigned : MetaSubst) :
    Neutral (Run.step (ofFuel fuel) goal name i instructions assigned) := by
  refine .of_tracks fun ws ds => ?_
  have halike := alike_self fuel ws
  refine Run.tracks_step ⟨rfl, rfl⟩ halike.prove name i instructions assigned fun other _ _ => ?_
  exact ⟨rfl, fun strategy _ ds conj => halike.apply ds strategy conj⟩

theorem neutral_offer {thm : Theorem} {next : ProofM Stop Theorem} (hnext : Neutral next) :
    Neutral (Run.offer goal thm next) :=
  .of_tracks fun ws ds => Run.tracks_offer rfl (hnext.tracks ws (ds.push thm))

/-- Each operation of the prover on the goal leaves the state as it found it, however it ends. -/
structure LeavesState (prover : Prover) (goal : Conjecture) : Prop where
  prove : Neutral (prover.prove goal)
  tryProve : Neutral (prover.tryProve goal)
  proveBy : ∀ name, Neutral (prover.proveBy name goal)
  proveBlock : ∀ steps, Neutral (prover.proveBlock goal steps)
  apply : ∀ strategy, Neutral (prover.apply strategy goal)
  step : ∀ name i instructions assigned,
    Neutral (Run.step prover goal name i instructions assigned)

/-- Wherever a search for the goal chooses, each alternative has the outcome that it has in the
state before the choice. -/
structure ChoosesInPlace (prover : Prover) (goal : Conjecture) : Prop where
  /-- among the visible strategies, if no visible theorem proves the goal -/
  strategies : ∀ s : ProofState, ((prover.search goal).run s).1 =
    match s.workspace.theorems.findSome? (s.workspace.kernel.instance? · goal) with
    | some thm => .ok thm
    | none => firstEnd (s.workspace.strategies.map fun strategy =>
        ((prover.apply strategy goal).run s).1)
  /-- among the assignments by which the pattern of a strategy matches the goal -/
  assignments : ∀ strategy (s : ProofState), ((Run.strategy prover goal strategy).run s).1 =
    firstEnd ((strategy.pattern.matchings goal Subst.empty true false).toList.map fun assigned =>
      ((Run.step prover goal strategy.name 0 strategy.instructions assigned).run
        { s with derived := {} }).1)
  /-- among the derived theorems that prove a subgoal, and after them a search for it -/
  subgoal : ∀ name i (schema : Schema) rest assigned (s : ProofState) conj,
    schema.instantiate s.workspace.kernel assigned goal.premises = .ok conj →
    ((Run.step prover goal name i (.prove schema :: rest) assigned).run s).1 =
      firstEnd ((s.derived.items.filterMap (s.workspace.kernel.instance? · conj)).map (fun thm =>
          ((Run.offer goal thm (Run.step prover goal name (i + 1) rest assigned)).run s).1) ++
        [((prover.prove conj >>= fun thm =>
          Run.offer goal thm (Run.step prover goal name (i + 1) rest assigned)).run s).1])
  /-- among the matches of a pattern with the derived and the visible theorems -/
  patterns : ∀ name i (schema : Schema) rest assigned (s : ProofState),
    ((Run.step prover goal name i (.proveLocal schema :: rest) assigned).run s).1 =
      firstEnd ((s.derived.items ++ s.workspace.theorems).flatMap fun thm =>
        (schema.matchings thm.sequent assigned true false).toList.map fun assigned =>
          ((Run.step prover goal name (i + 1) rest assigned).run s).1)

theorem leavesState_ofFuel : LeavesState (ofFuel fuel) goal where
  prove := neutral_prove fuel goal
  tryProve := neutral_tryProve fuel goal
  proveBy := neutral_proveBy fuel goal
  proveBlock := neutral_proveBlock fuel goal
  apply := neutral_apply fuel goal
  step := neutral_step fuel goal

theorem outcome_search (s : ProofState) : (((ofFuel fuel).search goal).run s).1 =
    match s.workspace.theorems.findSome? (s.workspace.kernel.instance? · goal) with
    | some thm => .ok thm
    | none => firstEnd (s.workspace.strategies.map fun strategy =>
        (((ofFuel fuel).apply strategy goal).run s).1) := by
  have hrest : ∀ found : Option Theorem, Neutral (match found with
      | some thm => return thm
      | none => firstOf (fun strategy => (ofFuel fuel).apply strategy goal) s.workspace.strategies :
        ProofM Stop Theorem) := by
    intro found
    refine .of_tracks fun ws ds => ?_
    cases found with
    | some thm => exact .pure thm
    | none => exact .firstOf fun strategy _ => (neutral_apply fuel goal strategy).tracks ws ds
  have hrun : ((ofFuel fuel).search goal).run s =
      (firstInstance? goal s.workspace.theorems >>= fun found => match found with
        | some thm => return thm
        | none => firstOf (fun strategy => (ofFuel fuel).apply strategy goal)
            s.workspace.strategies).run s := rfl
  rw [hrun, (neutral_firstInstance? goal _).outcome_bind hrest, outcome_firstInstance?]
  cases s.workspace.theorems.findSome? (s.workspace.kernel.instance? · goal) with
  | some thm => rfl
  | none => exact outcome_firstOf (fun strategy _ => neutral_apply fuel goal strategy) s

/-- A goal is refused if it is in progress or the search is too deep already, and searched in the
workspace in which it is in progress otherwise. -/
theorem outcome_prove_succ (s : ProofState) : (((ofFuel (fuel + 1)).prove goal).run s).1 =
    if s.workspace.inProgress goal = true ∨ s.workspace.isAtDepthLimit = true then .error .failed
    else (((ofFuel fuel).search goal).run
      { s with workspace.goals := s.workspace.goals.push goal }).1 := by
  have hrun : ((ofFuel (fuel + 1)).prove goal).run s =
      (if s.workspace.inProgress goal then do
          record (.cycle goal)
          throw .failed
        else if s.workspace.isAtDepthLimit then do
          record (.depthReached goal)
          throw .failed
        else do
          record (.proving goal)
          withGoal goal ((ofFuel fuel).search goal) : ProofM Stop Theorem).run s := rfl
  rw [hrun]
  by_cases hprogress : s.workspace.inProgress goal = true
  · rw [if_pos hprogress, if_pos (Or.inl hprogress)]
    rfl
  · by_cases hlimit : s.workspace.isAtDepthLimit = true
    · rw [if_neg hprogress, if_pos hlimit, if_pos (Or.inr hlimit)]
      rfl
    · rw [if_neg hprogress, if_neg hlimit, if_neg (not_or.mpr ⟨hprogress, hlimit⟩)]
      exact (neutral_search fuel goal).outcome
        { s with workspace.goals := s.workspace.goals.push goal } _ rfl rfl

theorem outcome_strategy (strategy : Strategy) (s : ProofState) :
    ((Run.strategy (ofFuel fuel) goal strategy).run s).1 =
      firstEnd ((strategy.pattern.matchings goal Subst.empty true false).toList.map fun assigned =>
        ((Run.step (ofFuel fuel) goal strategy.name 0 strategy.instructions assigned).run
          { s with derived := {} }).1) := by
  have halternative : ∀ assigned, Neutral (withoutDerived
      (Run.step (ofFuel fuel) goal strategy.name 0 strategy.instructions assigned)) :=
    fun assigned => .of_tracks fun ws _ =>
      .withoutDerived ((neutral_step fuel goal _ _ _ assigned).tracks ws {})
  have hchoice : Neutral
      (firstOf _ (strategy.pattern.matchings goal Subst.empty true false).toList) :=
    .firstOf fun assigned _ => halternative assigned
  have hend : ∀ thm, Neutral (do
      record (.proved strategy.name thm)
      return thm : ProofM Stop Theorem) :=
    fun thm => .of_tracks fun _ _ => (Tracks.record _ _).bind fun _ => .pure thm
  unfold Run.strategy
  rw [firstChoice_eq_firstOf, outcome_record_bind _ (hchoice.bind hend), hchoice.outcome_bind hend,
    outcome_firstOf fun assigned _ => halternative assigned]
  exact bind_pure _

section Steps

variable (name : Name) (i : Nat) (schema : Schema) (rest : List (Instruction Mark))
variable (assigned : MetaSubst) (s : ProofState)

theorem outcome_step_prove (conj : Conjecture)
    (hconj : schema.instantiate s.workspace.kernel assigned goal.premises = .ok conj) :
    ((Run.step (ofFuel fuel) goal name i (.prove schema :: rest) assigned).run s).1 =
      firstEnd ((s.derived.items.filterMap (s.workspace.kernel.instance? · conj)).map (fun thm =>
        ((Run.offer goal thm (Run.step (ofFuel fuel) goal name (i + 1) rest assigned)).run s).1) ++
      [(((ofFuel fuel).prove conj >>= fun thm =>
        Run.offer goal thm
          (Run.step (ofFuel fuel) goal name (i + 1) rest assigned)).run s).1]) := by
  have hoffer : ∀ thm, Neutral
      (Run.offer goal thm (Run.step (ofFuel fuel) goal name (i + 1) rest assigned)) :=
    fun thm => neutral_offer goal (neutral_step fuel goal name (i + 1) rest assigned)
  have hsearch := (neutral_prove fuel conj).bind hoffer
  -- the instruction is recorded and its subgoal is made, and then the choice is in front
  have hrun : (Run.step (ofFuel fuel) goal name i (.prove schema :: rest) assigned).run s =
      (do
        let known ← instances conj (← derived)
        orElse
          (firstOf (fun thm =>
            Run.offer goal thm (Run.step (ofFuel fuel) goal name (i + 1) rest assigned)) known)
          fun _ => (ofFuel fuel).prove conj >>= fun thm =>
            Run.offer goal thm (Run.step (ofFuel fuel) goal name (i + 1) rest assigned)).run
        { s with journal := s.journal.add (.executing name i (.prove schema)) } := by
    rw [Run.step]
    change ((attempt .schematic (schema.instantiate s.workspace.kernel assigned goal.premises) :
      ProofM Stop Conjecture) >>= _).run _ = _
    rw [hconj]
    rfl
  rw [hrun]
  exact Eq.trans ((neutral_known_or_search hoffer hsearch conj).outcome s _ rfl rfl)
    (outcome_known_or_search hoffer hsearch conj s)

theorem outcome_step_proveBy (other : Name) (strategy : Strategy) (conj : Conjecture)
    (hnamed : s.workspace.strategyNamed other = .ok strategy)
    (hconj : schema.instantiate s.workspace.kernel assigned goal.premises = .ok conj) :
    ((Run.step (ofFuel fuel) goal name i (.proveBy other schema :: rest) assigned).run s).1 =
      (((ofFuel fuel).apply strategy conj >>= fun thm =>
        Run.offer goal thm (Run.step (ofFuel fuel) goal name (i + 1) rest assigned)).run s).1 := by
  have hrun : (Run.step (ofFuel fuel) goal name i (.proveBy other schema :: rest) assigned).run s =
      ((ofFuel fuel).apply strategy conj >>= fun thm =>
        Run.offer goal thm (Run.step (ofFuel fuel) goal name (i + 1) rest assigned)).run
        { s with journal := s.journal.add (.executing name i (.proveBy other schema)) } := by
    rw [Run.step]
    change ((attempt .schematic (schema.instantiate s.workspace.kernel assigned goal.premises) :
      ProofM Stop Conjecture) >>= _).run _ = _
    rw [hconj]
    change ((attempt .workspace (s.workspace.strategyNamed other) :
      ProofM Stop Strategy) >>= _).run _ = _
    rw [hnamed]
    rfl
  rw [hrun]
  refine ((neutral_apply fuel conj strategy).bind fun thm => ?_).outcome s _ rfl rfl
  exact neutral_offer goal (neutral_step fuel goal name (i + 1) rest assigned)

theorem outcome_step_proveLocal :
    ((Run.step (ofFuel fuel) goal name i (.proveLocal schema :: rest) assigned).run s).1 =
      firstEnd ((s.derived.items ++ s.workspace.theorems).flatMap fun thm =>
        (schema.matchings thm.sequent assigned true false).toList.map fun assigned =>
          ((Run.step (ofFuel fuel) goal name (i + 1) rest assigned).run s).1) := by
  have hnext := neutral_step fuel goal name (i + 1) rest
  have hmatches : ∀ thm : Theorem, Neutral (firstChoice
      (Run.step (ofFuel fuel) goal name (i + 1) rest)
      (schema.matchings thm.sequent assigned true false)) :=
    fun thm => .of_tracks fun ws ds =>
      .firstChoice (fun assigned => (hnext assigned).tracks ws ds) _
  have hrun : (Run.step (ofFuel fuel) goal name i (.proveLocal schema :: rest) assigned).run s =
      (firstOf (fun thm => firstChoice (Run.step (ofFuel fuel) goal name (i + 1) rest)
          (schema.matchings thm.sequent assigned true false))
        (s.derived.items ++ s.workspace.theorems)).run
        { s with journal := s.journal.add (.executing name i (.proveLocal schema)) } := by
    rw [Run.step]
    rfl
  calc ((Run.step (ofFuel fuel) goal name i (.proveLocal schema :: rest) assigned).run s).1
      = ((firstOf (fun thm => firstChoice (Run.step (ofFuel fuel) goal name (i + 1) rest)
          (schema.matchings thm.sequent assigned true false))
        (s.derived.items ++ s.workspace.theorems)).run s).1 := by
        rw [hrun]
        exact (Neutral.firstOf fun thm _ => hmatches thm).outcome s _ rfl rfl
    _ = firstEnd ((s.derived.items ++ s.workspace.theorems).map fun thm =>
        ((firstChoice (Run.step (ofFuel fuel) goal name (i + 1) rest)
          (schema.matchings thm.sequent assigned true false)).run s).1) :=
        outcome_firstOf (fun thm _ => hmatches thm) s
    _ = _ := by
        rw [← firstEnd_flatMap]
        exact congrArg (firstEnd ∘ (List.map · _))
          (funext fun thm => outcome_firstChoice hnext _ s)

end Steps

/-- Searches leave the workspace and the derived theorems as they were, so each alternative is tried
in the state in which the first one was. -/
theorem search_leaves_state : LeavesState (ofFuel fuel) goal ∧ ChoosesInPlace (ofFuel fuel) goal :=
  ⟨leavesState_ofFuel fuel goal,
    { strategies := outcome_search fuel goal
      assignments := outcome_strategy fuel goal
      subgoal := outcome_step_prove fuel goal
      patterns := outcome_step_proveLocal fuel goal }⟩

end Prover

end HolSearch
