import HolSearch.Proofs.Search.Comparison

/-!
# Walking through two searches

`tracks_step` walks through two runs of the instructions of a strategy, which may ask two different
provers.  It requires of the provers only what these instructions can ask of them: searches, and
runs of the strategies that they name.  The lemmas after it do the same for runs of strategies, for
searches and for commands.

They are put together in `alike_ofFuel`, by induction on the fuel: a prover is followed by one that
has more fuel, and also in a workspace that has another bound on the depth, as long as the bounds
refuse the same goals.  There the fuel of the first prover counts, since it is the number of goals
that can come into progress before the search is cut off.
-/

namespace HolSearch

open ProofM

/-! ## Runs of strategies -/

/-- The workspaces have the same kernel and the same visible theorems. -/
structure Workspace.SameFacts (ws ws' : Workspace) : Prop where
  kernel : ws'.kernel = ws.kernel
  theorems : ws'.theorems = ws.theorems

theorem Workspace.inProgress_congr {ws ws' : Workspace} (hgoals : ws'.goals = ws.goals)
    {goal : Conjecture} : ws'.inProgress goal = ws.inProgress goal := by
  unfold inProgress
  rw [hgoals]

namespace Run

variable {cut : Prop} {ws ws' : Workspace} {ds : Stack Theorem} {prover prover' : Prover}
variable {goal : Conjecture}

section

variable (hkernel : ws'.kernel = ws.kernel)

include hkernel

theorem tracks_attempt {ε α : Type} (fault : ε → Fault) (f : Kernel → Except ε α) :
    Tracks cut ws ws' ds (do attempt fault (f (← workspace).kernel))
      (do attempt fault (f (← workspace).kernel)) := by
  refine .workspace_bind ?_
  rw [hkernel]
  exact .attempt fault _

theorem tracks_conjecture (s : Schema) (assigned : MetaSubst) :
    Tracks cut ws ws' ds (conjecture goal s assigned) (conjecture goal s assigned) :=
  tracks_attempt hkernel .schematic fun k => s.instantiate k assigned goal.premises

theorem tracks_term (t : MetaTerm) (assigned : MetaSubst) :
    Tracks cut ws ws' ds (term t assigned) (term t assigned) :=
  tracks_attempt hkernel .schematic fun k => t.instantiate k assigned

theorem tracks_var (v : MetaVar) (assigned : MetaSubst) :
    Tracks cut ws ws' ds (var v assigned) (var v assigned) :=
  tracks_attempt hkernel .schematic fun k => v.instantiate k assigned

theorem tracks_type (ty : MetaType) (assigned : MetaSubst) :
    Tracks cut ws ws' ds (type ty assigned) (type ty assigned) :=
  tracks_attempt hkernel .schematic fun k => ty.instantiate k assigned

theorem tracks_infer (i : Inference) : Tracks cut ws ws' ds (infer i) (infer i) :=
  (Tracks.record _ _).bind fun _ => tracks_attempt hkernel .kernel fun k => k.infer i

theorem tracks_operand
    (hprove : ∀ conj, Tracks cut ws ws' ds (prover.prove conj) (prover'.prove conj))
    (s : Schema) (assigned : MetaSubst) :
    Tracks cut ws ws' ds (operand prover goal s assigned) (operand prover' goal s assigned) := by
  refine (tracks_conjecture hkernel s assigned).bind fun conj => .derived_bind ?_
  refine (Tracks.firstInstance? hkernel conj ds.items).bind fun found => ?_
  cases found with
  | none => exact hprove conj
  | some thm => exact .pure thm

theorem tracks_offer {thm : Theorem} {next next' : ProofM Stop Theorem}
    (hnext : Tracks cut ws ws' (ds.push thm) next next') :
    Tracks cut ws ws' ds (offer goal thm next) (offer goal thm next') := by
  refine (Tracks.instance? hkernel thm goal).bind fun found => ?_
  cases found with
  | none => exact .withDerived hnext
  | some inst => exact .pure inst

end

/-- A run of instructions follows another if this holds of the searches and of the runs of named
strategies that they ask for. -/
theorem tracks_step (hws : ws.SameFacts ws')
    (hprove : ∀ ds conj, Tracks cut ws ws' ds (prover.prove conj) (prover'.prove conj))
    (name : Name) (i : Nat) (instructions : List (Instruction Mark)) (assigned : MetaSubst)
    (hnamed : ∀ other s, .proveBy other s ∈ instructions →
      ws'.strategyNamed other = ws.strategyNamed other ∧
      ∀ strategy, ws.strategyNamed other = .ok strategy →
        ∀ ds conj, Tracks cut ws ws' ds (prover.apply strategy conj)
          (prover'.apply strategy conj)) :
    Tracks cut ws ws' ds (step prover goal name i instructions assigned)
      (step prover' goal name i instructions assigned) := by
  induction instructions generalizing i assigned ds with
  | nil => exact .failed
  | cons instruction rest ih =>
      have hkernel := hws.kernel
      have hrest : ∀ ds assigned, Tracks cut ws ws' ds
          (step prover goal name (i + 1) rest assigned)
          (step prover' goal name (i + 1) rest assigned) :=
        fun ds assigned => ih (i + 1) assigned
          fun other s hmem => hnamed other s (List.mem_cons_of_mem _ hmem)
      have hoperand : ∀ s, Tracks cut ws ws' ds (operand prover goal s assigned)
          (operand prover' goal s assigned) :=
        fun s => tracks_operand hkernel (hprove ds) s assigned
      have hoffer : ∀ thm, Tracks cut ws ws' ds
          (offer goal thm (step prover goal name (i + 1) rest assigned))
          (offer goal thm (step prover' goal name (i + 1) rest assigned)) :=
        fun thm => tracks_offer hkernel (hrest (ds.push thm) assigned)
      have hrule : ∀ inference : Inference, Tracks cut ws ws' ds
          (do offer goal (← infer inference) (step prover goal name (i + 1) rest assigned))
          (do offer goal (← infer inference) (step prover' goal name (i + 1) rest assigned)) :=
        fun inference => (tracks_infer hkernel inference).bind hoffer
      unfold step
      refine (Tracks.record _ _).bind fun _ => ?_
      cases instruction with
      | prove s =>
          refine (tracks_conjecture hkernel s assigned).bind fun conj => .derived_bind ?_
          refine (Tracks.instances hkernel conj ds.items).bind fun known => ?_
          exact .orElse (.firstOf fun thm _ => hoffer thm) ((hprove ds conj).bind hoffer)
      | proveLocal s =>
          refine .derived_bind (.workspace_bind ?_)
          rw [hws.theorems]
          exact .firstOf fun thm _ => .firstChoice (hrest ds) _
      | proveBy other s =>
          obtain ⟨hsame, happly⟩ := hnamed other s List.mem_cons_self
          refine (tracks_conjecture hkernel s assigned).bind fun conj => .workspace_bind ?_
          rw [hsame]
          refine .attempt_bind fun strategy hstrategy => ?_
          exact (happly strategy hstrategy ds conj).bind hoffer
      | refl t => exact (tracks_term hkernel t assigned).bind fun t => hrule (.reflexivity t)
      | cong fg xy =>
          exact (hoperand fg).bind fun fg => (hoperand xy).bind fun xy => hrule (.congruence fg xy)
      | abs v pq =>
          refine (tracks_var hkernel v assigned).bind fun v => ?_
          exact (hoperand pq).bind fun pq => hrule (.abstraction v pq)
      | typeAbs ty pq =>
          refine (tracks_type hkernel ty assigned).bind fun ty => ?_
          exact (hoperand pq).bind fun pq => hrule (.typeAbstraction ty pq)
      | beta v body =>
          refine (tracks_var hkernel v assigned).bind fun v => ?_
          exact (tracks_term hkernel body assigned).bind fun body => hrule (.betaReduction v body)
      | assume p => exact (tracks_term hkernel p assigned).bind fun p => hrule (.assume p)
      | eqMp major minor =>
          refine (hoperand major).bind fun major => ?_
          exact (hoperand minor).bind fun minor => hrule (.modusPonens major minor)
      | antisym left right =>
          refine (hoperand left).bind fun left => ?_
          exact (hoperand right).bind fun right => hrule (.antisymmetry left right)

/-- A run of a strategy starts without derived theorems, so it asks the same in every state. -/
theorem tracks_strategy (hws : ws.SameFacts ws')
    (hprove : ∀ ds conj, Tracks cut ws ws' ds (prover.prove conj) (prover'.prove conj))
    (s : Strategy)
    (hnamed : ∀ other schema, .proveBy other schema ∈ s.instructions →
      ws'.strategyNamed other = ws.strategyNamed other ∧
      ∀ strategy, ws.strategyNamed other = .ok strategy →
        ∀ ds conj, Tracks cut ws ws' ds (prover.apply strategy conj)
          (prover'.apply strategy conj)) :
    Tracks cut ws ws' ds (strategy prover goal s) (strategy prover' goal s) := by
  refine (Tracks.record _ _).bind fun _ => ?_
  refine (Tracks.firstChoice (fun assigned => ?_) _).bind fun thm => ?_
  · exact .withoutDerived (tracks_step hws hprove s.name 0 s.instructions assigned hnamed)
  · exact (Tracks.record _ _).bind fun _ => .pure thm

end Run

/-! ## Searches -/

namespace Prover

variable {cut : Prop} {ws ws' : Workspace} {ds : Stack Theorem} {prover prover' : Prover}
variable {goal : Conjecture}

theorem tracks_search (hws : ws.SameFacts ws') (hstrategies : ws'.strategies = ws.strategies)
    (happly : ∀ strategy ∈ ws.strategies,
      Tracks cut ws ws' ds (prover.apply strategy goal) (prover'.apply strategy goal)) :
    Tracks cut ws ws' ds (prover.search goal) (prover'.search goal) := by
  refine .workspace_bind ?_
  rw [hws.theorems, hstrategies]
  refine (Tracks.firstInstance? hws.kernel goal ws.theorems).bind fun found => ?_
  cases found with
  | some thm => exact .pure thm
  | none => exact .firstOf happly

/-- A goal that is refused is refused in both workspaces, so only what is searched matters. -/
theorem tracks_pose (hgoals : ws'.goals = ws.goals)
    (hlimit : ws'.isAtDepthLimit = ws.isAtDepthLimit)
    (hsearch : ws.isAtDepthLimit = false →
      Tracks cut { ws with goals := ws.goals.push goal }
        { ws' with goals := ws'.goals.push goal } ds
        (prover.search goal) (prover'.search goal)) :
    Tracks cut ws ws' ds (prover.pose goal) (prover'.pose goal) := by
  refine .workspace_bind ?_
  rw [Workspace.inProgress_congr hgoals, hlimit]
  split
  · exact (Tracks.record _ _).bind fun _ => .failed
  · split
    · exact (Tracks.record _ _).bind fun _ => .failed
    · rename_i hfree
      refine (Tracks.record _ _).bind fun _ => .withGoal goal (hsearch ?_)
      exact eq_false_of_ne_true hfree

end Prover

/-! ## Commands -/

theorem Stop.toError_eq_cutOff_iff (goal : Conjecture) (e : Stop) :
    e.toError goal = CutOff.cutOff ↔ e = CutOff.cutOff := by
  cases e with
  | failed => exact ⟨nofun, nofun⟩
  | exhausted => exact ⟨fun _ => rfl, fun _ => rfl⟩

namespace Workspace

theorem strategyNamed_ne_cutOff (ws : Workspace) (name : Name) :
    ws.strategyNamed name ≠ .error CutOff.cutOff := by
  unfold strategyNamed
  split
  · exact nofun
  · exact nofun

/-- Make theorems of the current scope, the first of them first. -/
def keepTheorems (ws : Workspace) (thms : List Theorem) : Workspace := thms.foldl keepTheorem ws

theorem keepTheorems_newScope (ws : Workspace) (thms : List Theorem) :
    ws.newScope.keepTheorems thms =
      { ws with scopes := ws.scopes.push { theorems := thms } } := by
  have hkept : ∀ kept : List Theorem,
      keepTheorems { ws with scopes := ws.scopes.push { theorems := kept } } thms =
        { ws with scopes := ws.scopes.push { theorems := kept ++ thms } } := by
    induction thms with
    | nil =>
        intro kept
        rw [List.append_nil]
        rfl
    | cons thm thms ih =>
        intro kept
        rw [List.append_cons]
        exact ih (kept ++ [thm])
  exact hkept []

/-- A scope to which only theorems have been added ends without a trace. -/
theorem endScope_keepTheorems_newScope (ws : Workspace) (thms : List Theorem) :
    (ws.newScope.keepTheorems thms).endScope = .ok ws := by
  rw [keepTheorems_newScope]
  rfl

end Workspace

/-- The end of a scope takes away the theorems that were added to it. -/
theorem ProofState.At.leaveScope {ws : Workspace} {ds : Stack Theorem} {t : ProofState}
    (h : ∃ thms, t.At (ws.newScope.keepTheorems thms) ds) :
    ProofState.At (match t.workspace.endScope with
      | .ok ws => { t with workspace := ws }
      | .error _ => t) ws ds := by
  obtain ⟨thms, hworkspace, hderived⟩ := h
  rw [hworkspace, Workspace.endScope_keepTheorems_newScope]
  exact ⟨rfl, hderived⟩

namespace Prover

variable {cut : Prop} {ws ws' : Workspace} {ds : Stack Theorem} {prover prover' : Prover}
variable {goal : Conjecture}

theorem tracks_tryProve (hgoals : ws'.goals = ws.goals)
    (hprove : Tracks cut ws ws' ds (prover.prove goal) (prover'.prove goal)) :
    Tracks cut ws ws' ds (prover.tryProve goal) (prover'.tryProve goal) := by
  refine .workspace_bind ?_
  rw [Workspace.inProgress_congr hgoals]
  split
  · exact .throw nofun
  · exact hprove.adapt (Stop.toError_eq_cutOff_iff goal)

theorem tracks_proveBy {name : Name} (hnamed : ws'.strategyNamed name = ws.strategyNamed name)
    (happly : ∀ strategy, ws.strategyNamed name = .ok strategy →
      Tracks cut ws ws' ds (prover.apply strategy goal) (prover'.apply strategy goal)) :
    Tracks cut ws ws' ds (prover.proveBy name goal) (prover'.proveBy name goal) := by
  refine .workspace_bind ?_
  rw [hnamed]
  refine .liftM_bind (ws.strategyNamed_ne_cutOff name) fun strategy hstrategy => ?_
  exact (happly strategy hstrategy).adapt (Stop.toError_eq_cutOff_iff goal)

theorem run_proveSteps_cons (prover : Prover) (goal : Conjecture) (last : Option Theorem)
    (step : Step) (rest : List Step) (s : ProofState) :
    (prover.proveSteps goal last (step :: rest)).run s =
      match (prover.proveStep step).run s with
      | (.ok thm, t) =>
          (prover.proveSteps goal (some thm) rest).run
            { t with workspace := t.workspace.keepTheorem thm }
      | (.error e, t) => (.error e, t) := by
  rw [proveSteps, run_bind]
  rcases (prover.proveStep step).run s with ⟨_ | _, _⟩
  · rfl
  · rfl

/-- Steps are proved one after the other, each in the workspace that holds those before it, and the
goal after them. -/
theorem follows_proveSteps {steps : List Step} (hstep : ∀ thms, ∀ step ∈ .prove goal :: steps,
      Tracks cut (ws.keepTheorems thms) (ws'.keepTheorems thms) ds (prover.proveStep step)
        (prover'.proveStep step))
    (last : Option Theorem) {s s' : ProofState} (hs : s.At ws ds) (hs' : s'.At ws' ds) :
    (∃ thms, ((prover.proveSteps goal last steps).run s).2.At (ws.keepTheorems thms) ds) ∧
      Follows cut (fun t' => ∃ thms, t'.At (ws'.keepTheorems thms) ds)
        ((prover.proveSteps goal last steps).run s).1
        ((prover'.proveSteps goal last steps).run s') := by
  induction steps generalizing ws ws' last s s' with
  | nil =>
      have hgoal : Tracks cut ws ws' ds (prover.proveSteps goal last [])
          (prover'.proveSteps goal last []) := by
        unfold proveSteps
        split
        · exact .pure _
        · exact hstep [] (.prove goal) List.mem_cons_self
      obtain ⟨ht, hfollows⟩ := hgoal s s' hs hs'
      exact ⟨⟨[], ht⟩, hfollows.mono fun t' ht' => ⟨[], ht'⟩⟩
  | cons step rest ih =>
      obtain ⟨ht, hfollows⟩ :=
        hstep [] step (List.mem_cons_of_mem _ List.mem_cons_self) s s' hs hs'
      rw [run_proveSteps_cons, run_proveSteps_cons]
      generalize (prover.proveStep step).run s = done at ht hfollows
      generalize (prover'.proveStep step).run s' = done' at hfollows
      obtain ⟨r, t⟩ := done
      cases hfollows with
      | @same t' hr ht' =>
          cases r with
          | error e => exact ⟨⟨[], ht⟩, .same hr ⟨[], ht'⟩⟩
          | ok thm =>
              -- the rest is proved in workspaces that hold this theorem too
              have hnext : ProofState.At { t with workspace := t.workspace.keepTheorem thm }
                  (ws.keepTheorem thm) ds :=
                ⟨congrArg (Workspace.keepTheorem · thm) ht.workspace, ht.derived⟩
              have hnext' : ProofState.At { t' with workspace := t'.workspace.keepTheorem thm }
                  (ws'.keepTheorem thm) ds :=
                ⟨congrArg (Workspace.keepTheorem · thm) ht'.workspace, ht'.derived⟩
              have hrest : ∀ thms, ∀ step ∈ .prove goal :: rest,
                  Tracks cut ((ws.keepTheorem thm).keepTheorems thms)
                    ((ws'.keepTheorem thm).keepTheorems thms) ds (prover.proveStep step)
                    (prover'.proveStep step) := by
                intro thms step hmem
                refine hstep (thm :: thms) step ?_
                simp only [List.mem_cons] at hmem ⊢
                exact hmem.imp_right Or.inr
              obtain ⟨⟨thms, hend⟩, hfollows⟩ := ih hrest (some thm) hnext hnext'
              exact ⟨⟨thm :: thms, hend⟩,
                hfollows.mono fun _ ⟨thms, hend'⟩ => ⟨thm :: thms, hend'⟩⟩
      | cutOff hcut hr =>
          cases hr
          exact ⟨⟨[], ht⟩, .cutOff hcut rfl⟩

theorem tracks_proveBlock_of_mem {steps : List Step}
    (hstep : ∀ thms, ∀ step ∈ .prove goal :: steps,
      Tracks cut (ws.newScope.keepTheorems thms) (ws'.newScope.keepTheorems thms) ds
        (prover.proveStep step) (prover'.proveStep step)) :
    Tracks cut ws ws' ds (prover.proveBlock goal steps) (prover'.proveBlock goal steps) := by
  refine (Tracks.record _ _).bind fun _ => .between (fun s s' hs hs' => ?_)
    (fun _ => .leaveScope) (fun _ => .leaveScope)
  exact follows_proveSteps hstep none ⟨congrArg Workspace.newScope hs.workspace, hs.derived⟩
    ⟨congrArg Workspace.newScope hs'.workspace, hs'.derived⟩

theorem tracks_proveBlock (hstep : ∀ thms step,
      Tracks cut (ws.newScope.keepTheorems thms) (ws'.newScope.keepTheorems thms) ds
        (prover.proveStep step) (prover'.proveStep step)) (steps : List Step) :
    Tracks cut ws ws' ds (prover.proveBlock goal steps) (prover'.proveBlock goal steps) :=
  tracks_proveBlock_of_mem fun thms step _ => hstep thms step

end Prover

/-! ## Fuel and depth -/

namespace Workspace

/-- The workspace with another bound on the depth. -/
def withDepth (ws : Workspace) (depth : Option Nat) : Workspace := { ws with maxDepth := depth }

theorem sameFacts_withDepth (ws : Workspace) (depth : Option Nat) :
    ws.SameFacts (ws.withDepth depth) :=
  ⟨rfl, rfl⟩

/-- As long as fewer than `fuel` goals have come into progress, the bound `depth` refuses a goal
just if the bound of the workspace does. -/
def SameLimit (ws : Workspace) (fuel : Nat) (depth : Option Nat) : Prop :=
  ∀ goals : Stack Conjecture, goals.size < ws.goals.size + fuel →
    ({ ws with goals } : Workspace).isAtDepthLimit =
      ({ ws with goals, maxDepth := depth } : Workspace).isAtDepthLimit

variable {ws : Workspace} {fuel : Nat} {depth : Option Nat}

theorem sameLimit_self (ws : Workspace) (fuel : Nat) : ws.SameLimit fuel ws.maxDepth :=
  fun _ _ => rfl

theorem SameLimit.step (h : ws.SameLimit (fuel + 1) depth) : ws.SameLimit fuel depth :=
  fun goals hgoals => h goals (by omega)

theorem SameLimit.pushGoal (h : ws.SameLimit (fuel + 1) depth) (goal : Conjecture) :
    SameLimit { ws with goals := ws.goals.push goal } fuel depth := by
  intro goals hgoals
  refine h goals ?_
  rw [Stack.size_push] at hgoals
  omega

end Workspace

namespace Prover

/-- The second prover, asked in `ws'`, follows the first, asked in `ws`. -/
structure Alike (cut : Prop) (ws ws' : Workspace) (prover prover' : Prover) : Prop where
  prove : ∀ ds goal, Tracks cut ws ws' ds (prover.prove goal) (prover'.prove goal)
  apply : ∀ ds strategy goal,
    Tracks cut ws ws' ds (prover.apply strategy goal) (prover'.apply strategy goal)

/-- A prover is followed by one with more fuel, and by one that works under another bound on the
depth which refuses the same goals. -/
theorem alike_ofFuel {fuel fuel' : Nat} (hle : fuel ≤ fuel') {ws : Workspace} {depth : Option Nat}
    (hlimit : ws.SameLimit fuel depth) :
    Alike True ws (ws.withDepth depth) (ofFuel fuel) (ofFuel fuel') := by
  induction fuel generalizing fuel' ws with
  | zero => exact ⟨fun _ _ => .exhausted trivial _, fun _ _ _ => .exhausted trivial _⟩
  | succ fuel ih =>
      obtain ⟨more, rfl⟩ : ∃ more, fuel' = more + 1 := ⟨fuel' - 1, by omega⟩
      have hfuel : fuel ≤ more := by omega
      constructor
      · -- the search has a goal more in progress, and one fuel less is left for it
        intro ds goal
        have hsame : (ws.withDepth depth).isAtDepthLimit = ws.isAtDepthLimit :=
          (hlimit ws.goals (by omega)).symm
        refine tracks_pose rfl hsame fun _ => tracks_search ⟨rfl, rfl⟩ rfl fun strategy _ => ?_
        exact (ih hfuel (hlimit.pushGoal goal)).apply ds strategy goal
      · intro ds strategy goal
        have halike := ih hfuel hlimit.step
        refine Run.tracks_strategy (ws.sameFacts_withDepth depth) halike.prove strategy
          fun other _ _ => ?_
        exact ⟨rfl, fun strategy _ ds conj => halike.apply ds strategy conj⟩

section Commands

variable {cut : Prop} {ws : Workspace} {depth : Option Nat} {prover prover' : Prover}

theorem Alike.tryProve (h : Alike cut ws (ws.withDepth depth) prover prover') (ds : Stack Theorem)
    (goal : Conjecture) :
    Tracks cut ws (ws.withDepth depth) ds (prover.tryProve goal) (prover'.tryProve goal) :=
  tracks_tryProve rfl (h.prove ds goal)

theorem Alike.proveBy (h : Alike cut ws (ws.withDepth depth) prover prover') (ds : Stack Theorem)
    (name : Name) (goal : Conjecture) :
    Tracks cut ws (ws.withDepth depth) ds (prover.proveBy name goal) (prover'.proveBy name goal) :=
  tracks_proveBy rfl fun strategy _ => h.apply ds strategy goal

/-- In a proof block the provers are asked in workspaces that hold some steps of it. -/
theorem tracks_proveBlock_of_alike
    (h : ∀ thms, Alike cut (ws.newScope.keepTheorems thms)
      ((ws.newScope.keepTheorems thms).withDepth depth) prover prover')
    (ds : Stack Theorem) (goal : Conjecture) (steps : List Step) :
    Tracks cut ws (ws.withDepth depth) ds (prover.proveBlock goal steps)
      (prover'.proveBlock goal steps) := by
  refine tracks_proveBlock (fun thms step => ?_) steps
  have hdepth : (ws.withDepth depth).newScope.keepTheorems thms =
      (ws.newScope.keepTheorems thms).withDepth depth := by
    rw [Workspace.keepTheorems_newScope, Workspace.keepTheorems_newScope]
    rfl
  rw [hdepth]
  cases step with
  | prove conj => exact (h thms).tryProve ds conj
  | proveBy name conj => exact (h thms).proveBy ds name conj

theorem tracks_proveBlock_ofFuel {fuel fuel' : Nat} (hle : fuel ≤ fuel')
    (hlimit : ws.SameLimit fuel depth) (ds : Stack Theorem) (goal : Conjecture)
    (steps : List Step) :
    Tracks True ws (ws.withDepth depth) ds ((ofFuel fuel).proveBlock goal steps)
      ((ofFuel fuel').proveBlock goal steps) := by
  refine tracks_proveBlock_of_alike (fun thms => alike_ofFuel hle ?_) ds goal steps
  rw [Workspace.keepTheorems_newScope]
  exact hlimit

end Commands

end Prover

end HolSearch
