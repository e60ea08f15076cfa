import HolSearch.Proofs.Search.Neutrality
import HolSearch.Proofs.Search.Soundness
import Mathlib.Order.WellFoundedSet

/-!
# Searches that end

A search ends if some fuel lets it come to an end; more fuel does not change its outcome then.

Two results relate this to the bound on the depth of a search.  The first is that a large enough
bound cannot be noticed: a search that ends without a bound uses a finite amount of fuel, and with
that fuel only so many goals can come into progress (`exists_depth_transparent`).

The second is that every bound makes all searches end, as long as no strategy leads back to itself
by `proveBy` instructions (`bounded_search_ends`).  The proof is by induction on the number of goals
that the bound still admits.  For each number, the strategies that have a name end by induction
along the `proveBy` instructions: these run a strategy on a subgoal without a new goal in progress.
The fuel found on the way must not depend on the goal, so each step is about all workspaces that
have the same strategies and room for as many goals.
-/

namespace HolSearch

open ProofM

namespace Prover

variable {ε α : Type} [CutOff ε]

/-- With the given fuel or more, the command has the outcome `r`, and it is not cut off. -/
structure EndsBy (fuel : Nat) (command : Prover → ProofM ε α) (s : ProofState)
    (r : Except ε α) : Prop where
  not_cutOff : r ≠ .error CutOff.cutOff
  outcome : ∀ more, fuel ≤ more → ((command (ofFuel more)).run s).1 = r

/-- With enough fuel the command has the outcome `r`. -/
def Ends (command : Prover → ProofM ε α) (s : ProofState) (r : Except ε α) : Prop :=
  ∃ fuel, EndsBy fuel command s r

/-- A search that has come to an end does not change with more fuel. -/
theorem endsBy_prove {fuel : Nat} {goal : Conjecture} {s : ProofState} {r : Except Stop Theorem}
    (hrun : (((ofFuel fuel).prove goal).run s).1 = r) (hr : r ≠ .error .exhausted) :
    EndsBy fuel (·.prove goal) s r := by
  refine ⟨hr, fun more hle => ?_⟩
  have halike := alike_ofFuel hle (s.workspace.sameLimit_self fuel)
  rw [(halike.prove s.derived goal).outcome_eq ⟨rfl, rfl⟩ ⟨rfl, rfl⟩ (hrun ▸ hr), hrun]

/-! ## Bounds that are not reached -/

/-- A bound that is out of reach of the fuel refuses as little as no bound. -/
theorem sameLimit_of_le {ws : Workspace} (hdepth : ws.maxDepth = none) {fuel n : Nat}
    (hn : ws.goals.size + fuel ≤ n) : ws.SameLimit fuel (some n) := by
  intro goals hgoals
  have hunbounded : ({ ws with goals } : Workspace).isAtDepthLimit = false := by
    unfold Workspace.isAtDepthLimit
    rw [hdepth]
  have hbounded : ({ ws with goals, maxDepth := some n } : Workspace).isAtDepthLimit = false := by
    refine decide_eq_false ?_
    show ¬n ≤ goals.size
    omega
  rw [hunbounded, hbounded]

/-- If a search ends without a bound on the depth, then it ends in the same way under every bound
that is large enough. -/
theorem exists_depth_transparent (s : ProofState) (goal : Conjecture) (r : Except Stop Theorem)
    (hdepth : s.workspace.maxDepth = none) (hends : Ends (·.prove goal) s r) :
    ∃ N, ∀ n, N ≤ n →
      Ends (·.prove goal) { s with workspace := s.workspace.withDepth (some n) } r := by
  obtain ⟨fuel, hr, houtcome⟩ := hends
  refine ⟨s.workspace.goals.size + fuel, fun n hn => ⟨fuel, hr, fun more hle => ?_⟩⟩
  have hrun := houtcome fuel (Nat.le_refl fuel)
  have halike := alike_ofFuel hle (sameLimit_of_le hdepth hn)
  calc (((ofFuel more).prove goal).run { s with workspace := s.workspace.withDepth (some n) }).1
      = (((ofFuel fuel).prove goal).run s).1 :=
        (halike.prove s.derived goal).outcome_eq ⟨rfl, rfl⟩ ⟨rfl, rfl⟩ (hrun ▸ hr)
    _ = r := hrun

/-- The search for `p = q, r ⊢ q = p` ends with a theorem, and so it does under large bounds. -/
theorem exists_depth_transparent_symmetryGoal :
    symmetryState.workspace.maxDepth = none ∧
      Ends (·.prove symmetryGoal) symmetryState (.ok ⟨Session.symmetricGoal .bool⟩) ∧
      ∃ N, ∀ n, N ≤ n → Ends (·.prove symmetryGoal)
        { symmetryState with workspace := symmetryState.workspace.withDepth (some n) }
        (.ok ⟨Session.symmetricGoal .bool⟩) := by
  have hdepth : symmetryState.workspace.maxDepth = none := by decide +kernel
  have hends : Ends (·.prove symmetryGoal) symmetryState (.ok ⟨Session.symmetricGoal .bool⟩) :=
    ⟨4, endsBy_prove (by decide +kernel) nofun⟩
  exact ⟨hdepth, hends, exists_depth_transparent symmetryState symmetryGoal _ hdepth hends⟩

end Prover

/-! ## Strategies that name each other -/

namespace Workspace

/-- The strategy of the first name has an instruction to run the strategy of the second. -/
def Calls (ws : Workspace) (name other : Name) : Prop :=
  ∃ strategy, ws.strategyNamed name = .ok strategy ∧ ∃ s, .proveBy other s ∈ strategy.instructions

/-- No strategy leads back to itself by such instructions. -/
def CallsAcyclic (ws : Workspace) : Prop := ∀ name, ¬Relation.TransGen ws.Calls name name

/-- The names of strategies. -/
def strategyNames (ws : Workspace) : Set Name :=
  { name | ∃ strategy, ws.strategyNamed name = .ok strategy }

theorem get?_of_strategyNamed {ws : Workspace} {name : Name} {strategy : Strategy}
    (h : ws.strategyNamed name = .ok strategy) : ws.strategyIndex.get? name = some strategy := by
  unfold strategyNamed at h
  split at h
  · rename_i found hfound
    cases h
    exact hfound
  · cases h

theorem finite_strategyNames (ws : Workspace) : ws.strategyNames.Finite := by
  refine Set.Finite.subset (ws.strategyIndex.entries.map Prod.fst).finite_toSet ?_
  rintro name ⟨strategy, hnamed⟩
  exact List.mem_map.mpr ⟨_, Table.mem_entries_of_get? (get?_of_strategyNamed hnamed), rfl⟩

/-- Induction along the instructions of strategies that have a name. -/
theorem CallsAcyclic.induction {ws : Workspace} (h : ws.CallsAcyclic) {P : Name → Prop}
    (hstep : ∀ name, (∀ other ∈ ws.strategyNames, ws.Calls name other → P other) → P name)
    (name : Name) (hname : name ∈ ws.strategyNames) : P name := by
  -- on finitely many names every strict order is well-founded
  let below : Name → Name → Prop := fun other name => Relation.TransGen ws.Calls name other
  have horder : IsStrictOrder Name below :=
    { irrefl := h
      trans := fun _ _ _ hab hbc => hbc.trans hab }
  have hwf : ws.strategyNames.WellFoundedOn below := ws.finite_strategyNames.wellFoundedOn
  refine hwf.induction hname fun name _ ih => hstep name fun other hother hcalls => ?_
  exact ih other hother (.single hcalls)

/-- Names refer to the strategies to which they refer in `ws₀`, and the bound on the depth lets at
most `room` more goals come into progress. -/
structure HasRoom (ws₀ : Workspace) (room : Nat) (ws : Workspace) : Prop where
  named : ∀ name, ws.strategyNamed name = ws₀.strategyNamed name
  bound : ∃ n, ws.maxDepth = some n ∧ n ≤ ws.goals.size + room

variable {ws₀ ws : Workspace} {room : Nat}

theorem HasRoom.pushGoal (h : HasRoom ws₀ (room + 1) ws) (goal : Conjecture) :
    HasRoom ws₀ room { ws with goals := ws.goals.push goal } := by
  obtain ⟨n, hdepth, hn⟩ := h.bound
  refine ⟨h.named, n, hdepth, ?_⟩
  rw [Stack.size_push]
  omega

theorem HasRoom.keepTheorems (h : HasRoom ws₀ room ws) (thms : List Theorem) :
    HasRoom ws₀ room (ws.newScope.keepTheorems thms) := by
  rw [keepTheorems_newScope]
  exact ⟨h.named, h.bound⟩

/-- Without room every goal is refused. -/
theorem HasRoom.isAtDepthLimit (h : HasRoom ws₀ 0 ws) : ws.isAtDepthLimit = true := by
  obtain ⟨n, hdepth, hn⟩ := h.bound
  unfold Workspace.isAtDepthLimit
  rw [hdepth]
  exact decide_eq_true hn

end Workspace

open Workspace

namespace ProofM

variable {ε α : Type} [CutOff ε] {ws : Workspace}

/-- In this workspace the operation is never cut off. -/
def NeverCutOff (ws : Workspace) (m : ProofM ε α) : Prop := ∀ ds, Tracks False ws ws ds m m

theorem NeverCutOff.mono {m m' : ProofM ε α} (h : NeverCutOff ws m)
    (hm : ∀ ds, Tracks True ws ws ds m m') (hm' : ∀ ds, Tracks True ws ws ds m' m') :
    NeverCutOff ws m' := by
  intro ds s s' hs hs'
  have hended := (h ds).outcome_ne hs hs
  have hne : (m'.run s).1 ≠ .error CutOff.cutOff := (hm ds).outcome_eq hs hs hended ▸ hended
  obtain ⟨ht, hfollows⟩ := hm' ds s s' hs hs'
  refine ⟨ht, ?_⟩
  generalize m'.run s' = done' at hfollows
  cases hfollows with
  | same hr ht' => exact .same hr ht'
  | cutOff _ hr => exact absurd hr hne

end ProofM

namespace Prover

section Bounded

variable (ws₀ : Workspace) (room : Nat)

/-- The fuel suffices for searches while there is room for `room` goals. -/
def ProvesBy (fuel : Nat) : Prop :=
  ∀ ws, HasRoom ws₀ room ws → ∀ goal, NeverCutOff ws ((ofFuel fuel).prove goal)

/-- The fuel suffices for runs of the strategy while there is room for `room` goals. -/
def AppliesBy (strategy : Strategy) (fuel : Nat) : Prop :=
  ∀ ws, HasRoom ws₀ room ws → ∀ goal, NeverCutOff ws ((ofFuel fuel).apply strategy goal)

variable {ws₀ room} {fuel more : Nat}

theorem ProvesBy.mono (h : ProvesBy ws₀ room fuel) (hle : fuel ≤ more) : ProvesBy ws₀ room more :=
  fun ws hws goal => (h ws hws goal).mono
    (fun ds => (alike_ofFuel hle (ws.sameLimit_self fuel)).prove ds goal)
    fun ds => (alike_self more ws).prove ds goal

theorem AppliesBy.mono {strategy : Strategy} (h : AppliesBy ws₀ room strategy fuel)
    (hle : fuel ≤ more) : AppliesBy ws₀ room strategy more :=
  fun ws hws goal => (h ws hws goal).mono
    (fun ds => (alike_ofFuel hle (ws.sameLimit_self fuel)).apply ds strategy goal)
    fun ds => (alike_self more ws).apply ds strategy goal

/-- One fuel suffices for all members of a list if some fuel does for each of them. -/
theorem exists_fuel_forall_mem {β : Type} {Q : β → Nat → Prop}
    (hmono : ∀ b fuel more, fuel ≤ more → Q b fuel → Q b more) {bs : List β}
    (h : ∀ b ∈ bs, ∃ fuel, Q b fuel) : ∃ fuel, ∀ b ∈ bs, Q b fuel := by
  induction bs with
  | nil => exact ⟨0, nofun⟩
  | cons b bs ih =>
      rw [List.forall_mem_cons] at h
      obtain ⟨⟨fuel, hfuel⟩, hbs⟩ := h
      obtain ⟨rest, hrest⟩ := ih hbs
      refine ⟨max fuel rest, List.forall_mem_cons.mpr ⟨?_, fun b' hb' => ?_⟩⟩
      · exact hmono b fuel _ (Nat.le_max_left fuel rest) hfuel
      · exact hmono b' rest _ (Nat.le_max_right fuel rest) (hrest b' hb')

/-- A strategy ends if searches do and the strategies that it names. -/
theorem appliesBy_succ (hprove : ProvesBy ws₀ room fuel) {strategy : Strategy}
    (hnamed : ∀ other s, .proveBy other s ∈ strategy.instructions →
      ∀ called, ws₀.strategyNamed other = .ok called → AppliesBy ws₀ room called fuel) :
    AppliesBy ws₀ room strategy (fuel + 1) := by
  intro ws hws goal ds
  refine Run.tracks_strategy ⟨rfl, rfl⟩ (fun ds conj => hprove ws hws conj ds) strategy
    fun other s hmem => ⟨rfl, fun called hcalled ds conj => ?_⟩
  rw [hws.named] at hcalled
  exact hnamed other s hmem called hcalled ws hws conj ds

/-- A strategy that has a name ends, by induction along the instructions that name strategies. -/
theorem exists_appliesBy_named (hacyclic : ws₀.CallsAcyclic) (hprove : ProvesBy ws₀ room fuel)
    {name : Name} {strategy : Strategy} (hstrategy : ws₀.strategyNamed name = .ok strategy) :
    ∃ fuel, AppliesBy ws₀ room strategy fuel := by
  refine hacyclic.induction (P := fun name => ∀ strategy, ws₀.strategyNamed name = .ok strategy →
    ∃ fuel, AppliesBy ws₀ room strategy fuel) ?_ name ⟨strategy, hstrategy⟩ strategy hstrategy
  clear hstrategy
  intro name ih strategy hstrategy
  have hcalled : ∃ enough, ∀ i ∈ strategy.instructions, ∀ other s, i = .proveBy other s →
      ∀ called, ws₀.strategyNamed other = .ok called → AppliesBy ws₀ room called enough := by
    refine exists_fuel_forall_mem (fun i few more hle h other s hi called hnamed =>
      (h other s hi called hnamed).mono hle) fun i hi => ?_
    by_cases hcall : ∃ other s called, i = .proveBy other s ∧ ws₀.strategyNamed other = .ok called
    · obtain ⟨other, s, called, rfl, hnamed⟩ := hcall
      obtain ⟨enough, henough⟩ :=
        ih other ⟨called, hnamed⟩ ⟨strategy, hstrategy, s, hi⟩ called hnamed
      refine ⟨enough, fun other' s' heq called' hnamed' => ?_⟩
      cases heq
      cases hnamed.symm.trans hnamed'
      exact henough
    · exact ⟨0, fun other s heq called hnamed => absurd ⟨other, s, called, heq, hnamed⟩ hcall⟩
  obtain ⟨enough, henough⟩ := hcalled
  refine ⟨max fuel enough + 1, appliesBy_succ (hprove.mono (Nat.le_max_left _ _)) ?_⟩
  intro other s hmem called hnamed
  exact (henough _ hmem other s rfl called hnamed).mono (Nat.le_max_right _ _)

/-- If searches end, then one fuel suffices for them and for every strategy. -/
theorem exists_appliesBy (hacyclic : ws₀.CallsAcyclic) (hprove : ProvesBy ws₀ room fuel) :
    ∃ more, ProvesBy ws₀ room more ∧ ∀ strategy, AppliesBy ws₀ room strategy more := by
  obtain ⟨enough, henough⟩ : ∃ enough, ∀ called ∈ ws₀.strategyIndex.values,
      (∃ name, ws₀.strategyNamed name = .ok called) → AppliesBy ws₀ room called enough := by
    refine exists_fuel_forall_mem (fun called few more hle h hname => (h hname).mono hle)
      fun called _ => ?_
    by_cases hname : ∃ name, ws₀.strategyNamed name = .ok called
    · obtain ⟨name, hnamed⟩ := hname
      obtain ⟨enough, henough⟩ := exists_appliesBy_named hacyclic hprove hnamed
      exact ⟨enough, fun _ => henough⟩
    · exact ⟨0, fun h => absurd h hname⟩
  have hle : fuel ≤ max fuel enough := Nat.le_max_left _ _
  refine ⟨max fuel enough + 1, hprove.mono (by omega), fun strategy => ?_⟩
  refine appliesBy_succ (hprove.mono hle) fun other s _ called hnamed => ?_
  have hmem := Table.mem_values_of_get? (get?_of_strategyNamed hnamed)
  exact (henough called hmem ⟨other, hnamed⟩).mono (Nat.le_max_right _ _)

/-- A search with room for one more goal ends if every strategy ends in the room that is left. -/
theorem provesBy_succ (happly : ∀ strategy, AppliesBy ws₀ room strategy fuel) :
    ProvesBy ws₀ (room + 1) (fuel + 1) := by
  intro ws hws goal ds
  refine tracks_pose rfl rfl fun _ => tracks_search ⟨rfl, rfl⟩ rfl fun strategy _ => ?_
  exact happly strategy _ (hws.pushGoal goal) goal ds

/-- One fuel suffices for all searches and all strategies while there is room for `room` goals. -/
theorem exists_fuel (hacyclic : ws₀.CallsAcyclic) (room : Nat) :
    ∃ fuel, ProvesBy ws₀ room fuel ∧ ∀ strategy, AppliesBy ws₀ room strategy fuel := by
  induction room with
  | zero =>
      have hrefused : ProvesBy ws₀ 0 1 := by
        intro ws hws goal ds
        refine tracks_pose rfl rfl fun hlimit => ?_
        rw [hws.isAtDepthLimit] at hlimit
        cases hlimit
      exact exists_appliesBy hacyclic hrefused
  | succ room ih =>
      obtain ⟨fuel, -, happly⟩ := ih
      exact exists_appliesBy hacyclic (provesBy_succ happly)

end Bounded

/-- A command ends that is never cut off and that more fuel does not change. -/
theorem exists_endsBy {ε α : Type} [CutOff ε] {command : Prover → ProofM ε α} {fuel : Nat}
    {s : ProofState} (hended : NeverCutOff s.workspace (command (ofFuel fuel)))
    (hmore : ∀ more, fuel ≤ more → Tracks True s.workspace s.workspace s.derived
      (command (ofFuel fuel)) (command (ofFuel more))) : ∃ r, EndsBy fuel command s r := by
  have hne := (hended s.derived).outcome_ne ⟨rfl, rfl⟩ ⟨rfl, rfl⟩
  exact ⟨_, hne, fun more hle => (hmore more hle).outcome_eq ⟨rfl, rfl⟩ ⟨rfl, rfl⟩ hne⟩

/-- **A bound on the depth makes searches end**, unless a strategy leads back to itself by
instructions that name strategies: one fuel suffices for all goals and all proof blocks. -/
theorem bounded_search_ends (ws : Workspace) (n : Nat) (hdepth : ws.maxDepth = some n)
    (hacyclic : ws.CallsAcyclic) :
    ∃ fuel, ∀ s : ProofState, s.workspace = ws → ∀ goal,
      (∃ r, EndsBy fuel (·.prove goal) s r) ∧
      (∃ r, EndsBy fuel (·.tryProve goal) s r) ∧
      (∀ name, ∃ r, EndsBy fuel (·.proveBy name goal) s r) ∧
      (∀ steps, ∃ r, EndsBy fuel (·.proveBlock goal steps) s r) ∧
      ∀ strategy, ∃ r, EndsBy fuel (·.apply strategy goal) s r := by
  obtain ⟨fuel, hprove, happly⟩ := exists_fuel hacyclic n
  have hroom : HasRoom ws n ws := ⟨fun _ => rfl, n, hdepth, Nat.le_add_left _ _⟩
  refine ⟨fuel, ?_⟩
  rintro s rfl goal
  have hmore : ∀ more, fuel ≤ more →
      Alike True s.workspace s.workspace (ofFuel fuel) (ofFuel more) :=
    fun more hle => alike_ofFuel hle (s.workspace.sameLimit_self fuel)
  have hstep : ∀ thms step, NeverCutOff (s.workspace.newScope.keepTheorems thms)
      ((ofFuel fuel).proveStep step) := by
    intro thms step ds
    cases step with
    | prove conj => exact tracks_tryProve rfl (hprove _ (hroom.keepTheorems thms) conj ds)
    | proveBy name conj =>
        exact tracks_proveBy rfl fun strategy _ =>
          happly strategy _ (hroom.keepTheorems thms) conj ds
  refine ⟨?_, ?_, fun name => ?_, fun steps => ?_, fun strategy => ?_⟩
  · exact exists_endsBy (hprove _ hroom goal) fun more hle => (hmore more hle).prove _ goal
  · exact exists_endsBy (fun ds => tracks_tryProve rfl (hprove _ hroom goal ds)) fun more hle =>
      tracks_tryProve rfl ((hmore more hle).prove _ goal)
  · exact exists_endsBy (fun ds => tracks_proveBy rfl fun strategy _ =>
      happly strategy _ hroom goal ds) fun more hle =>
      tracks_proveBy rfl fun strategy _ => (hmore more hle).apply _ strategy goal
  · exact exists_endsBy (fun ds => tracks_proveBlock (fun thms step => hstep thms step ds) steps)
      fun more hle => tracks_proveBlock_ofFuel hle (s.workspace.sameLimit_self fuel) _ goal steps
  · exact exists_endsBy (happly strategy _ hroom goal) fun more hle =>
      (hmore more hle).apply _ strategy goal

/-- Proves `⊢ p` by `⊢ p = p`, so that without a bound no search for a goal ends. -/
def inflation : Strategy :=
  let p := Session.prop "p"
  .ofScript "Inflation" (Session.fact p) [.prove (Session.fact (Session.iff p p))]

/-- Runs `inflation` on its own goal. -/
def relay : Strategy :=
  let p := Session.prop "p"
  .ofScript "Relay" (Session.fact p) [.proveBy "Inflation" (Session.fact p)]

/-- A workspace with both strategies, where two goals may be in progress at once. -/
def relayWorkspace : Workspace :=
  (({ maxDepth := some 2 } : Workspace).addStrategy inflation .global).addStrategy relay .global

theorem calls_relayWorkspace {name other : Name} (h : relayWorkspace.Calls name other) :
    name = "Relay" ∧ other = "Inflation" := by
  obtain ⟨strategy, hnamed, s, hmem⟩ := h
  have hget : relayWorkspace.strategyIndex.get? name =
      if name = "Relay" then some relay
      else if name = "Inflation" then some inflation else none := by
    show ((Table.empty.insert "Inflation" inflation).insert "Relay" relay).get? name = _
    rw [Table.get?_insert, Table.get?_insert, Table.get?_empty]
  have hrelay : relay.instructions.all (fun i => match i with
      | .proveBy other _ => other = "Inflation"
      | _ => true) = true := by decide +kernel
  have hinflation : inflation.instructions.all (fun i => match i with
      | .proveBy _ _ => false
      | _ => true) = true := by decide +kernel
  rw [get?_of_strategyNamed hnamed] at hget
  split at hget
  · rename_i hname
    cases hget
    exact ⟨hname, of_decide_eq_true (List.all_eq_true.mp hrelay _ hmem)⟩
  · split at hget
    · cases hget
      cases List.all_eq_true.mp hinflation _ hmem
    · cases hget

/-- In `relayWorkspace` all searches end, since its bound refuses the third goal. -/
theorem bounded_search_ends_relayWorkspace :
    relayWorkspace.maxDepth = some 2 ∧ relayWorkspace.CallsAcyclic ∧
      ∃ fuel, ∀ goal, ∃ r, EndsBy fuel (·.prove goal) { workspace := relayWorkspace } r := by
  have hacyclic : relayWorkspace.CallsAcyclic := by
    intro name hcycle
    obtain ⟨_, hfirst, -⟩ := Relation.TransGen.head'_iff.mp hcycle
    obtain ⟨_, -, hlast⟩ := Relation.TransGen.tail'_iff.mp hcycle
    have hname : "Inflation" = "Relay" :=
      (calls_relayWorkspace hlast).2.symm.trans (calls_relayWorkspace hfirst).1
    exact absurd hname (by decide)
  obtain ⟨fuel, hends⟩ := bounded_search_ends relayWorkspace 2 rfl hacyclic
  exact ⟨rfl, hacyclic, fuel, fun goal => (hends { workspace := relayWorkspace } rfl goal).1⟩

end Prover

end HolSearch
