import HolSearch.Proofs.Search.Neutrality
import HolSearch.Session.Equality

/-!
# Scopes and what they undo

A workspace changes by commands: scopes are opened and ended, theorems and strategies are added, and
goals are proved.  Proofs leave the workspace as it was, so the workspace after a command is a
function of the one before it (`workspace_performAll`).

The names of strategies share one index.  A local strategy overwrites what its name referred to, and
its scope remembers that; the end of the scope puts back all that it remembers, the newest first.
Two questions are asked about this.

* **Is everything local undone?**  Yes: if only local theorems and strategies are added, then the
  end of the scope leads back to the workspace before it.  What the end of the current scope leads
  to is not changed by a local command, nor by a nested scope as a whole, so it is an invariant of
  balanced sequences of commands (`endScope_effects`).
* **Is only what is local undone?**  No.  The scope remembers what a name referred to before its
  first local strategy of that name, and it puts this back even if the name has been given to a
  global or explicit strategy since.  `strategyNamed_of_added` says which strategy such a name
  refers to after any commands: the one that it was given to, unless a scope that was open then and
  had a local strategy of that name has ended.
-/

namespace HolSearch

/-- A command with its arguments. -/
inductive Command where
  | newScope
  | endScope
  | addTheorem (name : Name) (thm : Theorem) (vis : Visibility)
  | addStrategy (strategy : Strategy) (vis : Visibility)
  | prove (goal : Conjecture)
  | tryProve (goal : Conjecture)
  | proveBy (name : Name) (goal : Conjecture)
  | proveBlock (goal : Conjecture) (steps : List Step)
  | apply (strategy : Strategy) (goal : Conjecture)

namespace Command

/-- The state that a command leaves, whatever it ends in. -/
def perform (prover : Prover) : Command → ProofState → ProofState
  | .newScope, s => { s with workspace := s.workspace.newScope }
  | .endScope, s =>
      match s.workspace.endScope with
      | .ok ws => { s with workspace := ws }
      | .error _ => s
  | .addTheorem name thm vis, s =>
      ((ProofM.addTheorem name thm vis : ProofM WorkspaceError Unit).run s).2
  | .addStrategy strategy vis, s =>
      ((ProofM.addStrategy strategy vis : ProofM WorkspaceError Unit).run s).2
  | .prove goal, s => ((prover.prove goal).run s).2
  | .tryProve goal, s => ((prover.tryProve goal).run s).2
  | .proveBy name goal, s => ((prover.proveBy name goal).run s).2
  | .proveBlock goal steps, s => ((prover.proveBlock goal steps).run s).2
  | .apply strategy goal, s => ((prover.apply strategy goal).run s).2

def performAll (prover : Prover) (commands : List Command) (s : ProofState) : ProofState :=
  commands.foldl (fun s command => command.perform prover s) s

/-! ## What commands do to the workspace -/

/-- What a command does to the workspace.  The outermost scope cannot be ended. -/
def effect : Command → Workspace → Workspace
  | .newScope, ws => ws.newScope
  | .endScope, ws =>
      match ws.endScope with
      | .ok outer => outer
      | .error _ => ws
  | .addTheorem name thm vis, ws => ws.addTheorem name thm vis
  | .addStrategy strategy vis, ws => ws.addStrategy strategy vis
  | _, ws => ws

def effects (commands : List Command) (ws : Workspace) : Workspace :=
  commands.foldl (fun ws command => command.effect ws) ws

theorem effects_cons (command : Command) (commands : List Command) (ws : Workspace) :
    effects (command :: commands) ws = effects commands (command.effect ws) := rfl

theorem effects_append (commands more : List Command) (ws : Workspace) :
    effects (commands ++ more) ws = effects more (effects commands ws) :=
  List.foldl_append

theorem workspace_perform (fuel : Nat) (command : Command) (s : ProofState) :
    (command.perform (.ofFuel fuel) s).workspace = command.effect s.workspace := by
  cases command with
  | newScope => rfl
  | endScope =>
      simp only [perform, effect]
      cases s.workspace.endScope with
      | ok outer => rfl
      | error e => rfl
  | addTheorem => rfl
  | addStrategy => rfl
  | prove goal => exact (Prover.neutral_prove fuel goal).workspace s
  | tryProve goal => exact (Prover.neutral_tryProve fuel goal).workspace s
  | proveBy name goal => exact (Prover.neutral_proveBy fuel goal name).workspace s
  | proveBlock goal steps => exact (Prover.neutral_proveBlock fuel goal steps).workspace s
  | apply strategy goal => exact (Prover.neutral_apply fuel goal strategy).workspace s

theorem workspace_performAll (fuel : Nat) (commands : List Command) (s : ProofState) :
    (performAll (.ofFuel fuel) commands s).workspace = effects commands s.workspace := by
  induction commands generalizing s with
  | nil => rfl
  | cons command commands ih =>
      rw [effects_cons, ← workspace_perform fuel]
      exact ih (command.perform (.ofFuel fuel) s)

end Command

/-! ## The end of a scope -/

/-- The scope with one more local strategy, where its name referred to `old` before. -/
def Scope.withStrategy (scope : Scope) (strategy : Strategy) (old : Option Strategy) : Scope :=
  { scope with
    strategies := scope.strategies ++ [strategy]
    replaced := scope.replaced ++ [(strategy.name, old)] }

namespace Workspace

variable {ws outer : Workspace}

theorem endScope_eq_ok_iff : ws.endScope = .ok outer ↔ ∃ scope rest,
    ws.scopes.items = scope :: rest ∧
      outer = { ws with
        scopes := ⟨rest⟩
        strategyIndex := restore ws.strategyIndex scope.replaced } := by
  unfold endScope Stack.pop
  cases ws.scopes.items with
  | nil => simp
  | cons scope rest => simp [eq_comm]

theorem endScope_of_items_nil (h : ws.scopes.items = []) : ws.endScope = .error .baseScope := by
  unfold endScope Stack.pop
  rw [h]
  rfl

theorem endScope_newScope (ws : Workspace) : ws.newScope.endScope = .ok ws := rfl

theorem modifyCurrent_of_items_cons {scope : Scope} {rest : List Scope}
    (h : ws.scopes.items = scope :: rest) (f : Scope → Scope) :
    ws.modifyCurrent f = { ws with scopes := ⟨f scope :: rest⟩ } := by
  have hopen : ¬ws.scopes.isEmpty = true := by simp [Stack.isEmpty, h]
  unfold modifyCurrent
  rw [if_neg hopen]
  unfold Stack.modifyTop
  rw [h]

theorem modifyCurrent_of_items_nil (h : ws.scopes.items = []) (f : Scope → Scope) :
    ws.modifyCurrent f = { ws with base := f ws.base } := by
  have hclosed : ws.scopes.isEmpty = true := by simp [Stack.isEmpty, h]
  unfold modifyCurrent
  rw [if_pos hclosed]

theorem addStrategy_local_of_items_cons {scope : Scope} {rest : List Scope}
    (h : ws.scopes.items = scope :: rest) (strategy : Strategy) :
    ws.addStrategy strategy .local =
      { ws with
        scopes := ⟨scope.withStrategy strategy (ws.strategyIndex.get? strategy.name) :: rest⟩
        strategyIndex := ws.strategyIndex.insert strategy.name strategy } := by
  let indexed : Workspace :=
    { ws with strategyIndex := ws.strategyIndex.insert strategy.name strategy }
  exact @modifyCurrent_of_items_cons indexed scope rest h _

/-- The newest change is undone first. -/
theorem restore_append_singleton (index : Table Name Strategy)
    (replaced : List (Name × Option Strategy)) (name : Name) (strategy : Strategy) :
    restore (index.insert name strategy) (replaced ++ [(name, index.get? name)]) =
      restore index replaced := by
  unfold restore
  rw [List.foldr_append]
  congr 1
  -- the name is given back to its old strategy, or erased if it had none
  cases hold : index.get? name with
  | some old => exact Table.insert_insert_of_get? hold strategy
  | none => exact Table.erase_insert_of_get? hold strategy

theorem endScope_addTheorem_local (h : ws.endScope = .ok outer) (name : Name) (thm : Theorem) :
    (ws.addTheorem name thm .local).endScope = .ok outer := by
  obtain ⟨scope, rest, hitems, rfl⟩ := endScope_eq_ok_iff.mp h
  show (ws.modifyCurrent _).endScope = _
  rw [modifyCurrent_of_items_cons hitems]
  rfl

theorem endScope_addStrategy_local (h : ws.endScope = .ok outer) (strategy : Strategy) :
    (ws.addStrategy strategy .local).endScope = .ok outer := by
  obtain ⟨scope, rest, hitems, rfl⟩ := endScope_eq_ok_iff.mp h
  rw [addStrategy_local_of_items_cons hitems, endScope_eq_ok_iff]
  refine ⟨_, rest, rfl, ?_⟩
  show _ = { ws with
    scopes := ⟨rest⟩
    strategyIndex := restore (ws.strategyIndex.insert strategy.name strategy)
      (scope.replaced ++ [(strategy.name, ws.strategyIndex.get? strategy.name)]) }
  rw [restore_append_singleton]

end Workspace

open Workspace

namespace Command

/-! ## What is local is undone -/

/-- The command adds something local, or proves a goal. -/
def IsLocal : Command → Prop
  | .newScope => False
  | .endScope => False
  | .addTheorem _ _ vis => vis = .local
  | .addStrategy _ vis => vis = .local
  | _ => True

/-- Local commands, among which scopes are opened and ended again. -/
inductive Balanced : List Command → Prop where
  | nil : Balanced []
  | command {command : Command} {rest : List Command} (hcommand : command.IsLocal)
      (hrest : Balanced rest) : Balanced (command :: rest)
  | scope {inner rest : List Command} (hinner : Balanced inner) (hrest : Balanced rest) :
      Balanced (.newScope :: inner ++ .endScope :: rest)

/-- A local command does not change what the end of the current scope leads to. -/
theorem endScope_effect {command : Command} (hcommand : command.IsLocal) {ws outer : Workspace}
    (h : ws.endScope = .ok outer) : (command.effect ws).endScope = .ok outer := by
  cases command with
  | newScope => exact hcommand.elim
  | endScope => exact hcommand.elim
  | addTheorem name thm vis =>
      cases hcommand
      exact endScope_addTheorem_local h name thm
  | addStrategy strategy vis =>
      cases hcommand
      exact endScope_addStrategy_local h strategy
  | prove => exact h
  | tryProve => exact h
  | proveBy => exact h
  | proveBlock => exact h
  | apply => exact h

theorem effect_endScope {ws outer : Workspace} (h : ws.endScope = .ok outer) :
    Command.endScope.effect ws = outer := by
  simp only [effect, h]

/-- Balanced commands do not change what the end of the current scope leads to. -/
theorem endScope_effects {commands : List Command} (hcommands : Balanced commands)
    {ws outer : Workspace} (h : ws.endScope = .ok outer) :
    (effects commands ws).endScope = .ok outer := by
  induction hcommands generalizing ws outer with
  | nil => exact h
  | command hcommand _ ih => exact ih (endScope_effect hcommand h)
  | @scope inner rest _ _ ihinner ihrest =>
      -- the nested scope is itself undone, so the commands after it start from `ws`
      have hinner : (effects inner ws.newScope).endScope = .ok ws :=
        ihinner (endScope_newScope ws)
      have hnested : effects (.newScope :: inner ++ .endScope :: rest) ws = effects rest ws := by
        rw [effects_append]
        show effects rest (Command.endScope.effect (effects inner ws.newScope)) = _
        rw [effect_endScope hinner]
      rw [hnested]
      exact ihrest h

/-- **A scope to which only local theorems and strategies are added ends without a trace**: the
workspace is the one in which it was opened. -/
theorem scope_undone (fuel : Nat) (s : ProofState) (commands : List Command)
    (hcommands : Balanced commands) :
    (performAll (.ofFuel fuel) (.newScope :: commands ++ [.endScope]) s).workspace =
      s.workspace := by
  have hend : (effects commands s.workspace.newScope).endScope = .ok s.workspace :=
    endScope_effects hcommands (endScope_newScope s.workspace)
  calc (performAll (.ofFuel fuel) (.newScope :: commands ++ [.endScope]) s).workspace
      = effects (.newScope :: commands ++ [.endScope]) s.workspace :=
        workspace_performAll fuel _ s
    _ = Command.endScope.effect (effects commands s.workspace.newScope) := by
        rw [effects_append]
        rfl
    _ = s.workspace := effect_endScope hend

/-- Proves `q ⊢ q`. -/
def assumeByName : Strategy :=
  .ofScript "ByName" (Session.fact (Session.prop "q")) [.assume (Session.prop "q")]

/-- Has the name of `assumeByName`, but proves nothing. -/
def idleByName : Strategy := .ofScript "ByName" (Session.fact (Session.prop "q")) []

/-- Two strategies of one name are added to a scope, and one more in a scope inside of it. -/
def shadowing : List Command :=
  .addStrategy assumeByName .local :: .addStrategy idleByName .local ::
    (.newScope :: [.addStrategy assumeByName .local, .addStrategy Session.reflexivity .local] ++
      .endScope :: [.proveBy "ByName" (.ofList [Session.prop "q"] (Session.prop "q")),
        .addStrategy assumeByName .local])

/-- A workspace in which the name is taken already, by an explicit strategy. -/
def namedState : ProofState := performAll (.ofFuel 0) [.addStrategy idleByName .explicit] {}

theorem scope_undone_shadowing :
    Balanced shadowing ∧
      (performAll (.ofFuel 2) (.newScope :: shadowing ++ [.endScope]) namedState).workspace =
        namedState.workspace := by
  have hbalanced : Balanced shadowing :=
    .command rfl (.command rfl (.scope (.command rfl (.command rfl .nil))
      (.command trivial (.command rfl .nil))))
  exact ⟨hbalanced, scope_undone 2 namedState shadowing hbalanced⟩

end Command

/-! ## What a name refers to -/

/-- What the name referred to before the first local strategy of that name in the scope, if there is
one.  The end of the scope lets the name refer to this again. -/
def Scope.recalls (name : Name) (scope : Scope) : Option (Option Strategy) :=
  Table.lookup name scope.replaced

theorem Table.lookup_append_singleton_of_ne {κ α : Type} [DecidableEq κ] {k k' : κ} (h : k' ≠ k)
    (entries : List (κ × α)) (a : α) :
    lookup k (entries ++ [(k', a)]) = lookup k entries := by
  induction entries with
  | nil => simp [lookup, h]
  | cons entry entries ih =>
      rw [List.cons_append, lookup, lookup, ih]

theorem Scope.recalls_withStrategy_of_ne {name : Name} {strategy : Strategy}
    (h : strategy.name ≠ name) (scope : Scope) (old : Option Strategy) :
    (scope.withStrategy strategy old).recalls name = scope.recalls name :=
  Table.lookup_append_singleton_of_ne h scope.replaced old

namespace Workspace

theorem get?_restore (index : Table Name Strategy) (replaced : List (Name × Option Strategy))
    (name : Name) :
    (restore index replaced).get? name =
      (Table.lookup name replaced).getD (index.get? name) := by
  induction replaced with
  | nil => rfl
  | cons entry replaced ih =>
      obtain ⟨name', old⟩ := entry
      have hget : (restore index ((name', old) :: replaced)).get? name =
          if name = name' then old else (restore index replaced).get? name := by
        cases old with
        | some strategy => exact Table.get?_insert _ _ _ _
        | none => exact Table.get?_erase _ _ _
      rw [hget, Table.lookup]
      by_cases hname : name' = name
      · rw [if_pos hname, if_pos hname.symm]
        rfl
      · rw [if_neg hname, if_neg (Ne.symm hname), ih]

theorem strategyNamed_eq (ws : Workspace) (name : Name) :
    ws.strategyNamed name =
      match ws.strategyIndex.get? name with
      | some strategy => .ok strategy
      | none => .error (.noStrategy name) := rfl

/-- All that matters of a workspace for a name: the name refers to `found`, and the open scopes
remember `memories` of it, the current scope first. -/
structure Refers (ws : Workspace) (name : Name) (found : Option Strategy)
    (memories : List (Option (Option Strategy))) : Prop where
  found : ws.strategyIndex.get? name = found
  memories : ws.scopes.items.map (Scope.recalls name) = memories

namespace Refers

variable {ws : Workspace} {name : Name} {found : Option Strategy}
variable {memories : List (Option (Option Strategy))}

theorem newScope (h : ws.Refers name found memories) :
    ws.newScope.Refers name found (none :: memories) :=
  ⟨h.found, congrArg (none :: ·) h.memories⟩

theorem endScope {memory : Option (Option Strategy)}
    (h : ws.Refers name found (memory :: memories)) :
    (Command.endScope.effect ws).Refers name (memory.getD found) memories := by
  obtain ⟨scope, rest, hitems, hmemory, hmemories⟩ := List.map_eq_cons_iff.mp h.memories
  have hend := endScope_eq_ok_iff.mpr ⟨scope, rest, hitems, rfl⟩
  rw [Command.effect_endScope hend]
  refine ⟨?_, hmemories⟩
  show (restore ws.strategyIndex scope.replaced).get? name = _
  rw [get?_restore, h.found, ← hmemory]
  rfl

theorem endScope_nil (h : ws.Refers name found []) :
    (Command.endScope.effect ws).Refers name found [] := by
  have hitems : ws.scopes.items = [] := List.map_eq_nil_iff.mp h.memories
  have hrefused : Command.endScope.effect ws = ws := by
    simp only [Command.effect, endScope_of_items_nil hitems]
  rw [hrefused]
  exact h

theorem modifyCurrent (h : ws.Refers name found memories) {f : Scope → Scope}
    (hf : ∀ scope, (f scope).recalls name = scope.recalls name) :
    (ws.modifyCurrent f).Refers name found memories := by
  cases hitems : ws.scopes.items with
  | nil =>
      rw [modifyCurrent_of_items_nil hitems]
      exact ⟨h.found, h.memories⟩
  | cons scope rest =>
      rw [modifyCurrent_of_items_cons hitems]
      refine ⟨h.found, ?_⟩
      rw [← h.memories, hitems, List.map_cons, List.map_cons, hf]

theorem addTheorem (h : ws.Refers name found memories) (thmName : Name) (thm : Theorem)
    (vis : Visibility) : (ws.addTheorem thmName thm vis).Refers name found memories := by
  cases vis with
  | global => exact ⟨h.found, h.memories⟩
  | «local» => exact h.modifyCurrent fun _ => rfl
  | explicit => exact ⟨h.found, h.memories⟩

theorem addStrategy (h : ws.Refers name found memories) {strategy : Strategy}
    (hname : strategy.name ≠ name) (vis : Visibility) :
    (ws.addStrategy strategy vis).Refers name found memories := by
  have hindex : (ws.strategyIndex.insert strategy.name strategy).get? name = found := by
    rw [Table.get?_insert, if_neg (Ne.symm hname), h.found]
  cases vis with
  | global => exact ⟨hindex, h.memories⟩
  | «local» =>
      have hindexed : Refers { ws with
          strategyIndex := ws.strategyIndex.insert strategy.name strategy } name found memories :=
        ⟨hindex, h.memories⟩
      exact hindexed.modifyCurrent fun scope => scope.recalls_withStrategy_of_ne hname _
  | explicit => exact ⟨hindex, h.memories⟩

end Refers

end Workspace

namespace Command

/-- How many of the scopes that are open at first are ended by the commands, where `opened` more
scopes have been opened since. -/
def endings : (opened : Nat) → List Command → Nat
  | _, [] => 0
  | opened, .newScope :: rest => endings (opened + 1) rest
  | 0, .endScope :: rest => endings 0 rest + 1
  | opened + 1, .endScope :: rest => endings opened rest
  | opened, _ :: rest => endings opened rest

/-- What a name refers to after the commands, if it is not given to a strategy by them: the
outermost of the scopes that have ended and remember the name decides. -/
theorem get?_effects {name : Name} {commands : List Command}
    (hcommands : ∀ strategy vis, .addStrategy strategy vis ∈ commands → strategy.name ≠ name)
    {opened : Nat} {ws : Workspace} {found : Option Strategy}
    {memories : List (Option (Option Strategy))}
    (h : ws.Refers name found (List.replicate opened none ++ memories)) :
    (effects commands ws).strategyIndex.get? name =
      ((memories.take (endings opened commands)).reverse.findSome? id).getD found := by
  induction commands generalizing opened ws found memories with
  | nil => exact h.found
  | cons command commands ih =>
      have hrest : ∀ strategy vis, .addStrategy strategy vis ∈ commands → strategy.name ≠ name :=
        fun strategy vis hmem => hcommands strategy vis (List.mem_cons_of_mem _ hmem)
      rw [effects_cons]
      cases command with
      | newScope =>
          have hopened : ws.newScope.Refers name found
              (List.replicate (opened + 1) none ++ memories) := h.newScope
          exact ih hrest hopened
      | endScope =>
          cases opened with
          | succ opened => exact ih hrest h.endScope
          | zero =>
              cases memories with
              | nil =>
                  have hbase : (Command.endScope.effect ws).Refers name found
                      (List.replicate 0 none ++ []) := h.endScope_nil
                  rw [ih hrest hbase, List.take_nil, List.take_nil]
              | cons memory memories =>
                  have hended : (Command.endScope.effect ws).Refers name (memory.getD found)
                      (List.replicate 0 none ++ memories) := h.endScope
                  rw [ih hrest hended, endings, List.take_succ_cons, List.reverse_cons,
                    List.findSome?_append]
                  -- a scope further out decides, or else this one
                  cases (memories.take (endings 0 commands)).reverse.findSome? id with
                  | some old => rfl
                  | none =>
                      cases memory with
                      | some old => rfl
                      | none => rfl
      | addTheorem thmName thm vis => exact ih hrest (h.addTheorem thmName thm vis)
      | addStrategy strategy vis =>
          exact ih hrest (h.addStrategy (hcommands strategy vis List.mem_cons_self) vis)
      | prove => exact ih hrest h
      | tryProve => exact ih hrest h
      | proveBy => exact ih hrest h
      | proveBlock => exact ih hrest h
      | apply => exact ih hrest h

/-- The scopes of the workspace that the commands end, the innermost first. -/
def endedScopes (commands : List Command) (ws : Workspace) : List Scope :=
  ws.scopes.items.take (endings 0 commands)

/-- **Which strategy a name refers to that was given to a global or explicit strategy**, after any
commands that do not give it to another: to this strategy, unless a scope has ended since that was
open then and had a local strategy of that name.  In this case the outermost such scope decides: the
name refers to what it referred to before the first local strategy of that name in the scope. -/
theorem strategyNamed_of_added (fuel : Nat) (s : ProofState) (strategy : Strategy)
    (vis : Visibility) (hvis : vis ≠ .local) (commands : List Command)
    (hcommands : ∀ other vis', .addStrategy other vis' ∈ commands → other.name ≠ strategy.name) :
    (performAll (.ofFuel fuel) (.addStrategy strategy vis :: commands) s).workspace.strategyNamed
        strategy.name =
      match (endedScopes commands s.workspace).reverse.findSome? (Scope.recalls strategy.name) with
      | none => .ok strategy
      | some (some old) => .ok old
      | some none => .error (.noStrategy strategy.name) := by
  have hadded : ((Command.addStrategy strategy vis).effect s.workspace).Refers strategy.name
      (some strategy)
      (List.replicate 0 none ++ s.workspace.scopes.items.map (Scope.recalls strategy.name)) := by
    have hindex : (s.workspace.strategyIndex.insert strategy.name strategy).get? strategy.name =
        some strategy := by
      rw [Table.get?_insert, if_pos rfl]
    cases vis with
    | global => exact ⟨hindex, rfl⟩
    | «local» => exact absurd rfl hvis
    | explicit => exact ⟨hindex, rfl⟩
  have hmemories : ((s.workspace.scopes.items.map (Scope.recalls strategy.name)).take
      (endings 0 commands)).reverse.findSome? id =
      (endedScopes commands s.workspace).reverse.findSome? (Scope.recalls strategy.name) := by
    rw [← List.map_take, ← List.map_reverse, List.findSome?_map]
    rfl
  have hget := get?_effects hcommands hadded
  rw [hmemories] at hget
  rw [workspace_performAll, effects_cons, strategyNamed_eq, hget]
  rcases (endedScopes commands s.workspace).reverse.findSome? (Scope.recalls strategy.name) with
    _ | _ | _
  · rfl
  · rfl
  · rfl

/-- A scope in which the name is given to a local strategy. -/
def scopedState : ProofState :=
  performAll (.ofFuel 0) [.newScope, .addStrategy idleByName .local] {}

/-- An explicit or global strategy is found by its name until the scope ends, and not any more after
it, although every search still tries the global one. -/
theorem strategyNamed_of_added_scopedState :
    (Visibility.explicit ≠ .local ∧
      (performAll (.ofFuel 0) [.addStrategy assumeByName .explicit]
        scopedState).workspace.strategyNamed "ByName" = .ok assumeByName ∧
      (performAll (.ofFuel 0) [.addStrategy assumeByName .explicit, .endScope]
        scopedState).workspace.strategyNamed "ByName" = .error (.noStrategy "ByName")) ∧
    Visibility.global ≠ .local ∧
      (performAll (.ofFuel 0) [.addStrategy assumeByName .global]
        scopedState).workspace.strategyNamed "ByName" = .ok assumeByName ∧
      (performAll (.ofFuel 0) [.addStrategy assumeByName .global, .endScope]
        scopedState).workspace.strategyNamed "ByName" = .error (.noStrategy "ByName") ∧
      assumeByName ∈ (performAll (.ofFuel 0) [.addStrategy assumeByName .global, .endScope]
        scopedState).workspace.strategies := by
  have hexplicit : Visibility.explicit ≠ .local := by decide
  have hglobal : Visibility.global ≠ .local := by decide
  have hnamed := strategyNamed_of_added 0 scopedState assumeByName
  exact ⟨⟨hexplicit, hnamed .explicit hexplicit [] (by simp),
      hnamed .explicit hexplicit [.endScope] (by simp)⟩,
    hglobal, hnamed .global hglobal [] (by simp), hnamed .global hglobal [.endScope] (by simp),
    by decide +kernel⟩

end Command

end HolSearch
