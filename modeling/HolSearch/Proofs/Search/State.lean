import HolSearch.Proofs.Kernel.Derivation
import HolSearch.Proofs.Kernel.Instance
import HolSearch.Search.State

/-!
# What operations of a search keep

A search is to return only theorems that can be derived from those that it started with.  So we look
at a search from a fixed development `d`, and say that `d` *accounts for* a state if the kernel is
that of `d` and all visible theorems are derivable in `d`.

`Yields d ds m Q` is a specification of an operation `m`: it is started in a state that `d` accounts
for and in which the theorems `ds` have been derived; it leaves such a state, whatever it ends in;
and `Q` holds of a value that it returns.  This file has one rule for each operation from which
searches are built.
-/

namespace HolSearch

/-! ## States -/

/-- The theorem is derivable and proves the goal. -/
structure Development.Establishes (d : Development) (goal : Conjecture) (thm : Theorem) : Prop where
  derives : d.Derives thm
  proves : thm.Proves goal

theorem Development.Derives.establishes {d : Development} {goal : Conjecture} {thm inst : Theorem}
    (h : d.Derives thm) (hinst : d.kernel.instance? thm goal = some inst) :
    d.Establishes goal inst := by
  obtain ⟨s, hinstantiate, hproves, -⟩ := Kernel.proves_of_instance? hinst
  exact ⟨h.instantiate hinstantiate, hproves⟩

/-- The kernel of the workspace is that of the development, and its visible theorems are derivable
there. -/
structure Development.AccountsFor (d : Development) (ws : Workspace) : Prop where
  kernel : ws.kernel = d.kernel
  theorems : ∀ thm ∈ ws.theorems, d.Derives thm

/-- The development that consists of the kernel and the visible theorems. -/
def Workspace.development (ws : Workspace) : Development := ⟨ws.kernel, ws.theorems⟩

theorem Workspace.development_accountsFor (ws : Workspace) : ws.development.AccountsFor ws :=
  ⟨rfl, fun _ hthm => .of_mem hthm⟩

namespace Workspace

variable {ws : Workspace} {thm thm' : Theorem}

theorem mem_theorems :
    thm ∈ ws.theorems ↔
      (∃ scope ∈ ws.scopes.items, thm ∈ scope.theorems) ∨ thm ∈ ws.base.theorems := by
  rw [theorems, visible, List.flatMap_append, List.mem_append, List.mem_flatMap,
    List.flatMap_singleton]

theorem kernel_keepTheorem : (ws.keepTheorem thm).kernel = ws.kernel := by
  unfold keepTheorem modifyCurrent
  split
  · rfl
  · rfl

/-- A kept theorem is the only one that becomes visible. -/
theorem mem_theorems_keepTheorem (h : thm' ∈ (ws.keepTheorem thm).theorems) :
    thm' ∈ ws.theorems ∨ thm' = thm := by
  unfold keepTheorem modifyCurrent at h
  rw [mem_theorems] at h ⊢
  split at h
  · rcases h with h | h
    · exact Or.inl (Or.inl h)
    · rw [List.mem_append, List.mem_singleton] at h
      exact h.imp_left Or.inr
  · rcases h with ⟨scope, hscope, hthm⟩ | h
    · rcases Stack.mem_modifyTop hscope with hscope | ⟨top, htop, rfl⟩
      · exact Or.inl (Or.inl ⟨scope, hscope, hthm⟩)
      · rw [List.mem_append, List.mem_singleton] at hthm
        exact hthm.imp_left fun hthm => Or.inl ⟨top, htop, hthm⟩
    · exact Or.inl (Or.inr h)

end Workspace

namespace Development.AccountsFor

variable {d : Development} {ws ws' : Workspace}

theorem newScope (h : d.AccountsFor ws) : d.AccountsFor ws.newScope := ⟨h.kernel, h.theorems⟩

theorem endScope (h : d.AccountsFor ws) (hend : ws.endScope = .ok ws') : d.AccountsFor ws' := by
  unfold Workspace.endScope at hend
  split at hend
  · cases hend
  · rename_i scope outer hpop
    cases hend
    have houter : outer = ws.scopes.drop := (congrArg Prod.snd hpop).symm
    subst houter
    refine ⟨h.kernel, fun thm hthm => h.theorems thm ?_⟩
    rw [Workspace.mem_theorems] at hthm ⊢
    refine hthm.imp_left ?_
    rintro ⟨scope', hscope', hmem⟩
    exact ⟨scope', List.mem_of_mem_tail hscope', hmem⟩

theorem keepTheorem (h : d.AccountsFor ws) {thm : Theorem} (hthm : d.Derives thm) :
    d.AccountsFor (ws.keepTheorem thm) := by
  refine ⟨?_, fun thm' hthm' => ?_⟩
  · rw [Workspace.kernel_keepTheorem, h.kernel]
  · rcases Workspace.mem_theorems_keepTheorem hthm' with hold | rfl
    · exact h.theorems thm' hold
    · exact hthm

end Development.AccountsFor

namespace ProofM

variable {ε ε' α β : Type} {d : Development} {ds : Stack Theorem} {m : ProofM ε α} {P : α → Prop}

theorem run_workspace_bind (f : Workspace → ProofM ε α) (s : ProofState) :
    (workspace >>= f).run s = (f s.workspace).run s := rfl

theorem run_derived_bind (f : List Theorem → ProofM ε α) (s : ProofState) :
    (derived >>= f).run s = (f s.derived.items).run s := rfl

theorem run_orElse (m : ProofM Stop α) (n : Unit → ProofM Stop α) (s : ProofState) :
    (orElse m n).run s =
      match m.run s with
      | (.error .failed, s') => (n ()).run s'
      | done => done := rfl

/-! ## Specifications -/

/-- In a state that `d` accounts for and with the derived theorems `ds`, the operation leaves such a
state, and if it returns a value then one of which `Q` holds. -/
def Yields (d : Development) (ds : Stack Theorem) (m : ProofM ε α) (Q : α → Prop) : Prop :=
  ∀ s : ProofState, d.AccountsFor s.workspace → s.derived = ds →
    d.AccountsFor (m.run s).2.workspace ∧ (m.run s).2.derived = ds ∧
      ∀ a, (m.run s).1 = .ok a → Q a

namespace Yields

variable {Q : β → Prop}

theorem pure {a : α} (h : P a) : Yields d ds (pure a : ProofM ε α) P := by
  intro s hs hds
  refine ⟨hs, hds, fun b hb => ?_⟩
  cases hb
  exact h

theorem throw (e : ε) : Yields d ds (throw e : ProofM ε α) P :=
  fun _ hs hds => ⟨hs, hds, nofun⟩

theorem bind {f : α → ProofM ε β} (hm : Yields d ds m P) (hf : ∀ a, P a → Yields d ds (f a) Q) :
    Yields d ds (m >>= f) Q := by
  intro s hs hds
  obtain ⟨hs', hds', hresult⟩ := hm s hs hds
  rw [run_bind]
  generalize m.run s = outcome at hs' hds' hresult
  obtain ⟨_ | a, s'⟩ := outcome
  · exact ⟨hs', hds', nofun⟩
  · exact hf a (hresult a rfl) s' hs' hds'

theorem mono {P' : α → Prop} (hm : Yields d ds m P) (h : ∀ a, P a → P' a) : Yields d ds m P' := by
  intro s hs hds
  obtain ⟨hs', hds', hresult⟩ := hm s hs hds
  exact ⟨hs', hds', fun a ha => h a (hresult a ha)⟩

theorem record (e : Event) : Yields d ds (record e : ProofM ε Unit) fun _ => True :=
  fun _ hs hds => ⟨hs, hds, fun _ _ => trivial⟩

theorem workspace : Yields d ds (workspace : ProofM ε Workspace) d.AccountsFor := by
  intro s hs hds
  refine ⟨hs, hds, fun ws hws => ?_⟩
  cases hws
  exact hs

theorem setWorkspace {ws : Workspace} (hws : d.AccountsFor ws) :
    Yields d ds (setWorkspace ws : ProofM ε Unit) fun _ => True :=
  fun _ _ hds => ⟨hws, hds, fun _ _ => trivial⟩

theorem derived : Yields d ds (derived : ProofM ε (List Theorem)) (· = ds.items) := by
  intro s hs hds
  refine ⟨hs, hds, fun thms hthms => ?_⟩
  cases hthms
  rw [hds]

theorem liftM (x : Except ε α) : Yields d ds (liftM x : ProofM ε α) (x = .ok ·) :=
  fun _ hs hds => ⟨hs, hds, fun _ h => h⟩

theorem attempt (fault : ε → Fault) (x : Except ε α) :
    Yields d ds (attempt fault x) (x = .ok ·) := by
  cases x with
  | ok a => exact .pure rfl
  | error e => exact (Yields.record _).bind fun _ _ => .throw _

theorem adapt (f : ε → ε') (hm : Yields d ds m P) : Yields d ds (m.adapt f) P := by
  intro s hs hds
  obtain ⟨hs', hds', hresult⟩ := hm s hs hds
  refine ⟨hs', hds', fun a ha => hresult a ?_⟩
  change (m.run s).1.mapError f = .ok a at ha
  cases hrun : (m.run s).1 with
  | error e =>
      rw [hrun] at ha
      cases ha
  | ok b =>
      rw [hrun] at ha
      cases ha
      rfl

/-! ## Alternatives -/

theorem orElse {m : ProofM Stop α} {n : Unit → ProofM Stop α} (hm : Yields d ds m P)
    (hn : Yields d ds (n ()) P) : Yields d ds (orElse m n) P := by
  intro s hs hds
  have hdone := hm s hs hds
  rw [run_orElse]
  split
  · rename_i s' hfailed
    rw [hfailed] at hdone
    exact hn s' hdone.1 hdone.2.1
  · exact hdone

theorem firstOf {f : α → ProofM Stop β} {as : List α} (h : ∀ a ∈ as, Yields d ds (f a) Q) :
    Yields d ds (firstOf f as) Q := by
  induction as with
  | nil => exact .throw _
  | cons a as ih =>
      rw [List.forall_mem_cons] at h
      exact .orElse h.1 (ih h.2)

theorem firstChoice {f : α → ProofM Stop β} (h : ∀ a, Yields d ds (f a) Q) (choices : Choices α) :
    Yields d ds (firstChoice f choices) Q := by
  induction choices with
  | nil => exact .throw _
  | cons a rest ih => exact .orElse (h a) (ih ())

/-! ## Temporary changes -/

theorem between {enter leave : ProofState → ProofState} {ds' : Stack Theorem}
    (henter : ∀ s, d.AccountsFor s.workspace → s.derived = ds →
      d.AccountsFor (enter s).workspace ∧ (enter s).derived = ds')
    (hleave : ∀ s, d.AccountsFor s.workspace → s.derived = ds' →
      d.AccountsFor (leave s).workspace ∧ (leave s).derived = ds)
    (hm : Yields d ds' m P) : Yields d ds (between enter leave m) P := by
  intro s hs hds
  obtain ⟨hin, hds'⟩ := henter s hs hds
  obtain ⟨hs', hds'', hresult⟩ := hm (enter s) hin hds'
  obtain ⟨hout, hds⟩ := hleave _ hs' hds''
  exact ⟨hout, hds, hresult⟩

theorem withGoal (goal : Conjecture) (hm : Yields d ds m P) : Yields d ds (withGoal goal m) P :=
  .between (fun _ hs hds => ⟨⟨hs.kernel, hs.theorems⟩, hds⟩)
    (fun _ hs hds => ⟨⟨hs.kernel, hs.theorems⟩, hds⟩) hm

theorem withDerived {thm : Theorem} (hm : Yields d (ds.push thm) m P) :
    Yields d ds (withDerived thm m) P :=
  .between (fun _ hs hds => ⟨hs, congrArg (Stack.push · thm) hds⟩)
    (fun _ hs hds => ⟨hs, congrArg Stack.drop hds⟩) hm

theorem withoutDerived (hm : Yields d {} m P) : Yields d ds (withoutDerived m) P := by
  intro s hs hds
  obtain ⟨hs', -, hresult⟩ := hm { s with derived := {} } hs rfl
  exact ⟨hs', hds, hresult⟩

theorem withScope (hm : Yields d ds m P) : Yields d ds (withScope m) P := by
  refine .between (fun _ hs hds => ⟨hs.newScope, hds⟩) (fun s hs hds => ?_) hm
  split
  · rename_i ws hend
    exact ⟨hs.endScope hend, hds⟩
  · exact ⟨hs, hds⟩

/-! ## Instances -/

theorem instance? {thm : Theorem} (goal : Conjecture) (hthm : d.Derives thm) :
    Yields d ds (instance? thm goal : ProofM ε (Option Theorem))
      fun found => ∀ inst ∈ found, d.Establishes goal inst := by
  refine Yields.workspace.bind fun ws hws => ?_
  rw [hws.kernel]
  cases hmatch : d.kernel.matchGoal? thm goal with
  | none => exact .pure nofun
  | some outcome =>
      cases outcome with
      | error e => exact (Yields.record _).bind fun _ _ => .pure nofun
      | ok inst =>
          refine (Yields.record _).bind fun _ _ => .pure ?_
          rintro _ ⟨⟩
          exact hthm.establishes (by simp only [Kernel.instance?, hmatch])

theorem firstInstance? {thms : List Theorem} (goal : Conjecture)
    (hthms : ∀ thm ∈ thms, d.Derives thm) :
    Yields d ds (firstInstance? goal thms : ProofM ε (Option Theorem))
      fun found => ∀ inst ∈ found, d.Establishes goal inst := by
  induction thms with
  | nil => exact .pure nofun
  | cons thm thms ih =>
      rw [List.forall_mem_cons] at hthms
      refine (Yields.instance? goal hthms.1).bind fun found hfound => ?_
      cases found with
      | none => exact ih hthms.2
      | some inst => exact .pure hfound

theorem instances {thms : List Theorem} (goal : Conjecture) (hthms : ∀ thm ∈ thms, d.Derives thm) :
    Yields d ds (instances goal thms : ProofM ε (List Theorem))
      fun found => ∀ inst ∈ found, d.Establishes goal inst := by
  induction thms with
  | nil => exact .pure nofun
  | cons thm thms ih =>
      rw [List.forall_mem_cons] at hthms
      refine (Yields.instance? goal hthms.1).bind fun inst hinst => ?_
      refine (ih hthms.2).bind fun insts hinsts => .pure ?_
      simpa [or_imp, forall_and] using ⟨hinst, hinsts⟩

end Yields

end ProofM

end HolSearch
