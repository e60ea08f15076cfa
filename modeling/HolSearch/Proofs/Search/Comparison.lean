import HolSearch.Proofs.Search.State
import HolSearch.Search.Commands

/-!
# Comparing two searches

Many questions about searches compare two runs.  Does an alternative depend on those tried before
it?  Does more fuel change the outcome of a search that has ended?  Does a bound on the depth?  All
of them are answered by walking through two runs at once, which differ in the prover that they ask
or in a part of the workspace that they hardly look at.

`Tracks cut ws ws' ds m m'` says that of the operations `m` and `m'` the second follows the first:
`m` is run in the workspace `ws` and `m'` in `ws'`, both after the theorems `ds` have been derived,
and with any journals.  Both leave the workspace and the derived theorems as they were and have the
same outcome, unless `m` is cut off.  Then nothing is said about `m'`, and it is allowed only if
`cut` holds.  So

* `Tracks True` is a simulation that ends where the first run is cut off, and
* `Tracks False` of an operation and itself says that the operation is never cut off.

This file has one rule for each operation from which searches are built.
-/

namespace HolSearch

/-- Errors among which one says that a search was cut off. -/
class CutOff (ε : Type) where
  cutOff : ε

instance : CutOff Stop := ⟨.exhausted⟩

instance : CutOff WorkspaceError := ⟨.exhausted⟩

/-- The state has the given workspace and the given derived theorems. -/
structure ProofState.At (s : ProofState) (ws : Workspace) (ds : Stack Theorem) : Prop where
  workspace : s.workspace = ws
  derived : s.derived = ds

namespace ProofM

variable {ε ε' α β : Type} [CutOff ε] [CutOff ε'] {cut : Prop} {ws ws' : Workspace}
variable {ds : Stack Theorem}

/-- How a run ends that follows one with the outcome `r`: with the same outcome and in a state of
which `Q'` holds, unless that one was cut off. -/
inductive Follows (cut : Prop) (Q' : ProofState → Prop) (r : Except ε α) :
    Except ε α × ProofState → Prop where
  | same {t' : ProofState} (hr : r ≠ .error CutOff.cutOff) (ht' : Q' t') : Follows cut Q' r (r, t')
  | cutOff {done' : Except ε α × ProofState} (hcut : cut) (hr : r = .error CutOff.cutOff) :
      Follows cut Q' r done'

theorem Follows.mono {Q Q' : ProofState → Prop} {r : Except ε α} {done' : Except ε α × ProofState}
    (h : Follows cut Q r done') (hQ : ∀ t, Q t → Q' t) : Follows cut Q' r done' := by
  cases h with
  | same hr ht' => exact .same hr (hQ _ ht')
  | cutOff hcut hr => exact .cutOff hcut hr

/-- The second operation follows the first, and the first leaves the workspace and the derived
theorems as they were. -/
def Tracks (cut : Prop) (ws ws' : Workspace) (ds : Stack Theorem) (m m' : ProofM ε α) : Prop :=
  ∀ s s' : ProofState, s.At ws ds → s'.At ws' ds →
    (m.run s).2.At ws ds ∧ Follows cut (·.At ws' ds) (m.run s).1 (m'.run s')

namespace Tracks

variable {m m' : ProofM ε α}

/-- Unless the first run is cut off, the second has the same outcome. -/
theorem outcome_eq (h : Tracks cut ws ws' ds m m') {s s' : ProofState} (hs : s.At ws ds)
    (hs' : s'.At ws' ds) (hr : (m.run s).1 ≠ .error CutOff.cutOff) :
    (m'.run s').1 = (m.run s).1 := by
  obtain ⟨-, hfollows⟩ := h s s' hs hs'
  generalize m'.run s' = done' at hfollows
  cases hfollows with
  | same => rfl
  | cutOff _ hcutOff => exact absurd hcutOff hr

theorem outcome_ne (h : Tracks False ws ws' ds m m') {s s' : ProofState} (hs : s.At ws ds)
    (hs' : s'.At ws' ds) : (m.run s).1 ≠ .error CutOff.cutOff := by
  obtain ⟨-, hfollows⟩ := h s s' hs hs'
  generalize m'.run s' = done' at hfollows
  cases hfollows with
  | same hr => exact hr
  | cutOff hcut => exact hcut.elim

/-- Operations that follow each other have the same outcome, whether they are cut off or not. -/
theorem outcome_eq_of_symm (h : Tracks True ws ws' ds m m') (h' : Tracks True ws' ws ds m' m)
    {s s' : ProofState} (hs : s.At ws ds) (hs' : s'.At ws' ds) : (m'.run s').1 = (m.run s).1 := by
  -- if either run ends, the other one follows it; otherwise both were cut off
  by_cases hr : (m.run s).1 = .error CutOff.cutOff
  · by_cases hr' : (m'.run s').1 = .error CutOff.cutOff
    · rw [hr, hr']
    · exact (h'.outcome_eq hs' hs hr').symm
  · exact h.outcome_eq hs hs' hr

/-! ## Steps -/

theorem pure (a : α) : Tracks cut ws ws' ds (pure a : ProofM ε α) (pure a) :=
  fun _ _ hs hs' => ⟨hs, .same nofun hs'⟩

theorem throw {e : ε} (he : e ≠ CutOff.cutOff) :
    Tracks cut ws ws' ds (throw e : ProofM ε α) (throw e) :=
  fun _ _ hs hs' => ⟨hs, .same (fun h => he (Except.error.inj h)) hs'⟩

theorem failed : Tracks cut ws ws' ds (MonadExcept.throw Stop.failed : ProofM Stop α)
    (MonadExcept.throw Stop.failed) :=
  .throw nofun

/-- Whatever the second run does, it follows one that is cut off at once. -/
theorem exhausted (hcut : cut) (m' : ProofM Stop α) :
    Tracks cut ws ws' ds (MonadExcept.throw Stop.exhausted) m' :=
  fun _ _ hs _ => ⟨hs, .cutOff hcut rfl⟩

theorem bind {f f' : α → ProofM ε β} (hm : Tracks cut ws ws' ds m m')
    (hf : ∀ a, Tracks cut ws ws' ds (f a) (f' a)) : Tracks cut ws ws' ds (m >>= f) (m' >>= f') := by
  intro s s' hs hs'
  obtain ⟨ht, hfollows⟩ := hm s s' hs hs'
  rw [run_bind, run_bind]
  generalize m.run s = done at ht hfollows
  generalize m'.run s' = done' at hfollows
  obtain ⟨r, t⟩ := done
  cases hfollows with
  | @same t' hr ht' =>
      cases r with
      | ok a => exact hf a t t' ht ht'
      | error e => exact ⟨ht, .same (fun h => hr (congrArg _ (Except.error.inj h))) ht'⟩
  | cutOff hcut hr =>
      cases hr
      exact ⟨ht, .cutOff hcut rfl⟩

theorem record (e e' : Event) :
    Tracks cut ws ws' ds (record e : ProofM ε Unit) (record e') :=
  fun _ _ hs hs' => ⟨⟨hs.workspace, hs.derived⟩, .same nofun ⟨hs'.workspace, hs'.derived⟩⟩

theorem workspace_bind {f f' : Workspace → ProofM ε α} (h : Tracks cut ws ws' ds (f ws) (f' ws')) :
    Tracks cut ws ws' ds (workspace >>= f) (workspace >>= f') := by
  intro s s' hs hs'
  rw [run_workspace_bind, run_workspace_bind, hs.workspace, hs'.workspace]
  exact h s s' hs hs'

theorem derived_bind {f f' : List Theorem → ProofM ε α}
    (h : Tracks cut ws ws' ds (f ds.items) (f' ds.items)) :
    Tracks cut ws ws' ds (derived >>= f) (derived >>= f') := by
  intro s s' hs hs'
  rw [run_derived_bind, run_derived_bind, hs.derived, hs'.derived]
  exact h s s' hs hs'

theorem attempt {δ : Type} (fault : δ → Fault) (x : Except δ α) :
    Tracks cut ws ws' ds (attempt fault x) (attempt fault x) := by
  cases x with
  | ok a => exact .pure a
  | error e => exact (Tracks.record _ _).bind fun _ => .failed

/-- What comes after a step of an instruction is run only on the value of the step. -/
theorem attempt_bind {δ : Type} {fault : δ → Fault} {x : Except δ α} {f f' : α → ProofM Stop β}
    (h : ∀ a, x = .ok a → Tracks cut ws ws' ds (f a) (f' a)) :
    Tracks cut ws ws' ds (ProofM.attempt fault x >>= f) (ProofM.attempt fault x >>= f') := by
  cases x with
  | ok a => exact h a rfl
  | error e =>
      intro s s' hs hs'
      exact ⟨⟨hs.workspace, hs.derived⟩, .same nofun ⟨hs'.workspace, hs'.derived⟩⟩

theorem liftM_bind {x : Except ε α} (hx : x ≠ .error CutOff.cutOff) {f f' : α → ProofM ε β}
    (h : ∀ a, x = .ok a → Tracks cut ws ws' ds (f a) (f' a)) :
    Tracks cut ws ws' ds ((liftM x : ProofM ε α) >>= f) ((liftM x : ProofM ε α) >>= f') := by
  cases x with
  | ok a => exact h a rfl
  | error e =>
      intro s s' hs hs'
      exact ⟨hs, .same (fun h => hx (congrArg _ (Except.error.inj h))) hs'⟩

theorem adapt {f : ε → ε'} (hf : ∀ e, f e = CutOff.cutOff ↔ e = CutOff.cutOff)
    (hm : Tracks cut ws ws' ds m m') : Tracks cut ws ws' ds (m.adapt f) (m'.adapt f) := by
  intro s s' hs hs'
  obtain ⟨ht, hfollows⟩ := hm s s' hs hs'
  refine ⟨ht, ?_⟩
  change Follows cut _ ((m.run s).1.mapError f) ((m'.run s').1.mapError f, (m'.run s').2)
  generalize (m.run s).1 = r at hfollows
  generalize m'.run s' = done' at hfollows
  cases hfollows with
  | same hr ht' =>
      refine .same (fun h => hr ?_) ht'
      cases r with
      | ok a => cases h
      | error e => exact congrArg _ ((hf e).mp (Except.error.inj h))
  | cutOff hcut hr =>
      refine .cutOff hcut ?_
      rw [hr, Except.mapError, (hf _).mpr rfl]

/-! ## Alternatives -/

theorem orElse {m m' : ProofM Stop α} {n n' : Unit → ProofM Stop α}
    (hm : Tracks cut ws ws' ds m m') (hn : Tracks cut ws ws' ds (n ()) (n' ())) :
    Tracks cut ws ws' ds (orElse m n) (orElse m' n') := by
  intro s s' hs hs'
  obtain ⟨ht, hfollows⟩ := hm s s' hs hs'
  rw [run_orElse, run_orElse]
  generalize m.run s = done at ht hfollows
  generalize m'.run s' = done' at hfollows
  obtain ⟨r, t⟩ := done
  cases hfollows with
  | @same t' hr ht' =>
      cases r with
      | ok a => exact ⟨ht, .same hr ht'⟩
      | error stop =>
          cases stop with
          | failed => exact hn t t' ht ht'
          | exhausted => exact absurd rfl hr
  | cutOff hcut hr =>
      cases hr
      exact ⟨ht, .cutOff hcut rfl⟩

theorem firstOf {f f' : α → ProofM Stop β} {as : List α}
    (h : ∀ a ∈ as, Tracks cut ws ws' ds (f a) (f' a)) :
    Tracks cut ws ws' ds (firstOf f as) (firstOf f' as) := by
  induction as with
  | nil => exact .failed
  | cons a as ih =>
      rw [List.forall_mem_cons] at h
      exact .orElse h.1 (ih h.2)

theorem firstChoice {f f' : α → ProofM Stop β} (h : ∀ a, Tracks cut ws ws' ds (f a) (f' a))
    (choices : Choices α) :
    Tracks cut ws ws' ds (firstChoice f choices) (firstChoice f' choices) := by
  induction choices with
  | nil => exact .failed
  | cons a rest ih => exact .orElse (h a) (ih ())

/-! ## Temporary changes -/

/-- Whatever two runs leave behind, it is enough that leaving leads from there back to the start. -/
theorem between {enter leave : ProofState → ProofState} {Q Q' : ProofState → Prop}
    (hm : ∀ s s' : ProofState, s.At ws ds → s'.At ws' ds →
      Q (m.run (enter s)).2 ∧ Follows cut Q' (m.run (enter s)).1 (m'.run (enter s')))
    (hleave : ∀ t, Q t → (leave t).At ws ds) (hleave' : ∀ t, Q' t → (leave t).At ws' ds) :
    Tracks cut ws ws' ds (between enter leave m) (between enter leave m') := by
  intro s s' hs hs'
  obtain ⟨ht, hfollows⟩ := hm s s' hs hs'
  refine ⟨hleave _ ht, ?_⟩
  change Follows cut _ (m.run (enter s)).1 ((m'.run (enter s')).1, leave (m'.run (enter s')).2)
  generalize m'.run (enter s') = done' at hfollows
  cases hfollows with
  | same hr ht' => exact .same hr (hleave' _ ht')
  | cutOff hcut hr => exact .cutOff hcut hr

theorem withGoal (goal : Conjecture)
    (hm : Tracks cut { ws with goals := ws.goals.push goal }
      { ws' with goals := ws'.goals.push goal } ds m m') :
    Tracks cut ws ws' ds (withGoal goal m) (withGoal goal m') := by
  have henter : ∀ (ws : Workspace) (s : ProofState), s.At ws ds →
      ProofState.At { s with workspace.goals := s.workspace.goals.push goal }
        { ws with goals := ws.goals.push goal } ds := by
    rintro ws s ⟨rfl, rfl⟩
    exact ⟨rfl, rfl⟩
  have hleave : ∀ (ws : Workspace) (s : ProofState),
      s.At { ws with goals := ws.goals.push goal } ds →
      ProofState.At { s with workspace.goals := s.workspace.goals.drop } ws ds := by
    rintro ws s ⟨hworkspace, hderived⟩
    exact ⟨congrArg (fun ws : Workspace => { ws with goals := ws.goals.drop }) hworkspace, hderived⟩
  exact .between (fun s s' hs hs' => hm _ _ (henter ws s hs) (henter ws' s' hs')) (hleave ws)
    (hleave ws')

theorem withDerived {thm : Theorem} (hm : Tracks cut ws ws' (ds.push thm) m m') :
    Tracks cut ws ws' ds (withDerived thm m) (withDerived thm m') := by
  have henter : ∀ (ws : Workspace) (s : ProofState), s.At ws ds →
      ProofState.At { s with derived := s.derived.push thm } ws (ds.push thm) :=
    fun ws s hs => ⟨hs.workspace, congrArg (Stack.push · thm) hs.derived⟩
  have hleave : ∀ (ws : Workspace) (s : ProofState), s.At ws (ds.push thm) →
      ProofState.At { s with derived := s.derived.drop } ws ds :=
    fun ws s hs => ⟨hs.workspace, congrArg Stack.drop hs.derived⟩
  exact .between (fun s s' hs hs' => hm _ _ (henter ws s hs) (henter ws' s' hs')) (hleave ws)
    (hleave ws')

theorem withoutDerived (hm : Tracks cut ws ws' {} m m') :
    Tracks cut ws ws' ds (withoutDerived m) (withoutDerived m') := by
  intro s s' hs hs'
  obtain ⟨ht, hfollows⟩ := hm { s with derived := {} } { s' with derived := {} }
    ⟨hs.workspace, rfl⟩ ⟨hs'.workspace, rfl⟩
  refine ⟨⟨ht.workspace, hs.derived⟩, ?_⟩
  change Follows cut _ (m.run { s with derived := {} }).1
    ((m'.run { s' with derived := {} }).1,
      { (m'.run { s' with derived := {} }).2 with derived := s'.derived })
  generalize m'.run { s' with derived := {} } = done' at hfollows
  cases hfollows with
  | same hr ht' => exact .same hr ⟨ht'.workspace, hs'.derived⟩
  | cutOff hcut hr => exact .cutOff hcut hr

/-! ## Instances -/

section Instances

variable (hkernel : ws'.kernel = ws.kernel)

include hkernel

theorem instance? (thm : Theorem) (goal : Conjecture) :
    Tracks cut ws ws' ds (instance? thm goal : ProofM ε (Option Theorem)) (instance? thm goal) := by
  refine .workspace_bind ?_
  rw [hkernel]
  cases ws.kernel.matchGoal? thm goal with
  | none => exact .pure none
  | some outcome =>
      cases outcome with
      | error e => exact (Tracks.record _ _).bind fun _ => .pure none
      | ok inst => exact (Tracks.record _ _).bind fun _ => .pure (some inst)

theorem firstInstance? (goal : Conjecture) (thms : List Theorem) :
    Tracks cut ws ws' ds (firstInstance? goal thms : ProofM ε (Option Theorem))
      (firstInstance? goal thms) := by
  induction thms with
  | nil => exact .pure none
  | cons thm thms ih =>
      refine (Tracks.instance? hkernel thm goal).bind fun found => ?_
      cases found with
      | none => exact ih
      | some inst => exact .pure (some inst)

theorem instances (goal : Conjecture) (thms : List Theorem) :
    Tracks cut ws ws' ds (instances goal thms : ProofM ε (List Theorem)) (instances goal thms) := by
  induction thms with
  | nil => exact .pure []
  | cons thm thms ih =>
      exact (Tracks.instance? hkernel thm goal).bind fun inst => ih.bind fun insts => .pure _

end Instances

end Tracks

end ProofM

end HolSearch
