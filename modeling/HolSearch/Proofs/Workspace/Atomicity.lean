import HolSearch.Proofs.Kernel.Instance
import HolSearch.Search.Commands

/-!
# What is refused changes nothing

Declarations, axioms and definitions change the kernel, and a workspace records what its kernel has
learned.  A definition declares what it defines before it builds its theorems, so a failure of this
second part would leave a declaration behind that nothing explains.  It cannot fail: the term was
checked before, the type that the check has found is the one that its annotations tell, and names
that clash were refused at the start.

`AllOrNothing m accepts` says of an operation `m` that it succeeds just in the states of which
`accepts` holds, and that it changes nothing in all others.  For the operations of the kernel this
comes from the lemmas `…_cases`, together with the converse that what passes the checks is accepted.
A command of the workspace is such an operation, followed by what cannot fail.
-/

namespace HolSearch

/-- The operation succeeds just where `accepts` holds, and a refusal leaves the state as it was. -/
structure AllOrNothing {ε σ α : Type} (m : ExceptT ε (StateM σ) α) (accepts : σ → Prop) :
    Prop where
  refused : ∀ s e s', m.run s = (.error e, s') → s' = s
  succeeds_iff : ∀ s, (∃ a s', m.run s = (.ok a, s')) ↔ accepts s

namespace AllOrNothing

variable {ε ε' σ α β : Type} {m : ExceptT ε (StateM σ) α} {accepts : σ → Prop}

theorem of_cases (hrefused : ∀ s, ¬accepts s → ∃ e, m.run s = (.error e, s))
    (haccepted : ∀ s, accepts s → ∃ a s', m.run s = (.ok a, s')) : AllOrNothing m accepts := by
  constructor
  · intro s e s' hrun
    by_cases hs : accepts s
    · obtain ⟨a, t, hok⟩ := haccepted s hs
      rw [hrun] at hok
      cases hok
    · obtain ⟨e', herror⟩ := hrefused s hs
      rw [hrun] at herror
      cases herror
      rfl
  · intro s
    refine ⟨?_, haccepted s⟩
    rintro ⟨a, t, hok⟩
    by_contra hs
    obtain ⟨e, herror⟩ := hrefused s hs
    rw [hok] at herror
    cases herror

theorem exists_error (h : AllOrNothing m accepts) {s : σ} (hs : ¬accepts s) :
    ∃ e, m.run s = (.error e, s) := by
  cases hrun : m.run s with
  | mk r s' =>
      cases r with
      | ok a => exact absurd ((h.succeeds_iff s).mp ⟨a, s', hrun⟩) hs
      | error e =>
          rw [h.refused s e s' hrun]
          exact ⟨e, rfl⟩

/-- What follows such an operation may change the state if it cannot fail. -/
theorem bind (h : AllOrNothing m accepts) {f : α → ExceptT ε (StateM σ) β}
    (hf : ∀ a s, ∃ b s', (f a).run s = (.ok b, s')) : AllOrNothing (m >>= f) accepts := by
  refine of_cases (fun s hs => ?_) (fun s hs => ?_)
  · obtain ⟨e, hrun⟩ := h.exists_error hs
    exact ⟨e, by rw [run_bind, hrun]⟩
  · obtain ⟨a, t, hrun⟩ := (h.succeeds_iff s).mpr hs
    rw [run_bind, hrun]
    exact hf a t

theorem adapt (h : AllOrNothing m accepts) (f : ε → ε') : AllOrNothing (m.adapt f) accepts := by
  have hadapt : ∀ s, (m.adapt f).run s = ((m.run s).1.mapError f, (m.run s).2) := fun _ => rfl
  refine of_cases (fun s hs => ?_) (fun s hs => ?_)
  · obtain ⟨e, hrun⟩ := h.exists_error hs
    exact ⟨f e, by rw [hadapt, hrun]; rfl⟩
  · obtain ⟨a, t, hrun⟩ := (h.succeeds_iff s).mpr hs
    exact ⟨a, t, by rw [hadapt, hrun]; rfl⟩

end AllOrNothing

/-! ## The kernel -/

namespace Kernel

theorem allOrNothing_declareType (name : Name) (arity : Nat) :
    AllOrNothing (declareType name arity) fun k => k.arity? name = none := by
  refine .of_cases (fun k hk => ?_) (fun k hk => ?_)
  · rcases declareType_cases name arity k with hrefused | ⟨hnew, -⟩
    · exact hrefused
    · exact absurd hnew hk
  · rw [declareType_run, if_neg (Table.not_contains_iff.mpr hk)]
    exact ⟨_, _, rfl⟩

theorem allOrNothing_declareConst (name : Name) (ty : HolType) :
    AllOrNothing (declareConst name ty) fun k => k.constType? name = none := by
  refine .of_cases (fun k hk => ?_) (fun k hk => ?_)
  · rcases declareConst_cases name ty k with hrefused | ⟨hnew, -⟩
    · exact hrefused
    · exact absurd hnew hk
  · rw [declareConst_run, if_neg (Table.not_contains_iff.mpr hk)]
    exact ⟨_, _, rfl⟩

theorem allOrNothing_postulate (conj : Conjecture) :
    AllOrNothing (postulate conj) fun k => k.WellFormed ⟨conj⟩ := by
  refine .of_cases (fun k hk => ?_) (fun k hk => ?_)
  · rcases postulate_cases conj k with hrefused | ⟨hconj, -⟩
    · exact hrefused
    · exact absurd hconj hk
  · have hcheck : k.checkProps conj.members = .ok () := checkProps_eq_ok_iff.mpr hk.members
    simp only [postulate, run_bind, run_get, run_liftM, run_set, run_pure, hcheck]
    exact ⟨_, _, rfl⟩

theorem allOrNothing_defineConst (name : Name) (term : HolTerm) :
    AllOrNothing (defineConst name term) fun k =>
      ∃ ty, (ConstDefinition.mk name term ty).Accepted k := by
  refine .of_cases (fun k hk => ?_) (fun k hk => ?_)
  · rcases defineConst_cases name term k with hrefused | ⟨ty, hc, -⟩
    · exact hrefused
    · exact absurd ⟨ty, hc⟩ hk
  · obtain ⟨ty, hc⟩ := hk
    exact ⟨_, _, defineConst_of_accepted hc⟩

theorem allOrNothing_defineSubtype (name ctor dtor : Name) (pred : HolTerm) :
    AllOrNothing (defineSubtype name ctor dtor pred) fun k =>
      ∃ carrier, (TypeDefinition.mk name ctor dtor pred carrier).Accepted k := by
  refine .of_cases (fun k hk => ?_) (fun k hk => ?_)
  · rcases defineSubtype_cases name ctor dtor pred k with hrefused | ⟨carrier, hd, -⟩
    · exact hrefused
    · exact absurd ⟨carrier, hd⟩ hk
  · obtain ⟨carrier, hd⟩ := hk
    exact ⟨_, _, defineSubtype_of_accepted hd⟩

end Kernel

/-! ## The workspace -/

namespace ProofM

variable {ε α : Type}

/-- A kernel that has learned nothing leaves nothing to record. -/
theorem ofGrowth_self (k : Kernel) : Event.ofGrowth k k = [] := by
  simp [Event.ofGrowth]

theorem allOrNothing_onKernel {m : KernelM α} {accepts : Kernel → Prop}
    (h : AllOrNothing m accepts) :
    AllOrNothing (onKernel m) fun s => accepts s.workspace.kernel := by
  have honKernel : ∀ s, (onKernel m).run s = ((m.run s.workspace.kernel).1,
      { s with
        workspace.kernel := (m.run s.workspace.kernel).2
        journal := s.journal.addAll
          (Event.ofGrowth s.workspace.kernel (m.run s.workspace.kernel).2) }) := fun _ => rfl
  refine .of_cases (fun s hs => ?_) (fun s hs => ?_)
  · obtain ⟨e, hrun⟩ := h.exists_error hs
    refine ⟨e, ?_⟩
    rw [honKernel, hrun, ofGrowth_self]
    rfl
  · obtain ⟨a, k, hrun⟩ := (h.succeeds_iff _).mpr hs
    exact ⟨a, _, by rw [honKernel, hrun]⟩

theorem allOrNothing_define (name : Name) (term : HolTerm) :
    AllOrNothing (define name term) fun s =>
      ∃ ty, (ConstDefinition.mk name term ty).Accepted s.workspace.kernel := by
  have hkernel := allOrNothing_onKernel (Kernel.allOrNothing_defineConst name term)
  refine (hkernel.adapt WorkspaceError.kernel).bind fun thm s => ?_
  exact ⟨thm, _, rfl⟩

theorem allOrNothing_defineType (name ctor dtor : Name) (pred : HolTerm) :
    AllOrNothing (defineType name ctor dtor pred) fun s =>
      ∃ carrier,
        (TypeDefinition.mk name ctor dtor pred carrier).Accepted s.workspace.kernel := by
  have hkernel := allOrNothing_onKernel (Kernel.allOrNothing_defineSubtype name ctor dtor pred)
  refine (hkernel.adapt WorkspaceError.kernel).bind fun thms s => ?_
  exact ⟨thms, _, rfl⟩

end ProofM

/-- **What is refused changes nothing.**  A declaration, an axiom or a definition succeeds just if
its names are new and its terms pass the checks; otherwise the kernel stays as it was, and with it
the whole state of a workspace in which the definition was tried. -/
theorem refused_changes_nothing :
    (∀ name arity, AllOrNothing (Kernel.declareType name arity) fun k => k.arity? name = none) ∧
    (∀ name ty, AllOrNothing (Kernel.declareConst name ty) fun k => k.constType? name = none) ∧
    (∀ conj, AllOrNothing (Kernel.postulate conj) fun k => k.WellFormed ⟨conj⟩) ∧
    (∀ name term, AllOrNothing (Kernel.defineConst name term) fun k =>
      ∃ ty, (ConstDefinition.mk name term ty).Accepted k) ∧
    (∀ name ctor dtor pred, AllOrNothing (Kernel.defineSubtype name ctor dtor pred) fun k =>
      ∃ carrier, (TypeDefinition.mk name ctor dtor pred carrier).Accepted k) ∧
    (∀ name term, AllOrNothing (ProofM.define name term) fun s =>
      ∃ ty, (ConstDefinition.mk name term ty).Accepted s.workspace.kernel) ∧
    ∀ name ctor dtor pred, AllOrNothing (ProofM.defineType name ctor dtor pred) fun s =>
      ∃ carrier,
        (TypeDefinition.mk name ctor dtor pred carrier).Accepted s.workspace.kernel :=
  ⟨Kernel.allOrNothing_declareType, Kernel.allOrNothing_declareConst,
    Kernel.allOrNothing_postulate, Kernel.allOrNothing_defineConst,
    Kernel.allOrNothing_defineSubtype, ProofM.allOrNothing_define,
    ProofM.allOrNothing_defineType⟩

end HolSearch
