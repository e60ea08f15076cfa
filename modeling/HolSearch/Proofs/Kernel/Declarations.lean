import HolSearch.Kernel.Declarations
import HolSearch.Proofs.Kernel.Rules

/-!
# What declarations and definitions do

Each operation that changes the kernel either is refused and leaves the kernel as it was, or it
checks its arguments and extends the kernel.  The lemmas `…_cases` say which, with what is known of
the arguments of an accepted operation.

A definition is described by the record of what it introduces: `ConstDefinition` and
`TypeDefinition`.  `Accepted` says what the kernel has checked, `extend` is the extended kernel.
-/

namespace HolSearch

namespace Kernel

/-! ## Declarations and axioms -/

theorem declareType_run (name : Name) (arity : Nat) (k : Kernel) :
    (declareType name arity).run k =
      if k.types.contains name then (.error (.reintroduction name), k)
      else (.ok (), { k with types := k.types.insert name arity }) := by
  simp only [declareType, run_bind, run_get, run_ite, run_throw, run_set]

theorem declareConst_run (name : Name) (ty : HolType) (k : Kernel) :
    (declareConst name ty).run k =
      if k.consts.contains name then (.error (.reintroduction name), k)
      else (.ok (), { k with consts := k.consts.insert name ty }) := by
  simp only [declareConst, run_bind, run_get, run_ite, run_throw, run_set]

theorem declareType_cases (name : Name) (arity : Nat) (k : Kernel) :
    (∃ e, (declareType name arity).run k = (.error e, k)) ∨
      k.arity? name = none ∧
        (declareType name arity).run k =
          (.ok (), { k with types := k.types.insert name arity }) := by
  rw [declareType_run]
  split
  · exact Or.inl ⟨_, rfl⟩
  · rename_i hnew
    exact Or.inr ⟨Table.not_contains_iff.mp hnew, rfl⟩

theorem declareConst_cases (name : Name) (ty : HolType) (k : Kernel) :
    (∃ e, (declareConst name ty).run k = (.error e, k)) ∨
      k.constType? name = none ∧
        (declareConst name ty).run k = (.ok (), { k with consts := k.consts.insert name ty }) := by
  rw [declareConst_run]
  split
  · exact Or.inl ⟨_, rfl⟩
  · rename_i hnew
    exact Or.inr ⟨Table.not_contains_iff.mp hnew, rfl⟩

theorem postulate_cases (conj : Conjecture) (k : Kernel) :
    (∃ e, (postulate conj).run k = (.error e, k)) ∨
      k.WellFormed ⟨conj⟩ ∧
        (postulate conj).run k = (.ok ⟨conj⟩, { k with axioms := k.axioms ++ [⟨conj⟩] }) := by
  simp only [postulate, run_bind, run_get, run_liftM, run_set, run_pure]
  cases hcheck : k.checkProps conj.members with
  | error e => exact Or.inl ⟨e, rfl⟩
  | ok =>
      rw [checkProps_eq_ok_iff, Sequent.members, List.forall_mem_append,
        List.forall_mem_singleton] at hcheck
      refine Or.inr ⟨⟨fun p hp => ?_, ?_⟩, rfl⟩
      · exact checkTerm_eq_ok_iff.mpr (hcheck.1 p hp)
      · exact checkTerm_eq_ok_iff.mpr hcheck.2

end Kernel

/-! ## Definitions of constants -/

/-- A constant with its type and the term that defines it. -/
structure ConstDefinition where
  name : Name
  term : HolTerm
  ty : HolType

namespace ConstDefinition

/-- The theorem `⊢ c = t`. -/
def thm (c : ConstDefinition) : Theorem :=
  .ofList [] (.equation c.ty (.const c.name c.ty) c.term)

/-- The kernel with the constant declared and its defining theorem recorded. -/
def extend (c : ConstDefinition) (k : Kernel) : Kernel :=
  { k with
    consts := k.consts.insert c.name c.ty
    definitions := k.definitions.insert c.name c.thm }

/-- The defining term is closed, of the given type and without hidden type variables, and the name
is new. -/
structure Accepted (c : ConstDefinition) (k : Kernel) : Prop where
  closed : c.term.leaves = []
  typed : k.HasType .empty c.term c.ty
  not_hidden : ∀ v ∈ c.term.typeVars, v ∈ c.ty.leaves
  new : k.constType? c.name = none

variable {c : ConstDefinition} {k : Kernel}

theorem le_extend (hc : c.Accepted k) : k ≤ c.extend k :=
  ⟨le_refl _, Table.le_insert hc.new _⟩

theorem constType?_extend : (c.extend k).constType? c.name = some c.ty := by
  simp [Kernel.constType?, extend, Table.get?_insert]

end ConstDefinition

theorem Kernel.defineConst_cases (name : Name) (term : HolTerm) (k : Kernel) :
    (∃ e, (defineConst name term).run k = (.error e, k)) ∨
      ∃ ty, (ConstDefinition.mk name term ty).Accepted k ∧
        (defineConst name term).run k =
          (.ok (ConstDefinition.mk name term ty).thm,
            (ConstDefinition.mk name term ty).extend k) := by
  simp only [defineConst, run_bind, run_get, run_ite, run_throw, run_liftM, run_modify, run_pure]
  split
  · exact Or.inl ⟨_, rfl⟩
  rename_i hvars
  cases hcheck : k.checkTerm term with
  | error e => exact Or.inl ⟨e, rfl⟩
  | ok ty =>
      have htyped := checkTerm_eq_ok_iff.mp hcheck
      have heq : (Term.const name ty).mkEq term = .ok (.equation ty (.const name ty) term) :=
        Term.mkEq_eq_ok_iff.mpr ⟨ty, rfl, htyped.typeOf?_eq, rfl⟩
      dsimp only
      split
      · exact Or.inl ⟨_, rfl⟩
      rename_i hhidden
      have hshown : ∀ v ∈ term.typeVars, ty.contains v = true := by simpa using hhidden
      rcases declareConst_cases name ty k with ⟨e, hrun⟩ | ⟨hnew, hrun⟩
      · rw [hrun]
        exact Or.inl ⟨e, rfl⟩
      · rw [hrun, heq]
        exact Or.inr ⟨ty, ⟨Term.leaves_of_not_hasVars hvars, htyped,
          fun v hv => Ty.contains_iff.mp (hshown v hv), hnew⟩, rfl⟩

/-- A definition of a constant that passes the checks is carried out. -/
theorem Kernel.defineConst_of_accepted {c : ConstDefinition} {k : Kernel} (hc : c.Accepted k) :
    (defineConst c.name c.term).run k = (.ok c.thm, c.extend k) := by
  have hvars : ¬c.term.hasVars = true := by simp [Term.hasVars, hc.closed]
  have hshown : ¬(c.term.typeVars.any fun v => !c.ty.contains v) = true := by
    simpa [Ty.contains_iff] using hc.not_hidden
  -- the constant is declared by now, so this equation must not fail
  have heq : (Term.const c.name c.ty).mkEq c.term =
      .ok (.equation c.ty (.const c.name c.ty) c.term) :=
    Term.mkEq_eq_ok_iff.mpr ⟨c.ty, rfl, hc.typed.typeOf?_eq, rfl⟩
  simp only [defineConst, run_bind, run_get, run_liftM, run_modify, run_pure, if_neg hvars,
    checkTerm_eq_ok_iff.mpr hc.typed, if_neg hshown]
  rw [declareConst_run, if_neg (Table.not_contains_iff.mpr hc.new)]
  dsimp only
  rw [heq]
  rfl

/-! ## Definitions of types -/

/-- A type with its constructor and destructor, and the predicate on the carrier type that defines
it. -/
structure TypeDefinition where
  name : Name
  ctor : Name
  dtor : Name
  pred : HolTerm
  carrier : HolType

namespace TypeDefinition

variable (d : TypeDefinition)

/-- The new type takes the type variables of the predicate as arguments. -/
def ty : HolType := .app d.name (d.pred.typeVars.map .var)

def ctorTy : HolType := .fn d.carrier d.ty

def dtorTy : HolType := .fn d.ty d.carrier

def construct (t : HolTerm) : HolTerm := .app (.const d.ctor d.ctorTy) t

def destruct (t : HolTerm) : HolTerm := .app (.const d.dtor d.dtorTy) t

/-- The theorem `⊢ ctor (dtor a) = a`. -/
def ctorThm : Theorem :=
  .ofList [] (.equation d.ty (d.construct (d.destruct (freeVar "a" d.ty))) (freeVar "a" d.ty))

/-- The theorem `⊢ P r = (dtor (ctor r) = r)`. -/
def dtorThm : Theorem :=
  .ofList [] (.equation .bool (.app d.pred (freeVar "r" d.carrier))
    (.equation d.carrier (d.destruct (d.construct (freeVar "r" d.carrier)))
      (freeVar "r" d.carrier)))

/-- The kernel with the type, the constructor and the destructor declared and the two theorems
recorded. -/
def extend (k : Kernel) : Kernel :=
  { k with
    types := k.types.insert d.name d.pred.typeVars.length
    consts := (k.consts.insert d.ctor d.ctorTy).insert d.dtor d.dtorTy
    constructors := k.constructors.insert d.ctor d.ctorThm
    destructors := k.destructors.insert d.dtor d.dtorThm }

/-- The predicate is closed and one on the carrier type, and the three names are new. -/
structure Accepted (k : Kernel) : Prop where
  name_new : k.arity? d.name = none
  ctor_new : k.constType? d.ctor = none
  dtor_new : k.constType? d.dtor = none
  ctor_ne_dtor : d.ctor ≠ d.dtor
  closed : d.pred.leaves = []
  typed : k.HasType .empty d.pred (.fn d.carrier .bool)

section Extension

variable {d} {k : Kernel}

theorem le_extend (hd : d.Accepted k) : k ≤ d.extend k := by
  refine ⟨Table.le_insert hd.name_new _, le_trans (Table.le_insert hd.ctor_new _)
    (Table.le_insert ?_ _)⟩
  rw [Table.get?_insert, if_neg hd.ctor_ne_dtor.symm]
  exact hd.dtor_new

theorem arity?_extend : (d.extend k).arity? d.name = some d.pred.typeVars.length := by
  simp [Kernel.arity?, extend, Table.get?_insert]

theorem constType?_ctor (hd : d.Accepted k) : (d.extend k).constType? d.ctor = some d.ctorTy := by
  simp [Kernel.constType?, extend, Table.get?_insert, hd.ctor_ne_dtor]

theorem constType?_dtor : (d.extend k).constType? d.dtor = some d.dtorTy := by
  simp [Kernel.constType?, extend, Table.get?_insert]

end Extension

theorem constructorTheorem_eq :
    Kernel.constructorTheorem (.const d.ctor d.ctorTy) (.const d.dtor d.dtorTy) d.ty =
      .ok d.ctorThm := by
  have hdtor : (Term.const d.dtor d.dtorTy).mkApp (freeVar "a" d.ty) =
      .ok (d.destruct (freeVar "a" d.ty)) :=
    Term.mkApp_eq_ok_iff.mpr ⟨d.ty, d.carrier, rfl, rfl, rfl⟩
  have hctor : (Term.const d.ctor d.ctorTy).mkApp (d.destruct (freeVar "a" d.ty)) =
      .ok (d.construct (d.destruct (freeVar "a" d.ty))) :=
    Term.mkApp_eq_ok_iff.mpr ⟨d.carrier, d.ty, rfl, rfl, rfl⟩
  simp only [Kernel.constructorTheorem, bind_eq_ok, pure_eq_ok]
  exact ⟨_, hdtor, _, hctor, _, Term.mkEq_eq_ok_iff.mpr ⟨d.ty, rfl, rfl, rfl⟩, rfl⟩

theorem destructorTheorem_eq (hpred : d.pred.typeOf? = some (.fn d.carrier .bool)) :
    Kernel.destructorTheorem d.pred (.const d.ctor d.ctorTy) (.const d.dtor d.dtorTy) d.carrier =
      .ok d.dtorThm := by
  have hctor : (Term.const d.ctor d.ctorTy).mkApp (freeVar "r" d.carrier) =
      .ok (d.construct (freeVar "r" d.carrier)) :=
    Term.mkApp_eq_ok_iff.mpr ⟨d.carrier, d.ty, rfl, rfl, rfl⟩
  have hdtor : (Term.const d.dtor d.dtorTy).mkApp (d.construct (freeVar "r" d.carrier)) =
      .ok (d.destruct (d.construct (freeVar "r" d.carrier))) :=
    Term.mkApp_eq_ok_iff.mpr ⟨d.ty, d.carrier, rfl, rfl, rfl⟩
  have happ : d.pred.mkApp (freeVar "r" d.carrier) = .ok (.app d.pred (freeVar "r" d.carrier)) :=
    Term.mkApp_eq_ok_iff.mpr ⟨d.carrier, .bool, hpred, rfl, rfl⟩
  have hthere : (d.destruct (d.construct (freeVar "r" d.carrier))).mkEq (freeVar "r" d.carrier) =
      .ok (.equation d.carrier (d.destruct (d.construct (freeVar "r" d.carrier)))
        (freeVar "r" d.carrier)) :=
    Term.mkEq_eq_ok_iff.mpr ⟨d.carrier, rfl, rfl, rfl⟩
  simp only [Kernel.destructorTheorem, bind_eq_ok, pure_eq_ok]
  refine ⟨_, hctor, _, hdtor, _, happ, _, hthere, _,
    Term.mkEq_eq_ok_iff.mpr ⟨.bool, ?_, rfl, rfl⟩, rfl⟩
  simp [Term.typeOf?, hpred]

end TypeDefinition

/-- An accepted definition declares the type, its constructor and its destructor. -/
theorem Kernel.defineSubtype_of_accepted {d : TypeDefinition} {k : Kernel} (hd : d.Accepted k) :
    (defineSubtype d.name d.ctor d.dtor d.pred).run k =
      (.ok (d.ctorThm, d.dtorThm), d.extend k) := by
  have hname : ¬k.types.contains d.name = true := Table.not_contains_iff.mpr hd.name_new
  have hctor : ¬k.consts.contains d.ctor = true := Table.not_contains_iff.mpr hd.ctor_new
  have hdtor : ¬k.consts.contains d.dtor = true := Table.not_contains_iff.mpr hd.dtor_new
  have hdtor' : ¬(k.consts.insert d.ctor d.ctorTy).contains d.dtor = true := by
    rw [Table.contains, Table.get?_insert, if_neg hd.ctor_ne_dtor.symm]
    exact hdtor
  have hvars : ¬d.pred.hasVars = true := by simp [Term.hasVars, hd.closed]
  have hbool : ¬(!(Ty.bool : HolType).isBool) = true := by decide
  simp only [defineSubtype, run_bind, run_get, run_liftM, run_modify, run_pure,
    if_neg hname, if_neg hctor, if_neg hdtor, if_neg hd.ctor_ne_dtor, if_neg hvars,
    checkTerm_eq_ok_iff.mpr hd.typed, Ty.destFn?_fn, if_neg hbool]
  have hctorThm := d.constructorTheorem_eq
  have hdtorThm := d.destructorTheorem_eq hd.typed.typeOf?_eq
  simp only [TypeDefinition.ctorTy, TypeDefinition.dtorTy, TypeDefinition.ty] at hctorThm hdtorThm
  simp only [TypeDefinition.ctorTy, TypeDefinition.ty] at hdtor'
  -- the declarations succeed because the names are new
  rw [declareType_run, if_neg hname]
  dsimp only
  rw [declareConst_run, if_neg hctor]
  dsimp only
  rw [declareConst_run, if_neg hdtor']
  dsimp only
  rw [hctorThm, hdtorThm, List.length_map]
  rfl

theorem Kernel.defineSubtype_cases (name ctor dtor : Name) (pred : HolTerm) (k : Kernel) :
    (∃ e, (defineSubtype name ctor dtor pred).run k = (.error e, k)) ∨
      ∃ carrier, (TypeDefinition.mk name ctor dtor pred carrier).Accepted k ∧
        (defineSubtype name ctor dtor pred).run k =
          (.ok ((TypeDefinition.mk name ctor dtor pred carrier).ctorThm,
              (TypeDefinition.mk name ctor dtor pred carrier).dtorThm),
            (TypeDefinition.mk name ctor dtor pred carrier).extend k) := by
  by_cases haccepted : ∃ carrier, (TypeDefinition.mk name ctor dtor pred carrier).Accepted k
  · obtain ⟨carrier, haccepted⟩ := haccepted
    exact Or.inr ⟨carrier, haccepted, defineSubtype_of_accepted haccepted⟩
  -- if no check fails, the definition is accepted
  refine Or.inl ?_
  simp only [defineSubtype, run_bind, run_get, run_ite, run_throw, run_liftM]
  split
  · exact ⟨_, rfl⟩
  rename_i hname
  split
  · exact ⟨_, rfl⟩
  rename_i hctor
  split
  · exact ⟨_, rfl⟩
  rename_i hdtor
  split
  · exact ⟨_, rfl⟩
  rename_i hne
  split
  · exact ⟨_, rfl⟩
  rename_i hvars
  cases hcheck : k.checkTerm pred with
  | error e => exact ⟨e, rfl⟩
  | ok predTy =>
      dsimp only
      split
      · exact ⟨_, rfl⟩
      rename_i carrier cod hfn
      simp only [run_bind, run_ite, run_throw]
      split
      · exact ⟨_, rfl⟩
      rename_i hbool
      have hcod : cod = .bool := Ty.isBool_iff.mp (by simpa using hbool)
      rw [Ty.destFn?_eq_some_iff] at hfn
      subst hcod hfn
      exact absurd ⟨carrier, Table.not_contains_iff.mp hname, Table.not_contains_iff.mp hctor,
        Table.not_contains_iff.mp hdtor, hne, Term.leaves_of_not_hasVars hvars,
        checkTerm_eq_ok_iff.mp hcheck⟩ haccepted

end HolSearch
