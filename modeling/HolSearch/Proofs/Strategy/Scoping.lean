import HolSearch.Proofs.Schematic.Fixing
import HolSearch.Strategy.Script

/-!
# The scope of names in a strategy

A script is read from left to right, and a name stands for one value from its first occurrence on.
So a variable of a strategy is fixed just if its name occurs as that of a variable in the pattern or
in an operand before, and a type variable just if its name occurs there as that of a type variable.
Main statement: `Strategy.ofScript_scoping`.

Types, variables, terms and sequents are read in four different ways.  Each of them makes the
operand schematic by the names seen so far (`Operand.toMeta`) and adds the names of the operand to
these (`Names.IsUnion`).  `Reading.Reads` says this of a reading step with any number of operands.
It holds of a step for two operands in turn if it does for both, so it holds of each instruction and
of a whole script.
-/

namespace HolSearch

/-! ## Operands -/

/-- What an instruction can be given. -/
inductive Operand (μ : Type) where
  | type (ty : Ty μ)
  | var (v : Var μ)
  | term (t : Term μ)
  | sequent (s : Sequent (Term μ))

namespace Operand

variable {μ : Type}

/-- The variables of the operand, with repetitions. -/
def vars : Operand μ → List (Var μ)
  | .type _ => []
  | .var v => [v]
  | .term t => t.leaves
  | .sequent s => s.members.flatMap Term.leaves

/-- The types written in the operand, those of its variables among them. -/
def types : Operand μ → List (Ty μ)
  | .type ty => [ty]
  | .var v => [v.ty]
  | .term t => t.types
  | .sequent s => s.members.flatMap Term.types

/-- The type variables of the operand, with repetitions. -/
def tyVars (o : Operand μ) : List (TyVar μ) := o.types.flatMap Ty.leaves

/-- The names of the variables and of the type variables of the operand. -/
def names (o : Operand μ) : Names where
  terms := o.vars.map Var.name
  types := o.tyVars.map TyVar.name

end Operand

namespace Instruction

variable {μ : Type}

/-- The operands of an instruction, in order. -/
def operands : Instruction μ → List (Operand μ)
  | .prove s => [.sequent s]
  | .proveLocal s => [.sequent s]
  | .proveBy _ s => [.sequent s]
  | .refl t => [.term t]
  | .cong fg xy => [.sequent fg, .sequent xy]
  | .abs v pq => [.var v, .sequent pq]
  | .typeAbs ty pq => [.type ty, .sequent pq]
  | .beta v body => [.var v, .term body]
  | .assume p => [.term p]
  | .eqMp major minor => [.sequent major, .sequent minor]
  | .antisym left right => [.sequent left, .sequent right]

/-- The instruction without the marks of its operands. -/
def unmarked : Instruction μ → Instruction Unit
  | .prove s => .prove (s.map Term.unmarked)
  | .proveLocal s => .proveLocal (s.map Term.unmarked)
  | .proveBy name s => .proveBy name (s.map Term.unmarked)
  | .refl t => .refl t.unmarked
  | .cong fg xy => .cong (fg.map Term.unmarked) (xy.map Term.unmarked)
  | .abs v pq => .abs v.unmarked (pq.map Term.unmarked)
  | .typeAbs ty pq => .typeAbs ty.unmarked (pq.map Term.unmarked)
  | .beta v body => .beta v.unmarked body.unmarked
  | .assume p => .assume p.unmarked
  | .eqMp major minor => .eqMp (major.map Term.unmarked) (minor.map Term.unmarked)
  | .antisym left right => .antisym (left.map Term.unmarked) (right.map Term.unmarked)

end Instruction

/-- After the operands given earlier, the variables of the operand are fixed if their names occur in
one of these, and unfixed otherwise, and so are the type variables. -/
structure Operand.ScopedAfter (earlier : List (Operand Unit)) (o : Operand Mark) : Prop where
  vars : ∀ v ∈ o.vars,
    v.mark = if ∃ e ∈ earlier, v.name ∈ e.names.terms then .fixed else .unfixed
  tyVars : ∀ a ∈ o.tyVars,
    a.mark = if ∃ e ∈ earlier, a.name ∈ e.names.types then .fixed else .unfixed

/-! ## Marking operands -/

namespace Operand

/-- The schematic operand whose variables and type variables are fixed if their names are. -/
def toMeta (fixed : Names) : Operand Unit → Operand Mark
  | .type ty => .type (HolType.toMeta fixed.types ty)
  | .var v => .var (HolVar.toMeta fixed v)
  | .term t => .term (HolTerm.toMeta fixed t)
  | .sequent s => .sequent (Schema.withFixed fixed s)

theorem vars_toMeta (fixed : Names) (o : Operand Unit) :
    (o.toMeta fixed).vars = o.vars.map (HolVar.toMeta fixed) := by
  cases o with
  | type ty => rfl
  | var v => rfl
  | term t => exact HolTerm.leaves_toMeta fixed t
  | sequent s =>
      simp only [toMeta, vars, Schema.members_withFixed, List.flatMap_map, List.map_flatMap,
        HolTerm.leaves_toMeta]

theorem types_toMeta (fixed : Names) (o : Operand Unit) :
    (o.toMeta fixed).types = o.types.map (HolType.toMeta fixed.types) := by
  cases o with
  | type ty => rfl
  | var v => rfl
  | term t => exact HolTerm.types_toMeta fixed t
  | sequent s =>
      simp only [toMeta, types, Schema.members_withFixed, List.flatMap_map, List.map_flatMap,
        HolTerm.types_toMeta]

theorem tyVars_toMeta (fixed : Names) (o : Operand Unit) :
    (o.toMeta fixed).tyVars = o.tyVars.map (TyVar.toMeta fixed.types) := by
  simp only [tyVars, types_toMeta, List.flatMap_map, List.map_flatMap, HolType.leaves_toMeta]

end Operand

/-! ## Names seen so far -/

/-- The names are those of the operands. -/
structure Names.Collects (seen : Names) (given : List (Operand Unit)) : Prop where
  terms : ∀ name, name ∈ seen.terms ↔ ∃ o ∈ given, name ∈ o.names.terms
  types : ∀ name, name ∈ seen.types ↔ ∃ o ∈ given, name ∈ o.names.types

namespace Names.Collects

variable {seen seen' : Names} {earlier : List (Operand Unit)} {o : Operand Unit}

theorem nil : Names.Collects {} [] :=
  ⟨fun _ => by simp, fun _ => by simp⟩

theorem append (h : seen.Collects earlier) (hunion : seen'.IsUnion seen o.names) :
    seen'.Collects (earlier ++ [o]) := by
  constructor
  · intro name
    simp [hunion.terms, h.terms, or_and_right, exists_or]
  · intro name
    simp [hunion.types, h.types, or_and_right, exists_or]

/-- An operand that is marked by the names of the earlier ones is scoped. -/
theorem scopedAfter_toMeta (h : seen.Collects earlier) (o : Operand Unit) :
    (o.toMeta seen).ScopedAfter earlier := by
  constructor
  · rw [Operand.vars_toMeta, List.forall_mem_map]
    intro v _
    simp [HolVar.toMeta, Mark.ofFixed, h.terms]
  · rw [Operand.tyVars_toMeta, List.forall_mem_map]
    intro a _
    simp [TyVar.toMeta, Mark.ofFixed, h.types]

end Names.Collects

/-! ## Collecting names -/

/-- Every variable of a schematic term made of a term is a metavariable, so all names count. -/
theorem isUnion_addAll_metaNames (seen fixed : Names) (t : HolTerm) :
    (seen.addAll (MetaTerm.metaNames (HolTerm.toMeta fixed t))).IsUnion seen
      (Operand.term t).names := by
  have hmark : ∀ b, (Mark.ofFixed b).isMeta = true := by decide
  have hvars : (HolTerm.toMeta fixed t).vars =
      distinct ((Operand.term t).vars.map (HolVar.toMeta fixed)) :=
    congrArg distinct (Operand.vars_toMeta fixed (.term t))
  have htyVars : (HolTerm.toMeta fixed t).typeVars =
      distinct ((Operand.term t).tyVars.map (TyVar.toMeta fixed.types)) :=
    congrArg distinct (Operand.tyVars_toMeta fixed (.term t))
  constructor
  · intro name
    simp [Names.addAll, MetaTerm.metaNames, hvars, Operand.names, HolVar.toMeta, hmark]
  · intro name
    simp [Names.addAll, MetaTerm.metaNames, htyVars, Operand.names, TyVar.toMeta, hmark]

/-- The names of terms read one after the other are added in turn. -/
theorem isUnion_foldl_metaNames (seen fixed : Names) (ts : List HolTerm) :
    ((ts.map (HolTerm.toMeta fixed)).foldl (fun seen tm => seen.addAll (MetaTerm.metaNames tm))
      seen).IsUnion seen
      ⟨ts.flatMap fun t => (Operand.term t).names.terms,
        ts.flatMap fun t => (Operand.term t).names.types⟩ := by
  induction ts generalizing seen with
  | nil => exact ⟨fun _ => by simp, fun _ => by simp⟩
  | cons t ts ih =>
      refine (ih _).assoc (isUnion_addAll_metaNames seen fixed t) ⟨fun name => ?_, fun name => ?_⟩
      · simp only [List.flatMap_cons, List.mem_append]
      · simp only [List.flatMap_cons, List.mem_append]

/-- It does not matter that each variable of a type is listed once. -/
theorem isUnion_addAll_vars (seen : Names) (terms : List Name) (ty : HolType) :
    (seen.addAll ⟨terms, ty.vars.map TyVar.name⟩).IsUnion seen
      ⟨terms, ty.leaves.map TyVar.name⟩ := by
  constructor
  · intro name
    exact mem_addAllNew
  · intro name
    simp [Names.addAll, Ty.mem_vars]

namespace Reading

theorem isUnion_sequent (c : Conjecture) (seen : Names) :
    ((sequent c).run seen).2.IsUnion seen (Operand.sequent c).names := by
  have hnames : (Operand.sequent c).names =
      ⟨c.members.flatMap fun t => (Operand.term t).names.terms,
        c.members.flatMap fun t => (Operand.term t).names.types⟩ := by
    simp only [Operand.names, Operand.vars, Operand.tyVars, Operand.types, List.map_flatMap,
      List.flatMap_assoc]
  have hrun : ((sequent c).run seen).2 = ((c.members.map (HolTerm.toMeta seen)).foldl
      (fun seen tm => seen.addAll (MetaTerm.metaNames tm)) seen) := by
    rw [← Schema.members_withFixed]
    rfl
  rw [hnames, hrun]
  exact isUnion_foldl_metaNames seen seen c.members

theorem isUnion_term (t : HolTerm) (seen : Names) :
    ((term t).run seen).2.IsUnion seen (Operand.term t).names :=
  isUnion_addAll_metaNames seen seen t

theorem isUnion_type (ty : HolType) (seen : Names) :
    ((type ty).run seen).2.IsUnion seen (Operand.type ty).names := by
  have hnames : (Operand.type ty).names = ⟨[], ty.leaves.map TyVar.name⟩ := by
    simp [Operand.names, Operand.vars, Operand.tyVars, Operand.types]
  rw [hnames]
  exact isUnion_addAll_vars seen [] ty

theorem isUnion_var (v : HolVar) (seen : Names) :
    ((var v).run seen).2.IsUnion seen (Operand.var v).names := by
  have hnames : (Operand.var v).names = ⟨[v.name], v.ty.leaves.map TyVar.name⟩ := by
    simp [Operand.names, Operand.vars, Operand.tyVars, Operand.types]
  rw [hnames]
  exact isUnion_addAll_vars seen [v.name] v.ty

end Reading

/-! ## Reading -/

/-- The operands made of those given are scoped after the earlier ones and those before them. -/
def ScopedInTurn (earlier given : List (Operand Unit)) (made : List (Operand Mark)) : Prop :=
  made.length = given.length ∧
    ∀ (i : Nat) (o : Operand Mark), made[i]? = some o → o.ScopedAfter (earlier ++ given.take i)

theorem ScopedInTurn.append {earlier given given' : List (Operand Unit)}
    {made made' : List (Operand Mark)} (h : ScopedInTurn earlier given made)
    (h' : ScopedInTurn (earlier ++ given) given' made') :
    ScopedInTurn earlier (given ++ given') (made ++ made') := by
  obtain ⟨hlength, hscoped⟩ := h
  obtain ⟨hlength', hscoped'⟩ := h'
  refine ⟨by simp only [List.length_append, hlength, hlength'], fun i o ho => ?_⟩
  rcases Nat.lt_or_ge i made.length with hi | hi
  · rw [List.getElem?_append_left hi] at ho
    rw [List.take_append_of_le_length (by omega)]
    exact hscoped i o ho
  · -- an operand of the second part comes after the whole first part
    rw [List.getElem?_append_right hi, hlength] at ho
    have htake : (given ++ given').take i = given ++ given'.take (i - given.length) := by
      rw [List.take_append, List.take_of_length_le (by omega)]
    rw [htake, ← List.append_assoc]
    exact hscoped' _ o ho

namespace Reading

variable {α β γ : Type}

/-- The step reads the operands given, and its result has the operands `made`: each is scoped after
all before it, and the names of all are known afterwards. -/
def Reads (m : Reading α) (given : List (Operand Unit)) (made : α → List (Operand Mark)) : Prop :=
  ∀ earlier seen, seen.Collects earlier →
    ScopedInTurn earlier given (made (m.run seen).1) ∧
      (m.run seen).2.Collects (earlier ++ given)

/-- A step that marks an operand by the names seen so far and adds its names reads this operand. -/
theorem Reads.single {m : Reading α} {o : Operand Unit} {make : α → Operand Mark}
    (hmake : ∀ seen, make (m.run seen).1 = o.toMeta seen)
    (hnames : ∀ seen, (m.run seen).2.IsUnion seen o.names) : m.Reads [o] fun a => [make a] := by
  intro earlier seen hseen
  refine ⟨⟨rfl, fun i made hi => ?_⟩, hseen.append (hnames seen)⟩
  rw [List.getElem?_singleton] at hi
  split at hi
  · rename_i hzero
    cases hi
    rw [hmake, hzero, List.take_zero, List.append_nil]
    exact hseen.scopedAfter_toMeta o
  · cases hi

theorem reads_sequent (c : Conjecture) : (sequent c).Reads [.sequent c] fun s => [.sequent s] :=
  .single (fun _ => rfl) (isUnion_sequent c)

theorem reads_term (t : HolTerm) : (term t).Reads [.term t] fun t' => [.term t'] :=
  .single (fun _ => rfl) (isUnion_term t)

theorem reads_type (ty : HolType) : (type ty).Reads [.type ty] fun ty' => [.type ty'] :=
  .single (fun _ => rfl) (isUnion_type ty)

theorem reads_var (v : HolVar) : (var v).Reads [.var v] fun v' => [.var v'] :=
  .single (fun _ => rfl) (isUnion_var v)

/-- Two steps in a row read the operands of the first and then those of the second. -/
theorem Reads.map₂ {m : Reading α} {m' : Reading β} {given given' : List (Operand Unit)}
    {make : α → List (Operand Mark)} {make' : β → List (Operand Mark)}
    {made : γ → List (Operand Mark)} (h : m.Reads given make) (h' : m'.Reads given' make')
    (combine : α → β → γ) (hmade : ∀ a b, made (combine a b) = make a ++ make' b) :
    (do return combine (← m) (← m') : Reading γ).Reads (given ++ given') made := by
  intro earlier seen hseen
  obtain ⟨hscoped, hseen⟩ := h earlier seen hseen
  -- the second step starts from the names that the first has left
  obtain ⟨hscoped', hseen'⟩ := h' (earlier ++ given) _ hseen
  rw [List.append_assoc] at hseen'
  have hboth := hscoped.append hscoped'
  rw [← hmade] at hboth
  exact ⟨hboth, hseen'⟩

theorem Reads.map {m : Reading α} {given : List (Operand Unit)} {make : α → List (Operand Mark)}
    {made : β → List (Operand Mark)} (h : m.Reads given make) (f : α → β)
    (hmade : ∀ a, made (f a) = make a) : (do return f (← m) : Reading β).Reads given made := by
  intro earlier seen hseen
  obtain ⟨hscoped, hseen⟩ := h earlier seen hseen
  rw [← hmade] at hscoped
  exact ⟨hscoped, hseen⟩

/-- An instruction is read operand by operand, the first before the second. -/
theorem reads_instruction (i : Instruction Unit) :
    (instruction i).Reads i.operands Instruction.operands := by
  cases i with
  | prove s => exact (reads_sequent s).map Instruction.prove fun _ => rfl
  | proveLocal s => exact (reads_sequent s).map Instruction.proveLocal fun _ => rfl
  | proveBy name s => exact (reads_sequent s).map (Instruction.proveBy name) fun _ => rfl
  | refl t => exact (reads_term t).map Instruction.refl fun _ => rfl
  | cong fg xy => exact (reads_sequent fg).map₂ (reads_sequent xy) Instruction.cong fun _ _ => rfl
  | abs v pq => exact (reads_var v).map₂ (reads_sequent pq) Instruction.abs fun _ _ => rfl
  | typeAbs ty pq =>
      exact (reads_type ty).map₂ (reads_sequent pq) Instruction.typeAbs fun _ _ => rfl
  | beta v body => exact (reads_var v).map₂ (reads_term body) Instruction.beta fun _ _ => rfl
  | assume p => exact (reads_term p).map Instruction.assume fun _ => rfl
  | eqMp major minor =>
      exact (reads_sequent major).map₂ (reads_sequent minor) Instruction.eqMp fun _ _ => rfl
  | antisym left right =>
      exact (reads_sequent left).map₂ (reads_sequent right) Instruction.antisym fun _ _ => rfl

theorem reads_instructions (script : List (Instruction Unit)) :
    (instructions script).Reads (script.flatMap Instruction.operands) fun made =>
      made.flatMap Instruction.operands := by
  induction script with
  | nil =>
      intro earlier seen hseen
      refine ⟨⟨rfl, fun i o ho => ?_⟩, ?_⟩
      · cases ho
      · rw [List.flatMap_nil, List.append_nil]
        exact hseen
  | cons i script ih =>
      exact (reads_instruction i).map₂ ih List.cons fun _ _ => List.flatMap_cons

/-! ## Unmarked strategies -/

/-- Reading changes nothing but marks. -/
theorem unmarked_instruction (i : Instruction Unit) (seen : Names) :
    ((instruction i).run seen).1.unmarked = i := by
  cases i with
  | prove s => exact congrArg Instruction.prove (Schema.unmarked_withFixed seen s)
  | proveLocal s => exact congrArg Instruction.proveLocal (Schema.unmarked_withFixed seen s)
  | proveBy name s => exact congrArg (Instruction.proveBy name) (Schema.unmarked_withFixed seen s)
  | refl t => exact congrArg Instruction.refl (HolTerm.unmarked_toMeta seen t)
  | cong fg xy =>
      exact congrArg₂ Instruction.cong (Schema.unmarked_withFixed seen fg)
        (Schema.unmarked_withFixed _ xy)
  | abs v pq =>
      exact congrArg₂ Instruction.abs (HolVar.unmarked_toMeta seen v)
        (Schema.unmarked_withFixed _ pq)
  | typeAbs ty pq =>
      exact congrArg₂ Instruction.typeAbs (HolType.unmarked_toMeta seen.types ty)
        (Schema.unmarked_withFixed _ pq)
  | beta v body =>
      exact congrArg₂ Instruction.beta (HolVar.unmarked_toMeta seen v)
        (HolTerm.unmarked_toMeta _ body)
  | assume p => exact congrArg Instruction.assume (HolTerm.unmarked_toMeta seen p)
  | eqMp major minor =>
      exact congrArg₂ Instruction.eqMp (Schema.unmarked_withFixed seen major)
        (Schema.unmarked_withFixed _ minor)
  | antisym left right =>
      exact congrArg₂ Instruction.antisym (Schema.unmarked_withFixed seen left)
        (Schema.unmarked_withFixed _ right)

theorem unmarked_instructions (script : List (Instruction Unit)) (seen : Names) :
    ((instructions script).run seen).1.map Instruction.unmarked = script := by
  induction script generalizing seen with
  | nil => rfl
  | cons i script ih => exact congrArg₂ List.cons (unmarked_instruction i seen) (ih _)

end Reading

/-- **Names are scoped from left to right.**  A strategy is its pattern and its script with marks
added.  All variables and type variables of the pattern are unfixed.  Those of an operand are fixed
if their names occur, of variables or of type variables respectively, in the pattern or in an
operand before, also in one of the same instruction, and unfixed otherwise. -/
theorem Strategy.ofScript_scoping (name : Name) (pattern : Conjecture)
    (script : List (Instruction Unit)) :
    let s := Strategy.ofScript name pattern script
    let given := script.flatMap Instruction.operands
    let made := s.instructions.flatMap Instruction.operands
    (s.name = name ∧ s.pattern.map Term.unmarked = pattern ∧
      s.instructions.map Instruction.unmarked = script) ∧
    ((∀ v ∈ (Operand.sequent s.pattern).vars, v.mark = .unfixed) ∧
      ∀ a ∈ (Operand.sequent s.pattern).tyVars, a.mark = .unfixed) ∧
    made.length = given.length ∧
    ∀ (i : Nat) (o : Operand Mark), made[i]? = some o →
      o.ScopedAfter (.sequent pattern :: given.take i) := by
  intro s given made
  -- the pattern is read as the first operand is, with no names known yet
  have hpattern : s.pattern = Schema.withFixed {} pattern :=
    (Schema.withFixed_eq_map {} pattern).symm
  have hseen : (s.pattern.seenNames {}).Collects [.sequent pattern] := by
    rw [hpattern]
    exact Names.Collects.nil.append (Reading.isUnion_sequent pattern {})
  have hscoped : (Operand.sequent s.pattern).ScopedAfter [] := by
    rw [hpattern]
    exact Names.Collects.nil.scopedAfter_toMeta (.sequent pattern)
  obtain ⟨hlength, hmade⟩ := (Reading.reads_instructions script _ _ hseen).1
  refine ⟨⟨rfl, ?_, Reading.unmarked_instructions script _⟩, ⟨?_, ?_⟩, hlength, hmade⟩
  · rw [hpattern, Schema.unmarked_withFixed]
  · intro v hv
    simpa using hscoped.vars v hv
  · intro a ha
    simpa using hscoped.tyVars a ha

/-- In `beta x (f x)` the variable and its type are known by the time the body is read. -/
theorem Strategy.ofScript_scoping_beta :
    let a := tyVar "a"
    let x : HolVar := ⟨(), "x", a⟩
    let pattern : Conjecture := .ofList [] (freeVar "p" .bool)
    let s := Strategy.ofScript "Beta" pattern
      [.beta x (.app (freeVar "f" (.fn a .bool)) (.var x))]
    ∃ o, (s.instructions.flatMap Instruction.operands)[1]? = some o ∧
      o.vars.map (fun v => (v.name, v.mark)) = [("f", .unfixed), ("x", .fixed)] ∧
      o.tyVars.map TyVar.mark = [.fixed, .fixed] ∧
      o.ScopedAfter [.sequent pattern, .var x] := by
  intro a x pattern s
  obtain ⟨-, -, -, hscoped⟩ := Strategy.ofScript_scoping "Beta" pattern
    [.beta x (.app (freeVar "f" (.fn a .bool)) (.var x))]
  exact ⟨_, rfl, by decide +kernel, by decide +kernel, hscoped 1 _ rfl⟩

end HolSearch
