import HolSearch.Kernel.Instance
import HolSearch.Proofs.Kernel.WellFormed
import HolSearch.Proofs.Matching.Sequent

/-!
# Instances of theorems that prove goals

`Kernel.instance?` takes the first match of a theorem with a goal and lets the kernel instantiate
the theorem.  Whether it succeeds depends on the existence of a replacement only:
`isSome_instance?_iff`.  Three facts are behind this.

* Matching misses no replacement, and a match is one.
* The kernel makes of the theorem what the replacement of the match makes of it
  (`instantiate_eq_ok_map`).
* The kernel does not refuse a match with a well-formed goal: the values are closed parts of the
  goal, and so they are well-formed (`WellTyped.instantiate`).  Hence it does not matter that only
  the first match is tried.

The existence of a replacement is reflexive and transitive, and therefore being an instance is.
-/

namespace HolSearch

/-! ## The replacement of a substitution -/

namespace HolSubst

variable {s : HolSubst}

/-- The value of the variable is closed and has the new type of the variable. -/
def Fits (s : HolSubst) (v : HolVar) : Prop :=
  (onVar s v).typeOf? = some (onType s v.ty) ∧ (onVar s v).hasLooseBound 0 = false

instance (v : HolVar) : Decidable (Fits s v) := inferInstanceAs (Decidable (_ ∧ _))

/-- What a substitution puts in place of variables, where values that do not fit are ignored. -/
def replacement (s : HolSubst) : Replacement where
  onTyVar := onTyVar s
  onVar v := if Fits s v then onVar s v else .var { v with ty := onType s v.ty }
  typeOf?_onVar v := by
    split
    · rename_i h
      exact h.1
    · rfl
  closed_onVar v := by
    split
    · rename_i h
      exact h.2
    · rfl

theorem agrees_onTyVar (s : HolSubst) : Agrees s.types (onTyVar s) := by
  intro v ty hget
  simp [onTyVar, hget]

theorem Coherent.agrees_replacement (hs : Coherent s) : (replacement s).Agrees s := by
  refine ⟨agrees_onTyVar s, fun v tm hget => ?_⟩
  have hvalue : onVar s v = tm := by simp [onVar, hget]
  have hfits : Fits s v := by
    rw [Fits, hvalue]
    exact ⟨hs.typed v tm hget _ (agrees_onTyVar s), hs.closed v tm hget⟩
  exact (if_pos hfits).trans hvalue

end HolSubst

namespace Kernel

variable {k : Kernel} {s s' : HolSubst} {thm inst : Theorem} {goal : Conjecture}

theorem Instantiable.fits {v : HolVar} (h : k.Instantiable s v) : HolSubst.Fits s v := by
  unfold HolSubst.Fits HolSubst.onVar
  cases hget : s.terms.get? v with
  | none => exact ⟨rfl, rfl⟩
  | some tm => exact ⟨(h tm hget).typeOf?_eq, (h tm hget).hasLooseBound_eq_false⟩

/-- The kernel makes of a theorem what the replacement makes of it. -/
theorem instantiate_eq_ok_map (h : k.instantiate thm s = .ok inst) :
    inst.sequent = thm.sequent.map (HolSubst.replacement s).apply := by
  obtain ⟨-, hvars, rfl⟩ := instantiate_eq_ok_iff.mp h
  rw [Sequent.members, List.forall_mem_append, List.forall_mem_singleton] at hvars
  have happly : ∀ t : HolTerm, (∀ v ∈ t.leaves, k.Instantiable s v) →
      t.subst (HolSubst.onVar s) (HolSubst.onType s) = (HolSubst.replacement s).apply t :=
    fun t ht => Term.subst_congr fun v hv => (if_pos (ht v hv).fits).symm
  rw [Sequent.map, Sequent.map, happly _ hvars.2,
    List.map_congr_left fun p hp => happly p (hvars.1 p hp)]

/-! ## Values of matches -/

/-- The values of a substitution are well-formed. -/
structure WellTyped (k : Kernel) (s : HolSubst) : Prop where
  types : ∀ ty ∈ s.types.values, k.IsType ty
  terms : ∀ v tm, s.terms.get? v = some tm → ∃ ty, k.HasType .empty tm ty

theorem wellTyped_empty : k.WellTyped .empty := ⟨nofun, nofun⟩

theorem isType_of_matchTy {pat tgt : HolType} {types types' : Table Name HolType}
    (h : matchTy pat tgt types = .ok types') (htgt : k.IsType tgt)
    (htypes : ∀ ty ∈ types.values, k.IsType ty) : ∀ ty ∈ types'.values, k.IsType ty := by
  induction pat using Ty.induct generalizing tgt types types' with
  | var v =>
      rw [matchTy] at h
      rcases matchTyVar_ok_iff.mp h with ⟨-, rfl⟩ | ⟨-, rfl⟩
      · exact htypes
      · intro ty hty
        rcases Table.eq_or_mem_of_mem_values_insert hty with rfl | hty
        · exact htgt
        · exact htypes ty hty
  | app name args ih =>
      cases tgt with
      | var w => simp [matchTy] at h
      | app name' args' =>
          rw [matchTy, ite_eq_ok] at h
          obtain ⟨⟨-, hlength⟩, h⟩ := h
          have hargs := (isType_app_iff.mp htgt).2
          clear htgt
          induction args generalizing args' types with
          | nil =>
              cases h
              exact htypes
          | cons arg args ihargs =>
              cases args' with
              | nil => cases hlength
              | cons arg' args' =>
                  obtain ⟨types₁, harg, hrest⟩ := bind_eq_ok.mp h
                  rw [List.forall_mem_cons] at hargs
                  have htypes₁ := ih arg List.mem_cons_self harg hargs.1 htypes
                  exact ihargs (fun ty hty => ih ty (List.mem_cons_of_mem _ hty)) htypes₁ _
                    hrest (Nat.succ.inj hlength) hargs.2

/-- Matching with a well-formed target finds well-formed values. -/
theorem WellTyped.matchTerm (hk : initial ≤ k) {Γ : Stack HolType} {pat tgt : HolTerm}
    {ty : HolType} (hs : k.WellTyped s) (h : matchTerm pat tgt s = .ok s')
    (htgt : k.HasType Γ tgt ty) (hΓ : ∀ i τ, Γ.get? i = some τ → k.IsType τ) :
    k.WellTyped s' := by
  rw [matchTerm_eq_ok_iff] at h
  induction h generalizing Γ ty with
  | abs hty _ ih =>
      cases htgt with
      | abs hdom hbody =>
          exact ih ⟨isType_of_matchTy hty hdom hs.types, hs.terms⟩ hbody
            (Stack.forall_get?_push.mpr ⟨hdom, hΓ⟩)
  | app _ _ ihf ihx =>
      cases htgt with
      | app hf hx => exact ihx (ihf hs hf hΓ) hx hΓ
  | const hty => exact ⟨isType_of_matchTy hty (by cases htgt; assumption) hs.types, hs.terms⟩
  | bound hty => exact ⟨isType_of_matchTy hty (by cases htgt; exact hΓ _ _ ‹_›) hs.types, hs.terms⟩
  | known => exact hs
  | captured hget hclosed htype hty =>
      rw [htgt.typeOf?_eq, Option.some.injEq] at htype
      subst htype
      refine ⟨isType_of_matchTy hty (htgt.isType hk hΓ) hs.types, fun w tm hw => ?_⟩
      rcases Table.eq_or_get?_of_insert hw with rfl | hw
      · -- the value refers to no binder around it, so it is well-formed without them
        exact ⟨_, htgt.strengthen hclosed nofun⟩
      · exact hs.terms w tm hw

theorem WellTyped.matchPairs (hk : initial ≤ k) {pairs : List (HolTerm × HolTerm)}
    (hs : k.WellTyped s) (h : matchPairs pairs s = some s')
    (htgts : ∀ p t, (p, t) ∈ pairs → k.HasType .empty t .bool) : k.WellTyped s' := by
  induction pairs generalizing s with
  | nil =>
      cases h
      exact hs
  | cons pair pairs ih =>
      obtain ⟨p, t⟩ := pair
      obtain ⟨s₁, hmatch, hpairs⟩ := matchPairs_cons_eq_some_iff.mp h
      have hs₁ := hs.matchTerm hk hmatch (htgts p t List.mem_cons_self) nofun
      exact ih hs₁ hpairs fun q u hmem => htgts q u (List.mem_cons_of_mem _ hmem)

/-- The matches with a well-formed goal have well-formed values. -/
theorem WellTyped.matchings (hk : initial ≤ k) {pat : Conjecture} (hs : k.WellTyped s)
    (hgoal : ∀ t ∈ goal.members, k.HasType .empty t .bool)
    (hs' : s' ∈ (pat.matchings goal s true false).toList) : k.WellTyped s' := by
  rw [Sequent.members, List.forall_mem_append, List.forall_mem_singleton] at hgoal
  obtain ⟨s₀, hmatch, qs, -, -, hsub, hpairs⟩ := Sequent.mem_matchings_extras_iff.mp hs'
  have hs₀ : k.WellTyped s₀ := by
    refine hs.matchTerm hk hmatch hgoal.2 fun i ty hget => ?_
    cases hget
  refine hs₀.matchPairs hk hpairs fun p t hmem => ?_
  exact hgoal.1 t (hsub t (List.of_mem_zip hmem).2)

/-- The kernel accepts well-formed values that have the types of their variables. -/
theorem WellTyped.instantiate (hs : k.WellTyped s) (hcoherent : HolSubst.Coherent s)
    (thm : Theorem) : ∃ inst, k.instantiate thm s = .ok inst := by
  refine ⟨_, instantiate_eq_ok_iff.mpr ⟨hs.types, fun t _ v _ tm hget => ?_, rfl⟩⟩
  obtain ⟨ty, htm⟩ := hs.terms v tm hget
  have htypeOf := hcoherent.typed v tm hget _ (HolSubst.agrees_onTyVar s)
  rw [htm.typeOf?_eq, Option.some.injEq] at htypeOf
  subst htypeOf
  exact htm

/-! ## Instances -/

theorem instance?_eq_some_iff :
    k.instance? thm goal = some inst ↔
      ∃ s, (thm.sequent.matchings goal .empty true false).toList.head? = some s ∧
        k.instantiate thm s = .ok inst := by
  unfold instance? matchGoal?
  rw [Choices.head?_eq]
  cases (thm.sequent.matchings goal .empty true false).toList.head? with
  | none => simp
  | some s =>
      cases hinst : k.instantiate thm s with
      | error e => simp [hinst]
      | ok inst' => simp [hinst]

end Kernel

/-- A replacement maps a sequent into another just if what it makes of the sequent has the
conclusion of the other, only premises of the other, and as many premises as before. -/
theorem Replacement.mapsInto_iff {r : Replacement} {pat tgt : Conjecture} :
    r.MapsInto pat tgt ↔
      (pat.map r.apply).conclusion = tgt.conclusion ∧ (pat.map r.apply).Within tgt ∧
        (pat.map r.apply).premises.length = pat.premises.length := by
  have hlength : (pat.map r.apply).premises.length = pat.premises.length ↔
      (pat.premises.map r.apply).Nodup := by
    rw [Sequent.map, Sequent.ofList_premises, ← length_distinct_eq_iff, List.length_map]
  have hwithin : (pat.map r.apply).Within tgt ↔ ∀ p ∈ pat.premises, r.apply p ∈ tgt.premises := by
    simp [Sequent.Within, Sequent.map]
  rw [hlength, hwithin]
  exact ⟨fun h => ⟨h.conclusion, h.within, h.nodup⟩, fun h => ⟨h.1, h.2.2, h.2.1⟩⟩

/-- The theorem has the conclusion of the goal and only premises of the goal. -/
structure Theorem.Proves (thm : Theorem) (goal : Conjecture) : Prop where
  conclusion : thm.conclusion = goal.conclusion
  within : thm.sequent.Within goal

theorem Theorem.Proves.mem_premises_iff {thm : Theorem} {goal : Conjecture} (h : thm.Proves goal)
    (hlength : thm.premises.length = goal.premises.length) (p : HolTerm) :
    p ∈ thm.premises ↔ p ∈ goal.premises := by
  have hsub : thm.premises.Subperm goal.premises := thm.sequent.nodup.subperm h.within
  exact (hsub.perm_of_length_le (Nat.le_of_eq hlength.symm)).mem_iff

namespace Kernel

variable {k : Kernel} {s : HolSubst} {thm inst : Theorem} {goal : Conjecture}

/-- What the kernel makes of a theorem proves a goal, and has as many premises as the theorem, just
if the replacement maps the theorem into the goal. -/
theorem mapsInto_replacement_iff (h : k.instantiate thm s = .ok inst) :
    (HolSubst.replacement s).MapsInto thm.sequent goal ↔
      inst.Proves goal ∧ inst.premises.length = thm.premises.length := by
  rw [Replacement.mapsInto_iff, ← instantiate_eq_ok_map h, ← and_assoc]
  exact and_congr_left' ⟨fun ⟨hconclusion, hwithin⟩ => ⟨hconclusion, hwithin⟩,
    fun hproves => ⟨hproves.conclusion, hproves.within⟩⟩

/-- What is found is made by the kernel, from a match with the goal. -/
theorem mapsInto_of_instance? (h : k.instance? thm goal = some inst) :
    ∃ s, k.instantiate thm s = .ok inst ∧ (HolSubst.replacement s).MapsInto thm.sequent goal := by
  obtain ⟨s, hhead, hinst⟩ := instance?_eq_some_iff.mp h
  have hmem := List.mem_of_mem_head? hhead
  have hcoherent := coherent_of_mem_matchings hmem HolSubst.coherent_empty
  exact ⟨s, hinst, mapsInto_of_mem_matchings hmem hcoherent.agrees_replacement⟩

theorem proves_of_instance? (h : k.instance? thm goal = some inst) :
    ∃ s, k.instantiate thm s = .ok inst ∧ inst.Proves goal ∧
      inst.premises.length = thm.premises.length := by
  obtain ⟨s, hinst, hmaps⟩ := mapsInto_of_instance? h
  exact ⟨s, hinst, (mapsInto_replacement_iff hinst).mp hmaps⟩

/-- A well-formed goal has a proof by an instance of a theorem just if some replacement maps the
theorem into it. -/
theorem isSome_instance?_iff (hk : initial ≤ k)
    (hgoal : ∀ t ∈ goal.members, k.HasType .empty t .bool) :
    (k.instance? thm goal).isSome ↔ ∃ r : Replacement, r.MapsInto thm.sequent goal := by
  constructor
  · intro h
    obtain ⟨inst, hinst⟩ := Option.isSome_iff_exists.mp h
    obtain ⟨s, -, hmaps⟩ := mapsInto_of_instance? hinst
    exact ⟨_, hmaps⟩
  · rintro ⟨r, hr⟩
    obtain ⟨s₁, hs₁⟩ := exists_mem_matchings r.agrees_empty hr
    have hne := List.ne_nil_of_mem hs₁
    obtain ⟨s, hhead⟩ := Option.isSome_iff_exists.mp (List.isSome_head?.mpr hne)
    have hmem := List.mem_of_mem_head? hhead
    have hcoherent := coherent_of_mem_matchings hmem HolSubst.coherent_empty
    have hwellTyped := wellTyped_empty.matchings hk hgoal hmem
    obtain ⟨inst, hinst⟩ := hwellTyped.instantiate hcoherent thm
    exact Option.isSome_iff_exists.mpr ⟨inst, instance?_eq_some_iff.mpr ⟨s, hhead, hinst⟩⟩

theorem WellFormed.members (h : k.WellFormed thm) :
    ∀ t ∈ thm.sequent.members, k.HasType .empty t .bool := by
  rw [Sequent.members, List.forall_mem_append, List.forall_mem_singleton]
  exact ⟨fun _ hp => h.premise hp, h.prop⟩

end Kernel

namespace Development

/-- **Instances are found exactly.**  What is found is made by the kernel, proves the goal and has
as many premises as the theorem; and for a well-formed goal something is found just if the kernel
can make it. -/
theorem instance_exact (ops : List Operation) (thm : Theorem) (goal : Conjecture) :
    (∀ inst, (run ops).kernel.instance? thm goal = some inst →
      (∃ s, (run ops).kernel.instantiate thm s = .ok inst) ∧ inst.Proves goal ∧
        inst.premises.length = thm.premises.length) ∧
    ((run ops).kernel.checkProps goal.members = .ok () →
      (((run ops).kernel.instance? thm goal).isSome ↔
        ∃ s inst, (run ops).kernel.instantiate thm s = .ok inst ∧ inst.Proves goal ∧
          inst.premises.length = thm.premises.length)) := by
  constructor
  · intro inst h
    obtain ⟨s, hinst, hproves⟩ := Kernel.proves_of_instance? h
    exact ⟨⟨s, hinst⟩, hproves⟩
  · intro hgoal
    constructor
    · intro h
      obtain ⟨inst, hinst⟩ := Option.isSome_iff_exists.mp h
      obtain ⟨s, hproves⟩ := Kernel.proves_of_instance? hinst
      exact ⟨s, inst, hproves⟩
    · rintro ⟨s, inst, hinst, hproves⟩
      have hmaps := (Kernel.mapsInto_replacement_iff hinst).mpr hproves
      exact (Kernel.isSome_instance?_iff (initial_le_run ops)
        (Kernel.checkProps_eq_ok_iff.mp hgoal)).mpr ⟨_, hmaps⟩

/-- The equation of two variables. -/
def equated (ty : HolType) (l r : Name) : HolTerm := .equation ty (freeVar l ty) (freeVar r ty)

/-- `y = z, x = y ⊢ x = z`, at any type. -/
def transitivity : Theorem :=
  let a := tyVar "a"
  .ofList [equated a "y" "z", equated a "x" "y"] (equated a "x" "z")

/-- From `y = z` follows `(x = y) = (x = z)`, so that `x = z` follows from `x = y`. -/
def transitivityRun : List Operation :=
  let a := tyVar "a"
  let equalsX : HolTerm := .app (.const Term.eqName (.fn a (.fn a .bool))) (freeVar "x" a)
  let xy := equated a "x" "y"
  let yz := equated a "y" "z"
  [.infer (.assume xy), .infer (.assume yz), .infer (.reflexivity equalsX),
    .infer (.congruence (.ofList [] (.equation (.fn a .bool) equalsX equalsX)) (.ofList [yz] yz)),
    .infer (.modusPonens (.ofList [yz] (.equation .bool xy (equated a "x" "z"))) (.ofList [xy] xy))]

/-- `r = s, q = s, p = q ⊢ p = s`.  The first premise could stand for `y = z`, but then there is
none for `x = y`. -/
def chain : Conjecture :=
  .ofList [equated .bool "r" "s", equated .bool "q" "s", equated .bool "p" "q"]
    (equated .bool "p" "s")

/-- `q = s, p = q ⊢ p = s` -/
def chained : Theorem :=
  .ofList [equated .bool "q" "s", equated .bool "p" "q"] (equated .bool "p" "s")

/-- `r = s, p = q ⊢ p = s` -/
def brokenChain : Conjecture :=
  .ofList [equated .bool "r" "s", equated .bool "p" "q"] (equated .bool "p" "s")

theorem instance_exact_chain :
    ((∃ s, (run transitivityRun).kernel.instantiate transitivity s = .ok chained) ∧
      chained.Proves chain ∧ chained.premises.length = transitivity.premises.length) ∧
    ¬∃ s inst, (run transitivityRun).kernel.instantiate transitivity s = .ok inst ∧
      inst.Proves brokenChain ∧ inst.premises.length = transitivity.premises.length := by
  have hfound : (run transitivityRun).kernel.instance? transitivity chain = some chained := by
    decide +kernel
  have hbroken : (run transitivityRun).kernel.checkProps brokenChain.members = .ok () := by
    decide +kernel
  have hnone : ¬((run transitivityRun).kernel.instance? transitivity brokenChain).isSome := by
    decide +kernel
  exact ⟨(instance_exact transitivityRun transitivity chain).1 chained hfound, fun hmade =>
    hnone (((instance_exact transitivityRun transitivity brokenChain).2 hbroken).mpr hmade)⟩

/-- **Being an instance is reflexive and transitive.**  A theorem of a run is found to be an
instance of itself, up to the order of premises, and an instance of an instance of a theorem is
found to be one of the theorem. -/
theorem instance_preorder (ops : List Operation) :
    (∀ A ∈ (run ops).theorems, ∃ inst, (run ops).kernel.instance? A A.sequent = some inst ∧
      inst ≈ A ∧ ∀ p, p ∈ inst.premises ↔ p ∈ A.premises) ∧
    ∀ A B : Theorem, ∀ C ∈ (run ops).theorems,
      ((run ops).kernel.instance? A B.sequent).isSome →
      ((run ops).kernel.instance? B C.sequent).isSome →
      ((run ops).kernel.instance? A C.sequent).isSome := by
  have hk := initial_le_run ops
  have hmembers := fun thm hthm => ((wellFormed_run ops).theorems thm hthm).members
  constructor
  · intro A hA
    obtain ⟨inst, hinst⟩ := Option.isSome_iff_exists.mp
      ((Kernel.isSome_instance?_iff hk (hmembers A hA)).mpr ⟨_, .refl A.sequent⟩)
    obtain ⟨s, -, hproves, hlength⟩ := Kernel.proves_of_instance? hinst
    refine ⟨inst, hinst, ⟨hproves.conclusion, hlength, hproves.within⟩, ?_⟩
    exact hproves.mem_premises_iff hlength
  · intro A B C hC hAB hBC
    obtain ⟨B', hB'⟩ := Option.isSome_iff_exists.mp hAB
    obtain ⟨C', hC'⟩ := Option.isSome_iff_exists.mp hBC
    obtain ⟨_, -, hmapsAB⟩ := Kernel.mapsInto_of_instance? hB'
    obtain ⟨_, -, hmapsBC⟩ := Kernel.mapsInto_of_instance? hC'
    exact (Kernel.isSome_instance?_iff hk (hmembers C hC)).mpr ⟨_, hmapsAB.comp hmapsBC⟩

/-- Transitivity at propositions, and a theorem with one more premise. -/
def chainRun : List Operation :=
  let a := tyVar "a"
  transitivityRun ++
    [.instantiate transitivity
        { terms := .ofList
            [(⟨(), "x", a⟩, freeVar "p" .bool), (⟨(), "y", a⟩, freeVar "q" .bool),
              (⟨(), "z", a⟩, freeVar "s" .bool)],
          types := .insert {} "a" .bool },
      .postulate chain]

theorem instance_preorder_chain :
    (∃ inst, (run chainRun).kernel.instance? transitivity transitivity.sequent = some inst ∧
      inst ≈ transitivity ∧ ∀ p, p ∈ inst.premises ↔ p ∈ transitivity.premises) ∧
    chained ∈ (run chainRun).theorems ∧
      ((run chainRun).kernel.instance? transitivity chain).isSome := by
  have hA : transitivity ∈ (run chainRun).theorems := by decide +kernel
  have hB : chained ∈ (run chainRun).theorems := by decide +kernel
  have hC : Theorem.mk chain ∈ (run chainRun).theorems := by decide +kernel
  obtain ⟨hrefl, htrans⟩ := instance_preorder chainRun
  exact ⟨hrefl transitivity hA, hB, htrans transitivity chained _ hC
    (by decide +kernel) (by decide +kernel)⟩

end Development

end HolSearch
