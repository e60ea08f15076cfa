import HolSearch.Kernel.Rules
import HolSearch.Proofs.Kernel.Typing

/-!
# What the inference rules do

Rules such as congruence and modus ponens build their conclusions without a check of the whole:
they compare the types that the annotations of their operands tell.  For well-formed operands these
are the types of the kernel's check, and `Kernel.Infers` lists what each rule then yields, with the
types of all parts.  `infers_of_infer` says that it lists everything, so that a property of
theorems is kept by the rules if it is kept by each constructor of `Infers`, and `infer_of_infers`
that it lists nothing else.

Instantiation succeeds just if its values are well-formed and have the types of what they replace
(`instantiate_eq_ok_iff`).
-/

namespace HolSearch

namespace Kernel

variable {k k' : Kernel}

/-- The premises and the conclusion of the theorem pass the check with the type of propositions. -/
structure WellFormed (k : Kernel) (thm : Theorem) : Prop where
  premises : ∀ p ∈ thm.premises, k.checkTerm p = .ok .bool
  conclusion : k.checkTerm thm.conclusion = .ok .bool

namespace WellFormed

variable {thm : Theorem}

theorem premise (h : k.WellFormed thm) {p : HolTerm} (hp : p ∈ thm.premises) :
    k.HasType .empty p .bool :=
  checkTerm_eq_ok_iff.mp (h.premises p hp)

theorem prop (h : k.WellFormed thm) : k.HasType .empty thm.conclusion .bool :=
  checkTerm_eq_ok_iff.mp h.conclusion

theorem mono (hle : k ≤ k') (h : k.WellFormed thm) : k'.WellFormed thm where
  premises _ hp := checkTerm_eq_ok_iff.mpr ((h.premise hp).mono hle)
  conclusion := checkTerm_eq_ok_iff.mpr (h.prop.mono hle)

theorem ofList {ps : List HolTerm} {c : HolTerm} (hps : ∀ p ∈ ps, k.HasType .empty p .bool)
    (hc : k.HasType .empty c .bool) : k.WellFormed (.ofList ps c) where
  premises p hp := by
    rw [Theorem.ofList_premises, mem_distinct] at hp
    exact checkTerm_eq_ok_iff.mpr (hps p hp)
  conclusion := checkTerm_eq_ok_iff.mpr hc

theorem sides (hk : initial ≤ k) (h : k.WellFormed thm) {l r : HolTerm}
    (hsides : thm.destEq = .ok (l, r)) :
    ∃ a, thm.conclusion = .equation a l r ∧ k.HasType .empty l a ∧ k.HasType .empty r a := by
  have hdest : thm.conclusion.destEq? = some (l, r) := by
    unfold Theorem.destEq at hsides
    split at hsides
    · cases hsides
    · rename_i sides hdest
      cases hsides
      exact hdest
  obtain ⟨a, hconclusion, _, hl, hr⟩ := h.prop.of_destEq? hk hdest
  exact ⟨a, hconclusion, hl, hr⟩

end WellFormed

end Kernel

/-- The theorems that an inference is made from. -/
def Inference.operands : Inference → List Theorem
  | .congruence fg xy => [fg, xy]
  | .abstraction _ thm => [thm]
  | .typeAbstraction _ thm => [thm]
  | .modusPonens major minor => [major, minor]
  | .antisymmetry left right => [left, right]
  | .reflexivity _ | .betaReduction .. | .assume _ => []

namespace Kernel

variable {k : Kernel}

/-- What an inference from well-formed operands yields, with the types of all parts. -/
inductive Infers (k : Kernel) : Inference → Theorem → Prop where
  | reflexivity {t : HolTerm} {a : HolType} (ht : k.HasType .empty t a) :
      Infers k (.reflexivity t) (.ofList [] (.equation a t t))
  | congruence {fg xy : Theorem} {f g x y : HolTerm} {dom cod : HolType}
      (hfg : fg.conclusion = .equation (.fn dom cod) f g) (hxy : xy.conclusion = .equation dom x y)
      (hf : k.HasType .empty f (.fn dom cod)) (hg : k.HasType .empty g (.fn dom cod))
      (hx : k.HasType .empty x dom) (hy : k.HasType .empty y dom) :
      Infers k (.congruence fg xy)
        (.ofList (fg.premises ++ xy.premises) (.equation cod (.app f x) (.app g y)))
  | abstraction {v : HolVar} {thm : Theorem} {p q : HolTerm} {a : HolType} (hv : k.IsType v.ty)
      (hfresh : ∀ h ∈ thm.premises, v ∉ h.leaves) (hpq : thm.conclusion = .equation a p q)
      (hp : k.HasType .empty p a) (hq : k.HasType .empty q a) :
      Infers k (.abstraction v thm)
        (.ofList thm.premises (.equation (.fn v.ty a) (Term.mkAbs v p) (Term.mkAbs v q)))
  | typeAbstraction {ty : HolType} {thm : Theorem} {p q : HolTerm} {a : HolType}
      (hty : k.IsType ty) (hpq : thm.conclusion = .equation a p q) (hp : k.HasType .empty p a)
      (hq : k.HasType .empty q a) :
      Infers k (.typeAbstraction ty thm)
        (.ofList thm.premises (.equation (.fn ty a) (.abs ty p) (.abs ty q)))
  | betaReduction {v : HolVar} {body : HolTerm} {a : HolType} (hv : k.IsType v.ty)
      (hbody : k.HasType .empty body a) :
      Infers k (.betaReduction v body)
        (.ofList [] (.equation a (.app (Term.mkAbs v body) (.var v)) body))
  | assume {p : HolTerm} (hp : k.HasType .empty p .bool) : Infers k (.assume p) (.ofList [p] p)
  | modusPonens {major minor : Theorem} {q : HolTerm}
      (hmajor : major.conclusion = .equation .bool minor.conclusion q)
      (hq : k.HasType .empty q .bool) :
      Infers k (.modusPonens major minor) (.ofList (major.premises ++ minor.premises) q)
  | antisymmetry {left right : Theorem} :
      Infers k (.antisymmetry left right)
        (.ofList
          (left.premises.filter (· ≠ right.conclusion) ++
            right.premises.filter (· ≠ left.conclusion))
          (.equation .bool left.conclusion right.conclusion))

theorem mkEq_of_hasType {l r t : HolTerm} {a b : HolType} (hl : k.HasType .empty l a)
    (hr : k.HasType .empty r b) (h : l.mkEq r = .ok t) : b = a ∧ t = .equation a l r := by
  obtain ⟨ty, htl, htr, ht⟩ := Term.mkEq_eq_ok_iff.mp h
  rw [hl.typeOf?_eq, Option.some.injEq] at htl
  rw [hr.typeOf?_eq, Option.some.injEq] at htr
  subst htl
  exact ⟨htr, ht⟩

theorem mkApp_of_hasType {f x t : HolTerm} {a b : HolType} (hf : k.HasType .empty f a)
    (hx : k.HasType .empty x b) (h : f.mkApp x = .ok t) : ∃ cod, a = .fn b cod ∧ t = .app f x := by
  obtain ⟨dom, cod, htf, htx, ht⟩ := Term.mkApp_eq_ok_iff.mp h
  rw [hf.typeOf?_eq, Option.some.injEq] at htf
  rw [hx.typeOf?_eq, Option.some.injEq] at htx
  subst htx
  exact ⟨cod, htf, ht⟩

/-- **An inference from well-formed operands is one of those listed by `Infers`.** -/
theorem infers_of_infer (hk : initial ≤ k) {i : Inference} {thm : Theorem}
    (hoperands : ∀ operand ∈ i.operands, k.WellFormed operand) (h : k.infer i = .ok thm) :
    k.Infers i thm := by
  cases i with
  | reflexivity t =>
      simp only [infer, Kernel.reflexivity, bind_eq_ok, pure_eq_ok] at h
      obtain ⟨a, ht, c, hc, rfl⟩ := h
      rw [checkTerm_eq_ok_iff] at ht
      rw [(mkEq_of_hasType ht ht hc).2]
      exact .reflexivity ht
  | congruence fg xy =>
      simp only [infer, Theorem.congruence, bind_eq_ok, pure_eq_ok] at h
      obtain ⟨⟨f, g⟩, hfg, ⟨x, y⟩, hxy, fx, hfx, gy, hgy, c, hc, rfl⟩ := h
      obtain ⟨a, hfg, hf, hg⟩ := (hoperands fg (by simp [Inference.operands])).sides hk hfg
      obtain ⟨dom, hxy, hx, hy⟩ := (hoperands xy (by simp [Inference.operands])).sides hk hxy
      obtain ⟨cod, rfl, rfl⟩ := mkApp_of_hasType hf hx hfx
      obtain ⟨_, _, rfl⟩ := mkApp_of_hasType hg hy hgy
      rw [(mkEq_of_hasType (hf.app hx) (hg.app hy) hc).2]
      exact .congruence hfg hxy hf hg hx hy
  | abstraction v p =>
      simp only [infer, Kernel.abstraction, bind_eq_ok] at h
      obtain ⟨_, hv, h⟩ := h
      split at h
      · cases h
      · rename_i hcapture
        simp only [bind_eq_ok, pure_eq_ok] at h
        obtain ⟨⟨l, r⟩, hlr, c, hc, rfl⟩ := h
        obtain ⟨a, hlr, hl, hr⟩ := (hoperands p (by simp [Inference.operands])).sides hk hlr
        rw [(mkEq_of_hasType (hl.mkAbs hv) (hr.mkAbs hv) hc).2]
        refine .abstraction hv (fun premise hpremise hmem => hcapture ?_) hlr hl hr
        exact List.any_eq_true.mpr ⟨premise, hpremise, Term.contains_iff.mpr hmem⟩
  | typeAbstraction ty p =>
      simp only [infer, Kernel.typeAbstraction, bind_eq_ok, pure_eq_ok] at h
      obtain ⟨_, hty, ⟨l, r⟩, hlr, c, hc, rfl⟩ := h
      obtain ⟨a, hlr, hl, hr⟩ := (hoperands p (by simp [Inference.operands])).sides hk hlr
      have habs : ∀ {t : HolTerm}, k.HasType .empty t a → k.HasType .empty (.abs ty t) (.fn ty a) :=
        fun ht => .abs hty (ht.weaken (Stack.maps_empty id _))
      rw [(mkEq_of_hasType (habs hl) (habs hr) hc).2]
      exact .typeAbstraction hty hlr hl hr
  | betaReduction v body =>
      simp only [infer, Kernel.betaReduction, bind_eq_ok, pure_eq_ok] at h
      obtain ⟨_, hv, a, hbody, redex, hredex, c, hc, rfl⟩ := h
      rw [checkTerm_eq_ok_iff] at hbody
      obtain ⟨_, _, rfl⟩ := mkApp_of_hasType (hbody.mkAbs hv) (.var hv) hredex
      rw [(mkEq_of_hasType ((hbody.mkAbs hv).app (.var hv)) hbody hc).2]
      exact .betaReduction hv hbody
  | assume p =>
      simp only [infer, Kernel.assume, bind_eq_ok, pure_eq_ok] at h
      obtain ⟨_, hp, rfl⟩ := h
      exact .assume (checkProp_eq_ok_iff.mp hp)
  | modusPonens major minor =>
      simp only [infer, Theorem.modusPonens, bind_eq_ok] at h
      obtain ⟨⟨p, q⟩, hpq, h⟩ := h
      obtain ⟨hp, hthm⟩ := ite_eq_ok.mp h
      rw [← pure_eq_ok.mp hthm]
      dsimp only at hp
      subst hp
      obtain ⟨a, hpq, hp, hq⟩ := (hoperands major (by simp [Inference.operands])).sides hk hpq
      -- the left side is the conclusion of a theorem, so the equation is one of propositions
      obtain rfl := hp.unique (hoperands minor (by simp [Inference.operands])).prop
      exact .modusPonens hpq hq
  | antisymmetry left right =>
      simp only [infer, Theorem.antisymmetry, bind_eq_ok, pure_eq_ok] at h
      obtain ⟨c, hc, rfl⟩ := h
      have hleft := (hoperands left (by simp [Inference.operands])).prop
      have hright := (hoperands right (by simp [Inference.operands])).prop
      rw [(mkEq_of_hasType hleft hright hc).2]
      exact .antisymmetry

/-- **Every inference listed by `Infers` can be made from well-formed operands.** -/
theorem infer_of_infers {i : Inference} {thm : Theorem}
    (hoperands : ∀ operand ∈ i.operands, k.WellFormed operand) (h : k.Infers i thm) :
    k.infer i = .ok thm := by
  have hmkEq : ∀ {l r : HolTerm} {a : HolType}, k.HasType .empty l a → k.HasType .empty r a →
      l.mkEq r = .ok (.equation a l r) :=
    fun hl hr => Term.mkEq_eq_ok_iff.mpr ⟨_, hl.typeOf?_eq, hr.typeOf?_eq, rfl⟩
  have hmkApp : ∀ {f x : HolTerm} {dom cod : HolType}, k.HasType .empty f (.fn dom cod) →
      k.HasType .empty x dom → f.mkApp x = .ok (.app f x) :=
    fun hf hx => Term.mkApp_eq_ok_iff.mpr ⟨_, _, hf.typeOf?_eq, hx.typeOf?_eq, rfl⟩
  have hdestEq : ∀ {thm : Theorem} {l r : HolTerm} {a : HolType},
      thm.conclusion = .equation a l r → thm.destEq = .ok (l, r) := by
    intro thm l r a hconclusion
    simp [Theorem.destEq, hconclusion]
  cases h with
  | reflexivity ht =>
      simp only [infer, Kernel.reflexivity, bind_eq_ok, pure_eq_ok]
      exact ⟨_, checkTerm_eq_ok_iff.mpr ht, _, hmkEq ht ht, rfl⟩
  | congruence hfg hxy hf hg hx hy =>
      simp only [infer, Theorem.congruence, bind_eq_ok, pure_eq_ok]
      exact ⟨_, hdestEq hfg, _, hdestEq hxy, _, hmkApp hf hx, _, hmkApp hg hy, _,
        hmkEq (hf.app hx) (hg.app hy), rfl⟩
  | @abstraction v thm _ _ _ hv hfresh hpq hp hq =>
      have hcapture : ¬thm.premises.any (·.contains v) = true := by
        intro hany
        obtain ⟨premise, hmem, hcontains⟩ := List.any_eq_true.mp hany
        exact hfresh premise hmem (Term.contains_iff.mp hcontains)
      simp only [infer, Kernel.abstraction, if_neg hcapture, bind_eq_ok, pure_eq_ok]
      exact ⟨(), hv, _, hdestEq hpq, _, hmkEq (hp.mkAbs hv) (hq.mkAbs hv), rfl⟩
  | typeAbstraction hty hpq hp hq =>
      simp only [infer, Kernel.typeAbstraction, bind_eq_ok, pure_eq_ok]
      exact ⟨(), hty, _, hdestEq hpq, _, hmkEq (.abs hty (hp.weaken (Stack.maps_empty id _)))
        (.abs hty (hq.weaken (Stack.maps_empty id _))), rfl⟩
  | betaReduction hv hbody =>
      simp only [infer, Kernel.betaReduction, bind_eq_ok, pure_eq_ok]
      exact ⟨(), hv, _, checkTerm_eq_ok_iff.mpr hbody, _, hmkApp (hbody.mkAbs hv) (.var hv), _,
        hmkEq ((hbody.mkAbs hv).app (.var hv)) hbody, rfl⟩
  | assume hp =>
      simp only [infer, Kernel.assume, bind_eq_ok, pure_eq_ok]
      exact ⟨(), checkProp_eq_ok_iff.mpr hp, trivial⟩
  | modusPonens hmajor _ =>
      simp only [infer, Theorem.modusPonens, bind_eq_ok]
      exact ⟨_, hdestEq hmajor, if_pos rfl⟩
  | @antisymmetry left right =>
      have hleft := (hoperands left (by simp [Inference.operands])).prop
      have hright := (hoperands right (by simp [Inference.operands])).prop
      simp only [infer, Theorem.antisymmetry, bind_eq_ok, pure_eq_ok]
      exact ⟨_, hmkEq hleft hright, rfl⟩

/-- **The inference rules keep theorems well-formed.** -/
theorem Infers.wellFormed (hk : initial ≤ k) {i : Inference} {thm : Theorem} (h : k.Infers i thm)
    (hoperands : ∀ operand ∈ i.operands, k.WellFormed operand) : k.WellFormed thm := by
  have hequation : ∀ {l r : HolTerm} {a : HolType}, k.HasType .empty l a → k.HasType .empty r a →
      k.HasType .empty (.equation a l r) .bool :=
    fun hl hr => .equation hk (hl.isType_of_closed hk) hl hr
  cases h with
  | reflexivity ht => exact .ofList nofun (hequation ht ht)
  | @congruence fg xy _ _ _ _ _ _ _ _ hf hg hx hy =>
      refine .ofList ?_ (hequation (hf.app hx) (hg.app hy))
      rw [List.forall_mem_append]
      exact ⟨fun _ => (hoperands fg (by simp [Inference.operands])).premise,
        fun _ => (hoperands xy (by simp [Inference.operands])).premise⟩
  | @abstraction _ thm _ _ _ hv _ _ hp hq =>
      exact .ofList (fun _ => (hoperands thm (by simp [Inference.operands])).premise)
        (hequation (hp.mkAbs hv) (hq.mkAbs hv))
  | @typeAbstraction _ thm _ _ _ hty _ hp hq =>
      exact .ofList (fun _ => (hoperands thm (by simp [Inference.operands])).premise)
        (hequation (.abs hty (hp.weaken (Stack.maps_empty id _)))
          (.abs hty (hq.weaken (Stack.maps_empty id _))))
  | betaReduction hv hbody =>
      exact .ofList nofun (hequation ((hbody.mkAbs hv).app (.var hv)) hbody)
  | assume hp => exact .ofList (by simpa using hp) hp
  | @modusPonens major minor _ _ hq =>
      refine .ofList ?_ hq
      rw [List.forall_mem_append]
      exact ⟨fun _ => (hoperands major (by simp [Inference.operands])).premise,
        fun _ => (hoperands minor (by simp [Inference.operands])).premise⟩
  | @antisymmetry left right =>
      have hleft := hoperands left (by simp [Inference.operands])
      have hright := hoperands right (by simp [Inference.operands])
      refine .ofList ?_ (hequation hleft.prop hright.prop)
      rw [List.forall_mem_append]
      exact ⟨fun _ hp => hleft.premise (List.mem_filter.mp hp).1,
        fun _ hp => hright.premise (List.mem_filter.mp hp).1⟩

end Kernel

/-! ## Instantiation -/

/-- What a substitution puts in place of a type variable. -/
def HolSubst.onTyVar (s : HolSubst) (v : TyVar Unit) : HolType :=
  (s.types.get? v.name).getD (.var v)

/-- What a substitution puts in place of a variable. -/
def HolSubst.onVar (s : HolSubst) (v : HolVar) : HolTerm :=
  (s.terms.get? v).getD (.var { v with ty := HolSubst.onType s v.ty })

namespace Kernel

variable {k : Kernel} {s : HolSubst}

/-- If the variable has a value, it is well-formed and of the new type of the variable. -/
def Instantiable (k : Kernel) (s : HolSubst) (v : HolVar) : Prop :=
  ∀ tm, s.terms.get? v = some tm → k.HasType .empty tm (HolSubst.onType s v.ty)

theorem instantiateVar_eq_ok_iff {v : HolVar} {tm : HolTerm} :
    k.instantiateVar s v = .ok tm ↔ k.Instantiable s v ∧ tm = HolSubst.onVar s v := by
  unfold instantiateVar Instantiable HolSubst.onVar
  cases hget : s.terms.get? v with
  | none => simp [eq_comm]
  | some value =>
      simp only [bind_eq_ok, checkTerm_eq_ok_iff, Option.some.injEq, forall_eq', Option.getD_some]
      constructor
      · rintro ⟨ty, hty, h⟩
        obtain ⟨rfl, hvalue⟩ := ite_eq_ok.mp h
        cases hvalue
        exact ⟨hty, rfl⟩
      · rintro ⟨hty, rfl⟩
        exact ⟨_, hty, by simp⟩

/-- **Instantiation succeeds just if the types of the substitution are well-formed and the values of
the variables that occur have the right types; its result is the replacement of all variables.** -/
theorem instantiate_eq_ok_iff {thm thm' : Theorem} :
    k.instantiate thm s = .ok thm' ↔
      (∀ ty ∈ s.types.values, k.IsType ty) ∧
      (∀ t ∈ thm.sequent.members, ∀ v ∈ t.leaves, k.Instantiable s v) ∧
      thm' = ⟨thm.sequent.map (Term.subst (HolSubst.onVar s) (HolSubst.onType s))⟩ := by
  have hterm : ∀ t t' : HolTerm,
      t.trySubst (k.instantiateVar s) (fun ty => .ok (HolSubst.onType s ty)) = .ok t' ↔
        (∀ v ∈ t.leaves, k.Instantiable s v) ∧
          t' = t.subst (HolSubst.onVar s) (HolSubst.onType s) :=
    fun _ _ => Term.trySubst_eq_ok_iff fun _ _ => instantiateVar_eq_ok_iff
  simp only [instantiate, Sequent.tryMap, bind_eq_ok, pure_eq_ok, mapM_eq_ok_iff hterm, hterm,
    Sequent.members, List.forall_mem_append, List.forall_mem_singleton]
  constructor
  · rintro ⟨_, htypes, _, ⟨_, ⟨hpremises, rfl⟩, _, ⟨hconclusion, rfl⟩, rfl⟩, rfl⟩
    exact ⟨checkTypes_eq_ok_iff.mp htypes, ⟨hpremises, hconclusion⟩, rfl⟩
  · rintro ⟨htypes, ⟨hpremises, hconclusion⟩, rfl⟩
    exact ⟨(), checkTypes_eq_ok_iff.mpr htypes, _,
      ⟨_, ⟨hpremises, rfl⟩, _, ⟨hconclusion, rfl⟩, rfl⟩, rfl⟩

theorem isType_onTyVar (h : ∀ ty ∈ s.types.values, k.IsType ty) (v : TyVar Unit) :
    k.IsType (HolSubst.onTyVar s v) := by
  unfold HolSubst.onTyVar
  cases hget : s.types.get? v.name with
  | none => exact isType_var v
  | some ty => exact h ty (Table.mem_values_of_get? hget)

/-- A substitution puts in place of a variable a closed term of the new type of the variable. -/
theorem hasType_onVar (htypes : ∀ ty ∈ s.types.values, k.IsType ty) {v : HolVar}
    (hty : k.IsType v.ty) (hv : k.Instantiable s v) :
    k.HasType .empty (HolSubst.onVar s v) (HolSubst.onType s v.ty) := by
  unfold HolSubst.onVar
  cases hget : s.terms.get? v with
  | some tm => exact hv tm hget
  | none =>
      exact .var (isType_subst_iff.mpr ⟨hty, fun w _ => isType_onTyVar htypes w⟩)

theorem HasType.isType_of_mem_leaves {Γ : Stack HolType} {t : HolTerm} {ty : HolType}
    (h : k.HasType Γ t ty) {v : HolVar} (hv : v ∈ t.leaves) : k.IsType v.ty := by
  induction h with
  | abs _ _ ih => exact ih hv
  | app _ _ ihf ihx =>
      rcases List.mem_append.mp hv with hv | hv
      · exact ihf hv
      · exact ihx hv
  | const => cases hv
  | var hty =>
      rw [Term.leaves, List.mem_singleton] at hv
      exact hv ▸ hty
  | bound => cases hv

theorem HasType.instantiate (htypes : ∀ ty ∈ s.types.values, k.IsType ty) {t : HolTerm}
    {ty : HolType} (h : k.HasType .empty t ty) (hvars : ∀ v ∈ t.leaves, k.Instantiable s v) :
    k.HasType .empty (t.subst (HolSubst.onVar s) (HolSubst.onType s)) (HolSubst.onType s ty) :=
  h.subst (isType_onTyVar htypes)
    (fun v hv => hasType_onVar htypes (h.isType_of_mem_leaves hv) (hvars v hv))
    (Stack.maps_empty _ _)

/-- **Instantiation keeps theorems well-formed.** -/
theorem WellFormed.instantiate {thm thm' : Theorem} (h : k.WellFormed thm)
    (hinst : k.instantiate thm s = .ok thm') : k.WellFormed thm' := by
  obtain ⟨htypes, hvars, rfl⟩ := instantiate_eq_ok_iff.mp hinst
  rw [Sequent.members, List.forall_mem_append, List.forall_mem_singleton] at hvars
  refine .ofList (List.forall_mem_map.mpr fun p hp => ?_) ?_
  · exact (h.premise hp).instantiate htypes (hvars.1 p hp)
  · exact h.prop.instantiate htypes hvars.2

end Kernel

end HolSearch
