import HolSearch.Proofs.Schematic.Instantiate

/-!
# Instantiation captures no variable

Instantiation gives every binder a name, converts what stands below it, and binds the name again.  A
name that occurred elsewhere, in a value or at another binder, would be bound with it.  Main
statement (`instantiate_capture_free`): this never happens.  The result is what replacing makes of
the tree, which knows of no names, and it is the same, error or term, whatever further names the
binders are kept from.

That the result is the same has two parts.  Which checks fail depends on the names of the binders
only through their types (`alike_convert`).  And if none fails, then the two results are equal,
since both are what replacing makes.
-/

namespace HolSearch

/-! ## Outcomes up to names -/

/-- Both are the same error, or terms of the same type. -/
def AlikeTyped (x y : Except SchematicError HolTerm) : Prop :=
  x.map Term.typeOf? = y.map Term.typeOf?

namespace AlikeTyped

variable {x y : Except SchematicError HolTerm}

theorem ok_iff {t u : HolTerm} : AlikeTyped (.ok t) (.ok u) ↔ t.typeOf? = u.typeOf? := by
  simp [AlikeTyped, Except.map]

theorem refl (x : Except SchematicError HolTerm) : AlikeTyped x x := rfl

theorem bind_left {α : Type} {f g : α → Except SchematicError HolTerm}
    (x : Except SchematicError α) (hfg : ∀ a, AlikeTyped (f a) (g a)) :
    AlikeTyped (x >>= f) (x >>= g) := by
  cases x with
  | error e => exact refl _
  | ok a => exact hfg a

/-- What follows sees only the types of the terms. -/
theorem bind {f g : HolTerm → Except SchematicError HolTerm} (h : AlikeTyped x y)
    (hfg : ∀ t u, t.typeOf? = u.typeOf? → AlikeTyped (f t) (g u)) :
    AlikeTyped (x >>= f) (y >>= g) := by
  cases x with
  | error e =>
      cases y with
      | error e' =>
          cases h
          exact refl _
      | ok u => cases h
  | ok t =>
      cases y with
      | error e' => cases h
      | ok u => exact hfg t u (ok_iff.mp h)

/-- The kernel applies a term to another by their types. -/
theorem mkApp {f f' a a' : HolTerm} (hf : f.typeOf? = f'.typeOf?) (ha : a.typeOf? = a'.typeOf?) :
    AlikeTyped (ofKernel (f.mkApp a)) (ofKernel (f'.mkApp a')) := by
  have happ : (Term.app f a).typeOf? = (Term.app f' a').typeOf? := by
    simp only [Term.typeOf?, hf]
  unfold Term.mkApp
  rw [hf, ha]
  split
  · exact refl _
  · split
    · exact ok_iff.mpr happ
    · exact refl _

end AlikeTyped

namespace MetaTerm

variable {k : Kernel} {s : MetaSubst} {avoid avoid' : List Name} {binders binders' : Stack HolVar}

/-- The outcome of a conversion depends, up to names, on the types of the binders alone. -/
theorem alike_convert {pat : MetaTerm}
    (htypes : binders.items.map Var.ty = binders'.items.map Var.ty) :
    AlikeTyped (convert k s avoid binders pat) (convert k s avoid' binders' pat) := by
  induction pat generalizing binders binders' with
  | abs pty pbody ih =>
      simp only [convert]
      refine .bind_left _ fun ty => ?_
      -- the names of the two binders differ, but their types do not
      let x : HolVar := ⟨(), freshName binders avoid, ty⟩
      let x' : HolVar := ⟨(), freshName binders' avoid', ty⟩
      have hpush : (binders.push x).items.map Var.ty = (binders'.push x').items.map Var.ty :=
        congrArg (ty :: ·) htypes
      refine (ih hpush).bind fun t u htype => AlikeTyped.ok_iff.mpr ?_
      simp only [Term.mkAbs, Term.typeOf?, Term.typeOf?_bind, htype]
  | app pf px ihf ihx =>
      simp only [convert]
      exact (ihf htypes).bind fun f f' hf => (ihx htypes).bind fun a a' ha => .mkApp hf ha
  | const name pty =>
      simp only [convert]
      exact .refl _
  | var v =>
      simp only [convert]
      exact .refl _
  | bound i pty =>
      have hget : (binders.get? i).map Var.ty = (binders'.get? i).map Var.ty := by
        have hitems := congrArg (·[i]?) htypes
        simpa only [Stack.get?, List.getElem?_map] using hitems
      simp only [convert]
      cases hx : binders.get? i with
      | none =>
          rw [hx, Option.map_none, eq_comm, Option.map_eq_none_iff] at hget
          rw [hget]
          exact .refl _
      | some x =>
          rw [hx, Option.map_some, eq_comm, Option.map_eq_some_iff] at hget
          obtain ⟨y, hy, hty⟩ := hget
          rw [hy]
          exact AlikeTyped.ok_iff.mpr (congrArg some hty.symm)

theorem Avoids.append {pat : MetaTerm} (h : Avoids s avoid pat) (more : List Name) :
    Avoids s (avoid ++ more) pat where
  values name tm hget v hv := List.mem_append_left _ (h.values name tm hget v hv)
  plains v hv hmark := List.mem_append_left _ (h.plains v hv hmark)

/-- Any names will do for the binders that are neither in values nor those of plain variables. -/
theorem convert_congr {pat : MetaTerm} (havoids : Avoids s avoid pat)
    (havoids' : Avoids s avoid' pat) :
    convert k s avoid .empty pat = convert k s avoid' .empty pat := by
  have halike : AlikeTyped (convert k s avoid .empty pat) (convert k s avoid' .empty pat) :=
    alike_convert rfl
  cases hx : convert k s avoid .empty pat with
  | error e =>
      cases hy : convert k s avoid' .empty pat with
      | error e' =>
          rw [hx, hy] at halike
          cases halike
          rfl
      | ok u =>
          rw [hx, hy] at halike
          cases halike
  | ok t =>
      cases hy : convert k s avoid' .empty pat with
      | error e' =>
          rw [hx, hy] at halike
          cases halike
      | ok u =>
          have ht := becomes_iff.mp (becomes_of_convert havoids hx)
          have hu := becomes_iff.mp (becomes_of_convert havoids' hy)
          exact ht.symm.trans hu

/-- **Instantiation captures no variable.**  Its result is what replacing the metavariables makes of
the tree, and it has this result whenever replacing makes a well-formed term.  Which names the
binders are given makes no difference. -/
theorem instantiate_capture_free (k : Kernel) (s : MetaSubst) (pat : MetaTerm) :
    (∀ tm, instantiate k s pat = .ok tm → replaced s .empty pat = .ok tm) ∧
    (∀ tm ty, replaced s .empty pat = .ok tm → k.checkTerm tm = .ok ty →
      instantiate k s pat = .ok tm) ∧
    ∀ more, convert k s (avoided s pat ++ more) .empty pat = instantiate k s pat := by
  have havoids := avoids_avoided s pat
  refine ⟨fun tm h => becomes_iff.mp (becomes_of_instantiate h), ?_, ?_⟩
  · intro tm ty hreplaced hcheck
    exact (becomes_iff.mpr hreplaced).instantiate_eq (Kernel.checkTerm_eq_ok_iff.mp hcheck)
  · exact fun more => convert_congr (havoids.append more) havoids

/-- The pattern `λ. λ. (?p = #1) = x1`, where `x1` is plain. -/
def lookalikePattern : MetaTerm :=
  .abs .bool (.abs .bool (.equation .bool
    (.equation .bool (.var ⟨.unfixed, "p", .bool⟩) (.bound 1 .bool)) (.var ⟨.plain, "x1", .bool⟩)))

/-- The value of `p` is a variable with the name that the outer binder would have been given. -/
def lookalikeSubst : MetaSubst := { terms := .insert {} "p" (freeVar "x0" .bool) }

/-- The term `λ. λ. (x0 = #1) = x1`. -/
def lookalikeTerm : HolTerm :=
  .abs .bool (.abs .bool (.equation .bool
    (.equation .bool (freeVar "x0" .bool) (.bound 1 .bool)) (freeVar "x1" .bool)))

theorem instantiate_capture_free_lookalike :
    instantiate .initial lookalikeSubst lookalikePattern = .ok lookalikeTerm ∧
      replaced lookalikeSubst .empty lookalikePattern = .ok lookalikeTerm ∧
      convert .initial lookalikeSubst (avoided lookalikeSubst lookalikePattern ++ ["x2"]) .empty
        lookalikePattern = .ok lookalikeTerm := by
  obtain ⟨hreplaced, hinst, hnames⟩ :=
    instantiate_capture_free .initial lookalikeSubst lookalikePattern
  have hresult := hinst lookalikeTerm (.fn .bool (.fn .bool .bool)) (by rfl) (by decide +kernel)
  exact ⟨hresult, hreplaced _ hresult, (hnames _).trans hresult⟩

end MetaTerm

end HolSearch
