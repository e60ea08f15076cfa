import HolSearch.Kernel.Basic
import HolSearch.Proofs.Schematic.Agreement
import HolSearch.Proofs.Schematic.Matching
import Mathlib.Algebra.GroupWithZero.Nat
import Mathlib.Data.Finset.Card

/-!
# Patterns and the conjectures they were made from

The pattern of a strategy is made from a conjecture, so one expects the strategy to apply to this
conjecture.  But metavariables are known by name alone, and variables by name and type.  Main
statement (`matchings_ofConjecture_self_iff`): the pattern matches its conjecture just if no two
variables of the conjecture share a name.

If they do not, then the pattern has the matches of the conjecture with itself.  For the converse we
count.  A match may pair the premises in another order, and a metavariable may stand for a large
term, but all targets together have as many nodes as all patterns, so each metavariable stands for a
single node (`Fits.var_of_size_eq`).  Then every variable of the conjecture is the value of some
name, and there are at least as many names as variables.
-/

namespace HolSearch

/-! ## The size of terms -/

namespace Term

variable {μ ν : Type}

/-- The number of nodes of the term, those of its types not counted. -/
def size : Term μ → Nat
  | .abs _ body => body.size + 1
  | .app f x => f.size + x.size + 1
  | .const _ _ => 1
  | .var _ => 1
  | .bound _ _ => 1

theorem size_pos (t : Term μ) : 0 < t.size := by
  cases t <;> exact Nat.succ_pos _

/-- A variable in a term of one node is this node. -/
theorem eq_var_of_size_eq_one {t : Term μ} {v : Var μ} (hsize : t.size = 1) (hv : v ∈ t.leaves) :
    t = .var v := by
  cases t with
  | abs ty body =>
      have hbody := body.size_pos
      simp only [size] at hsize
      omega
  | app f x =>
      have hf := f.size_pos
      simp only [size] at hsize
      omega
  | const name ty => cases hv
  | var w => rw [List.mem_singleton.mp hv]
  | bound i ty => cases hv

theorem size_subst_var (g : Var μ → Var ν) (ft : Ty μ → Ty ν) (t : Term μ) :
    (t.subst (fun v => .var (g v)) ft).size = t.size := by
  induction t with
  | abs ty body ih => rw [subst, size, size, ih]
  | app f x ihf ihx => rw [subst, size, size, ihf, ihx]
  | const name ty => rfl
  | var v => rfl
  | bound i ty => rfl

end Term

/-! ## Terms of the same size -/

namespace MetaTerm

variable {s : MetaSubst} {pat : MetaTerm} {tm : HolTerm}

/-- A schematic term fits no smaller term. -/
theorem Fits.size_le (h : MetaTerm.Fits s pat tm) : pat.size ≤ tm.size := by
  induction h with
  | abs _ _ ih => exact Nat.succ_le_succ ih
  | app _ _ ihf ihx => exact Nat.succ_le_succ (Nat.add_le_add ihf ihx)
  | const => exact le_refl 1
  | bound => exact le_refl 1
  | plain => exact le_refl 1
  | @value v tm _ _ => exact tm.size_pos

/-- If a schematic term without plain variables fits a term of its own size, then every variable of
the term is the value of a metavariable. -/
theorem Fits.var_of_size_eq (h : MetaTerm.Fits s pat tm)
    (hmarks : ∀ v ∈ pat.leaves, v.mark ≠ .plain) (hsize : pat.size = tm.size) {w : HolVar}
    (hw : w ∈ tm.leaves) :
    ∃ v ∈ pat.leaves, s.terms.get? v.name = some (.var w) := by
  induction h with
  | abs _ _ ih => exact ih hmarks (Nat.succ.inj hsize) hw
  | @app pf px f x hf hx ihf ihx =>
      rw [Term.leaves, List.forall_mem_append] at hmarks
      simp only [Term.size] at hsize
      have hf := hf.size_le
      have hx := hx.size_le
      -- neither part can make up for a difference in the other
      have hsizef : pf.size = f.size := by omega
      have hsizex : px.size = x.size := by omega
      rcases List.mem_append.mp hw with hw | hw
      · obtain ⟨v, hv, hget⟩ := ihf hmarks.1 hsizef hw
        exact ⟨v, List.mem_append_left _ hv, hget⟩
      · obtain ⟨v, hv, hget⟩ := ihx hmarks.2 hsizex hw
        exact ⟨v, List.mem_append_right _ hv, hget⟩
  | const => cases hw
  | bound => cases hw
  | @plain v _ hmark _ => exact absurd hmark (hmarks v (List.mem_singleton_self v))
  | @value v tm _ hget =>
      rw [Term.eq_var_of_size_eq_one hsize.symm hw] at hget
      exact ⟨v, List.mem_singleton_self v, hget⟩

theorem sum_size_le {pats : List MetaTerm} {tms : List HolTerm}
    (h : List.Forall₂ (MetaTerm.Fits s) pats tms) :
    (pats.map Term.size).sum ≤ (tms.map Term.size).sum := by
  induction h with
  | nil => exact Nat.le_refl 0
  | cons hfits _ ih =>
      rw [List.map_cons, List.map_cons, List.sum_cons, List.sum_cons]
      exact Nat.add_le_add hfits.size_le ih

/-- Schematic terms that fit terms of the same total size fit terms of their own sizes. -/
theorem forall₂_size_eq {pats : List MetaTerm} {tms : List HolTerm}
    (h : List.Forall₂ (MetaTerm.Fits s) pats tms)
    (hsum : (tms.map Term.size).sum ≤ (pats.map Term.size).sum) :
    List.Forall₂ (fun pat tm => MetaTerm.Fits s pat tm ∧ pat.size = tm.size) pats tms := by
  induction h with
  | nil => exact .nil
  | cons hfits hrest ih =>
      have hle := hfits.size_le
      have hsums := sum_size_le hrest
      rw [List.map_cons, List.map_cons, List.sum_cons, List.sum_cons] at hsum
      exact .cons ⟨hfits, by omega⟩ (ih (by omega))

end MetaTerm

/-! ## Values of names -/

namespace HolTerm

theorem size_toMeta (t : HolTerm) : (HolTerm.toMeta {} t).size = t.size :=
  Term.size_subst_var (HolVar.toMeta {}) (HolType.toMeta []) t

/-- If the schematic term made of `t` fits a term of its size, then every variable of this term is
the value of the name of a variable of `t`. -/
theorem exists_value_of_fits {s : MetaSubst} {t tm : HolTerm}
    (h : MetaTerm.Fits s (HolTerm.toMeta {} t) tm) (hsize : (HolTerm.toMeta {} t).size = tm.size)
    {w : HolVar} (hw : w ∈ tm.leaves) : ∃ v ∈ t.leaves, s.terms.get? v.name = some (.var w) := by
  have hmarks : ∀ v ∈ (HolTerm.toMeta {} t).leaves, v.mark ≠ .plain := by
    rw [leaves_toMeta, List.forall_mem_map]
    intro v hv hmark
    cases hmark
  obtain ⟨v, hv, hget⟩ := h.var_of_size_eq hmarks hsize hw
  rw [leaves_toMeta] at hv
  obtain ⟨x, hx, rfl⟩ := List.mem_map.mp hv
  exact ⟨x, hx, hget⟩

end HolTerm

/-- If each variable of a list is the value of a name in the list, then no two share a name. -/
theorem distinctNames_of_values {s : MetaSubst} {vars : List HolVar}
    (h : ∀ w ∈ vars, ∃ v ∈ vars, s.terms.get? v.name = some (.var w)) : DistinctNames vars := by
  let V : Finset HolVar := vars.toFinset
  have hsub : V.image (fun w => some (.var w)) ⊆ (V.image Var.name).image s.terms.get? := by
    intro value hvalue
    obtain ⟨w, hw, rfl⟩ := Finset.mem_image.mp hvalue
    obtain ⟨v, hv, hget⟩ := h w (List.mem_toFinset.mp hw)
    have hname := Finset.mem_image_of_mem Var.name (List.mem_toFinset.mpr hv)
    exact Finset.mem_image.mpr ⟨v.name, hname, hget⟩
  have hvar : Function.Injective fun w : HolVar => some (Term.var w) :=
    fun w w' heq => Term.var.inj (Option.some.inj heq)
  have hcard : V.card ≤ (V.image Var.name).card :=
    calc V.card = (V.image fun w => some (Term.var w)).card :=
          (Finset.card_image_of_injective V hvar).symm
      _ ≤ ((V.image Var.name).image s.terms.get?).card := Finset.card_le_card hsub
      _ ≤ (V.image Var.name).card := Finset.card_image_le
  have hinj := Finset.card_image_iff.mp (le_antisymm Finset.card_image_le hcard)
  intro v hv w hw hname
  exact hinj (List.mem_toFinset.mpr hv) (List.mem_toFinset.mpr hw) hname

/-! ## Conjectures -/

variable {c : Conjecture} {s : MetaSubst}

/-- A match of the pattern with its conjecture makes the parts of the pattern fit those of the
conjecture, in some order. -/
theorem Schema.exists_perm_of_mem_matchings_self
    (h : s ∈ ((Schema.ofConjecture c).matchings c .empty true false).toList) :
    ∃ tms, tms.Perm c.members ∧
      List.Forall₂ (MetaTerm.Fits s) (c.members.map (HolTerm.toMeta {})) tms := by
  obtain ⟨hconclusion, qs, hnodup, hsub, hpremises⟩ := exists_fits_of_mem_matchings h
  rw [premises_ofConjecture] at hpremises
  have hlength : c.premises.length = qs.length := by
    simpa only [List.length_map] using hpremises.length_eq
  have hperm : qs.Perm c.premises := (hnodup.subperm hsub).perm_of_length_le (Nat.le_of_eq hlength)
  refine ⟨qs ++ [c.conclusion], hperm.append_right _, ?_⟩
  rw [Sequent.members, List.map_append]
  exact List.rel_append hpremises (.cons hconclusion .nil)

/-- The variables of a conjecture that its pattern matches have different names. -/
theorem distinctNames_of_mem_matchings_self
    (h : s ∈ ((Schema.ofConjecture c).matchings c .empty true false).toList) :
    DistinctNames (c.members.flatMap Term.vars) := by
  obtain ⟨tms, hperm, hfits⟩ := Schema.exists_perm_of_mem_matchings_self h
  have hsum : (tms.map Term.size).sum ≤
      ((c.members.map (HolTerm.toMeta {})).map Term.size).sum := by
    have hmap := List.map_congr_left fun t (_ : t ∈ c.members) => HolTerm.size_toMeta t
    rw [List.map_map, (hperm.map Term.size).sum_nat, ← hmap]
    exact Nat.le_refl _
  have hsizes := MetaTerm.forall₂_size_eq hfits hsum
  refine distinctNames_of_values (s := s) fun w hw => ?_
  obtain ⟨tm, htm, hw⟩ := List.mem_flatMap.mp hw
  obtain ⟨pat, hpat, hfits, hsize⟩ := exists_mem_of_forall₂ hsizes.flip (hperm.mem_iff.mpr htm)
  obtain ⟨t, ht, rfl⟩ := List.mem_map.mp hpat
  obtain ⟨v, hv, hget⟩ := HolTerm.exists_value_of_fits hfits hsize (mem_distinct.mp hw)
  exact ⟨v, List.mem_flatMap.mpr ⟨t, ht, mem_distinct.mpr hv⟩, hget⟩

/-- A conjecture matches itself, and if its variables have different names, then its pattern has a
match that corresponds. -/
theorem exists_mem_matchings_self (hnames : DistinctNames (c.members.flatMap Term.vars)) :
    ∃ s, s ∈ ((Schema.ofConjecture c).matchings c .empty true false).toList := by
  have hvars : ∀ tm ∈ c.members, ∀ v ∈ tm.leaves, v ∈ c.members.flatMap Term.vars := by
    intro tm htm v hv
    exact List.mem_flatMap.mpr ⟨tm, htm, mem_distinct.mpr hv⟩
  have hempty : HolSubst.Corresponds (c.members.flatMap Term.vars) .empty .empty :=
    ⟨List.forall_mem_nil _, rfl⟩
  obtain ⟨s, hs⟩ := exists_mem_matchings Replacement.refl.agrees_empty (.refl c)
  rw [Sequent.toList_matchings] at hs
  obtain ⟨x, hx, -⟩ := List.mem_map.mp hs
  obtain ⟨y, hy, -⟩ := exists_mem_of_forall₂
    (MatchSearch.forall₂_remaining_ofConjecture hnames hvars hempty true false) hx
  refine ⟨y.2, ?_⟩
  rw [Sequent.toList_matchings]
  exact List.mem_map_of_mem hy

/-- **A pattern applies to the conjecture it was made from just if no two different variables of the
conjecture share a name.** -/
theorem matchings_ofConjecture_self_iff (c : Conjecture) :
    (∃ s, s ∈ ((Schema.ofConjecture c).matchings c .empty true false).toList) ↔
      DistinctNames (c.members.flatMap Term.vars) := by
  constructor
  · intro h
    obtain ⟨s, hs⟩ := h
    exact distinctNames_of_mem_matchings_self hs
  · intro hnames
    exact exists_mem_matchings_self hnames

/-- The conjecture `⊢ x = x x`, where the function is called `x` as well. -/
def sharedName : Conjecture :=
  let x := freeVar "x" .bool
  .ofList [] (.equation .bool x (.app (freeVar "x" (.fn .bool .bool)) x))

/-- The pattern `⊢ ?x = ?x ?x` made from it does not match it, since `?x` has one value. -/
theorem matchings_ofConjecture_self_sharedName :
    Kernel.initial.checkProps sharedName.members = .ok () ∧
      ((Schema.ofConjecture sharedName).matchings sharedName .empty true false).toList = [] := by
  decide +kernel

end HolSearch
