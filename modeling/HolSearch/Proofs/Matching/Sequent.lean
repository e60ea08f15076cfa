import HolSearch.Proofs.Matching.Enumeration
import HolSearch.Proofs.Matching.Term
import HolSearch.Proofs.Syntax.Sequent
import Mathlib.Data.List.Forall2
import Mathlib.Data.List.Nodup
import Mathlib.Data.List.Perm.Subperm

/-!
# Matching of object-level sequents

A theorem is matched with a goal that may have more premises.  A replacement *maps* one sequent
*into* another if it makes the conclusion of the other and different premises of it.  The matches of
a search agree with just such replacements, and if there is a replacement then there is a match:
`mapsInto_of_mem_matchings` and `exists_mem_matchings`.

Replacements that map sequents into each other can be composed.
-/

namespace HolSearch

variable {r r' : Replacement} {s s' : HolSubst} {pat tgt : Conjecture}

/-! ## Pairs of terms -/

theorem agrees_iff_of_matchPairs {pairs : List (HolTerm × HolTerm)}
    (h : matchPairs pairs s = some s') :
    r.Agrees s' ↔ r.Agrees s ∧ ∀ p t, (p, t) ∈ pairs → r.apply p = t := by
  induction pairs generalizing s with
  | nil =>
      cases h
      simp
  | cons pair pairs ih =>
      obtain ⟨p, t⟩ := pair
      obtain ⟨s₁, hmatch, hpairs⟩ := matchPairs_cons_eq_some_iff.mp h
      rw [ih hpairs, agrees_iff_of_matchTerm hmatch, and_assoc]
      refine and_congr_right fun _ => ⟨?_, ?_⟩
      · rintro ⟨hp, hrest⟩ q u hmem
        rcases List.mem_cons.mp hmem with heq | hmem
        · cases heq
          exact hp
        · exact hrest q u hmem
      · intro hall
        exact ⟨hall p t List.mem_cons_self, fun q u hmem => hall q u (List.mem_cons_of_mem _ hmem)⟩

theorem matchPairs_some_of_agrees {pairs : List (HolTerm × HolTerm)} (hr : r.Agrees s)
    (h : ∀ p t, (p, t) ∈ pairs → r.apply p = t) : ∃ s', matchPairs pairs s = some s' := by
  induction pairs generalizing s with
  | nil => exact ⟨s, rfl⟩
  | cons pair pairs ih =>
      obtain ⟨p, t⟩ := pair
      have hp := h p t List.mem_cons_self
      obtain ⟨s₁, hmatch⟩ := matchTerm_ok_of_agrees hr hp
      have hr₁ : r.Agrees s₁ := (agrees_iff_of_matchTerm hmatch).mpr ⟨hr, hp⟩
      obtain ⟨s', hs'⟩ := ih hr₁ fun q u hmem => h q u (List.mem_cons_of_mem _ hmem)
      exact ⟨s', matchPairs_cons_eq_some_iff.mpr ⟨s₁, hmatch, hs'⟩⟩

theorem coherent_of_matchPairs {pairs : List (HolTerm × HolTerm)}
    (h : matchPairs pairs s = some s') (hs : HolSubst.Coherent s) : HolSubst.Coherent s' := by
  induction pairs generalizing s with
  | nil =>
      cases h
      exact hs
  | cons pair pairs ih =>
      obtain ⟨s₁, hmatch, hpairs⟩ := matchPairs_cons_eq_some_iff.mp h
      exact ih hpairs (coherent_of_matchTerm hmatch hs)

theorem forall_mem_zip_iff {ps qs : List HolTerm} (hlength : ps.length = qs.length) :
    (∀ p q, (p, q) ∈ ps.zip qs → r.apply p = q) ↔ ps.map r.apply = qs := by
  rw [← List.forall₂_eq_eq_eq, List.forall₂_map_left_iff, List.forall₂_iff_zip]
  exact ⟨fun h => ⟨hlength, fun {p q} => h p q⟩, fun h p q => h.2⟩

/-! ## Premises -/

section

variable {κ μ ν : Type} [DecidableEq ν] {pat : Sequent (Term μ)} {tgt : Sequent (Term ν)}

/-- The premises that the assignments give to the premises of the pattern are, in order, as many
different premises of the target. -/
theorem exists_assigns_iff (hle : pat.premises.length ≤ tgt.premises.length) {qs : List (Term ν)} :
    (∃ a, pat.Assigns tgt a ∧ (a.filterMap fun v => tgt.premises[v]?) = qs) ↔
      pat.premises.length = qs.length ∧ qs.Nodup ∧ ∀ q ∈ qs, q ∈ tgt.premises := by
  have hmax : max pat.premises.length tgt.premises.length = tgt.premises.length :=
    Nat.max_eq_right hle
  constructor
  · rintro ⟨a, ha, rfl⟩
    have hlt : ∀ v ∈ a, v < tgt.premises.length := fun v hv => hmax ▸ ha.lt v hv
    refine ⟨?_, ?_, ?_⟩
    · have hall : (a.filterMap fun v => tgt.premises[v]?).length = a.length := by
        rw [List.filterMap_length_eq_length]
        exact fun v hv => by simp [hlt v hv]
      rw [hall, ha.length, Nat.min_eq_left hle]
    · refine ha.nodup.filterMap fun v w q hv hw => ?_
      have hvlt : v < tgt.premises.length := (List.getElem?_eq_some_iff.mp hv).1
      exact (List.getElem?_inj hvlt tgt.nodup).mp (hv.trans hw.symm)
    · intro q hq
      obtain ⟨v, -, hv⟩ := List.mem_filterMap.mp hq
      exact List.mem_of_getElem? hv
  · rintro ⟨hlength, hnodup, hsub⟩
    refine ⟨qs.map tgt.premises.idxOf, ⟨?_, ?_, ?_⟩, ?_⟩
    · rw [List.length_map, ← hlength, Nat.min_eq_left hle]
    · exact hnodup.map_on fun q hq q' _ heq => (List.idxOf_inj (hsub q hq)).mp heq
    · rw [hmax]
      intro v hv
      obtain ⟨q, hq, rfl⟩ := List.mem_map.mp hv
      exact List.idxOf_lt_length_iff.mpr (hsub q hq)
    · rw [List.filterMap_map]
      exact (List.filterMap_congr fun q hq => List.getElem?_idxOf (hsub q hq)).trans
        List.filterMap_some

variable [DecidableEq κ] [Marking μ] [PatternKey μ κ] [Marking ν]

/-- A match with a target that may have more premises pairs the premises of the pattern with
different premises of the target. -/
theorem Sequent.mem_matchings_extras_iff {s s' : Subst κ ν} :
    s' ∈ (pat.matchings tgt s true false).toList ↔
      ∃ s₀, matchTerm pat.conclusion tgt.conclusion s = .ok s₀ ∧
        ∃ qs, pat.premises.length = qs.length ∧ qs.Nodup ∧ (∀ q ∈ qs, q ∈ tgt.premises) ∧
          matchPairs (pat.premises.zip qs) s₀ = some s' := by
  rw [Sequent.mem_matchings]
  constructor
  · rintro ⟨-, hmissing, s₀, hmatch, a, ha, hpairs⟩
    have hle : pat.premises.length ≤ tgt.premises.length := by simpa using hmissing
    obtain ⟨hlength, hnodup, hsub⟩ := (exists_assigns_iff hle).mp ⟨a, ha, rfl⟩
    rw [Sequent.paired, if_pos hle] at hpairs
    exact ⟨s₀, hmatch, _, hlength, hnodup, hsub, hpairs⟩
  · rintro ⟨s₀, hmatch, qs, hlength, hnodup, hsub, hpairs⟩
    have hle : pat.premises.length ≤ tgt.premises.length :=
      hlength ▸ (hnodup.subperm hsub).length_le
    obtain ⟨a, ha, rfl⟩ := (exists_assigns_iff hle).mpr ⟨hlength, hnodup, hsub⟩
    refine ⟨Or.inl rfl, Or.inr hle, s₀, hmatch, a, ha, ?_⟩
    rw [Sequent.paired, if_pos hle]
    exact hpairs

/-- The matches with a target that may not have more premises are among those with a target that
may. -/
theorem Sequent.mem_matchings_extras {extras missing : Bool} {s s' : Subst κ ν}
    (h : s' ∈ (pat.matchings tgt s extras missing).toList) :
    s' ∈ (pat.matchings tgt s true missing).toList := by
  obtain ⟨-, hmissing, hmatch⟩ := mem_matchings.mp h
  exact mem_matchings.mpr ⟨Or.inl rfl, hmissing, hmatch⟩

/-- The order of the premises of the target does not matter for what the matches are. -/
theorem Sequent.mem_matchings_of_equiv {tgt' : Sequent (Term ν)} (h : tgt ≈ tgt')
    {s s' : Subst κ ν} (hs' : s' ∈ (pat.matchings tgt s true false).toList) :
    s' ∈ (pat.matchings tgt' s true false).toList := by
  rw [mem_matchings_extras_iff] at hs' ⊢
  obtain ⟨hconclusion, hmem⟩ := equiv_iff.mp h
  obtain ⟨s₀, hmatch, qs, hlength, hnodup, hsub, hpairs⟩ := hs'
  refine ⟨s₀, hconclusion ▸ hmatch, qs, hlength, hnodup, fun q hq => ?_, hpairs⟩
  exact (hmem q).mp (hsub q hq)

end

/-- The replacement makes the conclusion of the target, and of the premises of the pattern as many
different premises of the target. -/
structure Replacement.MapsInto (r : Replacement) (pat tgt : Conjecture) : Prop where
  conclusion : r.apply pat.conclusion = tgt.conclusion
  nodup : (pat.premises.map r.apply).Nodup
  within : ∀ p ∈ pat.premises, r.apply p ∈ tgt.premises

theorem Replacement.MapsInto.refl (seq : Conjecture) : Replacement.refl.MapsInto seq seq where
  conclusion := apply_refl seq.conclusion
  nodup := by
    rw [List.map_congr_left fun p _ => apply_refl p, List.map_id']
    exact seq.nodup
  within p hp := by rwa [apply_refl]

theorem Replacement.MapsInto.comp {mid : Conjecture} (h : r.MapsInto pat mid)
    (h' : r'.MapsInto mid tgt) : (r.comp r').MapsInto pat tgt where
  conclusion := by rw [apply_comp, h.conclusion, h'.conclusion]
  nodup := by
    refine List.Nodup.map_on (fun p hp q hq heq => ?_) pat.nodup
    rw [apply_comp, apply_comp] at heq
    have hpq := List.inj_on_of_nodup_map h'.nodup (h.within p hp) (h.within q hq) heq
    exact List.inj_on_of_nodup_map h.nodup hp hq hpq
  within p hp := by
    rw [apply_comp]
    exact h'.within _ (h.within p hp)

/-! ## Matches -/

/-- A match with a target that may have more premises agrees only with replacements that map the
pattern into the target. -/
theorem mapsInto_of_mem_matchings (hs' : s' ∈ (pat.matchings tgt s true false).toList)
    (hr : r.Agrees s') : r.MapsInto pat tgt := by
  obtain ⟨s₀, hmatch, qs, hlength, hnodup, hsub, hpairs⟩ := Sequent.mem_matchings_extras_iff.mp hs'
  obtain ⟨hr₀, hpremises⟩ := (agrees_iff_of_matchPairs hpairs).mp hr
  have hmap := (forall_mem_zip_iff hlength).mp hpremises
  refine ⟨((agrees_iff_of_matchTerm hmatch).mp hr₀).2, hmap ▸ hnodup, fun p hp => hsub _ ?_⟩
  rw [← hmap]
  exact List.mem_map_of_mem hp

/-- There is a match if there is a replacement that maps the pattern into the target. -/
theorem exists_mem_matchings (hr : r.Agrees s) (h : r.MapsInto pat tgt) :
    ∃ s', s' ∈ (pat.matchings tgt s true false).toList := by
  have hsub : ∀ q ∈ pat.premises.map r.apply, q ∈ tgt.premises := List.forall_mem_map.mpr h.within
  obtain ⟨s₀, hmatch⟩ := matchTerm_ok_of_agrees hr h.conclusion
  have hr₀ : r.Agrees s₀ := (agrees_iff_of_matchTerm hmatch).mpr ⟨hr, h.conclusion⟩
  have hlength := (pat.premises.length_map r.apply).symm
  obtain ⟨s', hs'⟩ := matchPairs_some_of_agrees hr₀ ((forall_mem_zip_iff hlength).mpr rfl)
  exact ⟨s', Sequent.mem_matchings_extras_iff.mpr ⟨s₀, hmatch, _, hlength, h.nodup, hsub, hs'⟩⟩

theorem coherent_of_mem_matchings {extras missing : Bool}
    (hs' : s' ∈ (pat.matchings tgt s extras missing).toList) (hs : HolSubst.Coherent s) :
    HolSubst.Coherent s' := by
  obtain ⟨-, -, s₀, hmatch, a, -, hpairs⟩ := Sequent.mem_matchings.mp hs'
  exact coherent_of_matchPairs hpairs (coherent_of_matchTerm hmatch hs)

end HolSearch
