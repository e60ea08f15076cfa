import HolSearch.Proofs.Data.Basic
import HolSearch.Syntax.Sequent
import Mathlib.Data.List.Nodup
import Mathlib.Data.List.Perm.Basic
import Mathlib.Data.Set.Operations

/-!
# Sequents as sets

Two sequents are compared by their conclusions, by the numbers of their premises and by one
inclusion.  This is equality of sets because no premise is stored twice (`equiv_iff`): a list
without repetition that lies within another of the same length is a permutation of it.  For the same
reason the hash of a sequent does not see the order of its premises.

Every way to build a sequent drops repetitions again, also where different premises become equal, so
what counts are the premises that it is built from, as a set: `BuiltFrom` and `BuiltFrom.mem_iff`.
Main statement: `equality_as_sets`.
-/

namespace HolSearch

/-! ## Outcomes that agree -/

/-- Both are refused, for whatever reasons, or both succeed with values that mean the same. -/
def SameOutcome {ε α : Type} [HasEquiv.{1, 0} α] (x y : Except ε α) : Prop :=
  ((∃ a, x = .ok a) ↔ ∃ b, y = .ok b) ∧ ∀ a b, x = .ok a → y = .ok b → a ≈ b

namespace SameOutcome

variable {ε α β : Type} [HasEquiv.{1, 0} α]

theorem error (e e' : ε) : SameOutcome (.error e : Except ε α) (.error e') := by
  simp [SameOutcome]

theorem ok {a b : α} (h : a ≈ b) : SameOutcome (.ok a : Except ε α) (.ok b) := by
  simpa [SameOutcome] using h

/-- Outcomes agree if they do so after a first step that they share. -/
theorem bind_left (x : Except ε β) {f g : β → Except ε α} (h : ∀ b, SameOutcome (f b) (g b)) :
    SameOutcome (x >>= f) (x >>= g) := by
  cases x with
  | error e => exact error e e
  | ok b => exact h b

/-- What follows sees only what the values mean. -/
theorem bind [HasEquiv.{1, 0} β] {x y : Except ε β} {f g : β → Except ε α} (h : SameOutcome x y)
    (hfg : ∀ a b, a ≈ b → SameOutcome (f a) (g b)) : SameOutcome (x >>= f) (y >>= g) := by
  obtain ⟨hsucceeds, hequiv⟩ := h
  cases x with
  | error e =>
      cases y with
      | error e' => exact error e e'
      | ok b => simp at hsucceeds
  | ok a =>
      cases y with
      | error e' => simp at hsucceeds
      | ok b => exact hfg a b (hequiv a b rfl rfl)

end SameOutcome

namespace Sequent

variable {α β ε σ : Type} {s t : Sequent α}

/-! ## Equality -/

theorem Equiv.perm (h : s ≈ t) : s.premises.Perm t.premises := by
  obtain ⟨-, hlength, hwithin⟩ := h
  exact (s.nodup.subperm hwithin).perm_of_length_le (Nat.le_of_eq hlength.symm)

theorem equiv_iff :
    s ≈ t ↔ s.conclusion = t.conclusion ∧ ∀ p, p ∈ s.premises ↔ p ∈ t.premises := by
  constructor
  · intro h
    exact ⟨h.1, fun p => (Equiv.perm h).mem_iff⟩
  · rintro ⟨hconclusion, hmem⟩
    have hperm := (List.perm_ext_iff_of_nodup s.nodup t.nodup).mpr hmem
    exact ⟨hconclusion, hperm.length_eq, fun p => (hmem p).mp⟩

theorem equivalence_equiv : Equivalence fun s t : Sequent α => s ≈ t where
  refl _ := equiv_iff.mpr ⟨rfl, fun _ => Iff.rfl⟩
  symm h := by
    obtain ⟨hconclusion, hmem⟩ := equiv_iff.mp h
    exact equiv_iff.mpr ⟨hconclusion.symm, fun p => (hmem p).symm⟩
  trans h h' := by
    obtain ⟨hconclusion, hmem⟩ := equiv_iff.mp h
    obtain ⟨hconclusion', hmem'⟩ := equiv_iff.mp h'
    exact equiv_iff.mpr ⟨hconclusion.trans hconclusion', fun p => (hmem p).trans (hmem' p)⟩

/-- Combining digests by exclusive or, it does not matter which comes first. -/
theorem hashInto_eq_of_equiv (h : s ≈ t) (hasher : Hasher α σ) (state : σ) :
    s.hashInto hasher state = t.hashInto hasher state := by
  have hdigests : s.premises.foldl (fun acc p => acc ^^^ hasher.digest p) 0 =
      t.premises.foldl (fun acc p => acc ^^^ hasher.digest p) 0 := by
    refine (Equiv.perm h).foldl_eq' (fun p _ q _ acc => ?_) 0
    rw [UInt64.xor_assoc, UInt64.xor_comm (hasher.digest p), ← UInt64.xor_assoc]
  simp only [hashInto, hdigests, h.1]

/-! ## Building sequents -/

section Building

variable [DecidableEq β]

theorem map_map {γ : Type} [DecidableEq γ] (f : α → β) (g : β → γ) (s : Sequent α) :
    (s.map f).map g = s.map fun a => g (f a) := by
  simp only [map, ofList, distinct_map_distinct, List.map_map]
  rfl

theorem map_id [DecidableEq α] (s : Sequent α) : (s.map fun a => a) = s := by
  rw [map, List.map_id']
  exact Sequent.ext (distinct_eq_self s.nodup) rfl

/-- No premises are merged if different ones stay different. -/
theorem premises_map {f : α → β} (hf : Function.Injective f) (s : Sequent α) :
    (s.map f).premises = s.premises.map f :=
  distinct_eq_self (s.nodup.map hf)

theorem tryMap_eq_ok_iff {f : α → Except ε β} {s' : Sequent β} :
    s.tryMap f = .ok s' ↔
      ∃ ps c, s.premises.mapM f = .ok ps ∧ f s.conclusion = .ok c ∧ s' = .ofList ps c := by
  simp only [tryMap, bind_eq_ok, pure_eq_ok]
  constructor
  · rintro ⟨ps, hps, c, hc, rfl⟩
    exact ⟨ps, c, hps, hc, rfl⟩
  · rintro ⟨ps, c, hps, hc, rfl⟩
    exact ⟨ps, hps, c, hc, rfl⟩

/-- A sequent can be mapped just if all its members can. -/
theorem exists_tryMap_iff {f : α → Except ε β} :
    (∃ s', s.tryMap f = .ok s') ↔
      (∀ p ∈ s.premises, ∃ q, f p = .ok q) ∧ ∃ c, f s.conclusion = .ok c := by
  simp only [tryMap_eq_ok_iff]
  constructor
  · rintro ⟨_, ps, c, hps, hc, -⟩
    refine ⟨fun p hp => ?_, c, hc⟩
    obtain ⟨q, -, hq⟩ := exists_mem_of_forall₂ (mapM_eq_ok_iff_forall₂.mp hps) hp
    exact ⟨q, hq⟩
  · rintro ⟨hpremises, c, hc⟩
    obtain ⟨ps, hps⟩ := exists_mapM_eq_ok hpremises
    exact ⟨_, ps, c, hps, hc, rfl⟩

/-- The sequent was built from premises that form the given set and from the given conclusion. -/
inductive BuiltFrom : Sequent β → Set β → β → Prop where
  | ofList (premises : List β) (conclusion : β) :
      BuiltFrom (.ofList premises conclusion) {p | p ∈ premises} conclusion
  | map {α : Type} (f : α → β) (s : Sequent α) :
      BuiltFrom (s.map f) (f '' {p | p ∈ s.premises}) (f s.conclusion)
  | tryMap {α ε : Type} {f : α → Except ε β} {s : Sequent α} {s' : Sequent β} {c : β}
      (hmap : s.tryMap f = .ok s') (hc : f s.conclusion = .ok c) :
      BuiltFrom s' {q | ∃ p ∈ s.premises, f p = .ok q} c

/-- **A sequent has the conclusion and, as a set, the premises that it was built from.** -/
theorem BuiltFrom.mem_iff {s : Sequent β} {P : Set β} {c : β} (h : BuiltFrom s P c) :
    s.conclusion = c ∧ ∀ p, p ∈ s.premises ↔ p ∈ P := by
  cases h with
  | ofList premises => exact ⟨rfl, fun p => mem_distinct⟩
  | map f s =>
      refine ⟨rfl, fun p => ?_⟩
      rw [Sequent.map, ofList_premises, mem_distinct, List.mem_map, Set.mem_image]
      rfl
  | tryMap hmap hc =>
      obtain ⟨ps, c', hps, hc', rfl⟩ := tryMap_eq_ok_iff.mp hmap
      rw [hc] at hc'
      cases hc'
      refine ⟨rfl, fun p => ?_⟩
      rw [ofList_premises, mem_distinct, mem_iff_of_mapM hps]
      rfl

theorem BuiltFrom.equiv_iff {s t : Sequent β} {P Q : Set β} {c d : β} (hs : BuiltFrom s P c)
    (ht : BuiltFrom t Q d) : s ≈ t ↔ c = d ∧ P = Q := by
  obtain ⟨hc, hP⟩ := hs.mem_iff
  obtain ⟨hd, hQ⟩ := ht.mem_iff
  simp only [Sequent.equiv_iff, hc, hd, hP, hQ, Set.ext_iff]

theorem Equiv.map (h : s ≈ t) (f : α → β) : s.map f ≈ t.map f := by
  obtain ⟨hconclusion, hmem⟩ := Sequent.equiv_iff.mp h
  refine ((BuiltFrom.map f s).equiv_iff (.map f t)).mpr ⟨congrArg f hconclusion, ?_⟩
  simp only [hmem]

theorem Equiv.tryMap (h : s ≈ t) (f : α → Except ε β) :
    SameOutcome (s.tryMap f) (t.tryMap f) := by
  obtain ⟨hconclusion, hmem⟩ := Sequent.equiv_iff.mp h
  constructor
  · simp only [exists_tryMap_iff, hmem, hconclusion]
  · intro s' t' hs' ht'
    obtain ⟨_, c, -, hc, -⟩ := tryMap_eq_ok_iff.mp hs'
    have hc' : f t.conclusion = .ok c := hconclusion ▸ hc
    refine ((BuiltFrom.tryMap hs' hc).equiv_iff (.tryMap ht' hc')).mpr ⟨rfl, ?_⟩
    simp only [hmem]

end Building

/-- **Sequents are equal just if they were built from the same conclusion and the same set of
premises.**  So equality is an equivalence, and neither the order nor the repetition of the given
premises matters.  Equal sequents have equal hashes, whatever the elements are hashed to, and one
function makes equal sequents of them, or fails on both. -/
theorem equality_as_sets (α β ε σ : Type) [DecidableEq α] [DecidableEq β] :
    (∀ (s t : Sequent α) (P Q : Set α) (c d : α), BuiltFrom s P c → BuiltFrom t Q d →
      (s ≈ t ↔ c = d ∧ P = Q)) ∧
    (Equivalence fun s t : Sequent α => s ≈ t) ∧
    ∀ s t : Sequent α, s ≈ t →
      (∀ (h : Hasher α σ) (state : σ), s.hashInto h state = t.hashInto h state) ∧
      (∀ f : α → β, s.map f ≈ t.map f) ∧
      ∀ f : α → Except ε β, SameOutcome (s.tryMap f) (t.tryMap f) := by
  refine ⟨fun s t P Q c d hs ht => hs.equiv_iff ht, equivalence_equiv, fun s t h => ?_⟩
  exact ⟨hashInto_eq_of_equiv h, Equiv.map h, Equiv.tryMap h⟩

/-- The premises `1, 2, 3` in two orders, one of them with a repetition, and their halves: two of
these are equal. -/
theorem equality_as_sets_halves :
    let s := ofList [1, 2, 3, 2] 0
    let t := ofList [3, 1, 2] 0
    s ≈ t ∧ s.map (· / 2) ≈ ofList [0, 1] 0 ∧ s.map (· / 2) ≈ t.map (· / 2) ∧
      ∀ (h : Hasher Nat UInt64) (state : UInt64), s.hashInto h state = t.hashInto h state := by
  intro s t
  obtain ⟨hbuilt, -, hequal⟩ := equality_as_sets Nat Nat Unit UInt64
  have hst : s ≈ t := by
    refine (hbuilt s t _ _ _ _ (.ofList _ _) (.ofList _ _)).mpr ⟨rfl, Set.ext fun p => ?_⟩
    simp only [Set.mem_ofPred_eq, List.mem_cons, List.not_mem_nil, or_false]
    omega
  have hhalves : s.map (· / 2) ≈ ofList [0, 1] 0 := by
    refine (hbuilt _ _ _ _ _ _ (.map (· / 2) s) (.ofList [0, 1] 0)).mpr
      ⟨by decide, Set.ext fun p => ?_⟩
    simp [s, eq_comm]
  obtain ⟨hhash, hmap, -⟩ := hequal s t hst
  exact ⟨hst, hhalves, hmap (· / 2), hhash⟩

end Sequent

end HolSearch
