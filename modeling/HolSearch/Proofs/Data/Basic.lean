import HolSearch.Data.Distinct
import HolSearch.Data.Stack
import HolSearch.Data.Table
import Mathlib.Data.List.Forall2
import Mathlib.Data.List.Induction
import Mathlib.Data.List.Perm.Subperm
import Mathlib.Order.Defs.PartialOrder

/-!
# Outcomes and growing tables

What the kernel computes is an outcome: a value, or the reason of a refusal.  The lemmas of the
first section take a successful outcome apart into the successful outcomes of its steps.  An
operation on a state has an outcome and a new state, and those of the second section say what they
are.

Registries and substitutions are tables that only ever grow.  `s ≤ t` says that `t` keeps every
entry of `s`; an insertion at a free key grows a table.  `t.Covers u` says that `u` has no key that
`t` lacks, and `t.Apart u` that the two have no key in common.

Binders around a subterm form a stack.  `s.Maps f t` says that `t` has, at every place of `s`, the
image under `f` of what stands there in `s`.
-/

namespace HolSearch

@[simp] theorem distinct_nil {α : Type} [DecidableEq α] : distinct ([] : List α) = [] := rfl

@[simp] theorem distinct_singleton {α : Type} [DecidableEq α] (x : α) : distinct [x] = [x] := rfl

/-- Nothing is lost just if nothing is repeated. -/
theorem length_distinct_eq_iff {α : Type} [DecidableEq α] {xs : List α} :
    (distinct xs).length = xs.length ↔ xs.Nodup := by
  have hsub : (distinct xs).Subperm xs := (nodup_distinct xs).subperm fun _ => mem_distinct.mp
  constructor
  · intro h
    have hperm := hsub.perm_of_length_le (Nat.le_of_eq h.symm)
    exact hperm.nodup_iff.mp (nodup_distinct xs)
  · intro h
    have hsub' : xs.Subperm (distinct xs) := h.subperm fun _ => mem_distinct.mpr
    exact Nat.le_antisymm hsub.length_le hsub'.length_le

theorem addAllNew_eq_append {α : Type} [DecidableEq α] {xs ys : List α} (h : (xs ++ ys).Nodup) :
    addAllNew xs ys = xs ++ ys := by
  induction ys generalizing xs with
  | nil => rw [List.append_nil, addAllNew, List.foldl_nil]
  | cons y ys ih =>
      have hnew : y ∉ xs := fun hy => (List.nodup_append.mp h).2.2 y hy y List.mem_cons_self rfl
      have hstep : addAllNew xs (y :: ys) = addAllNew (xs ++ [y]) ys := by
        rw [addAllNew, List.foldl_cons, addNew, if_neg hnew, addAllNew]
      rw [List.append_cons] at h ⊢
      rw [hstep, ih h]

theorem distinct_eq_self {α : Type} [DecidableEq α] {xs : List α} (h : xs.Nodup) :
    distinct xs = xs :=
  addAllNew_eq_append h

theorem distinct_append_singleton {α : Type} [DecidableEq α] (xs : List α) (x : α) :
    distinct (xs ++ [x]) = addNew (distinct xs) x := by
  simp only [distinct, addAllNew, List.foldl_append, List.foldl_cons, List.foldl_nil]

/-- It does not matter if repetitions are dropped before a function is applied as well. -/
theorem distinct_map_distinct {α β : Type} [DecidableEq α] [DecidableEq β] (f : α → β)
    (xs : List α) : distinct ((distinct xs).map f) = distinct (xs.map f) := by
  induction xs using List.reverseRecOn with
  | nil => rfl
  | append_singleton xs x ih =>
      rw [distinct_append_singleton, List.map_append, List.map_singleton,
        distinct_append_singleton]
      by_cases hx : x ∈ xs
      · have hfx : f x ∈ distinct (xs.map f) := mem_distinct.mpr (List.mem_map_of_mem hx)
        rw [addNew, if_pos (mem_distinct.mpr hx), ih, addNew, if_pos hfx]
      · rw [addNew, if_neg (fun hmem => hx (mem_distinct.mp hmem)), List.map_append,
          List.map_singleton, distinct_append_singleton, ih]

/-! ## Successful outcomes -/

section Outcomes

variable {ε α β : Type}

theorem bind_eq_ok {x : Except ε α} {f : α → Except ε β} {b : β} :
    x >>= f = .ok b ↔ ∃ a, x = .ok a ∧ f a = .ok b := by
  cases x with
  | error e => exact ⟨nofun, nofun⟩
  | ok a => exact ⟨fun h => ⟨a, rfl, h⟩, fun ⟨_, ha, h⟩ => by cases ha; exact h⟩

theorem pure_eq_ok {a b : α} : (pure a : Except ε α) = .ok b ↔ a = b :=
  ⟨fun h => by cases h; rfl, fun h => by rw [h]; rfl⟩

theorem ite_eq_ok {p : Prop} [Decidable p] {x : Except ε α} {e : ε} {a : α} :
    (if p then x else .error e) = .ok a ↔ p ∧ x = .ok a := by
  by_cases hp : p
  · simp [hp]
  · simp [hp]

theorem map_eq_ok {x : Except ε α} {f : α → β} {b : β} :
    x.map f = .ok b ↔ ∃ a, x = .ok a ∧ f a = b := by
  cases x with
  | error e => simp [Except.map]
  | ok a => simp [Except.map]

/-- If `f` succeeds just where `P` holds, and there with the value of `g`, then it maps a list
successfully just if `P` holds of all members. -/
theorem mapM_eq_ok_iff {f : α → Except ε β} {P : α → Prop} {g : α → β}
    (hf : ∀ x y, f x = .ok y ↔ P x ∧ y = g x) {xs : List α} {ys : List β} :
    xs.mapM f = .ok ys ↔ (∀ x ∈ xs, P x) ∧ ys = xs.map g := by
  induction xs generalizing ys with
  | nil =>
      rw [List.mapM_nil, pure_eq_ok]
      simp [eq_comm]
  | cons x xs ih =>
      simp only [List.mapM_cons, bind_eq_ok, pure_eq_ok, ih, hf, List.forall_mem_cons,
        List.map_cons]
      constructor
      · rintro ⟨y, ⟨hx, rfl⟩, zs, ⟨hxs, rfl⟩, rfl⟩
        exact ⟨⟨hx, hxs⟩, rfl⟩
      · rintro ⟨⟨hx, hxs⟩, rfl⟩
        exact ⟨g x, ⟨hx, rfl⟩, xs.map g, ⟨hxs, rfl⟩, rfl⟩

theorem mapM_eq_ok_iff_forall₂ {f : α → Except ε β} {xs : List α} {ys : List β} :
    xs.mapM f = .ok ys ↔ List.Forall₂ (fun x y => f x = .ok y) xs ys := by
  induction xs generalizing ys with
  | nil => rw [List.mapM_nil, pure_eq_ok, List.forall₂_nil_left_iff, eq_comm]
  | cons x xs ih =>
      simp only [List.mapM_cons, bind_eq_ok, pure_eq_ok, ih, List.forall₂_cons_left_iff]
      constructor
      · rintro ⟨y, hy, ys, hys, rfl⟩
        exact ⟨y, ys, hy, hys, rfl⟩
      · rintro ⟨y, ys, hy, hys, rfl⟩
        exact ⟨y, hy, ys, hys, rfl⟩

theorem exists_mapM_eq_ok {f : α → Except ε β} {xs : List α} (h : ∀ x ∈ xs, ∃ y, f x = .ok y) :
    ∃ ys, xs.mapM f = .ok ys := by
  induction xs with
  | nil => exact ⟨[], rfl⟩
  | cons x xs ih =>
      rw [List.forall_mem_cons] at h
      obtain ⟨⟨y, hy⟩, hxs⟩ := h
      obtain ⟨ys, hys⟩ := ih hxs
      rw [mapM_eq_ok_iff_forall₂] at hys
      exact ⟨y :: ys, mapM_eq_ok_iff_forall₂.mpr (.cons hy hys)⟩

/-- Every member of the first list is related to a member of the second. -/
theorem exists_mem_of_forall₂ {R : α → β → Prop} {xs : List α} {ys : List β}
    (h : List.Forall₂ R xs ys) {x : α} (hx : x ∈ xs) : ∃ y ∈ ys, R x y := by
  induction h with
  | nil => cases hx
  | cons hr _ ih =>
      rcases List.mem_cons.mp hx with rfl | hx
      · exact ⟨_, List.mem_cons_self, hr⟩
      · obtain ⟨y, hy, hxy⟩ := ih hx
        exact ⟨y, List.mem_cons_of_mem _ hy, hxy⟩

/-- The results of a list are the results of its members. -/
theorem mem_iff_of_mapM {f : α → Except ε β} {xs : List α} {ys : List β}
    (h : xs.mapM f = .ok ys) (y : β) : y ∈ ys ↔ ∃ x ∈ xs, f x = .ok y := by
  have hresults := mapM_eq_ok_iff_forall₂.mp h
  constructor
  · exact fun hy => exists_mem_of_forall₂ hresults.flip hy
  · rintro ⟨x, hx, hxy⟩
    obtain ⟨y', hy', hxy'⟩ := exists_mem_of_forall₂ hresults hx
    rw [hxy] at hxy'
    cases hxy'
    exact hy'

end Outcomes

/-! ## Running an operation -/

section Running

variable {ε σ α β : Type}

theorem run_bind (m : ExceptT ε (StateM σ) α) (f : α → ExceptT ε (StateM σ) β) (s : σ) :
    (m >>= f).run s =
      match m.run s with
      | (.ok a, s') => (f a).run s'
      | (.error e, s') => (.error e, s') := by
  change (match m.run s with | (x, s') => (ExceptT.bindCont f x) s') = _
  rcases m.run s with ⟨_ | _, _⟩
  · rfl
  · rfl

theorem run_pure (a : α) (s : σ) : (pure a : ExceptT ε (StateM σ) α).run s = (.ok a, s) := rfl

theorem run_get (s : σ) : (get : ExceptT ε (StateM σ) σ).run s = (.ok s, s) := rfl

theorem run_set (s s' : σ) : (set s' : ExceptT ε (StateM σ) PUnit).run s = (.ok ⟨⟩, s') := rfl

theorem run_modify (f : σ → σ) (s : σ) :
    (modify f : ExceptT ε (StateM σ) PUnit).run s = (.ok ⟨⟩, f s) := rfl

theorem run_throw (e : ε) (s : σ) : (throw e : ExceptT ε (StateM σ) α).run s = (.error e, s) := rfl

theorem run_liftM (x : Except ε α) (s : σ) : (liftM x : ExceptT ε (StateM σ) α).run s = (x, s) :=
  rfl

theorem run_ite (c : Prop) [Decidable c] (m n : ExceptT ε (StateM σ) α) (s : σ) :
    (if c then m else n).run s = if c then m.run s else n.run s := by
  split
  · rfl
  · rfl

end Running

/-! ## Growing tables -/

namespace Table

variable {κ α : Type} [DecidableEq κ]

/-- `t` has every entry of `s`. -/
instance : Preorder (Table κ α) where
  le s t := ∀ k a, s.get? k = some a → t.get? k = some a
  le_refl _ _ _ h := h
  le_trans _ _ _ hst htu k a h := htu k a (hst k a h)

theorem not_contains_iff {t : Table κ α} {k : κ} : ¬t.contains k = true ↔ t.get? k = none := by
  rw [contains, Option.not_isSome_iff_eq_none]

theorem le_insert {t : Table κ α} {k : κ} (h : t.get? k = none) (a : α) : t ≤ t.insert k a := by
  intro k' a' hget
  rw [get?_insert]
  split
  · rename_i heq
    rw [heq, h] at hget
    cases hget
  · exact hget

theorem insert_le {t u : Table κ α} {k : κ} {a : α} (h : t ≤ u) (hget : u.get? k = some a) :
    t.insert k a ≤ u := by
  intro k' a' hget'
  rw [get?_insert] at hget'
  split at hget'
  · rename_i heq
    cases hget'
    rw [heq, hget]
  · exact h k' a' hget'

/-- An entry of an extended table is the new value or an old one. -/
theorem eq_or_get?_of_insert {t : Table κ α} {k k' : κ} {a b : α}
    (h : (t.insert k a).get? k' = some b) : b = a ∨ t.get? k' = some b := by
  rw [get?_insert] at h
  split at h
  · cases h
    exact Or.inl rfl
  · exact Or.inr h

theorem mem_entries_of_get? {t : Table κ α} {k : κ} {a : α} (h : t.get? k = some a) :
    (k, a) ∈ t.entries := by
  obtain ⟨entries⟩ := t
  unfold get? at h
  induction entries with
  | nil => cases h
  | cons entry entries ih =>
      rw [lookup] at h
      split at h
      · rename_i heq
        cases h
        subst heq
        exact List.mem_cons_self
      · exact List.mem_cons_of_mem _ (ih h)

theorem mem_values_of_get? {t : Table κ α} {k : κ} {a : α} (h : t.get? k = some a) :
    a ∈ t.values :=
  List.mem_map_of_mem (mem_entries_of_get? h)

theorem eq_or_mem_of_mem_entries_insert {t : Table κ α} {k : κ} {a : α} {e : κ × α}
    (h : e ∈ (t.insert k a).entries) : e = (k, a) ∨ e ∈ t.entries := by
  obtain ⟨entries⟩ := t
  unfold insert at h
  induction entries with
  | nil => exact Or.inl (List.mem_singleton.mp h)
  | cons entry entries ih =>
      simp only [put] at h
      split at h
      · rcases List.mem_cons.mp h with h | h
        · exact Or.inl h
        · exact Or.inr (List.mem_cons_of_mem _ h)
      · rcases List.mem_cons.mp h with h | h
        · exact Or.inr (List.mem_cons.mpr (Or.inl h))
        · exact (ih h).imp id (List.mem_cons_of_mem _)

theorem eq_or_mem_of_mem_values_insert {t : Table κ α} {k : κ} {a b : α}
    (h : b ∈ (t.insert k a).values) : b = a ∨ b ∈ t.values := by
  obtain ⟨e, he, rfl⟩ := List.mem_map.mp h
  rcases eq_or_mem_of_mem_entries_insert he with rfl | he
  · exact Or.inl rfl
  · exact Or.inr (List.mem_map_of_mem he)

theorem put_put_of_lookup {k : κ} {a : α} {entries : List (κ × α)} (h : lookup k entries = some a)
    (b : α) : put k a (put k b entries) = entries := by
  induction entries with
  | nil => cases h
  | cons entry entries ih =>
      obtain ⟨k', a'⟩ := entry
      by_cases hk : k' = k
      · subst hk
        simp only [lookup, if_pos] at h
        cases h
        simp [put]
      · simp only [lookup, if_neg hk] at h
        simp [put, hk, ih h]

theorem filter_put_of_lookup {k : κ} {entries : List (κ × α)} (h : lookup k entries = none)
    (b : α) : (put k b entries).filter (·.1 ≠ k) = entries := by
  induction entries with
  | nil => simp [put]
  | cons entry entries ih =>
      obtain ⟨k', a'⟩ := entry
      by_cases hk : k' = k
      · simp only [lookup, if_pos hk] at h
        cases h
      · simp only [lookup, if_neg hk] at h
        simpa [put, hk] using ih h

/-- An insertion is undone by putting the old value back. -/
theorem insert_insert_of_get? {t : Table κ α} {k : κ} {a : α} (h : t.get? k = some a) (b : α) :
    (t.insert k b).insert k a = t :=
  congrArg Table.mk (put_put_of_lookup h b)

/-- An insertion at a free key is undone by erasing it. -/
theorem erase_insert_of_get? {t : Table κ α} {k : κ} (h : t.get? k = none) (b : α) :
    (t.insert k b).erase k = t :=
  congrArg Table.mk (filter_put_of_lookup h b)

/-- Every key of `u` is one of `t`. -/
def Covers {β : Type} (t : Table κ α) (u : Table κ β) : Prop :=
  ∀ k, t.get? k = none → u.get? k = none

section Covers

variable {β : Type} {t t' : Table κ α} {u : Table κ β}

theorem Covers.mono (h : t.Covers u) (hle : t ≤ t') : t'.Covers u := by
  intro k hk
  cases hget : t.get? k with
  | none => exact h k hget
  | some a =>
      rw [hle k a hget] at hk
      cases hk

theorem Covers.insert (h : t.Covers u) {k : κ} {a : α} (hk : t.get? k = some a) (b : β) :
    t.Covers (u.insert k b) := by
  intro k' hk'
  rw [get?_insert, if_neg]
  · exact h k' hk'
  · rintro rfl
    rw [hk] at hk'
    cases hk'

end Covers

/-- No key has entries in both tables. -/
def Apart {β : Type} (t : Table κ α) (u : Table κ β) : Prop :=
  ∀ k, t.get? k = none ∨ u.get? k = none

namespace Apart

variable {β : Type} {t : Table κ α} {u : Table κ β}

theorem symm (h : t.Apart u) : u.Apart t := fun k => (h k).symm

theorem insert (h : t.Apart u) {k : κ} (hk : u.get? k = none) (a : α) :
    (t.insert k a).Apart u := by
  intro k'
  rw [get?_insert]
  split
  · rename_i heq
    exact Or.inr (heq ▸ hk)
  · exact h k'

end Apart

end Table

/-! ## Stacks place by place -/

namespace Stack

variable {α β : Type}

theorem forall_get?_push {P : α → Prop} {s : Stack α} {x : α} :
    (∀ i y, (s.push x).get? i = some y → P y) ↔ P x ∧ ∀ i y, s.get? i = some y → P y := by
  constructor
  · exact fun h => ⟨h 0 x rfl, fun i y hget => h (i + 1) y hget⟩
  · rintro ⟨hx, hs⟩ i y hget
    cases i with
    | zero =>
        cases hget
        exact hx
    | succ i => exact hs i y hget

theorem mem_modifyTop {s : Stack α} {f : α → α} {x : α}
    (h : x ∈ (s.modifyTop f).items) : x ∈ s.items ∨ ∃ y ∈ s.items, x = f y := by
  unfold modifyTop at h
  split at h
  · exact Or.inl h
  · rename_i y rest hitems
    rw [hitems]
    rcases List.mem_cons.mp h with rfl | h
    · exact Or.inr ⟨y, List.mem_cons_self, rfl⟩
    · exact Or.inl (List.mem_cons_of_mem y h)

/-- At every place of `s`, the stack `t` has the image of what stands there in `s`. -/
def Maps (f : α → β) (s : Stack α) (t : Stack β) : Prop :=
  ∀ i x, s.get? i = some x → t.get? i = some (f x)

theorem maps_empty (f : α → β) (t : Stack β) : (empty : Stack α).Maps f t := nofun

theorem Maps.push {f : α → β} {s : Stack α} {t : Stack β} (h : s.Maps f t) (x : α) :
    (s.push x).Maps f (t.push (f x)) := by
  intro i y hget
  cases i with
  | zero =>
      cases hget
      rfl
  | succ i => exact h i y hget

end Stack

end HolSearch
