import HolSearch.Proofs.Matching.Sequent
import HolSearch.Proofs.Schematic.Fixing

/-!
# Object-level and schematic patterns match alike

A conjecture can be matched with a goal in two ways: as it stands, where its variables are known by
name and type, and as a schema, where they are known by name alone.  If no two variables of it share
a name, then this makes no difference: the two searches find the same matches in the same order
(`matchings_ofConjecture_correspond`).

The schematic search is the image of the other one.  `HolSubst.byName` forgets the types in the keys
of a substitution, and each step of the schematic search leads to what `byName` makes of the step at
the object level.  That holds as long as all keys are variables of the conjecture, since only then
is a key determined by its name; matching keeps to such keys (`within_of_matchTerm`).
-/

namespace HolSearch

/-! ## Tables under other keys -/

namespace Table

variable {κ κ' α : Type}

/-- The table with each key replaced by its image. -/
def mapKeys (f : κ → κ') (t : Table κ α) : Table κ' α := ⟨t.entries.map fun e => (f e.1, e.2)⟩

variable [DecidableEq κ] [DecidableEq κ']

/-- A key is found under its image if no other key of the table has the same image. -/
theorem get?_mapKeys {f : κ → κ'} {t : Table κ α} {k : κ}
    (h : ∀ e ∈ t.entries, f e.1 = f k → e.1 = k) : (t.mapKeys f).get? (f k) = t.get? k := by
  obtain ⟨entries⟩ := t
  unfold get? mapKeys
  induction entries with
  | nil => rfl
  | cons e entries ih =>
      rw [List.forall_mem_cons] at h
      rw [List.map_cons, lookup, lookup, ih h.2]
      exact if_congr ⟨h.1, congrArg f⟩ rfl rfl

theorem mapKeys_insert {f : κ → κ'} {t : Table κ α} {k : κ}
    (h : ∀ e ∈ t.entries, f e.1 = f k → e.1 = k) (a : α) :
    (t.insert k a).mapKeys f = (t.mapKeys f).insert (f k) a := by
  obtain ⟨entries⟩ := t
  unfold insert mapKeys
  congr 1
  induction entries with
  | nil => rfl
  | cons e entries ih =>
      rw [List.forall_mem_cons] at h
      simp only [List.map_cons, put, ← ih h.2]
      by_cases hk : e.1 = k
      · rw [if_pos hk, if_pos (congrArg f hk), List.map_cons]
      · rw [if_neg hk, if_neg fun hf => hk (h.1 hf), List.map_cons]

end Table

/-! ## Substitutions by name -/

/-- No two of the variables share a name. -/
def DistinctNames (vars : List HolVar) : Prop :=
  ∀ v ∈ vars, ∀ w ∈ vars, v.name = w.name → v = w

instance (vars : List HolVar) : Decidable (DistinctNames vars) :=
  inferInstanceAs (Decidable (∀ v ∈ vars, ∀ w ∈ vars, v.name = w.name → v = w))

namespace HolSubst

/-- The same values, found by the names of the variables alone. -/
def byName (s : HolSubst) : MetaSubst := ⟨s.terms.mapKeys Var.name, s.types⟩

/-- Only variables of the list have values. -/
def Within (s : HolSubst) (vars : List HolVar) : Prop := ∀ e ∈ s.terms.entries, e.1 ∈ vars

/-- Only variables of the list have values, and the other substitution is the same by name. -/
structure Corresponds (vars : List HolVar) (s : HolSubst) (m : MetaSubst) : Prop where
  within : s.Within vars
  eq : m = s.byName

/-- The type variables have the same values, and so do the variables once the type is left out of
their keys. -/
structure SameValues (s : HolSubst) (m : MetaSubst) : Prop where
  types : ∀ name, m.types.get? name = s.types.get? name
  terms : ∀ name tm, m.terms.get? name = some tm ↔ ∃ v : HolVar, v.name = name ∧
    s.terms.get? v = some tm

variable {s : HolSubst} {vars : List HolVar} {v : HolVar}

theorem Within.eq_of_name_eq (hs : s.Within vars) (hvars : DistinctNames vars) (hv : v ∈ vars) :
    ∀ e ∈ s.terms.entries, e.1.name = v.name → e.1 = v :=
  fun e he => hvars e.1 (hs e he) v hv

theorem get?_byName (hs : s.Within vars) (hvars : DistinctNames vars) (hv : v ∈ vars) :
    s.byName.terms.get? v.name = s.terms.get? v :=
  Table.get?_mapKeys (hs.eq_of_name_eq hvars hv)

theorem Within.insert (hs : s.Within vars) (hv : v ∈ vars) (tm : HolTerm)
    (types : Table Name HolType) : Within ⟨s.terms.insert v tm, types⟩ vars := by
  intro e he
  rcases Table.eq_or_mem_of_mem_entries_insert he with rfl | he
  · exact hv
  · exact hs e he

theorem Corresponds.sameValues {m : MetaSubst} (h : HolSubst.Corresponds vars s m)
    (hvars : DistinctNames vars) : s.SameValues m := by
  obtain ⟨hs, rfl⟩ := h
  refine ⟨fun name => rfl, fun name tm => ⟨fun hget => ?_, ?_⟩⟩
  · obtain ⟨⟨v, tm'⟩, he, heq⟩ := List.mem_map.mp (Table.mem_entries_of_get? hget)
    cases heq
    refine ⟨v, rfl, ?_⟩
    rw [← get?_byName hs hvars (hs _ he)]
    exact hget
  · rintro ⟨v, rfl, hget⟩
    rw [get?_byName hs hvars (hs _ (Table.mem_entries_of_get? hget)), hget]

end HolSubst

/-! ## Types and terms -/

/-- What matching comes to, success or not, with `f` applied to the substitution. -/
def mapMatched {σ τ : Type} (f : σ → τ) : Matched σ → Matched τ
  | .ok s => .ok (f s)
  | .error s => .error (f s)

theorem toOption_mapMatched {σ τ : Type} (f : σ → τ) (x : Matched σ) :
    (mapMatched f x).toOption = x.toOption.map f := by
  cases x with
  | ok s => rfl
  | error s => rfl

/-- Steps whose outcomes correspond can be made one after the other. -/
theorem mapMatched_bind {σ τ : Type} {f : σ → τ} {x : Matched σ} {g : σ → Matched σ}
    {g' : τ → Matched τ} (h : ∀ s, x = .ok s → g' (f s) = mapMatched f (g s)) :
    (mapMatched f x).bind g' = mapMatched f (x.bind g) := by
  cases x with
  | ok s => exact h s rfl
  | error s => rfl

/-- Matching of arguments, if each of them is matched as a schema the way it is as it stands. -/
theorem matchTys_toMeta {pats : List HolType}
    (hmatch : ∀ pat ∈ pats, ∀ (tgt : HolType) (types : Table Name HolType),
      matchTy (HolType.toMeta [] pat) tgt types = matchTy pat tgt types)
    (tgts : List HolType) (types : Table Name HolType) :
    matchTys (pats.map (HolType.toMeta [])) tgts types = matchTys pats tgts types := by
  induction pats generalizing tgts types with
  | nil =>
      cases tgts with
      | nil => rfl
      | cons tgt tgts => rfl
  | cons pat pats ih =>
      rw [List.forall_mem_cons] at hmatch
      cases tgts with
      | nil => rfl
      | cons tgt tgts =>
          rw [List.map_cons, matchTys, matchTys, hmatch.1]
          congr 1
          funext types'
          exact ih hmatch.2 tgts types'

theorem matchTy_toMeta (pat tgt : HolType) (types : Table Name HolType) :
    matchTy (HolType.toMeta [] pat) tgt types = matchTy pat tgt types := by
  induction pat using Ty.induct generalizing tgt types with
  | var v =>
      rw [HolType.toMeta, Ty.subst_var, matchTy, matchTy]
      rfl
  | app name args ih =>
      rw [HolType.toMeta, Ty.subst_app]
      cases tgt with
      | var w => rw [matchTy, matchTy]
      | app name' args' =>
          rw [matchTy, matchTy, List.length_map]
          congr 1
          exact matchTys_toMeta ih args' types

theorem matchTyIn_toMeta (pat tgt : HolType) (s : HolSubst) :
    matchTyIn (HolType.toMeta [] pat) tgt s.byName =
      mapMatched HolSubst.byName (matchTyIn pat tgt s) := by
  have htypes : s.byName.types = s.types := rfl
  unfold matchTyIn
  rw [matchTy_toMeta, htypes]
  cases matchTy pat tgt s.types with
  | ok types => rfl
  | error types => rfl

section Terms

variable {vars : List HolVar} {s s' : HolSubst}

theorem capture_toMeta (hvars : DistinctNames vars) (hs : s.Within vars) {v : HolVar}
    (hv : v ∈ vars) (tgt : HolTerm) :
    capture v.name (HolType.toMeta [] v.ty) tgt s.byName =
      mapMatched HolSubst.byName (capture v v.ty tgt s) := by
  unfold capture
  rw [HolSubst.get?_byName hs hvars hv]
  cases s.terms.get? v with
  | some value =>
      dsimp only
      split
      · rfl
      · rfl
  | none =>
      dsimp only
      split
      · rfl
      · cases tgt.typeOf? with
        | none => rfl
        | some ty =>
            dsimp only
            rw [matchTyIn_toMeta]
            cases hmatch : matchTyIn v.ty ty s with
            | error s₁ => rfl
            | ok s₁ =>
                obtain ⟨types, -, rfl⟩ := matchTyIn_eq_ok_iff.mp hmatch
                have hkeys := Table.mapKeys_insert (hs.eq_of_name_eq hvars hv) tgt
                simp only [mapMatched, Except.map, HolSubst.byName, hkeys]

/-- Matching gives values only to the variables of the pattern. -/
theorem within_of_matchTerm {pat tgt : HolTerm} (hpat : ∀ v ∈ pat.leaves, v ∈ vars)
    (hs : s.Within vars) (h : matchTerm pat tgt s = .ok s') : s'.Within vars := by
  rw [matchTerm_eq_ok_iff] at h
  induction h with
  | abs _ _ ih => exact ih hpat hs
  | app _ _ ihf ihx =>
      rw [Term.leaves, List.forall_mem_append] at hpat
      exact ihx hpat.2 (ihf hpat.1 hs)
  | const => exact hs
  | bound => exact hs
  | known => exact hs
  | captured => exact hs.insert (hpat _ (List.mem_singleton_self _)) _ _

/-- A pattern is matched as a schema the way it is matched as it stands. -/
theorem matchTerm_toMeta (hvars : DistinctNames vars) {pat : HolTerm}
    (hpat : ∀ v ∈ pat.leaves, v ∈ vars) (hs : s.Within vars) (tgt : HolTerm) :
    matchTerm (HolTerm.toMeta {} pat) tgt s.byName =
      mapMatched HolSubst.byName (matchTerm pat tgt s) := by
  induction pat generalizing tgt s with
  | abs pty pbody ih =>
      cases tgt with
      | abs tty tbody =>
          rw [HolTerm.toMeta, Term.subst, matchTerm, matchTerm, matchTyIn_toMeta]
          refine mapMatched_bind fun s₁ hty => ?_
          obtain ⟨types, -, rfl⟩ := matchTyIn_eq_ok_iff.mp hty
          exact ih (s := ⟨s.terms, types⟩) hpat hs tbody
      | _ => rfl
  | app pf px ihf ihx =>
      rw [Term.leaves, List.forall_mem_append] at hpat
      cases tgt with
      | app tf tx =>
          have hf := ihf hpat.1 hs tf
          rw [HolTerm.toMeta] at hf
          rw [HolTerm.toMeta, Term.subst, matchTerm, matchTerm, hf]
          exact mapMatched_bind fun s₁ hmatch =>
            ihx hpat.2 (within_of_matchTerm hpat.1 hs hmatch) tx
      | _ => rfl
  | const c pty =>
      cases tgt with
      | const d tty =>
          rw [HolTerm.toMeta, Term.subst, matchTerm, matchTerm]
          split
          · exact matchTyIn_toMeta pty tty s
          · rfl
      | _ => rfl
  | bound i pty =>
      cases tgt with
      | bound j tty =>
          rw [HolTerm.toMeta, Term.subst, matchTerm, matchTerm]
          split
          · exact matchTyIn_toMeta pty tty s
          · rfl
      | _ => rfl
  | var v => exact capture_toMeta hvars hs (hpat v (List.mem_singleton_self v)) tgt

/-- Matching a pattern and the schema made of it succeed together and lead to corresponding
substitutions. -/
theorem rel_matchTerm_toMeta (hvars : DistinctNames vars) {pat : HolTerm}
    (hpat : ∀ v ∈ pat.leaves, v ∈ vars) {m : MetaSubst} (h : HolSubst.Corresponds vars s m)
    (tgt : HolTerm) :
    Option.Rel (HolSubst.Corresponds vars) (matchTerm pat tgt s).toOption
      (matchTerm (HolTerm.toMeta {} pat) tgt m).toOption := by
  obtain ⟨hs, rfl⟩ := h
  rw [matchTerm_toMeta hvars hpat hs, toOption_mapMatched]
  cases hmatch : matchTerm pat tgt s with
  | ok s' => exact .some ⟨within_of_matchTerm hpat hs hmatch, rfl⟩
  | error s' => exact .none

end Terms

/-! ## Sequents -/

namespace MatchSearch

open HolSubst (Corresponds)

variable {c goal : Conjecture} {vars : List HolVar} {s s₀ : HolSubst} {m m₀ : MetaSubst}

theorem mem_of_pair? {search : MatchSearch HolVar Unit Unit} {i v : Nat} {p t : HolTerm}
    (h : search.pair? i v = some (p, t)) : p ∈ search.pattern.premises := by
  unfold pair? at h
  dsimp only at h
  split at h
  · rename_i hp ht
    cases h
    exact List.mem_of_getElem? hp
  · cases h

theorem pair?_ofConjecture (s₀ : HolSubst) (m₀ : MetaSubst) (resume : Option Nat) (i v : Nat) :
    (ofConclusions (Schema.ofConjecture c) goal m₀ resume).pair? i v =
      ((ofConclusions c goal s₀ resume).pair? i v).map (Prod.map (HolTerm.toMeta {}) id) := by
  have hforward : (ofConclusions (Schema.ofConjecture c) goal m₀ resume).forward =
      (ofConclusions c goal s₀ resume).forward := by
    simp only [ofConclusions, Schema.premises_ofConjecture, List.length_map]
  have hpattern : (ofConclusions (Schema.ofConjecture c) goal m₀ resume).pattern.premises =
      c.premises.map (HolTerm.toMeta {}) := Schema.premises_ofConjecture c
  unfold pair?
  rw [hforward, hpattern]
  generalize (if (ofConclusions c goal s₀ resume).forward = true then (i, v) else (v, i)) = places
  obtain ⟨place, place'⟩ := places
  dsimp only [ofConclusions]
  rw [List.getElem?_map]
  cases c.premises[place]? with
  | none => rfl
  | some p =>
      cases goal.premises[place']? with
      | none => rfl
      | some t => rfl

theorem rel_extend?_ofConjecture (hvars : DistinctNames vars)
    (hc : ∀ p ∈ c.premises, ∀ v ∈ p.leaves, v ∈ vars) (h : HolSubst.Corresponds vars s m)
    (resume : Option Nat) (i v : Nat) :
    Option.Rel (Corresponds vars) ((ofConclusions c goal s₀ resume).extend? i v s)
      ((ofConclusions (Schema.ofConjecture c) goal m₀ resume).extend? i v m) := by
  unfold extend?
  rw [pair?_ofConjecture s₀ m₀]
  cases hpair : (ofConclusions c goal s₀ resume).pair? i v with
  | none => exact .none
  | some pair =>
      obtain ⟨p, t⟩ := pair
      exact rel_matchTerm_toMeta hvars (hc p (mem_of_pair? hpair)) h t

/-- The searches for the matches of a conjecture and of the schema made of it find corresponding
substitutions in the same order. -/
theorem forall₂_remaining_ofConjecture (hvars : DistinctNames vars)
    (hc : ∀ tm ∈ c.members, ∀ v ∈ tm.leaves, v ∈ vars) (h : HolSubst.Corresponds vars s m)
    (extras missing : Bool) :
    List.Forall₂ (fun x y => Corresponds vars x.2 y.2)
      (start c goal s extras missing).remaining
      (start (Schema.ofConjecture c) goal m extras missing).remaining := by
  rw [Sequent.members, List.forall_mem_append] at hc
  obtain ⟨hs, rfl⟩ := h
  have hconclusion := hc.2 c.conclusion (List.mem_singleton_self _)
  have hmatch : matchTerm (Schema.ofConjecture c).conclusion goal.conclusion s.byName = _ :=
    matchTerm_toMeta hvars hconclusion hs goal.conclusion
  unfold start
  rw [hmatch, Schema.premises_ofConjecture, List.length_map]
  dsimp only
  split
  · cases hok : matchTerm c.conclusion goal.conclusion s with
    | ok s₀ =>
        rw [mapMatched]
        dsimp only
        rw [remaining_ofConclusions, remaining_ofConclusions, Schema.premises_ofConjecture,
          List.length_map]
        exact forall₂_completions (fun i v s m h => rel_extend?_ofConjecture hvars hc.1 h _ i v)
          ⟨within_of_matchTerm hconclusion hs hok, rfl⟩
    | error s₀ =>
        rw [mapMatched, remaining_of_none rfl, remaining_of_none rfl]
        exact .nil
  · rw [remaining_of_none rfl, remaining_of_none rfl]
    exact .nil

end MatchSearch

/-- **A conjecture and the schema made of it match alike.**  If no two variables of the conjecture
share a name, then both have the same matches with a goal, in the same order. -/
theorem matchings_ofConjecture_correspond (c goal : Conjecture) (extras missing : Bool)
    (hc : DistinctNames (c.members.flatMap Term.vars)) :
    List.Forall₂ HolSubst.SameValues (c.matchings goal .empty extras missing).toList
      ((Schema.ofConjecture c).matchings goal .empty extras missing).toList := by
  have hvars : ∀ tm ∈ c.members, ∀ v ∈ tm.leaves, v ∈ c.members.flatMap Term.vars :=
    fun tm htm v hv => List.mem_flatMap.mpr ⟨tm, htm, mem_distinct.mpr hv⟩
  have hempty : HolSubst.Corresponds (c.members.flatMap Term.vars) .empty .empty :=
    ⟨List.forall_mem_nil _, rfl⟩
  rw [Sequent.toList_matchings, Sequent.toList_matchings, List.forall₂_map_left_iff,
    List.forall₂_map_right_iff]
  refine (MatchSearch.forall₂_remaining_ofConjecture hc hvars hempty extras missing).imp ?_
  exact fun x y h => h.sameValues hc

/-- The conjecture `p z ⊢ (λ y. p y) x`, where the type of `x`, `y` and `z` is a variable. -/
def betaConjecture : Conjecture :=
  let a := tyVar "a"
  let p := freeVar "p" (.fn a .bool)
  .ofList [.app p (freeVar "z" a)] (.app (.abs a (.app p (.bound 0 a))) (freeVar "x" a))

/-- The goal `q u, q v ⊢ (λ y. q y) u`. -/
def betaGoal : Conjecture :=
  let q := freeVar "q" (.fn .bool .bool)
  let u := freeVar "u" .bool
  .ofList [.app q u, .app q (freeVar "v" .bool)] (.app (.abs .bool (.app q (.bound 0 .bool))) u)

/-- There are two matches, since `z` can be `u` and can be `v`. -/
theorem matchings_ofConjecture_correspond_beta :
    DistinctNames (betaConjecture.members.flatMap Term.vars) ∧
      (betaConjecture.matchings betaGoal .empty true false).toList.length = 2 ∧
      List.Forall₂ HolSubst.SameValues (betaConjecture.matchings betaGoal .empty true false).toList
        ((Schema.ofConjecture betaConjecture).matchings betaGoal .empty true false).toList := by
  have hnames : DistinctNames (betaConjecture.members.flatMap Term.vars) := by decide
  have hlength : (betaConjecture.matchings betaGoal .empty true false).toList.length = 2 := by
    decide +kernel
  exact ⟨hnames, hlength,
    matchings_ofConjecture_correspond betaConjecture betaGoal true false hnames⟩

end HolSearch
