import HolSearch.Matching.Premises
import HolSearch.Proofs.Matching.Permutation
import Mathlib.Data.List.Forall2

/-!
# A search for matches finds all of them

A search for the matches of two sequents is a loop that can be left at every match and entered again
later.  It keeps an assignment of premises to premises, a snapshot of the substitution for each
assigned premise, and the value from which it goes on.  This file says what the loop computes: the
injective assignments under which all assigned pairs match, in lexicographic order, each with the
substitution that it leads to.

The other side of the statement is the recursive enumeration `completions`, which gives one position
after the other each of its candidates.  Two facts about it are proved by induction on the number of
positions: what it lists (`mem_completions`) and in which order (`pairwise_completions`).

The loop is compared with it through `MatchSearch.ahead`, the list of what a search is still going
to find: the completions of the present assignment and then, position by position backwards, those
that arise when the position gets a larger value.  A round that goes on does not change this list,
and a round that finds a match takes its first element away.  So the calls of `next` yield its
elements one after the other and then nothing for ever.
-/

namespace HolSearch

/-! ## All completions of an assignment -/

section Completions

open Permutation

variable {σ : Type} (extend : Nat → Nat → σ → Option σ) (max : Nat)

/-- The ways to give `n` more positions values below `max` that differ from each other and from
those taken, with the state that each leads to.  The first of these positions gets a value from
`least` on. -/
def completions : (n : Nat) → (taken : List Nat) → σ → (least : Nat) → List (List Nat × σ)
  | 0, taken, s, _ => [(taken, s)]
  | n + 1, taken, s, least =>
      (candidates max taken least).flatMap fun v =>
        match extend taken.length v s with
        | none => []
        | some s' => completions n (taken ++ [v]) s' 0

/-- The state after the positions from `i` on have been given the values one after the other. -/
def extendAll : (i : Nat) → (values : List Nat) → σ → Option σ
  | _, [], s => some s
  | i, v :: vs, s => (extend i v s).bind (extendAll (i + 1) vs)

variable {extend max}

theorem mem_completions {n : Nat} {taken a : List Nat} {s s' : σ} :
    (a, s') ∈ completions extend max n taken s 0 ↔
      ∃ vs, a = taken ++ vs ∧ vs.length = n ∧ vs.Nodup ∧ (∀ v ∈ vs, v < max ∧ v ∉ taken) ∧
        extendAll extend taken.length vs s = some s' := by
  induction n generalizing taken s with
  | zero =>
      rw [completions, List.mem_singleton, Prod.mk.injEq]
      constructor
      · rintro ⟨rfl, rfl⟩
        exact ⟨[], by simp, rfl, List.nodup_nil, nofun, rfl⟩
      · rintro ⟨vs, rfl, hlength, -, -, hall⟩
        rw [List.length_eq_zero_iff] at hlength
        subst hlength
        cases hall
        simp
  | succ n ih =>
      rw [completions, List.mem_flatMap]
      constructor
      · rintro ⟨v, hv, hmem⟩
        obtain ⟨hlt, hnew, -⟩ := mem_candidates.mp hv
        cases hextend : extend taken.length v s with
        | none =>
            rw [hextend] at hmem
            cases hmem
        | some s₁ =>
            rw [hextend] at hmem
            obtain ⟨vs, ha, hlength, hnodup, hvs, hall⟩ := ih.mp hmem
            refine ⟨v :: vs, by simp [ha], by simp [hlength], ?_, ?_, ?_⟩
            · rw [List.nodup_cons]
              refine ⟨fun hmem => (hvs v hmem).2 (by simp), hnodup⟩
            · rw [List.forall_mem_cons]
              refine ⟨⟨hlt, hnew⟩, fun w hw => ⟨(hvs w hw).1, fun hmem => (hvs w hw).2 ?_⟩⟩
              exact List.mem_append_left _ hmem
            · rw [List.length_append, List.length_singleton] at hall
              rw [extendAll, hextend, Option.bind_some, hall]
      · rintro ⟨vs, rfl, hlength, hnodup, hvs, hall⟩
        cases vs with
        | nil => cases hlength
        | cons v vs =>
            rw [List.nodup_cons] at hnodup
            rw [List.forall_mem_cons] at hvs
            rw [extendAll, Option.bind_eq_some_iff] at hall
            obtain ⟨s₁, hextend, hall⟩ := hall
            refine ⟨v, mem_candidates.mpr ⟨hvs.1.1, hvs.1.2, Nat.zero_le v⟩, ?_⟩
            rw [hextend]
            refine ih.mpr ⟨vs, by simp, Nat.succ.inj hlength, hnodup.2, ?_, ?_⟩
            · intro w hw
              refine ⟨(hvs.2 w hw).1, fun hmem => ?_⟩
              rcases List.mem_append.mp hmem with hold | hnew
              · exact (hvs.2 w hw).2 hold
              · exact hnodup.1 (List.mem_singleton.mp hnew ▸ hw)
            · rw [List.length_append, List.length_singleton, hall]

/-- The completions are listed in the lexicographic order of the assignments, none of them twice. -/
theorem pairwise_completions (n : Nat) (taken : List Nat) (s : σ) :
    (completions extend max n taken s 0).Pairwise fun x y => x.1 < y.1 := by
  induction n generalizing taken s with
  | zero => exact List.pairwise_singleton _ _
  | succ n ih =>
      rw [completions, List.pairwise_flatMap]
      refine ⟨fun v _ => ?_, ?_⟩
      · split
        · exact List.Pairwise.nil
        · exact ih _ _
      · refine (pairwise_candidates max taken 0).imp fun {v w} hlt => ?_
        rintro ⟨a, sa⟩ ha ⟨b, sb⟩ hb
        -- the two assignments agree on what was taken and differ at the next position
        cases hv : extend taken.length v s with
        | none =>
            rw [hv] at ha
            cases ha
        | some s₁ =>
            cases hw : extend taken.length w s with
            | none =>
                rw [hw] at hb
                cases hb
            | some s₂ =>
                rw [hv] at ha
                rw [hw] at hb
                obtain ⟨vs, rfl, -⟩ := mem_completions.mp ha
                obtain ⟨ws, rfl, -⟩ := mem_completions.mp hb
                rw [List.append_assoc, List.append_assoc]
                exact List.append_left_lt (List.cons_lt_cons_iff.mpr (Or.inl hlt))

/-- The candidate that comes first, and those above it. -/
theorem completions_succ_eq_append {n v least : Nat} {taken : List Nat} {s : σ}
    (h : candidates max taken least = v :: candidates max taken (v + 1)) :
    completions extend max (n + 1) taken s least =
      (match extend taken.length v s with
        | none => []
        | some s' => completions extend max n (taken ++ [v]) s' 0) ++
      completions extend max (n + 1) taken s (v + 1) := by
  rw [completions, completions, h, List.flatMap_cons]

theorem completions_succ_eq_nil {n least : Nat} {taken : List Nat} {s : σ}
    (h : candidates max taken least = []) :
    completions extend max (n + 1) taken s least = [] := by
  rw [completions, h, List.flatMap_nil]

/-- Searches whose steps correspond complete an assignment in the same ways and the same order. -/
theorem forall₂_completions {τ : Type} {extend' : Nat → Nat → τ → Option τ} {R : σ → τ → Prop}
    (hextend : ∀ i v s t, R s t → Option.Rel R (extend i v s) (extend' i v t))
    {n : Nat} {taken : List Nat} {s : σ} {t : τ} {least : Nat} (h : R s t) :
    List.Forall₂ (fun x y => R x.2 y.2) (completions extend max n taken s least)
      (completions extend' max n taken t least) := by
  induction n generalizing taken s t least with
  | zero => exact .cons h .nil
  | succ n ih =>
      rw [completions, completions]
      refine List.rel_flatMap (List.forall₂_eq_eq_eq ▸ rfl) ?_
      rintro v _ rfl
      have hrel := hextend taken.length v s t h
      dsimp only
      generalize extend taken.length v s = x, extend' taken.length v t = y at hrel ⊢
      cases hrel with
      | some hrel => exact ih hrel
      | none => exact .nil

end Completions

/-! ## What a search is going to find -/

namespace MatchSearch

open Permutation

variable {κ μ ν : Type}

/-- A search has a valid assignment and one snapshot more than there are assigned positions. -/
structure Valid (m : MatchSearch κ μ ν) : Prop where
  assigned : m.assigned.Valid
  snapshots : m.snapshots.size = m.assigned.values.length + 1

variable {m rest : MatchSearch κ μ ν} {s : Subst κ ν} {v n least : Nat} {shorter : Permutation}

namespace Valid

theorem exists_snapshot (hm : m.Valid) : ∃ s, m.snapshots.get? 0 = some s := by
  have hsize := hm.snapshots
  unfold Stack.size at hsize
  exact ⟨_, List.getElem?_eq_getElem (by omega)⟩

theorem pop (hm : m.Valid) (hpop : m.assigned.pop = some (v, shorter)) (resume : Option Nat) :
    { m with assigned := shorter, snapshots := m.snapshots.drop, resume := resume }.Valid := by
  refine ⟨hm.assigned.pop hpop, ?_⟩
  have hsize := hm.snapshots
  rw [(pop_eq_some hpop).1, List.length_append, List.length_singleton] at hsize
  simp only [Stack.size, Stack.drop, List.length_tail] at hsize ⊢
  omega

theorem push (hm : m.Valid) (hlt : m.assigned.values.length < m.assigned.len)
    (hv : m.assigned.used[v]? = some false) (s' : Subst κ ν) :
    { m with assigned := m.assigned.push v, snapshots := m.snapshots.push s' }.Valid := by
  refine ⟨hm.assigned.push hv hlt, ?_⟩
  simp [hm.snapshots, Permutation.push]

theorem exists_open (hm : m.Valid) (hcomplete : m.assigned.isComplete = false) :
    ∃ k, m.assigned.len - m.assigned.values.length = k + 1 := by
  have hne : m.assigned.values.length ≠ m.assigned.len := by simpa [isComplete] using hcomplete
  have hle := hm.assigned.length_le
  exact ⟨m.assigned.len - m.assigned.values.length - 1, by omega⟩

end Valid

variable [DecidableEq κ] [Marking μ] [PatternKey μ κ] [Marking ν] [DecidableEq ν]

/-- The completions of an assignment, given with the last value first, and those that arise when its
positions get larger values, the last position first. -/
def aheadOf (extend : Nat → Nat → Subst κ ν → Option (Subst κ ν)) (max len : Nat) :
    (snapshots : List (Subst κ ν)) → (values : List Nat) → (least : Nat) →
      List (List Nat × Subst κ ν)
  | [], _, _ => []
  | s :: _, [], least => completions extend max len [] s least
  | s :: snapshots, v :: values, least =>
      completions extend max (len - (values.length + 1)) (values.reverse ++ [v]) s least ++
        aheadOf extend max len snapshots values (v + 1)

/-- What a search finds if its next round starts at `least`, with the assignments by which it finds
them. -/
def ahead (m : MatchSearch κ μ ν) (least : Nat) : List (List Nat × Subst κ ν) :=
  aheadOf m.extend? m.assigned.used.length m.assigned.len m.snapshots.items
    m.assigned.values.reverse least

/-- What a search finds after it has gone back. -/
def behind (m : MatchSearch κ μ ν) : List (List Nat × Subst κ ν) :=
  match m.assigned.pop with
  | none => []
  | some (v, shorter) =>
      { m with assigned := shorter, snapshots := m.snapshots.drop }.ahead (v + 1)

/-- What the calls of `next` are going to find. -/
def remaining (m : MatchSearch κ μ ν) : List (List Nat × Subst κ ν) :=
  match m.resume with
  | none => []
  | some least => m.ahead least

theorem remaining_of_none (h : m.resume = none) : m.remaining = [] := by
  simp only [remaining, h]

theorem remaining_of_some (h : m.resume = some least) : m.remaining = m.ahead least := by
  simp only [remaining, h]

theorem ahead_eq (hs : m.snapshots.get? 0 = some s) :
    m.ahead least =
      completions m.extend? m.assigned.used.length (m.assigned.len - m.assigned.values.length)
        m.assigned.values s least ++ m.behind := by
  have hitems := Stack.items_eq_of_get?_zero hs
  unfold behind
  split
  · rename_i hpop
    rw [ahead, hitems, pop_eq_none_iff.mp hpop, List.reverse_nil, aheadOf, List.append_nil]
    rfl
  · rename_i v shorter hpop
    obtain ⟨hvalues, hused, hlen⟩ := pop_eq_some hpop
    have hlength : shorter.used.length = m.assigned.used.length := by rw [hused, List.length_set]
    have hshorter : { m with assigned := shorter, snapshots := m.snapshots.drop }.ahead (v + 1) =
        aheadOf m.extend? m.assigned.used.length m.assigned.len m.snapshots.drop.items
          shorter.values.reverse (v + 1) := by
      rw [← hlength, ← hlen]
      rfl
    rw [hshorter, ahead, hitems, hvalues, List.reverse_concat, aheadOf, List.reverse_reverse,
      List.length_reverse, List.length_append, List.length_singleton]

/-! ## Rounds -/

/-- A round that goes on changes nothing about what is going to be found. -/
theorem ahead_onward (hm : m.Valid) (h : m.round least = .onward rest n) :
    rest.ahead n = m.ahead least ∧ rest.Valid ∧ rest.resume = m.resume := by
  have hmakes := m.makes_round least
  rw [h] at hmakes
  cases hmakes with
  | back hcomplete hpush hpop =>
      obtain ⟨s, hs⟩ := hm.exists_snapshot
      obtain ⟨k, hk⟩ := hm.exists_open hcomplete
      refine ⟨?_, hm.pop hpop _, rfl⟩
      rw [ahead_eq hs, hk, completions_succ_eq_nil
        (candidates_eq_nil_of_pushFrom hm.assigned hcomplete hpush), List.nil_append, behind, hpop]
  | skip hcomplete hpush hs hextend =>
      obtain ⟨k, hk⟩ := hm.exists_open hcomplete
      refine ⟨?_, hm, rfl⟩
      rw [ahead_eq hs, ahead_eq hs, hk, completions_succ_eq_append
        (candidates_eq_cons_of_pushFrom hm.assigned hpush), hextend, List.nil_append]
  | @forth s s' v _ hcomplete hpush hs hextend =>
      obtain ⟨k, hk⟩ := hm.exists_open hcomplete
      obtain ⟨hv, -, rfl⟩ := pushFrom_eq_some hpush
      refine ⟨?_, hm.push (by omega) hv s', rfl⟩
      -- going back from the new position leads to the larger values of the present one
      have hbehind : behind { m with
          assigned := m.assigned.push v, snapshots := m.snapshots.push s' } = m.ahead (v + 1) := by
        rw [behind, pop_push hv]
        rfl
      have hlen : m.assigned.len - (m.assigned.push v).values.length = k := by
        simp only [Permutation.push, List.length_append, List.length_singleton]
        omega
      have hmax : (m.assigned.push v).used.length = m.assigned.used.length := List.length_set
      calc ahead { m with assigned := m.assigned.push v, snapshots := m.snapshots.push s' } 0
          = completions m.extend? (m.assigned.push v).used.length
              (m.assigned.len - (m.assigned.push v).values.length)
              (m.assigned.values ++ [v]) s' 0 ++ m.ahead (v + 1) := by
            rw [← hbehind]
            exact ahead_eq rfl
        _ = m.ahead least := by
            rw [hlen, hmax, ahead_eq hs, ahead_eq hs, hk, completions_succ_eq_append
              (candidates_eq_cons_of_pushFrom hm.assigned hpush), hextend, List.append_assoc]

/-- A round that finds a match takes the first of what is going to be found. -/
theorem ahead_found (hm : m.Valid) (hresume : m.resume = none)
    (h : m.round least = .found s rest) :
    ∃ a, m.ahead least = (a, s) :: rest.remaining ∧ rest.Valid := by
  have hmakes := m.makes_round least
  rw [h] at hmakes
  refine ⟨m.assigned.values, ?_⟩
  have hahead : m.assigned.isComplete = true → m.snapshots.get? 0 = some s →
      m.ahead least = (m.assigned.values, s) :: m.behind := by
    intro hcomplete hs
    rw [ahead_eq hs, isComplete_iff.mp hcomplete, Nat.sub_self, completions, List.singleton_append]
  cases hmakes with
  | lastMatch hcomplete hs hpop =>
      rw [hahead hcomplete hs, behind, hpop, remaining_of_none hresume]
      exact ⟨rfl, hm⟩
  | anotherMatch hcomplete hs hpop =>
      rw [hahead hcomplete hs, behind, hpop]
      exact ⟨rfl, hm.pop hpop _⟩

/-- A round after which there are no more rounds leaves nothing to be found. -/
theorem ahead_exhausted (hm : m.Valid) (h : m.round least = .exhausted rest) :
    m.ahead least = [] ∧ rest = m := by
  have hmakes := m.makes_round least
  rw [h] at hmakes
  obtain ⟨s, hs⟩ := hm.exists_snapshot
  cases hmakes with
  | noMatch hempty hresume =>
      rw [hempty] at hs
      cases hs
  | stop hcomplete hpush hpop =>
      obtain ⟨k, hk⟩ := hm.exists_open hcomplete
      refine ⟨?_, rfl⟩
      rw [ahead_eq hs, hk, completions_succ_eq_nil
        (candidates_eq_nil_of_pushFrom hm.assigned hcomplete hpush), List.nil_append, behind, hpop]

/-! ## Calls of `next` -/

theorem advance_spec (hm : m.Valid) (hresume : m.resume = none) :
    (m.advance least).1 = (m.ahead least).head?.map Prod.snd ∧
      (m.advance least).2.remaining = (m.ahead least).tail ∧ (m.advance least).2.Valid := by
  fun_induction advance m least with
  | case1 m least s rest hround =>
      obtain ⟨a, hahead, hrest⟩ := ahead_found hm hresume hround
      rw [hahead]
      exact ⟨rfl, rfl, hrest⟩
  | case2 m least rest least' hround ih =>
      obtain ⟨hahead, hrest, hresume'⟩ := ahead_onward hm hround
      rw [← hahead]
      exact ih hrest (hresume'.trans hresume)
  | case3 m least rest hround =>
      obtain ⟨hahead, rfl⟩ := ahead_exhausted hm hround
      rw [hahead, remaining_of_none hresume]
      exact ⟨rfl, rfl, hm⟩

/-- A call of `next` takes the first of what remains. -/
theorem next_spec (hm : m.Valid) :
    m.next.1 = m.remaining.head?.map Prod.snd ∧ m.next.2.remaining = m.remaining.tail ∧
      m.next.2.Valid := by
  cases hresume : m.resume with
  | none =>
      have hnext : m.next = (none, m) := by simp only [next, hresume]
      rw [hnext, remaining_of_none hresume]
      exact ⟨rfl, rfl, hm⟩
  | some least =>
      have hnext : m.next = { m with resume := none }.advance least := by
        simp only [next, hresume]
      rw [hnext, remaining_of_some hresume]
      exact advance_spec (m := { m with resume := none }) ⟨hm.assigned, hm.snapshots⟩ rfl

/-- The search after `n` calls of `next`. -/
def after (m : MatchSearch κ μ ν) : Nat → MatchSearch κ μ ν
  | 0 => m
  | n + 1 => (m.after n).next.2

theorem remaining_after (hm : m.Valid) (n : Nat) :
    (m.after n).remaining = m.remaining.drop n ∧ (m.after n).Valid := by
  induction n with
  | zero => exact ⟨rfl, hm⟩
  | succ n ih =>
      obtain ⟨-, htail, hvalid⟩ := next_spec ih.2
      refine ⟨?_, hvalid⟩
      rw [after, htail, ih.1, List.tail_drop]

theorem next_after (hm : m.Valid) (n : Nat) :
    (m.after n).next.1 = (m.remaining.map Prod.snd)[n]? := by
  obtain ⟨hremaining, hvalid⟩ := remaining_after hm n
  rw [(next_spec hvalid).1, hremaining, List.head?_drop, List.getElem?_map]

theorem toList_choices (hm : m.Valid) : m.choices.toList = m.remaining.map Prod.snd := by
  fun_induction choices m with
  | case1 m rest hnext =>
      have hhead := (next_spec hm).1
      rw [hnext] at hhead
      cases hremaining : m.remaining with
      | nil => rfl
      | cons x xs =>
          rw [hremaining] at hhead
          cases hhead
  | case2 m s rest hnext ih =>
      obtain ⟨hhead, htail, hvalid⟩ := next_spec hm
      rw [hnext] at hhead htail hvalid
      rw [Choices.toList_cons, ih hvalid, htail]
      cases hremaining : m.remaining with
      | nil =>
          rw [hremaining] at hhead
          cases hhead
      | cons x xs =>
          rw [hremaining] at hhead
          cases hhead
          rfl

end MatchSearch

/-! ## Pairs of premises -/

namespace Sequent

variable {μ ν : Type}

/-- The assignment gives every premise of the shorter side, which is the pattern if both sides are
equally long, a premise of the other side, and none twice. -/
structure Assigns (pat : Sequent (Term μ)) (tgt : Sequent (Term ν)) (a : List Nat) : Prop where
  length : a.length = min pat.premises.length tgt.premises.length
  nodup : a.Nodup
  lt : ∀ v ∈ a, v < max pat.premises.length tgt.premises.length

/-- The premises of the pattern and of the target that an assignment pairs, in the order of the
positions. -/
def paired (pat : Sequent (Term μ)) (tgt : Sequent (Term ν)) (a : List Nat) :
    List (Term μ × Term ν) :=
  if pat.premises.length ≤ tgt.premises.length then
    List.zipWith (fun p t => (p, t)) pat.premises (a.filterMap fun v => tgt.premises[v]?)
  else
    List.zipWith (fun t p => (p, t)) tgt.premises (a.filterMap fun v => pat.premises[v]?)

end Sequent

section Pairs

variable {κ μ ν : Type} [DecidableEq κ] [Marking μ] [PatternKey μ κ] [Marking ν] [DecidableEq ν]

/-- Match pairs one after the other. -/
def matchPairs : List (Term μ × Term ν) → Subst κ ν → Option (Subst κ ν)
  | [], s => some s
  | (p, t) :: pairs, s => (matchTerm p t s).toOption.bind (matchPairs pairs)

theorem matchPairs_cons_eq_some_iff {p : Term μ} {t : Term ν} {pairs : List (Term μ × Term ν)}
    {s s' : Subst κ ν} :
    matchPairs ((p, t) :: pairs) s = some s' ↔
      ∃ s₁, matchTerm p t s = .ok s₁ ∧ matchPairs pairs s₁ = some s' := by
  rw [matchPairs]
  cases matchTerm p t s with
  | error s₁ => simp [Except.toOption]
  | ok s₁ => simp [Except.toOption]

/-- Extending by values one after the other is matching the pairs that they make with the
positions. -/
theorem extendAll_eq_matchPairs {α β : Type} {positions : List α} {values : List β}
    {pair : α → β → Term μ × Term ν} {extend : Nat → Nat → Subst κ ν → Option (Subst κ ν)}
    (hextend : ∀ i v x y s, positions[i]? = some x → values[v]? = some y →
      extend i v s = (matchTerm (pair x y).1 (pair x y).2 s).toOption)
    {i : Nat} {vs : List Nat} (hvs : ∀ v ∈ vs, v < values.length)
    (hlength : i + vs.length ≤ positions.length) (s : Subst κ ν) :
    extendAll extend i vs s =
      matchPairs (List.zipWith pair (positions.drop i) (vs.filterMap fun v => values[v]?)) s := by
  induction vs generalizing i s with
  | nil => rw [List.filterMap_nil, List.zipWith_nil_right, extendAll, matchPairs]
  | cons v vs ih =>
      rw [List.forall_mem_cons] at hvs
      rw [List.length_cons] at hlength
      have hi : i < positions.length := by omega
      rw [extendAll, hextend i v _ _ s (List.getElem?_eq_getElem hi)
        (List.getElem?_eq_getElem hvs.1), List.drop_eq_getElem_cons hi, List.filterMap_cons_some
        (List.getElem?_eq_getElem hvs.1), List.zipWith_cons_cons, matchPairs]
      congr 1
      funext s'
      exact ih hvs.2 (by omega) s'

end Pairs

/-! ## The search from its start -/

namespace MatchSearch

variable {κ μ ν : Type}

theorem valid_ofConclusions (pat : Sequent (Term μ)) (tgt : Sequent (Term ν)) (s : Subst κ ν)
    (resume : Option Nat) : (ofConclusions pat tgt s resume).Valid :=
  ⟨Permutation.valid_start _ _, rfl⟩

variable [DecidableEq κ] [Marking μ] [PatternKey μ κ] [Marking ν] [DecidableEq ν]

theorem valid_start (pat : Sequent (Term μ)) (tgt : Sequent (Term ν)) (s : Subst κ ν)
    (extras missing : Bool) : (start pat tgt s extras missing).Valid := by
  unfold start
  dsimp only
  split
  · split
    · exact valid_ofConclusions _ _ _ _
    · exact valid_ofConclusions _ _ _ _
  · exact valid_ofConclusions _ _ _ _

variable {pat : Sequent (Term μ)} {tgt : Sequent (Term ν)} {s s' s₀ : Subst κ ν}
variable {extras missing : Bool} {a : List Nat}

theorem extendAll_ofConclusions (ha : pat.Assigns tgt a) (s : Subst κ ν) :
    extendAll (ofConclusions pat tgt s₀ (some 0)).extend? 0 a s =
      matchPairs (pat.paired tgt a) s := by
  have hlength := ha.length
  have hlt := ha.lt
  unfold Sequent.paired
  split
  · rename_i hle
    refine extendAll_eq_matchPairs (fun i v x y s hx hy => ?_) (fun v hv => ?_) (by omega) s
    · simp [extend?, pair?, ofConclusions, hle, hx, hy]
    · have := hlt v hv
      omega
  · rename_i hle
    refine extendAll_eq_matchPairs (fun i v x y s hx hy => ?_) (fun v hv => ?_) (by omega) s
    · simp [extend?, pair?, ofConclusions, hle, hx, hy]
    · have := hlt v hv
      omega

theorem remaining_ofConclusions :
    (ofConclusions pat tgt s₀ (some 0)).remaining =
      completions (ofConclusions pat tgt s₀ (some 0)).extend?
        (max pat.premises.length tgt.premises.length)
        (min pat.premises.length tgt.premises.length) [] s₀ 0 := by
  rw [remaining_of_some rfl, ahead_eq rfl]
  simp [ofConclusions, Permutation.start, behind, Permutation.pop]

theorem mem_remaining_ofConclusions :
    (a, s') ∈ (ofConclusions pat tgt s₀ (some 0)).remaining ↔
      pat.Assigns tgt a ∧ matchPairs (pat.paired tgt a) s₀ = some s' := by
  rw [remaining_ofConclusions, mem_completions]
  constructor
  · rintro ⟨vs, ha, hlength, hnodup, hvs, hall⟩
    rw [List.nil_append] at ha
    subst ha
    have ha : pat.Assigns tgt a := ⟨hlength, hnodup, fun v hv => (hvs v hv).1⟩
    exact ⟨ha, (extendAll_ofConclusions ha s₀).symm.trans hall⟩
  · rintro ⟨ha, hpairs⟩
    refine ⟨a, rfl, ha.length, ha.nodup, fun v hv => ⟨ha.lt v hv, List.not_mem_nil⟩, ?_⟩
    exact (extendAll_ofConclusions ha s₀).trans hpairs

variable (pat tgt s extras missing) in
/-- A search is going to find something only if the numbers of premises are as the flags say and the
conclusions match. -/
theorem start_cases :
    (∃ s₀, (extras = true ∨ tgt.premises.length ≤ pat.premises.length) ∧
      (missing = true ∨ pat.premises.length ≤ tgt.premises.length) ∧
      matchTerm pat.conclusion tgt.conclusion s = .ok s₀ ∧
      start pat tgt s extras missing = ofConclusions pat tgt s₀ (some 0)) ∨
    (¬((extras = true ∨ tgt.premises.length ≤ pat.premises.length) ∧
      (missing = true ∨ pat.premises.length ≤ tgt.premises.length) ∧
      ∃ s₀, matchTerm pat.conclusion tgt.conclusion s = .ok s₀) ∧
      (start pat tgt s extras missing).remaining = []) := by
  unfold start
  dsimp only
  split
  · rename_i hcounts
    simp only [Bool.and_eq_true, Bool.or_eq_true, decide_eq_true_eq] at hcounts
    split
    · rename_i s₀ hmatch
      exact Or.inl ⟨s₀, hcounts.1, hcounts.2, hmatch, rfl⟩
    · rename_i s₀ hmatch
      refine Or.inr ⟨fun ⟨_, _, s₁, hok⟩ => ?_, remaining_of_none rfl⟩
      rw [hmatch] at hok
      cases hok
  · rename_i hcounts
    simp only [Bool.and_eq_true, Bool.or_eq_true, decide_eq_true_eq] at hcounts
    exact Or.inr ⟨fun ⟨hextras, hmissing, _⟩ => hcounts ⟨hextras, hmissing⟩, remaining_of_none rfl⟩

theorem mem_remaining_start :
    (a, s') ∈ (start pat tgt s extras missing).remaining ↔
      (extras = true ∨ tgt.premises.length ≤ pat.premises.length) ∧
      (missing = true ∨ pat.premises.length ≤ tgt.premises.length) ∧
      ∃ s₀, matchTerm pat.conclusion tgt.conclusion s = .ok s₀ ∧
        pat.Assigns tgt a ∧ matchPairs (pat.paired tgt a) s₀ = some s' := by
  rcases start_cases pat tgt s extras missing with
    ⟨s₀, hextras, hmissing, hmatch, hstart⟩ | ⟨hnone, hremaining⟩
  · rw [hstart, mem_remaining_ofConclusions]
    constructor
    · exact fun h => ⟨hextras, hmissing, s₀, hmatch, h⟩
    · rintro ⟨-, -, s₁, hmatch', h⟩
      rw [hmatch] at hmatch'
      cases hmatch'
      exact h
  · rw [hremaining]
    constructor
    · exact fun h => absurd h List.not_mem_nil
    · rintro ⟨hextras, hmissing, s₁, hmatch, -⟩
      exact absurd ⟨hextras, hmissing, s₁, hmatch⟩ hnone

theorem pairwise_remaining_start :
    (start pat tgt s extras missing).remaining.Pairwise fun x y => x.1 < y.1 := by
  rcases start_cases pat tgt s extras missing with ⟨s₀, -, -, -, hstart⟩ | ⟨-, hremaining⟩
  · rw [hstart, remaining_ofConclusions]
    exact pairwise_completions _ _ _
  · rw [hremaining]
    exact List.Pairwise.nil

end MatchSearch

/-! ## Matches of sequents -/

namespace Sequent

variable {κ μ ν : Type} [DecidableEq κ] [Marking μ] [PatternKey μ κ] [Marking ν] [DecidableEq ν]

open MatchSearch

theorem toList_matchings (pat : Sequent (Term μ)) (tgt : Sequent (Term ν)) (s : Subst κ ν)
    (extras missing : Bool) :
    (pat.matchings tgt s extras missing).toList =
      (MatchSearch.start pat tgt s extras missing).remaining.map Prod.snd :=
  toList_choices (valid_start pat tgt s extras missing)

theorem mem_matchings {pat : Sequent (Term μ)} {tgt : Sequent (Term ν)} {s s' : Subst κ ν}
    {extras missing : Bool} :
    s' ∈ (pat.matchings tgt s extras missing).toList ↔
      (extras = true ∨ tgt.premises.length ≤ pat.premises.length) ∧
      (missing = true ∨ pat.premises.length ≤ tgt.premises.length) ∧
      ∃ s₀, matchTerm pat.conclusion tgt.conclusion s = .ok s₀ ∧
        ∃ a, pat.Assigns tgt a ∧ matchPairs (pat.paired tgt a) s₀ = some s' := by
  rw [toList_matchings, List.mem_map]
  constructor
  · rintro ⟨⟨a, _⟩, hmem, rfl⟩
    obtain ⟨hextras, hmissing, s₀, hmatch, h⟩ := mem_remaining_start.mp hmem
    exact ⟨hextras, hmissing, s₀, hmatch, a, h⟩
  · rintro ⟨hextras, hmissing, s₀, hmatch, a, h⟩
    exact ⟨(a, s'), mem_remaining_start.mpr ⟨hextras, hmissing, s₀, hmatch, h⟩, rfl⟩

/-- The calls of `next` yield the matches one after the other and then nothing for ever.  Their
assignments are in lexicographic order, none of them occurs twice, and they are those that make all
premises that they pair match, in the order of the positions, after the conclusions. -/
theorem next_enumerates_matches (pat : Sequent (Term μ)) (tgt : Sequent (Term ν)) (s : Subst κ ν)
    (extras missing : Bool) :
    ∃ found : List (List Nat × Subst κ ν),
      (∀ n, ((MatchSearch.start pat tgt s extras missing).after n).next.1 =
        (found.map Prod.snd)[n]?) ∧
      (pat.matchings tgt s extras missing).toList = found.map Prod.snd ∧
      found.Pairwise (fun x y => x.1 < y.1) ∧
      ∀ a s', (a, s') ∈ found ↔
        (extras = true ∨ tgt.premises.length ≤ pat.premises.length) ∧
        (missing = true ∨ pat.premises.length ≤ tgt.premises.length) ∧
        ∃ s₀, matchTerm pat.conclusion tgt.conclusion s = .ok s₀ ∧
          pat.Assigns tgt a ∧ matchPairs (pat.paired tgt a) s₀ = some s' := by
  refine ⟨(MatchSearch.start pat tgt s extras missing).remaining, fun n => ?_, ?_, ?_, ?_⟩
  · exact next_after (valid_start pat tgt s extras missing) n
  · exact toList_matchings pat tgt s extras missing
  · exact pairwise_remaining_start
  · exact fun a s' => mem_remaining_start

end Sequent

end HolSearch
