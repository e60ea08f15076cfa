import HolSearch.Data.Choices
import HolSearch.Data.Stack
import HolSearch.Matching.Permutation
import HolSearch.Matching.Term

/-!
# Matching of sequents

Sequents are matched by matching their conclusions and then pairing their premises: each premise of
the side with fewer premises (of the pattern, if both have as many) is paired with a different
premise of the other side.  A pairing is extended one premise at a time, and is given up as soon as
two paired premises do not match.

There may be many pairings, and most searches need only the first that is good enough.  A
`MatchSearch` stands between two matches: it keeps the last pairing and the substitutions on the way
to it, and `MatchSearch.next` goes on from there to the next match.  `Sequent.matchings` offers the
substitutions that it finds as `Choices`.
-/

namespace HolSearch

/-- A search for the matches of a pattern with a target, as it stands between two matches. -/
structure MatchSearch (κ μ ν : Type) where
  pattern : Sequent (Term μ)
  target : Sequent (Term ν)
  /-- whether positions are premises of the pattern and values are premises of the target, or the
  other way round -/
  forward : Bool
  /-- the premises paired so far -/
  assigned : Permutation
  /-- the substitution after the conclusions and after each of the pairs, the last first -/
  snapshots : Stack (Subst κ ν)
  /-- the least value to try for the next position, unless there is nothing left to try -/
  resume : Option Nat

namespace MatchSearch

variable {κ μ ν : Type}

/-- The outcome of one round of a search. -/
inductive Round (κ μ ν : Type) where
  /-- a match, and the search for those after it -/
  | found (s : Subst κ ν) (rest : MatchSearch κ μ ν)
  /-- another round is to be made, in which the next position gets a value from `least` on -/
  | onward (rest : MatchSearch κ μ ν) (least : Nat)
  /-- there are no more matches -/
  | exhausted (rest : MatchSearch κ μ ν)

/-- The premise of the pattern and the premise of the target that a position and its value are. -/
def pair? (m : MatchSearch κ μ ν) (position value : Nat) : Option (Term μ × Term ν) :=
  let (p, t) := if m.forward then (position, value) else (value, position)
  match m.pattern.premises[p]?, m.target.premises[t]? with
  | some premise, some premise' => some (premise, premise')
  | _, _ => none

/-- A search without assigned premises, which goes on as `resume` says. -/
def ofConclusions (pat : Sequent (Term μ)) (tgt : Sequent (Term ν)) (s : Subst κ ν)
    (resume : Option Nat) : MatchSearch κ μ ν :=
  let np := pat.premises.length
  let nt := tgt.premises.length
  { pattern := pat
    target := tgt
    forward := np ≤ nt
    assigned := .start (min np nt) (max np nt)
    snapshots := Stack.empty.push s
    resume }

variable [DecidableEq κ] [Marking μ] [PatternKey μ κ] [Marking ν] [DecidableEq ν]

/-- Prepare the search for the extensions of `s` that make the pattern match the target.  With
`extras` the target may have premises that are paired with none of the pattern, and with `missing`
the pattern may have premises that are paired with none of the target. -/
def start (pat : Sequent (Term μ)) (tgt : Sequent (Term ν)) (s : Subst κ ν)
    (extras missing : Bool) : MatchSearch κ μ ν :=
  let np := pat.premises.length
  let nt := tgt.premises.length
  if (extras || nt ≤ np) && (missing || np ≤ nt) then
    match matchTerm pat.conclusion tgt.conclusion s with
    | .ok s' => ofConclusions pat tgt s' (some 0)
    | .error s' => ofConclusions pat tgt s' none
  else ofConclusions pat tgt s none

/-- The substitution extended so that the premises match that a position and its value are. -/
def extend? (m : MatchSearch κ μ ν) (position value : Nat) (s : Subst κ ν) :
    Option (Subst κ ν) :=
  match m.pair? position value with
  | none => none
  | some (p, t) => (matchTerm p t s).toOption

/-- One round of the search.  Once all positions have values, the snapshot is a match, and the last
position is to get another value.  Before that the next position gets a value, if there is one from
`least` on; if there is none, the position before it is to get another value. -/
def round (m : MatchSearch κ μ ν) (least : Nat) : Round κ μ ν :=
  if m.assigned.isComplete then
    match m.snapshots.get? 0 with
    | none => .exhausted m
    | some s =>
        match m.assigned.pop with
        | none => .found s m
        | some (v, shorter) =>
            .found s
              { m with assigned := shorter, snapshots := m.snapshots.drop, resume := some (v + 1) }
  else
    match m.assigned.pushFrom least with
    | none =>
        match m.assigned.pop with
        | none => .exhausted m
        | some (v, shorter) =>
            .onward { m with assigned := shorter, snapshots := m.snapshots.drop } (v + 1)
    | some (v, longer) =>
        match m.snapshots.get? 0 with
        | none => .exhausted { m with assigned := longer }
        | some s =>
            match m.extend? m.assigned.values.length v s with
            | none => .onward m (v + 1)
            | some s' =>
                .onward { m with assigned := longer, snapshots := m.snapshots.push s' } 0

/-- All that a round can come to. -/
inductive Makes (m : MatchSearch κ μ ν) (least : Nat) : Round κ μ ν → Prop where
  | noMatch {m' : MatchSearch κ μ ν} (hempty : m.snapshots.get? 0 = none)
      (hresume : m'.resume = m.resume) : Makes m least (.exhausted m')
  | lastMatch {s : Subst κ ν} (hcomplete : m.assigned.isComplete = true)
      (hs : m.snapshots.get? 0 = some s) (hpop : m.assigned.pop = none) :
      Makes m least (.found s m)
  | anotherMatch {s : Subst κ ν} {v : Nat} {shorter : Permutation}
      (hcomplete : m.assigned.isComplete = true) (hs : m.snapshots.get? 0 = some s)
      (hpop : m.assigned.pop = some (v, shorter)) :
      Makes m least (.found s
        { m with assigned := shorter, snapshots := m.snapshots.drop, resume := some (v + 1) })
  | stop (hcomplete : m.assigned.isComplete = false) (hpush : m.assigned.pushFrom least = none)
      (hpop : m.assigned.pop = none) : Makes m least (.exhausted m)
  | back {v : Nat} {shorter : Permutation} (hcomplete : m.assigned.isComplete = false)
      (hpush : m.assigned.pushFrom least = none) (hpop : m.assigned.pop = some (v, shorter)) :
      Makes m least
        (.onward { m with assigned := shorter, snapshots := m.snapshots.drop } (v + 1))
  | skip {s : Subst κ ν} {v : Nat} {longer : Permutation}
      (hcomplete : m.assigned.isComplete = false)
      (hpush : m.assigned.pushFrom least = some (v, longer)) (hs : m.snapshots.get? 0 = some s)
      (hextend : m.extend? m.assigned.values.length v s = none) :
      Makes m least (.onward m (v + 1))
  | forth {s s' : Subst κ ν} {v : Nat} {longer : Permutation}
      (hcomplete : m.assigned.isComplete = false)
      (hpush : m.assigned.pushFrom least = some (v, longer)) (hs : m.snapshots.get? 0 = some s)
      (hextend : m.extend? m.assigned.values.length v s = some s') :
      Makes m least
        (.onward { m with assigned := longer, snapshots := m.snapshots.push s' } 0)

theorem makes_round (m : MatchSearch κ μ ν) (least : Nat) : m.Makes least (m.round least) := by
  unfold round
  split
  · rename_i hcomplete
    split
    · rename_i hempty
      exact .noMatch hempty rfl
    · rename_i s hs
      split
      · rename_i hpop
        exact .lastMatch hcomplete hs hpop
      · rename_i v shorter hpop
        exact .anotherMatch hcomplete hs hpop
  · rename_i hcomplete
    rw [Bool.not_eq_true] at hcomplete
    split
    · rename_i hpush
      split
      · rename_i hpop
        exact .stop hcomplete hpush hpop
      · rename_i v shorter hpop
        exact .back hcomplete hpush hpop
    · rename_i v longer hpush
      split
      · rename_i hempty
        exact .noMatch hempty rfl
      · rename_i s hs
        split
        · rename_i hextend
          exact .skip hcomplete hpush hs hextend
        · rename_i s' hextend
          exact .forth hcomplete hpush hs hextend

/-! ## Rounds come to an end -/

theorem work_lt_of_onward {m rest : MatchSearch κ μ ν} {n least : Nat}
    (h : m.round n = .onward rest least) : rest.assigned.work least < m.assigned.work n := by
  have hmakes := m.makes_round n
  rw [h] at hmakes
  cases hmakes with
  | back hcomplete hpush hpop => exact Permutation.work_pop_lt hpop
  | skip hcomplete hpush hs hextend =>
      obtain ⟨hv, hn, -⟩ := Permutation.pushFrom_eq_some hpush
      exact Permutation.work_succ_lt hv hn
  | forth hcomplete hpush hs hextend =>
      obtain ⟨hv, hn, rfl⟩ := Permutation.pushFrom_eq_some hpush
      exact Permutation.work_push_lt hv hn

/-- Make rounds until a match is found or there are none. -/
def advance (m : MatchSearch κ μ ν) (least : Nat) : Option (Subst κ ν) × MatchSearch κ μ ν :=
  match _h : m.round least with
  | .found s rest => (some s, rest)
  | .onward rest least' => rest.advance least'
  | .exhausted rest => (none, rest)
termination_by m.assigned.work least
decreasing_by exact work_lt_of_onward _h

/-- The next match, and the search for those after it. -/
def next (m : MatchSearch κ μ ν) : Option (Subst κ ν) × MatchSearch κ μ ν :=
  match m.resume with
  | none => (none, m)
  | some least => { m with resume := none }.advance least

/-! ## Matches come to an end -/

/-- A bound on what a search has to do, which falls from match to match. -/
def work (m : MatchSearch κ μ ν) : Nat :=
  match m.resume with
  | none => 0
  | some least => m.assigned.work least

theorem work_lt_of_advance {m rest : MatchSearch κ μ ν} {n : Nat} {s : Subst κ ν}
    (hresume : m.resume = none) (h : m.advance n = (some s, rest)) :
    rest.work < m.assigned.work n := by
  fun_induction advance m n with
  | case1 m n s' rest' hround =>
      cases h
      have hmakes := m.makes_round n
      rw [hround] at hmakes
      cases hmakes with
      | lastMatch hcomplete hs hpop =>
          rw [work, hresume]
          exact Permutation.work_pos
      | anotherMatch hcomplete hs hpop => exact Permutation.work_pop_lt hpop
  | case2 m n rest' least hround ih =>
      have hmakes := m.makes_round n
      have hlt := work_lt_of_onward hround
      rw [hround] at hmakes
      refine Nat.lt_trans (ih ?_ h) hlt
      cases hmakes with
      | back => exact hresume
      | skip => exact hresume
      | forth => exact hresume
  | case3 m n rest' hround => cases h

theorem work_lt_of_next {m rest : MatchSearch κ μ ν} {s : Subst κ ν}
    (h : m.next = (some s, rest)) : rest.work < m.work := by
  unfold next at h
  split at h
  · cases h
  · rename_i least hresume
    have hwork : m.work = m.assigned.work least := by simp only [work, hresume]
    rw [hwork]
    exact work_lt_of_advance (m := { m with resume := none }) rfl h

/-- The substitutions that the search finds, in order. -/
def choices (m : MatchSearch κ μ ν) : Choices (Subst κ ν) :=
  match _h : m.next with
  | (none, _) => .nil
  | (some s, rest) => .cons s fun _ => rest.choices
termination_by m.work
decreasing_by exact work_lt_of_next _h

end MatchSearch

namespace Sequent

variable {κ μ ν : Type} [DecidableEq κ] [Marking μ] [PatternKey μ κ] [Marking ν] [DecidableEq ν]

/-- The extensions of `s` that make the pattern match the target, in the order in which a search
finds them. -/
def matchings (pat : Sequent (Term μ)) (tgt : Sequent (Term ν)) (s : Subst κ ν)
    (extras missing : Bool) : Choices (Subst κ ν) :=
  (MatchSearch.start pat tgt s extras missing).choices

end Sequent

end HolSearch
