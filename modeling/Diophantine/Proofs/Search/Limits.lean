import Diophantine.Proofs.Search.Denial

/-!
# Larger limits

How far and how long to search has no part in the order of the points: the points within a bound are
visited in the same order whatever lies behind them. So a search with larger limits begins like one
with smaller limits, and an answer that is found in time stays the answer. What may change is that a
search goes on where it had to give up, or that it finds something in a part of the box that it had
not reached.

- `boxPoints_eq_append`: the points of a wider box begin with those of a narrower one;
- `Search.solve_eq_satisfiable_iff`, `Search.solve_eq_limit_iff`: at which point a search ends;
- `Search.within`, `Reachable.within`: the same search with other limits, which can be reached too;
- `Search.lt_magnitude_of_solve_within`: what is only found in a wider box lies outside the narrow
  one;
- `Search.solve_within_larger`: what larger limits make of an answer.
-/

namespace Diophantine

/-- The points of a wider box are those of a narrower one, and others behind them. -/
theorem boxPoints_eq_append {bound wider : Nat} (h : bound ≤ wider) (count : Nat) :
    ∃ more, boxPoints count wider = boxPoints count bound ++ more := by
  have hradii : List.range' 1 wider
      = List.range' 1 bound ++ List.range' (1 + bound) (wider - bound) := by
    rw [List.range'_append_1, Nat.add_sub_cancel' h]
  refine ⟨(List.range' (1 + bound) (wider - bound)).flatMap
    fun radius => shellPoints radius count, ?_⟩
  rw [boxPoints, hradii, List.flatMap_append, boxPoints, List.cons_append]

namespace Search

/-! ### Where a search ends -/

/-- The points of a search up to one of them, none of which solves the goals. -/
structure Passes (search : Search) (goals : List Goal) (front : List (List Int)) (point : List Int)
    : Prop where
  split : ∃ back, boxPoints search.slots.names.length search.limits.bound.toNat
    = front ++ point :: back
  before : ∀ p ∈ front, ¬Solves goals p

variable {search : Search} {goals : List Goal}

/-- A search goes past the points in front of one, if its limit allows for them, and then visits
this one. -/
theorem Passes.walkBox_eq {front : List (List Int)} {point : List Int} {answer : Halt}
    (h : Passes search goals front point)
    (hroom : front.length ≤ search.limits.maxCandidates.toNat)
    (hvisit : visit search.limits goals (magnitude point) front.length point = .error answer) :
    walkBox (visit search.limits goals) search.slots.names.length search.limits.bound.toNat 0
      = .error answer := by
  obtain ⟨⟨back, hsplit⟩, hbefore⟩ := h
  have hfront : front.foldlM
      (fun examined point => visit search.limits goals (magnitude point) examined point) 0
      = .ok (0 + front.length) :=
    foldlM_visit_of_unsolved (by rwa [Nat.zero_add]) hbefore
  rw [walkBox_eq_foldlM, hsplit, List.foldlM_append, hfront, Nat.zero_add]
  have hpoint : (point :: back).foldlM
      (fun examined point => visit search.limits goals (magnitude point) examined point)
      front.length = .error answer := by
    rw [List.foldlM_cons, hvisit]
    rfl
  exact hpoint

/-- A search finds the first point that solves the goals, if its limit allows for it. -/
theorem solve_eq_satisfiable_iff {a : Assignment} :
    (search.solve goals).result = .ok (.satisfiable a) ↔
      ∃ front point, Passes search goals front point ∧ Solves goals point
        ∧ front.length < search.limits.maxCandidates.toNat
        ∧ a = search.slots.assignment (point.map Int64.ofInt) := by
  constructor
  · intro h
    have htried := tried_walkBox search.limits goals search.slots.names.length
      search.limits.bound.toNat
    unfold solve at h
    dsimp only at h
    generalize walkBox (visit search.limits goals) search.slots.names.length
      search.limits.bound.toNat 0 = result at htried h
    cases htried with
    | @found front back point hsplit hbefore hpoint hroom =>
      cases h
      exact ⟨front, point, ⟨⟨back, hsplit⟩, hbefore⟩, hpoint, by omega, rfl⟩
    | exhausted => cases h
    | limit => cases h
  · rintro ⟨front, point, hpasses, hpoint, hroom, rfl⟩
    have hvisit : visit search.limits goals (magnitude point) front.length point
        = .error (.found (point.map Int64.ofInt) (front.length + 1) (magnitude point)) := by
      unfold visit
      rw [if_neg (Nat.not_le.mpr hroom)]
      exact if_pos hpoint
    unfold solve
    dsimp only
    rw [hpasses.walkBox_eq (Nat.le_of_lt hroom) hvisit]

/-- A search gives up at a point in front of which the count is full, if nothing is found before. -/
theorem solve_eq_limit_iff {limit : LimitReached} :
    (search.solve goals).result = .error limit ↔
      (∃ front point, Passes search goals front point
        ∧ front.length = search.limits.maxCandidates.toNat)
      ∧ limit = { examined := search.limits.maxCandidates.toNat
                  bound := search.limits.bound } := by
  constructor
  · intro h
    have htried := tried_walkBox search.limits goals search.slots.names.length
      search.limits.bound.toNat
    unfold solve at h
    dsimp only at h
    generalize walkBox (visit search.limits goals) search.slots.names.length
      search.limits.bound.toNat 0 = result at htried h
    cases htried with
    | found => cases h
    | exhausted => cases h
    | @limit front back point hsplit hbefore hfull =>
      cases h
      exact ⟨⟨front, point, ⟨⟨back, hsplit⟩, hbefore⟩, by omega⟩, rfl⟩
  · rintro ⟨⟨front, point, hpasses, hfull⟩, rfl⟩
    have hvisit : visit search.limits goals (magnitude point) front.length point
        = .error (.limit front.length (magnitude point)) := by
      unfold visit
      rw [if_pos (Nat.le_of_eq hfull.symm)]
    unfold solve
    dsimp only
    rw [hpasses.walkBox_eq (Nat.le_of_eq hfull) hvisit, hfull]

/-! ### Other limits -/

/-- The same search with other limits. -/
def within (search : Search) (bound : UInt32) (maxCandidates : UInt64) : Search :=
  { search with limits := { bound := bound, maxCandidates := maxCandidates } }

/-- Limits have no part in giving slots, so the calls that come to a search come to it with other
limits too. -/
theorem Reachable.within (h : Reachable search) (bound : UInt32) (maxCandidates : UInt64) :
    Reachable (search.within bound maxCandidates) := by
  obtain ⟨limits, hsteps⟩ := h
  refine ⟨{ bound := bound, maxCandidates := maxCandidates }, ?_⟩
  induction hsteps with
  | refl => exact .refl
  | tail _ hstep ih =>
    refine ih.tail ?_
    cases hstep with
    | lowerExpression expression => exact .lowerExpression expression
    | lowerEquation equation => exact .lowerEquation equation
    | lowerConstraint constraint => exact .lowerConstraint constraint
    | solve goals => exact .solve goals
    | solveProblem problem => exact .solveProblem problem

/-- What a search passes it passes with any limits, if it is allowed to go as far. -/
theorem Passes.wider {bound farther : UInt32} (hbound : bound ≤ farther) {count more : UInt64}
    {front : List (List Int)} {point : List Int}
    (h : Passes (search.within bound count) goals front point) :
    Passes (search.within farther more) goals front point := by
  obtain ⟨⟨back, hsplit⟩, hbefore⟩ := h
  obtain ⟨behind, hbox⟩ := boxPoints_eq_append (UInt32.le_iff_toNat_le.mp hbound)
    search.slots.names.length
  refine ⟨⟨back ++ behind, ?_⟩, hbefore⟩
  show boxPoints search.slots.names.length farther.toNat = _
  rw [hbox, show boxPoints search.slots.names.length bound.toNat = front ++ point :: back
    from hsplit, List.append_assoc, List.cons_append]

/-- If there is nothing within a bound, then what is found beyond it is larger. -/
theorem lt_magnitude_of_solve_within {bound farther : UInt32} {count more : UInt64}
    (hnodup : search.slots.names.Nodup)
    (hnone : ¬∃ values, Solution (search.within bound count) goals values) {a : Assignment}
    (h : ((search.within farther more).solve goals).result = .ok (.satisfiable a)) :
    bound.toNat < a.magnitude := by
  obtain ⟨front, point, ⟨⟨back, hsplit⟩, -⟩, hpoint, -, rfl⟩ := solve_eq_satisfiable_iff.mp h
  have hmem : point ∈ boxPoints search.slots.names.length farther.toNat :=
    hsplit ▸ List.mem_append_right _ (List.mem_cons_self ..)
  obtain ⟨hcount, -⟩ := mem_boxPoints_iff.mp hmem
  have hlen : search.slots.names.length = (point.map Int64.ofInt).length := by
    rw [List.length_map, hcount]
  refine Nat.lt_of_not_le fun hsmall => ?_
  rw [show ((search.within farther more).slots.assignment (point.map Int64.ofInt)).magnitude
    = magnitude ((point.map Int64.ofInt).map Int64.toInt)
    from Slots.magnitude_assignment hnodup hlen, map_toInt_map_ofInt hmem] at hsmall
  -- A small point would have been a solution for the search that denies that there is one.
  have hnear : point ∈ boxPoints search.slots.names.length bound.toNat :=
    mem_boxPoints_iff.mpr ⟨hcount, hsmall⟩
  have hsolution : Solution (search.within bound count) goals (point.map Int64.ofInt) :=
    hpoint.solution hnear
  exact hnone ⟨_, hsolution⟩

/-- **Larger limits**, for a search that any calls have come to and any goals. What is found with a
bound and a limit is found with larger ones too. Where there is nothing within the bound, a larger
bound leads to nothing within it. And a search that gave up gives up at the same count whatever the
bound. -/
theorem solve_within_larger (h : search.Reachable) (goals : List Goal) {bound farther : UInt32}
    (hbound : bound ≤ farther) {count more : UInt64} (hcount : count ≤ more) :
    (∀ a, ((search.within bound count).solve goals).result = .ok (.satisfiable a) →
        ((search.within farther more).solve goals).result = .ok (.satisfiable a))
      ∧ (((search.within bound count).solve goals).result = .ok .unsatisfiable →
          ∀ a, ((search.within farther count).solve goals).result = .ok (.satisfiable a) →
            bound.toNat < a.magnitude)
      ∧ ∀ limit, ((search.within bound count).solve goals).result = .error limit →
          ∃ later, ((search.within farther count).solve goals).result = .error later
            ∧ later.examined = limit.examined := by
  refine ⟨fun a ha => ?_, fun hnone a ha => ?_, fun limit hlimit => ?_⟩
  · obtain ⟨front, point, hpasses, hpoint, hroom, rfl⟩ := solve_eq_satisfiable_iff.mp ha
    have hmore : front.length < more.toNat :=
      Nat.lt_of_lt_of_le hroom (UInt64.le_iff_toNat_le.mp hcount)
    exact solve_eq_satisfiable_iff.mpr ⟨front, point, hpasses.wider hbound, hpoint, hmore, rfl⟩
  · exact lt_magnitude_of_solve_within h.nodup ((solve_eq_unsatisfiable_iff _ _).mp hnone).2 ha
  · obtain ⟨⟨front, point, hpasses, hfull⟩, rfl⟩ := solve_eq_limit_iff.mp hlimit
    exact ⟨_, solve_eq_limit_iff.mpr ⟨⟨front, point, hpasses.wider hbound, hfull⟩, rfl⟩, rfl⟩

/-- A search that has met one name looks for a root of `x * x = 4`. Within a bound of one there is
none, so what is found within two is larger than one, and it is found within three as well. With two
points to examine, the search gives up within either bound. -/
theorem solve_within_larger_square :
    (∃ a, ((((ofLimits .standard).lowerExpression (.var 'x')).2.within 3 7).solve
          [.equal (.mul (.slot 0) (.slot 0)) (.constant 4)]).result = .ok (.satisfiable a)
        ∧ 1 < a.magnitude)
      ∧ ∃ later, ((((ofLimits .standard).lowerExpression (.var 'x')).2.within 2 2).solve
          [.equal (.mul (.slot 0) (.slot 0)) (.constant 4)]).result = .error later
        ∧ later.examined = 2 := by
  have hreachable : Reachable ((ofLimits .standard).lowerExpression (.var 'x')).2 :=
    ⟨.standard, .single (.lowerExpression (.var 'x'))⟩
  have hfound : ((((ofLimits .standard).lowerExpression (.var 'x')).2.within 2 5).solve
      [.equal (.mul (.slot 0) (.slot 0)) (.constant 4)]).result
        = .ok (.satisfiable (Assignment.ofList [('x', 2)])) := by
    decide +kernel
  constructor
  · obtain ⟨hfarther, -, -⟩ := solve_within_larger hreachable
      [.equal (.mul (.slot 0) (.slot 0)) (.constant 4)]
      (show (2 : UInt32) ≤ 3 by decide) (show (5 : UInt64) ≤ 7 by decide)
    obtain ⟨-, hlarger, -⟩ := solve_within_larger hreachable
      [.equal (.mul (.slot 0) (.slot 0)) (.constant 4)]
      (show (1 : UInt32) ≤ 2 by decide) (show (5 : UInt64) ≤ 7 by decide)
    exact ⟨_, hfarther _ hfound, hlarger (by decide +kernel) _ hfound⟩
  · obtain ⟨-, -, hlimit⟩ := solve_within_larger hreachable
      [.equal (.mul (.slot 0) (.slot 0)) (.constant 4)]
      (show (1 : UInt32) ≤ 2 by decide) (show (2 : UInt64) ≤ 7 by decide)
    exact hlimit { examined := 2, bound := 1 } (by decide +kernel)

end Search

end Diophantine
