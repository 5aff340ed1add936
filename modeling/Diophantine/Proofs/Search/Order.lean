import Mathlib.Order.Bounds.Basic
import Diophantine.Proofs.Search.Denial
import Diophantine.Proofs.Search.Soundness

/-!
# The order of clauses

Names get slots in the order in which they are met, so with the clauses of a problem in another
order the points are visited in another order too, and another assignment may be found. But the
points of a shell are the same in any order of the slots: what is found is as near to the origin as
the nearest solution over the integers, and that does not depend on the order of the clauses.

- `Problem.Rearranged`: the same equations and the same constraints in another order;
- `Search.radii`: how far off there are solutions over the integers;
- `Search.solve_eq_unsatisfiable_iff_radii`, `Search.Solution.isLeast_magnitude`: what that makes of
  an answer;
- `Search.solveProblem_rearranged`: what stays the same in another order.
-/

namespace Diophantine

/-! ### Rearranged problems -/

/-- The same equations and the same constraints, in any order. -/
structure Problem.Rearranged (problem other : Problem) : Prop where
  equations : problem.equations.Perm other.equations
  constraints : problem.constraints.Perm other.constraints

namespace Problem.Rearranged

variable {problem other : Problem} (h : problem.Rearranged other)

include h

theorem mem_names_iff (name : Name) : name ∈ problem.names ↔ name ∈ other.names := by
  have hequations := h.equations.flatMap_right Equation.names
  have hconstraints := h.constraints.flatMap_right Constraint.names
  exact (hequations.append hconstraints).mem_iff

theorem vars_eq : problem.vars = other.vars :=
  NameSet.ofList_congr h.mem_names_iff

theorem isTrueInRange_iff (σ : Name → Int) : problem.IsTrueInRange σ ↔ other.IsTrueInRange σ := by
  refine and_congr (forall_congr' fun equation => ?_) (forall_congr' fun constraint => ?_)
  · rw [h.equations.mem_iff]
  · rw [h.constraints.mem_iff]

end Problem.Rearranged

namespace Search

/-! ### Radii with a solution -/

/-- The radii within which there are integers that make all that a problem says true in range. -/
def radii (problem : Problem) : Set Nat :=
  { radius | ∃ σ : Name → Int, (∀ name ∈ problem.names, (σ name).natAbs ≤ radius)
      ∧ problem.IsTrueInRange σ }

theorem radii_eq {problem other : Problem} (h : problem.Rearranged other) :
    radii problem = radii other := by
  refine Set.ext fun radius => exists_congr fun σ => and_congr ?_ (h.isTrueInRange_iff σ)
  exact forall_congr' fun name => by rw [h.mem_names_iff]

section Posed

variable {search : Search} {goals : List Goal} {problem : Problem}
  (hextends : Slots.Extends Slots.empty search.slots problem.names)
  (hposes : problem.Poses search.slots.names goals)

include hextends hposes

/-- The integers of a solution are as far off as its values. -/
theorem Solution.mem_radii {values : List Value} (h : Solution search goals values) :
    magnitude (values.map Int64.toInt) ∈ radii problem := by
  obtain ⟨σ, hvalues, htrue⟩ := h.exists_isTrueInRange hextends hposes
  refine ⟨σ, fun name hname => ?_, htrue⟩
  obtain ⟨value, hmem, hvalue⟩ := hvalues name hname
  exact hvalue ▸ natAbs_le_magnitude (List.mem_map_of_mem hmem)

/-- A radius within the bound has a solution in it. -/
theorem exists_solution_of_mem_radii {radius : Nat} (h : radius ∈ radii problem)
    (hnear : radius ≤ search.limits.bound.toNat) :
    ∃ values, Solution search goals values ∧ magnitude (values.map Int64.toInt) ≤ radius := by
  obtain ⟨σ, hradius, htrue⟩ := h
  have hbound : ∀ name ∈ problem.names,
      -(search.limits.bound.toNat : Int) ≤ σ name ∧ σ name ≤ search.limits.bound.toNat := by
    intro name hname
    have hsmall := hradius name hname
    omega
  obtain ⟨values, hsolution, hints⟩ := solution_of_isTrueInRange hextends hposes hbound htrue
  refine ⟨values, hsolution, ?_⟩
  rw [hints]
  refine magnitude_le_iff.mpr (List.forall_mem_map.mpr fun name hname => ?_)
  exact hradius name ((mem_slots_iff hextends name).mp hname)

/-- A search denies that a problem has a solution exactly if it may examine all points, and the
radii in which there is one are beyond its bound. -/
theorem solve_eq_unsatisfiable_iff_radii :
    (search.solve goals).result = .ok .unsatisfiable ↔
      search.volume ≤ search.limits.maxCandidates.toNat
        ∧ ∀ radius ∈ radii problem, search.limits.bound.toNat < radius := by
  rw [solve_eq_unsatisfiable_iff]
  refine and_congr_right fun _ => ⟨fun hnone radius hradius => ?_, ?_⟩
  · refine Nat.lt_of_not_le fun hnear => ?_
    obtain ⟨values, hsolution, -⟩ := exists_solution_of_mem_radii hextends hposes hradius hnear
    exact hnone ⟨values, hsolution⟩
  · rintro hfar ⟨values, hsolution⟩
    have hbeyond := hfar _ (hsolution.mem_radii hextends hposes)
    exact Nat.not_lt.mpr (hsolution.magnitude_le) hbeyond

/-- Values that are nearest to the origin among solutions are in the least of all radii. -/
theorem Solution.isLeast_magnitude {values : List Value} (h : Solution search goals values)
    (hnearest : ∀ other, Solution search goals other →
      magnitude (values.map Int64.toInt) ≤ magnitude (other.map Int64.toInt)) :
    IsLeast (radii problem) (magnitude (values.map Int64.toInt)) := by
  refine ⟨h.mem_radii hextends hposes, fun radius hradius => ?_⟩
  rcases Nat.le_total radius search.limits.bound.toNat with hnear | hfar
  · obtain ⟨other, hother, hsmall⟩ :=
      exists_solution_of_mem_radii hextends hposes hradius hnear
    exact (hnearest other hother).trans hsmall
  · exact h.magnitude_le.trans hfar

end Posed

/-! ### Another order -/

section New

variable {limits : Limits} {problem : Problem}

/-- A new search denies that a problem has a solution exactly if the radii in which there is one are
beyond its bound, and its limit allows for all points. -/
theorem solveProblem_eq_unsatisfiable_iff :
    ((ofLimits limits).solveProblem problem).1.result = .ok .unsatisfiable ↔
      (2 * limits.bound.toNat + 1) ^ problem.vars.names.length ≤ limits.maxCandidates.toNat
        ∧ ∀ radius ∈ radii problem, limits.bound.toNat < radius := by
  have hlowers := Problem.lowers Slots.indexed_empty problem
  have hextends : Slots.Extends Slots.empty ((ofLimits limits).lowerProblem problem).2.slots
      problem.names := hlowers.slots
  have hiff := solve_eq_unsatisfiable_iff_radii hextends hlowers.stands
  rw [volume_eq hextends] at hiff
  exact hiff

/-- What a new search finds binds the variables of the problem, to values that are as large as the
least radius in which there is a solution. -/
theorem isLeast_of_solveProblem {a : Assignment}
    (h : ((ofLimits limits).solveProblem problem).1.result = .ok (.satisfiable a)) :
    IsLeast (radii problem) a.magnitude ∧ a.entries.map Prod.fst = problem.vars.names := by
  obtain ⟨slots, goals, values, hextends, hposes, hsolution, hnearest, rfl⟩ :=
    nearest_of_solveProblem h
  have hnodup : slots.names.Nodup := hextends.indexed.nodup
  have hlen : slots.names.length = values.length := hsolution.length_eq.symm
  constructor
  · rw [Slots.magnitude_assignment hnodup hlen]
    exact hsolution.isLeast_magnitude hextends hposes hnearest
  · show _ = (NameSet.ofList problem.names).names
    rw [← hextends.ofList_eq]
    exact Assignment.map_fst_entries_zip hnodup hlen

end New

/-- **The order of clauses** has no part in whether there is an answer: with its equations and its
constraints in another order, a problem is denied to have a solution within the same limits, and if
a solution is found in both orders, then for the same variables, and with values that are as
large. -/
theorem solveProblem_rearranged {problem other : Problem} (h : problem.Rearranged other)
    (limits : Limits) :
    (((ofLimits limits).solveProblem problem).1.result = .ok .unsatisfiable ↔
        ((ofLimits limits).solveProblem other).1.result = .ok .unsatisfiable)
      ∧ ∀ a b, ((ofLimits limits).solveProblem problem).1.result = .ok (.satisfiable a) →
          ((ofLimits limits).solveProblem other).1.result = .ok (.satisfiable b) →
            a.magnitude = b.magnitude ∧ a.entries.map Prod.fst = b.entries.map Prod.fst := by
  constructor
  · rw [solveProblem_eq_unsatisfiable_iff, solveProblem_eq_unsatisfiable_iff, h.vars_eq, radii_eq h]
  · intro a b ha hb
    obtain ⟨hleast, hnames⟩ := isLeast_of_solveProblem ha
    obtain ⟨hleast', hnames'⟩ := isLeast_of_solveProblem hb
    rw [radii_eq h] at hleast
    rw [h.vars_eq] at hnames
    exact ⟨hleast.unique hleast', hnames.trans hnames'.symm⟩

/-- An equation that says nothing of a variable but brings it up: `y = y`. -/
def bare : Equation :=
  { left := .var 'y', right := .var 'y' }

/-- An equation in which another variable comes first: `x + y = 1`. -/
def unitSum : Equation :=
  { left := .add (.var 'x') (.var 'y'), right := .constant 1 }

/-- The equations `y = y` and `x + y = 1` are solved by `y = 1` in this order and by `x = 1` in the
other one, with values that are as large. -/
theorem solveProblem_rearranged_pair :
    ∃ a b : Assignment,
      ((ofLimits .standard).solveProblem
          { equations := [bare, unitSum], constraints := [] }).1.result = .ok (.satisfiable a)
        ∧ ((ofLimits .standard).solveProblem
          { equations := [unitSum, bare], constraints := [] }).1.result = .ok (.satisfiable b)
        ∧ a ≠ b ∧ a.magnitude = b.magnitude := by
  have hrearranged : Problem.Rearranged { equations := [bare, unitSum], constraints := [] }
      { equations := [unitSum, bare], constraints := [] } :=
    ⟨.swap _ _ _, .refl _⟩
  have hfirst : ((ofLimits .standard).solveProblem
      { equations := [bare, unitSum], constraints := [] }).1.result
        = .ok (.satisfiable (Assignment.ofList [('x', 0), ('y', 1)])) := by
    decide +kernel
  have hsecond : ((ofLimits .standard).solveProblem
      { equations := [unitSum, bare], constraints := [] }).1.result
        = .ok (.satisfiable (Assignment.ofList [('x', 1), ('y', 0)])) := by
    decide +kernel
  obtain ⟨-, hlarge⟩ := solveProblem_rearranged hrearranged .standard
  exact ⟨_, _, hfirst, hsecond, by decide, (hlarge _ _ hfirst hsecond).1⟩

end Search

end Diophantine
