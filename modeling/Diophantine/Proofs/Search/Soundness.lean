import Diophantine.Proofs.Search.Answer

/-!
# Answers are true

An assignment that is found for a problem makes all that the problem says true of integers, whatever
their range. The search works with values, and takes a comparison without a value for false; neither
lets anything pass that is not true.

- `Search.nearest_of_solveProblem`: what is behind an assignment that is found;
- `Search.solveProblem_sound`: what holds of it.
-/

namespace Diophantine

namespace Search

/-- Behind an assignment that is found for a problem there are values for its names, on which the
goals hold that are posed by it, and none that are nearer to the origin. -/
theorem nearest_of_solveProblem {limits : Limits} {problem : Problem} {a : Assignment}
    (h : ((ofLimits limits).solveProblem problem).1.result = .ok (.satisfiable a)) :
    ∃ (slots : Slots) (goals : List Goal) (values : List Value),
      Slots.Extends Slots.empty slots problem.names ∧ problem.Poses slots.names goals
        ∧ Solution { limits := limits, slots := slots } goals values
        ∧ (∀ other, Solution { limits := limits, slots := slots } goals other →
            magnitude (values.map Int64.toInt) ≤ magnitude (other.map Int64.toInt))
        ∧ a = slots.assignment values := by
  have hlowers := Problem.lowers Slots.indexed_empty problem
  have hanswers := answers_solve ((ofLimits limits).lowerProblem problem).2
    ((ofLimits limits).lowerProblem problem).1
  rw [show (((ofLimits limits).lowerProblem problem).2.solve
    ((ofLimits limits).lowerProblem problem).1).result = .ok (.satisfiable a) from h] at hanswers
  cases hanswers with
  | satisfiable hsolution hnearest =>
    exact ⟨_, _, _, hlowers.slots, hlowers.stands, hsolution, hnearest, rfl⟩

theorem exists_of_solveProblem {limits : Limits} {problem : Problem} {a : Assignment}
    (h : ((ofLimits limits).solveProblem problem).1.result = .ok (.satisfiable a)) :
    ∃ (slots : Slots) (goals : List Goal) (values : List Value),
      Slots.Extends Slots.empty slots problem.names ∧ problem.Poses slots.names goals
        ∧ Solution { limits := limits, slots := slots } goals values
        ∧ a = slots.assignment values := by
  obtain ⟨slots, goals, values, hextends, hposes, hsolution, -, ha⟩ := nearest_of_solveProblem h
  exact ⟨slots, goals, values, hextends, hposes, hsolution, ha⟩

/-- **Answers are true**: the assignment that a new search finds for a problem binds the variables
of the problem and no other names, to values within the bound. All equations hold under it, no
constraint fails, and all of them are true of the integers that it assigns. -/
theorem solveProblem_sound (limits : Limits) (problem : Problem) (a : Assignment)
    (h : ((ofLimits limits).solveProblem problem).1.result = .ok (.satisfiable a)) :
    a.entries.map Prod.fst = problem.vars.names
      ∧ (∀ entry ∈ a.entries,
          -(limits.bound.toNat : Int) ≤ entry.2.toInt ∧ entry.2.toInt ≤ limits.bound.toNat)
      ∧ (∀ equation ∈ problem.equations, equation.holds a = some true)
      ∧ (∀ constraint ∈ problem.constraints, constraint.holds a ≠ some false)
      ∧ ∀ σ, a.Agrees σ →
          (∀ equation ∈ problem.equations, equation.IsTrue σ)
            ∧ ∀ constraint ∈ problem.constraints, constraint.IsTrue σ := by
  obtain ⟨slots, goals, values, hextends, hposes, hsolution, rfl⟩ := exists_of_solveProblem h
  have hnodup : slots.names.Nodup := hextends.indexed.nodup
  have hlen : slots.names.length = values.length := hsolution.length_eq.symm
  obtain ⟨hequations, hconstraints⟩ := (hposes.holds_iff hnodup hlen).mp hsolution.holds
  refine ⟨?_, ?_, hequations, fun constraint hmem hfalse => ?_, fun σ hagrees => ⟨?_, ?_⟩⟩
  · show _ = (NameSet.ofList problem.names).names
    rw [← hextends.ofList_eq]
    exact Assignment.map_fst_entries_zip hnodup hlen
  · exact fun entry hmem =>
      hsolution.inBound _ (Assignment.mem_of_mem_entries_zip hnodup hlen hmem)
  · -- A constraint that fails would not be certain.
    have hcertain := hconstraints constraint hmem
    rw [Constraint.certain_of_holds hfalse] at hcertain
    exact Bool.false_ne_true hcertain
  · exact fun equation hmem => Equation.isTrue_of_holds hagrees (hequations equation hmem)
  · exact fun constraint hmem => Constraint.isTrue_of_certain hagrees (hconstraints constraint hmem)

/-- Solving `x * x = x` such that `x < 1` gives zero, which is a solution over the integers. -/
theorem solveProblem_sound_square :
    ∃ a : Assignment,
      ((ofLimits .standard).solveProblem
          { equations := [{ left := .mul (.var 'x') (.var 'x'), right := .var 'x' }]
            constraints := [.less (.var 'x') (.constant 1)] }).1.result = .ok (.satisfiable a)
        ∧ a.entries.map Prod.fst = ['x'] ∧ ∀ σ, a.Agrees σ → σ 'x' * σ 'x' = σ 'x' := by
  refine ⟨Assignment.ofList [('x', 0)], rfl, ?_⟩
  obtain ⟨hnames, -, -, -, htrue⟩ := solveProblem_sound .standard
    { equations := [{ left := .mul (.var 'x') (.var 'x'), right := .var 'x' }]
      constraints := [.less (.var 'x') (.constant 1)] } (Assignment.ofList [('x', 0)]) rfl
  exact ⟨hnames, fun σ hagrees => (htrue σ hagrees).1 _ (List.mem_singleton_self _)⟩

end Search

end Diophantine
