import Diophantine.Proofs.Range
import Diophantine.Proofs.Search.Answer

/-!
# What is denied

A search that finds nothing denies that there is a solution within its bound. The denial is about
what can be computed: a point at which an equation or a comparison is true of the integers, but has
a part that is out of range, is passed over like one at which it is false. Other points are never
denied.

- `Search.solve_eq_unsatisfiable_iff`: a search denies exactly if it may examine all points and none
  is a solution;
- `Search.exists_gives_of_values`, `Search.gives_map_ofInt`: values for slots are integers for
  names;
- `Search.Solution.exists_isTrueInRange`, `Search.solution_of_isTrueInRange`: the solutions for a
  problem are the integers within the bound that make all that it says true in range;
- `Search.solveProblem_unsatisfiable_iff`: what a new search denies;
- `Search.solveProblem_denies_solution`: solutions that are denied since they are out of range.
-/

namespace Diophantine

namespace Search

/-- A search denies that there is a solution exactly if there is none and all points may be
examined. -/
theorem solve_eq_unsatisfiable_iff (search : Search) (goals : List Goal) :
    (search.solve goals).result = .ok .unsatisfiable ↔
      search.volume ≤ search.limits.maxCandidates.toNat
        ∧ ¬∃ values, Solution search goals values := by
  have hanswers := answers_solve search goals
  generalize (search.solve goals).result = result at hanswers ⊢
  cases hanswers with
  | @satisfiable values hsolution _ =>
    exact iff_of_false nofun fun h => h.2 ⟨values, hsolution⟩
  | unsatisfiable hnone hroom =>
    exact iff_of_true rfl ⟨hroom, fun ⟨values, hsolution⟩ => hnone values hsolution⟩
  | limit hfull => exact iff_of_false nofun fun h => absurd h.1 (Nat.not_le.mpr hfull)

/-! ### Slots and integers -/

section Values

variable {slots : Slots} (hnodup : slots.names.Nodup)

include hnodup

/-- With values for the slots, the names stand for the integers of these values. -/
theorem exists_gives_of_values {values : List Value} (hlen : slots.names.length = values.length) :
    ∃ σ, (slots.assignment values).Gives slots.names σ
      ∧ ∀ name ∈ slots.names, ∃ value ∈ values, value.toInt = σ name := by
  obtain ⟨σ, hagrees⟩ := (slots.assignment values).exists_agrees
  have hfound : (slots.assignment values).Gives slots.names σ := by
    intro name hname
    obtain ⟨value, hfind⟩ := (Assignment.exists_find?_zip_iff hnodup hlen).mpr hname
    exact ⟨value, hfind, (hagrees name value hfind).symm⟩
  refine ⟨σ, hfound, fun name hname => ?_⟩
  obtain ⟨value, hfind, hvalue⟩ := hfound name hname
  exact ⟨value,
    Assignment.mem_of_mem_entries_zip hnodup hlen (Assignment.mem_entries_iff.mpr hfind), hvalue⟩

/-- Integers that fit are given by the values for the slots that are made of them. -/
theorem gives_map_ofInt {σ : Name → Int} (hfits : ∀ name ∈ slots.names, FitsSigned (σ name)) :
    (slots.assignment (slots.names.map fun name => Int64.ofInt (σ name))).Gives slots.names σ := by
  intro name hname
  refine ⟨Int64.ofInt (σ name), ?_, (hfits name hname).toInt_ofInt⟩
  obtain ⟨index, hindex⟩ := List.mem_iff_getElem?.mp hname
  have hlen : slots.names.length
      = (slots.names.map fun name => Int64.ofInt (σ name)).length :=
    (List.length_map _).symm
  refine (Assignment.find?_zip_of_getElem? hnodup hlen hindex).trans ?_
  rw [List.getElem?_map, hindex]
  rfl

end Values

/-! ### Problems -/

section Posed

variable {search : Search} {goals : List Goal} {problem : Problem}
  (hextends : Slots.Extends Slots.empty search.slots problem.names)

include hextends

/-- The slots that a problem gives are as many as its variables. -/
theorem volume_eq :
    search.volume = (2 * search.limits.bound.toNat + 1) ^ problem.vars.names.length := by
  have hlen := NameSet.length_ofList hextends.indexed.nodup
  rw [hextends.ofList_eq] at hlen
  unfold volume
  rw [← hlen]
  rfl

theorem mem_slots_iff (name : Name) : name ∈ search.slots.names ↔ name ∈ problem.names :=
  (hextends.mem_iff name).trans (or_iff_right List.not_mem_nil)

/-- Where the names of a problem have the values of the slots, its goals hold exactly if all that it
says is true in range. -/
theorem holds_iff_isTrueInRange (hposes : problem.Poses search.slots.names goals)
    {values : List Value} {σ : Name → Int} (hlen : search.slots.names.length = values.length)
    (hgives : (search.slots.assignment values).Gives search.slots.names σ) :
    (∀ goal ∈ goals, goal.holds values = true) ↔ problem.IsTrueInRange σ := by
  rw [hposes.holds_iff hextends.indexed.nodup hlen]
  have hproblem : (search.slots.assignment values).Gives problem.names σ := fun name hname =>
    hgives name ((mem_slots_iff hextends name).mpr hname)
  obtain ⟨hequations, hconstraints⟩ := Assignment.gives_append.mp hproblem
  refine and_congr (forall₂_congr fun equation hmem => ?_) (forall₂_congr fun constraint hmem => ?_)
  · exact Equation.holds_iff_isTrueInRange fun name hname =>
      hequations name (List.mem_flatMap_of_mem hmem hname)
  · exact Constraint.certain_iff_isTrueInRange fun name hname =>
      hconstraints name (List.mem_flatMap_of_mem hmem hname)

/-- A solution stands for integers among its values that make all that a problem says true in
range. -/
theorem Solution.exists_isTrueInRange (hposes : problem.Poses search.slots.names goals)
    {values : List Value} (h : Solution search goals values) :
    ∃ σ : Name → Int, (∀ name ∈ problem.names, ∃ value ∈ values, value.toInt = σ name)
      ∧ problem.IsTrueInRange σ := by
  have hlen : search.slots.names.length = values.length := h.length_eq.symm
  obtain ⟨σ, hgives, hvalues⟩ := exists_gives_of_values hextends.indexed.nodup hlen
  refine ⟨σ, fun name hname => ?_, ?_⟩
  · exact hvalues name ((mem_slots_iff hextends name).mpr hname)
  · exact (holds_iff_isTrueInRange hextends hposes hlen hgives).mp h.holds

/-- Integers within the bound that make all that a problem says true in range are a solution. -/
theorem solution_of_isTrueInRange (hposes : problem.Poses search.slots.names goals)
    {σ : Name → Int} (hbound : ∀ name ∈ problem.names,
      -(search.limits.bound.toNat : Int) ≤ σ name ∧ σ name ≤ search.limits.bound.toNat)
    (htrue : problem.IsTrueInRange σ) :
    ∃ values, Solution search goals values
      ∧ values.map Int64.toInt = search.slots.names.map σ := by
  have hbound' : ∀ name ∈ search.slots.names,
      -(search.limits.bound.toNat : Int) ≤ σ name ∧ σ name ≤ search.limits.bound.toNat :=
    fun name hname => hbound name ((mem_slots_iff hextends name).mp hname)
  -- A bound has 32 bits, so what is within it fits.
  have hfits : ∀ name ∈ search.slots.names, FitsSigned (σ name) := by
    intro name hname
    have hsmall : search.limits.bound.toNat < 2 ^ 32 := search.limits.bound.toNat_lt
    obtain ⟨hlow, hhigh⟩ := hbound' name hname
    exact ⟨by omega, by omega⟩
  have hlen : (search.slots.names.map fun name => Int64.ofInt (σ name)).length
      = search.slots.names.length :=
    List.length_map _
  refine ⟨search.slots.names.map fun name => Int64.ofInt (σ name), ⟨hlen, ?_, ?_⟩, ?_⟩
  · refine List.forall_mem_map.mpr fun name hname => ?_
    rw [(hfits name hname).toInt_ofInt]
    exact hbound' name hname
  · have hgives := gives_map_ofInt hextends.indexed.nodup hfits
    exact (holds_iff_isTrueInRange hextends hposes hlen.symm hgives).mpr htrue
  · rw [List.map_map]
    exact List.map_congr_left fun name hname => (hfits name hname).toInt_ofInt

/-- The goals of a problem have a solution exactly if integers within the bound make all that the
problem says true in range. -/
theorem exists_solution_iff (hposes : problem.Poses search.slots.names goals) :
    (∃ values, Solution search goals values) ↔
      ∃ σ : Name → Int,
        (∀ name ∈ problem.names,
          -(search.limits.bound.toNat : Int) ≤ σ name ∧ σ name ≤ search.limits.bound.toNat)
        ∧ problem.IsTrueInRange σ := by
  constructor
  · rintro ⟨values, hsolution⟩
    obtain ⟨σ, hvalues, htrue⟩ := hsolution.exists_isTrueInRange hextends hposes
    refine ⟨σ, fun name hname => ?_, htrue⟩
    obtain ⟨value, hmem, hvalue⟩ := hvalues name hname
    exact hvalue ▸ hsolution.inBound value hmem
  · rintro ⟨σ, hbound, htrue⟩
    obtain ⟨values, hsolution, -⟩ := solution_of_isTrueInRange hextends hposes hbound htrue
    exact ⟨values, hsolution⟩

end Posed

/-- **What is denied**: a new search denies that a problem has a solution exactly if it may examine
all points within the bound, and none of them makes every equation and every constraint true in
range. -/
theorem solveProblem_unsatisfiable_iff (limits : Limits) (problem : Problem) :
    ((ofLimits limits).solveProblem problem).1.result = .ok .unsatisfiable ↔
      (2 * limits.bound.toNat + 1) ^ problem.vars.names.length ≤ limits.maxCandidates.toNat
        ∧ ¬∃ σ : Name → Int,
            (∀ name ∈ problem.names,
              -(limits.bound.toNat : Int) ≤ σ name ∧ σ name ≤ limits.bound.toNat)
            ∧ problem.IsTrueInRange σ := by
  have hlowers := Problem.lowers Slots.indexed_empty problem
  have hextends : Slots.Extends Slots.empty ((ofLimits limits).lowerProblem problem).2.slots
      problem.names := hlowers.slots
  have hposes : problem.Poses ((ofLimits limits).lowerProblem problem).2.slots.names
      ((ofLimits limits).lowerProblem problem).1 := hlowers.stands
  have hiff := solve_eq_unsatisfiable_iff ((ofLimits limits).lowerProblem problem).2
    ((ofLimits limits).lowerProblem problem).1
  rw [volume_eq hextends, exists_solution_iff hextends hposes] at hiff
  exact hiff

/-! ### Solutions out of range -/

/-- A comparison in the way of the solution two: `x = 2` such that `9223372036854775807 * x > 0`. -/
def farComparison : Problem :=
  { equations := [{ left := .var 'x', right := .constant 2 }]
    constraints := [.greater (.mul (.constant Int64.maxValue) (.var 'x')) (.constant 0)] }

/-- An equation in the way of the solution two: `x = 2` and `9223372036854775807 * x` is equal to
itself. -/
def farEquation : Problem :=
  { equations :=
      [{ left := .var 'x', right := .constant 2 },
       { left := .mul (.constant Int64.maxValue) (.var 'x')
         right := .mul (.constant Int64.maxValue) (.var 'x') }]
    constraints := [] }

/-- That `x` is two is true, with all else that the two problems say of it, but a product is out of
range, and a search within a bound of two denies that there is a solution. -/
theorem solveProblem_denies_solution :
    (((ofLimits { bound := 2, maxCandidates := 100 }).solveProblem farComparison).1.result
          = .ok .unsatisfiable
        ∧ ∃ σ : Name → Int, (∀ name, -2 ≤ σ name ∧ σ name ≤ 2) ∧ farComparison.IsTrue σ)
      ∧ ((ofLimits { bound := 2, maxCandidates := 100 }).solveProblem farEquation).1.result
          = .ok .unsatisfiable
        ∧ ∃ σ : Name → Int, (∀ name, -2 ≤ σ name ∧ σ name ≤ 2) ∧ farEquation.IsTrue σ := by
  have hbound : -2 ≤ (2 : Int) ∧ (2 : Int) ≤ 2 := by decide
  refine ⟨⟨by decide +kernel, fun _ => 2, fun _ => hbound, ?_⟩,
    by decide +kernel, fun _ => 2, fun _ => hbound, ?_⟩
  · refine ⟨List.forall_mem_singleton.mpr rfl, List.forall_mem_singleton.mpr ?_⟩
    show (0 : Int) < 9223372036854775807 * 2
    decide
  · exact ⟨List.forall_mem_cons.mpr ⟨rfl, List.forall_mem_singleton.mpr rfl⟩, nofun⟩

end Search

end Diophantine
