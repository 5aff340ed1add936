import Mathlib.Logic.Relation
import Diophantine.Proofs.Search.Lowering
import Diophantine.Search.Solver

/-!
# The life of a search

A search that was new at first has seen any calls in any order. All that calls do to it is to give
slots to names, so its limits stay, and no name ever has two slots.

- `Search.Step`, `Search.Reachable`: the calls, and the searches that come from them;
- `Search.Step.extends_slots`: a call only adds slots;
- `Search.extends_slots`: nor do more calls;
- `Search.Reachable.indexed`, `Search.Reachable.nodup`: looking up names and looking up slots agree,
  so that no name has two slots.
-/

namespace Diophantine

namespace Search

/-- What a call makes of a search. -/
inductive Step (search : Search) : Search → Prop
  | lowerExpression (expression : Expression) : Step search (search.lowerExpression expression).2
  | lowerEquation (equation : Equation) : Step search (search.lowerEquation equation).2
  | lowerConstraint (constraint : Constraint) : Step search (search.lowerConstraint constraint).2
  | solve (goals : List Goal) : Step search search
  | solveProblem (problem : Problem) : Step search (search.solveProblem problem).2

/-- A search that calls made of a new one. -/
def Reachable (search : Search) : Prop :=
  ∃ limits, Relation.ReflTransGen Step (ofLimits limits) search

/-- A call gives slots to some names and changes nothing else. -/
theorem Step.extends_slots {search later : Search} (h : Step search later)
    (hindexed : search.slots.Indexed) :
    later.limits = search.limits ∧ ∃ names, Slots.Extends search.slots later.slots names := by
  cases h with
  | lowerExpression expression => exact ⟨rfl, _, (Expression.lowers hindexed expression).slots⟩
  | lowerEquation equation => exact ⟨rfl, _, (Equation.lowers hindexed equation).slots⟩
  | lowerConstraint constraint => exact ⟨rfl, _, (Constraint.lowers hindexed constraint).slots⟩
  | solve goals => exact ⟨rfl, [], .refl hindexed⟩
  | solveProblem problem => exact ⟨rfl, _, (Problem.lowers hindexed problem).slots⟩

/-- Calls give slots to some names and change nothing else. -/
theorem extends_slots {search later : Search} (h : Relation.ReflTransGen Step search later)
    (hindexed : search.slots.Indexed) :
    later.limits = search.limits ∧ ∃ names, Slots.Extends search.slots later.slots names := by
  induction h with
  | refl => exact ⟨rfl, [], .refl hindexed⟩
  | tail _ hstep ih =>
    obtain ⟨hlimits, names, hextends⟩ := ih
    obtain ⟨hlimits', more, hextends'⟩ := hstep.extends_slots hextends.indexed
    exact ⟨hlimits'.trans hlimits, _, hextends.trans hextends'⟩

/-- Looking up names and looking up slots agree, whatever has been lowered. -/
theorem Reachable.indexed {search : Search} (h : Reachable search) : search.slots.Indexed := by
  obtain ⟨limits, hsteps⟩ := h
  obtain ⟨-, names, hextends⟩ := extends_slots hsteps Slots.indexed_empty
  exact hextends.indexed

/-- No name has two slots, whatever has been lowered. -/
theorem Reachable.nodup {search : Search} (h : Reachable search) : search.slots.names.Nodup :=
  h.indexed.nodup

end Search

end Diophantine
