import Diophantine.Proofs.Search.Reachable

/-!
# What was lowered keeps its meaning

Terms and goals may be kept while a search goes on: more trees are lowered, and problems are solved.
All of this adds slots behind those that are there. So on values for all slots of that time,
whenever it is, a kept term still has the value of its expression, and a kept goal still tells
whether its tree is true.

- `Search.Lasts`: what stays true of a search, whatever is called next;
- `Search.lasts_of_lowers`: what was lowered goes on standing for its tree;
- `Search.lowered_keeps_meaning`: all of it for the life of a search.
-/

namespace Diophantine

namespace Search

/-- From a search on, values by slot and the assignment of them to names fit together in a way. -/
def Lasts (search : Search) (Fits : List Value → Assignment → Prop) : Prop :=
  ∀ later, Relation.ReflTransGen Step search later →
    ∀ values : List Value, later.slots.names.length = values.length →
      Fits values (later.slots.assignment values)

/-- What was lowered goes on standing for its tree, so whatever standing for a tree gives lasts. -/
theorem lasts_of_lowers {α β : Type} {Stands : List Name → β → α → Prop}
    (hmono : ∀ {names later : List Name}, names <+: later → ∀ {result : β} {item : α},
      Stands names result item → Stands later result item)
    {slots : Slots} {search : Search} {item : α} {names : List Name} {result : β}
    (hlowers : Lowers Stands slots item names (result, search.slots))
    {Fits : List Value → Assignment → Prop}
    (hfits : ∀ {slots : Slots} {values : List Value}, slots.names.Nodup →
      slots.names.length = values.length → Stands slots.names result item →
        Fits values (slots.assignment values)) :
    search.Lasts Fits := by
  intro later hlater values hlen
  obtain ⟨-, _, hextends⟩ := extends_slots hlater hlowers.slots.indexed
  exact hfits hextends.indexed.nodup hlen (hmono hextends.front hlowers.stands)

/-- Throughout the life of a search, names and slots belong to each other one to one, a slot that
was given stays, and solving goals gives no slots. Terms and goals keep the meaning of the trees
that they were lowered from: a term has the value of the expression, the goal of an equation holds
where the equation does, and the goal of a constraint holds where it is true with comparisons that
lack a value counted as false. -/
theorem lowered_keeps_meaning {search : Search} (hsearch : Reachable search) :
    (search.slots.names.Nodup
      ∧ ∀ name index, search.slots.find? name = some index ↔
          search.slots.names[index]? = some name)
    ∧ (∀ later, Relation.ReflTransGen Step search later → ∀ name index,
        search.slots.find? name = some index → later.slots.find? name = some index)
    ∧ (∀ problem, (search.solveProblem problem).2 = (search.lowerProblem problem).2)
    ∧ (∀ expression, (search.lowerExpression expression).2.Lasts fun values assignment =>
        (search.lowerExpression expression).1.evaluate values = expression.evaluate assignment)
    ∧ (∀ equation, (search.lowerEquation equation).2.Lasts fun values assignment =>
        (search.lowerEquation equation).1.holds values = true ↔
          equation.holds assignment = some true)
    ∧ (∀ constraint, (search.lowerConstraint constraint).2.Lasts fun values assignment =>
        (search.lowerConstraint constraint).1.holds values = constraint.certain assignment
          ∧ ∀ answer, constraint.holds assignment = some answer →
              (search.lowerConstraint constraint).1.holds values = answer)
    ∧ ∀ problem, (search.solveProblem problem).2.Lasts fun values assignment =>
        ∃ equations constraints, (search.lowerProblem problem).1 = equations ++ constraints
          ∧ List.Forall₂ (fun goal (equation : Equation) =>
              goal.holds values = true ↔ equation.holds assignment = some true)
              equations problem.equations
          ∧ List.Forall₂ (fun goal (constraint : Constraint) =>
              goal.holds values = constraint.certain assignment)
              constraints problem.constraints := by
  have hindexed := hsearch.indexed
  refine ⟨⟨hindexed.nodup, hindexed⟩, ?_, fun _ => rfl, ?_, ?_, ?_, ?_⟩
  · intro later hlater name index hfind
    obtain ⟨-, _, hextends⟩ := extends_slots hlater hindexed
    exact hextends.find?_eq hindexed hfind
  · intro expression
    exact lasts_of_lowers Term.Stands.mono (Expression.lowers hindexed expression)
      fun hnodup hlen hstands => hstands.evaluate_eq hnodup hlen
  · intro equation
    exact lasts_of_lowers Goal.Equates.mono (Equation.lowers hindexed equation)
      fun hnodup hlen hstands => hstands.holds_iff hnodup hlen
  · intro constraint
    refine lasts_of_lowers Goal.Asserts.mono (Constraint.lowers hindexed constraint)
      fun hnodup hlen hstands => ?_
    have hholds := hstands.holds_eq hnodup hlen
    exact ⟨hholds, fun answer hanswer => hholds.trans (Constraint.certain_of_holds hanswer)⟩
  · intro problem
    exact lasts_of_lowers (fun hfront _ _ hposes => hposes.mono hfront)
      (Problem.lowers hindexed problem) fun hnodup hlen hposes =>
        hposes.exists_eq_append hnodup hlen

/-- A goal that compares `y` with `x`, which had the first slot, while `z` gets a slot later. -/
theorem lowered_keeps_meaning_pair :
    let search := ((ofLimits .standard).lowerExpression (.var 'x')).2
    let equation : Equation := { left := .var 'y', right := .add (.var 'x') (.constant 1) }
    let later := ((search.lowerEquation equation).2.lowerExpression (.var 'z')).2
    Reachable search ∧ later.slots.names = ['x', 'y', 'z'] ∧
      ((search.lowerEquation equation).1.holds [1, 2, 7] = true ↔
        equation.holds (later.slots.assignment [1, 2, 7]) = some true) := by
  have hsearch : Reachable ((ofLimits .standard).lowerExpression (.var 'x')).2 :=
    ⟨_, .single (.lowerExpression _)⟩
  obtain ⟨-, -, -, -, hequation, -⟩ := lowered_keeps_meaning hsearch
  exact ⟨hsearch, by decide, hequation _ _ (.single (.lowerExpression _)) _ (by decide)⟩

end Search

end Diophantine
