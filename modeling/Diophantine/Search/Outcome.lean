import Diophantine.Assignment

/-!
# Outcomes

A search that comes to an end has found an assignment, or knows that there is none within its bound.
-/

namespace Diophantine

/-- The answer of a search. -/
inductive Outcome
  | satisfiable (assignment : Assignment)
  | unsatisfiable
deriving DecidableEq

namespace Outcome

/-- Whether an assignment was found. -/
def isSatisfiable : Outcome → Bool
  | .satisfiable _ => true
  | .unsatisfiable => false

/-- The assignment that was found. -/
def assignment? : Outcome → Option Assignment
  | .satisfiable assignment => some assignment
  | .unsatisfiable => none

/-- The value that was found for a name. -/
def value? (outcome : Outcome) (name : Name) : Option Value :=
  outcome.assignment?.bind (·.find? name)

/-- Writes bindings with commas between them. -/
def renderEntries : List (Name × Value) → List Char
  | [] => []
  | [(name, value)] => name :: ' ' :: '=' :: ' ' :: Value.digits value
  | (name, value) :: entries =>
    name :: ' ' :: '=' :: ' ' :: (Value.digits value ++ ',' :: ' ' :: renderEntries entries)

/-- An outcome as text. -/
def display : Outcome → String
  | .satisfiable assignment => String.ofList ('[' :: (renderEntries assignment.entries ++ [']']))
  | .unsatisfiable => "No solution!"

end Outcome

end Diophantine
