import Diophantine.Constraint.Basic

/-!
# Problems

A problem is a list of equations and a list of constraints, each in the order of the text. A
solution is an assignment under which all of them are true.

A problem is written as one sentence. The words `such that` appear only if constraints follow, and
a problem that asks for nothing is written as nothing.

* `Problem.names` lists the variables in the order of the text,
* `Problem.render` and `Problem.display` write the problem.
-/

namespace Diophantine

/-- Equations and constraints to be solved together. -/
structure Problem where
  equations : List Equation
  constraints : List Constraint
deriving DecidableEq, Repr

namespace Problem

/-- The problem that asks for nothing. -/
def empty : Problem :=
  { equations := [], constraints := [] }

/-- Whether a problem asks for nothing. -/
def isEmpty (problem : Problem) : Bool :=
  problem.equations.isEmpty && problem.constraints.isEmpty

/-- The names of all variables, in the order of the text. -/
def names (problem : Problem) : List Name :=
  problem.equations.flatMap Equation.names ++ problem.constraints.flatMap Constraint.names

/-- The set of the variables. -/
def vars (problem : Problem) : NameSet :=
  NameSet.ofList problem.names

end Problem

/-! ### Printing -/

/-- Writes items in front of `rest`, with a comma and a space between them. -/
def renderList {α : Type} (render : α → List Char → List Char) : List α → List Char → List Char
  | [], rest => rest
  | [item], rest => render item rest
  | item :: items, rest => render item (',' :: ' ' :: renderList render items rest)

namespace Problem

/-- Writes the constraints of a problem, and the words that introduce them, in front of `rest`. -/
def renderConstraints (constraints : List Constraint) (rest : List Char) : List Char :=
  if constraints.isEmpty then rest
  else " such that ".toList ++ renderList Constraint.render constraints rest

/-- Writes the equations of a problem, and the space before them, in front of `rest`. -/
def renderEquations (equations : List Equation) (rest : List Char) : List Char :=
  if equations.isEmpty then rest else ' ' :: renderList Equation.render equations rest

/-- The characters of a problem. -/
def render (problem : Problem) : List Char :=
  if problem.isEmpty then []
  else
    "Solve".toList
      ++ renderEquations problem.equations (renderConstraints problem.constraints ['.'])

/-- A problem as text. -/
def display (problem : Problem) : String :=
  String.ofList problem.render

end Problem

end Diophantine
