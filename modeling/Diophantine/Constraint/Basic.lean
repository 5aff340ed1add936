import Diophantine.Expression.Basic

/-!
# Equations and constraints

An equation says that two expressions are equal. A constraint compares two expressions, or joins
constraints by `and` and `or`.

Whether they hold under an assignment has three answers, as an operand may have no value. The left
side is asked first, and where it decides, the right side is not asked at all.

A connective is written in parentheses of its own. A comparison is not: its sign binds less than any
sign within its operands, and the words around it bind less still.
-/

namespace Diophantine

/-! ### Equations -/

/-- Two expressions that are said to be equal. -/
structure Equation where
  left : Expression
  right : Expression
deriving DecidableEq, Repr

namespace Equation

/-- Whether both sides have the same value; `none` if one of them has no value. -/
def holds (assignment : Assignment) (equation : Equation) : Option Bool :=
  match equation.left.evaluate assignment, equation.right.evaluate assignment with
  | some l, some r => some (decide (l = r))
  | _, _ => none

/-- The names of all variables, from left to right. -/
def names (equation : Equation) : List Name :=
  equation.left.names ++ equation.right.names

/-- Writes an equation in front of `rest`. -/
def render (equation : Equation) (rest : List Char) : List Char :=
  equation.left.render (' ' :: '=' :: ' ' :: equation.right.render rest)

/-- An equation as text. -/
def display (equation : Equation) : String :=
  String.ofList (equation.render [])

end Equation

/-! ### Constraints -/

/-- Comparisons of expressions, joined by connectives. -/
inductive Constraint
  | less (left right : Expression)
  | greater (left right : Expression)
  | and (left right : Constraint)
  | or (left right : Constraint)
deriving DecidableEq, Repr

namespace Constraint

/-- Whether a constraint is true; `none` if that hangs on an operand without a value. -/
def holds (assignment : Assignment) : Constraint → Option Bool
  | .less left right =>
    match left.evaluate assignment, right.evaluate assignment with
    | some l, some r => some (decide (l < r))
    | _, _ => none
  | .greater left right =>
    match left.evaluate assignment, right.evaluate assignment with
    | some l, some r => some (decide (r < l))
    | _, _ => none
  | .and left right =>
    match left.holds assignment with
    | none => none
    | some false => some false
    | some true => right.holds assignment
  | .or left right =>
    match left.holds assignment with
    | none => none
    | some true => some true
    | some false => right.holds assignment

/-- The names of all variables, from left to right. -/
def names : Constraint → List Name
  | .less left right | .greater left right => left.names ++ right.names
  | .and left right | .or left right => left.names ++ right.names

/-- The set of the variables. -/
def vars (constraint : Constraint) : NameSet :=
  NameSet.ofList constraint.names

/-- Writes a constraint in front of `rest`. -/
def render : Constraint → List Char → List Char
  | .less left right, rest => left.render (' ' :: '<' :: ' ' :: right.render rest)
  | .greater left right, rest => left.render (' ' :: '>' :: ' ' :: right.render rest)
  | .and left right, rest =>
    '(' :: left.render (' ' :: 'a' :: 'n' :: 'd' :: ' ' :: right.render (')' :: rest))
  | .or left right, rest =>
    '(' :: left.render (' ' :: 'o' :: 'r' :: ' ' :: right.render (')' :: rest))

/-- A constraint as text. -/
def display (constraint : Constraint) : String :=
  String.ofList (constraint.render [])

end Constraint

end Diophantine
