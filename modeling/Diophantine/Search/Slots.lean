import Diophantine.Problem.Basic
import Diophantine.Search.Goal

/-!
# Slots

Names get slots in the order in which they are met: from left to right, each name once. A slot that
was given stays with its name, and later names come after it, so what has been lowered already keeps
its meaning while more is being lowered.

Lowering an expression gives a term with slots in place of names, together with the slots as they
are then.
-/

namespace Diophantine

/-- The names that have slots, by slot, and their slots, by name. -/
structure Slots where
  names : List Name
  /-- The slot of each name. -/
  byName : List (Name × Nat)
deriving DecidableEq, Repr

namespace Slots

/-- No slots. -/
def empty : Slots :=
  { names := [], byName := [] }

/-- The slot of a name, if it has one. -/
def find? (slots : Slots) (name : Name) : Option Nat :=
  slots.byName.lookup name

/-- The slot of a name, which is a new one if the name is new. -/
def intern (slots : Slots) (name : Name) : Nat × Slots :=
  match slots.find? name with
  | some index => (index, slots)
  | none =>
    let index := slots.names.length
    (index, { names := slots.names ++ [name], byName := (name, index) :: slots.byName })

/-- The assignment of values to the names by slot. -/
def assignment (slots : Slots) (values : List Value) : Assignment :=
  Assignment.ofList (slots.names.zip values)

end Slots

/-- Lowers an expression. -/
def Expression.lower (slots : Slots) : Expression → Term × Slots
  | .constant value => (.constant value, slots)
  | .var name =>
    let (index, slots) := slots.intern name
    (.slot index, slots)
  | .add left right =>
    let (l, slots) := left.lower slots
    let (r, slots) := right.lower slots
    (.add l r, slots)
  | .mul left right =>
    let (l, slots) := left.lower slots
    let (r, slots) := right.lower slots
    (.mul l r, slots)

/-- Lowers the two sides of a comparison. -/
def lowerSides (slots : Slots) (goal : Term → Term → Goal) (left right : Expression) :
    Goal × Slots :=
  let (l, slots) := left.lower slots
  let (r, slots) := right.lower slots
  (goal l r, slots)

/-- Lowers an equation. -/
def Equation.lower (slots : Slots) (equation : Equation) : Goal × Slots :=
  lowerSides slots .equal equation.left equation.right

/-- Lowers a constraint. -/
def Constraint.lower (slots : Slots) : Constraint → Goal × Slots
  | .less left right => lowerSides slots .less left right
  | .greater left right => lowerSides slots .greater left right
  | .and left right =>
    let (l, slots) := left.lower slots
    let (r, slots) := right.lower slots
    (.all l r, slots)
  | .or left right =>
    let (l, slots) := left.lower slots
    let (r, slots) := right.lower slots
    (.any l r, slots)

/-- Lowers one item after the other. -/
def lowerEach {α : Type} (lower : Slots → α → Goal × Slots) (slots : Slots) :
    List α → List Goal × Slots
  | [] => ([], slots)
  | item :: items =>
    let (goal, slots) := lower slots item
    let (goals, slots) := lowerEach lower slots items
    (goal :: goals, slots)

/-- Lowers the equations of a problem and then its constraints. -/
def Problem.lower (slots : Slots) (problem : Problem) : List Goal × Slots :=
  let (equations, slots) := lowerEach Equation.lower slots problem.equations
  let (constraints, slots) := lowerEach Constraint.lower slots problem.constraints
  (equations ++ constraints, slots)

end Diophantine
