import Diophantine.Assignment

/-!
# Expressions

An expression is built from constants and variables by sums and products, and by nothing else. A
difference is a sum with a negated right side, and the negation of anything but a literal constant
is its product with minus one, so no more kinds of nodes are needed.

Every sum and every product is written in parentheses of its own, so the text shows the tree and
leaves nothing to precedence. `Expression.render` writes in front of a text that is already there. A
tree is thus written in one pass, and a statement about printing can say what follows the tree.

* `Expression.evaluate` computes within the range of values, or not at all,
* `Expression.names` lists the variables from left to right,
* `Expression.render` and `Expression.display` write the tree.
-/

namespace Diophantine

/-- An arithmetic expression over named variables. -/
inductive Expression
  | constant (value : Value)
  | var (name : Name)
  | add (left right : Expression)
  | mul (left right : Expression)
deriving DecidableEq, Repr

namespace Expression

/-- The product of minus one and an expression. -/
def negated (inner : Expression) : Expression :=
  .mul (.constant (-1)) inner

/-- The value of an expression. There is none if a variable is not bound, or if the value of any
part is out of range, even where the whole would be back in it. -/
def evaluate (assignment : Assignment) : Expression → Option Value
  | .constant value => some value
  | .var name => assignment.find? name
  | .add left right =>
    match left.evaluate assignment, right.evaluate assignment with
    | some l, some r => Value.add? l r
    | _, _ => none
  | .mul left right =>
    match left.evaluate assignment, right.evaluate assignment with
    | some l, some r => Value.mul? l r
    | _, _ => none

section Evaluation

variable {assignment : Assignment}

@[simp] theorem evaluate_constant (value : Value) :
    (constant value).evaluate assignment = some value := rfl

@[simp] theorem evaluate_var (name : Name) :
    (var name).evaluate assignment = assignment.find? name := rfl

@[simp] theorem evaluate_add (left right : Expression) :
    (add left right).evaluate assignment
      = (left.evaluate assignment).bind fun l =>
          (right.evaluate assignment).bind fun r => Value.add? l r := by
  rw [evaluate]
  cases left.evaluate assignment <;> cases right.evaluate assignment <;> rfl

@[simp] theorem evaluate_mul (left right : Expression) :
    (mul left right).evaluate assignment
      = (left.evaluate assignment).bind fun l =>
          (right.evaluate assignment).bind fun r => Value.mul? l r := by
  rw [evaluate]
  cases left.evaluate assignment <;> cases right.evaluate assignment <;> rfl

end Evaluation

/-- The names of all variables, in order from left to right, each as often as it occurs. -/
def names : Expression → List Name
  | .constant _ => []
  | .var name => [name]
  | .add left right | .mul left right => left.names ++ right.names

/-- The set of the variables. -/
def vars (expression : Expression) : NameSet :=
  NameSet.ofList expression.names

/-! ### Printing -/

/-- Writes an expression in front of `rest`. -/
def render : Expression → List Char → List Char
  | .constant value, rest => Value.digits value ++ rest
  | .var name, rest => name :: rest
  | .add left right, rest =>
    '(' :: left.render (' ' :: '+' :: ' ' :: right.render (')' :: rest))
  | .mul left right, rest =>
    '(' :: left.render (' ' :: '*' :: ' ' :: right.render (')' :: rest))

/-- An expression as text. -/
def display (expression : Expression) : String :=
  String.ofList (expression.render [])

end Expression

end Diophantine
