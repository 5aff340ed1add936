import Diophantine.Value

/-!
# Terms and goals

While searching, a variable is known by the number of its slot, and an assignment is the list of
the values by slot. Terms and goals are expressions and constraints in that form.

A goal is true or false, and nothing in between. A comparison with an operand that has no value is
false: that answer stays with the comparison, and the connectives around it count it like any
other.
-/

namespace Diophantine

/-- An arithmetic term over slots. -/
inductive Term
  | constant (value : Value)
  | slot (index : Nat)
  | add (left right : Term)
  | mul (left right : Term)
deriving DecidableEq, Repr

namespace Term

/-- The value of a term. There is none if a slot does not exist, or if the value of any part is out
of range. -/
def evaluate (values : List Value) : Term → Option Value
  | .constant value => some value
  | .slot index => values[index]?
  | .add left right =>
    match left.evaluate values, right.evaluate values with
    | some l, some r => Value.add? l r
    | _, _ => none
  | .mul left right =>
    match left.evaluate values, right.evaluate values with
    | some l, some r => Value.mul? l r
    | _, _ => none

@[simp] theorem evaluate_add (values : List Value) (left right : Term) :
    (add left right).evaluate values
      = (left.evaluate values).bind fun l =>
          (right.evaluate values).bind fun r => Value.add? l r := by
  rw [evaluate]
  cases left.evaluate values <;> cases right.evaluate values <;> rfl

@[simp] theorem evaluate_mul (values : List Value) (left right : Term) :
    (mul left right).evaluate values
      = (left.evaluate values).bind fun l =>
          (right.evaluate values).bind fun r => Value.mul? l r := by
  rw [evaluate]
  cases left.evaluate values <;> cases right.evaluate values <;> rfl

end Term

/-- What an assignment has to satisfy. -/
inductive Goal
  | equal (left right : Term)
  | less (left right : Term)
  | greater (left right : Term)
  | all (left right : Goal)
  | any (left right : Goal)
deriving DecidableEq, Repr

namespace Goal

/-- Whether both terms have values that pass a test. -/
def compare (test : Value → Value → Bool) (values : List Value) (left right : Term) : Bool :=
  match left.evaluate values, right.evaluate values with
  | some l, some r => test l r
  | _, _ => false

/-- Whether a goal is true of the values. -/
def holds (values : List Value) : Goal → Bool
  | .equal left right => compare (fun l r => decide (l = r)) values left right
  | .less left right => compare (fun l r => decide (l < r)) values left right
  | .greater left right => compare (fun l r => decide (r < l)) values left right
  | .all left right => left.holds values && right.holds values
  | .any left right => left.holds values || right.holds values

@[simp] theorem holds_all (values : List Value) (left right : Goal) :
    (all left right).holds values = (left.holds values && right.holds values) := rfl

@[simp] theorem holds_any (values : List Value) (left right : Goal) :
    (any left right).holds values = (left.holds values || right.holds values) := rfl

end Goal

end Diophantine
