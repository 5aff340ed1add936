import Diophantine.Constraint.Basic

/-!
# Exact arithmetic

What equations and constraints say is about integers, and integers have no range. Where evaluation
gives a value it is the exact one, so the answers that are built from values are exact as well.

A comparison with an operand that has no value is not known to be true. Counting it as false is
safe: the connectives are monotone, so whatever comes out true in spite of that is true.

- `Expression.exact`, `Equation.IsTrue`, `Constraint.IsTrue`: the meaning over the integers;
- `Constraint.certain`: the truth with every comparison that lacks a value counted as false;
- `Expression.exact_of_evaluate`, `Equation.isTrue_of_holds`, `Constraint.isTrue_of_certain`: what
  is computed is exact;
- `Constraint.certain_of_holds`: where a constraint has an answer, counting comparisons as false
  does not change it.
-/

namespace Diophantine

/-! ### Meaning over the integers -/

/-- The integer that an expression stands for. -/
def Expression.exact (σ : Name → Int) : Expression → Int
  | .constant value => value.toInt
  | .var name => σ name
  | .add left right => left.exact σ + right.exact σ
  | .mul left right => left.exact σ * right.exact σ

section Exact

variable (σ : Name → Int)

@[simp] theorem Expression.exact_constant (value : Value) :
    (Expression.constant value).exact σ = value.toInt := rfl

@[simp] theorem Expression.exact_var (name : Name) : (Expression.var name).exact σ = σ name := rfl

@[simp] theorem Expression.exact_add (left right : Expression) :
    (Expression.add left right).exact σ = left.exact σ + right.exact σ := rfl

@[simp] theorem Expression.exact_mul (left right : Expression) :
    (Expression.mul left right).exact σ = left.exact σ * right.exact σ := rfl

@[simp] theorem Expression.exact_negated (inner : Expression) :
    inner.negated.exact σ = -inner.exact σ := by
  rw [negated, exact_mul, exact_constant, show (-1 : Int64).toInt = -1 from rfl, Int.neg_one_mul]

end Exact

/-- Both sides stand for the same integer. -/
def Equation.IsTrue (σ : Name → Int) (equation : Equation) : Prop :=
  equation.left.exact σ = equation.right.exact σ

/-- What a constraint says is true of the integers. -/
def Constraint.IsTrue (σ : Name → Int) : Constraint → Prop
  | .less left right => left.exact σ < right.exact σ
  | .greater left right => right.exact σ < left.exact σ
  | .and left right => left.IsTrue σ ∧ right.IsTrue σ
  | .or left right => left.IsTrue σ ∨ right.IsTrue σ

section IsTrue

variable (σ : Name → Int)

@[simp] theorem Constraint.isTrue_less (left right : Expression) :
    (Constraint.less left right).IsTrue σ ↔ left.exact σ < right.exact σ := Iff.rfl

@[simp] theorem Constraint.isTrue_greater (left right : Expression) :
    (Constraint.greater left right).IsTrue σ ↔ right.exact σ < left.exact σ := Iff.rfl

@[simp] theorem Constraint.isTrue_and (left right : Constraint) :
    (Constraint.and left right).IsTrue σ ↔ left.IsTrue σ ∧ right.IsTrue σ := Iff.rfl

@[simp] theorem Constraint.isTrue_or (left right : Constraint) :
    (Constraint.or left right).IsTrue σ ↔ left.IsTrue σ ∨ right.IsTrue σ := Iff.rfl

end IsTrue

/-- Integers for names that are the values of those that are bound. -/
def Assignment.Agrees (assignment : Assignment) (σ : Name → Int) : Prop :=
  ∀ name value, assignment.find? name = some value → σ name = value.toInt

variable {assignment : Assignment} {σ : Name → Int}

/-! ### Values are exact -/

/-- The value of an expression is the integer that it stands for. -/
theorem Expression.exact_of_evaluate (hagrees : assignment.Agrees σ) {expression : Expression}
    {value : Value} (h : expression.evaluate assignment = some value) :
    expression.exact σ = value.toInt := by
  induction expression generalizing value with
  | constant c => exact congrArg Int64.toInt (Option.some.inj h)
  | var name => exact hagrees name value h
  | add left right ihl ihr =>
    simp only [evaluate_add, Option.bind_eq_some_iff, Value.add?_eq_some_iff] at h
    obtain ⟨l, hl, r, hr, hsum⟩ := h
    rw [exact_add, ihl hl, ihr hr, hsum]
  | mul left right ihl ihr =>
    simp only [evaluate_mul, Option.bind_eq_some_iff, Value.mul?_eq_some_iff] at h
    obtain ⟨l, hl, r, hr, hproduct⟩ := h
    rw [exact_mul, ihl hl, ihr hr, hproduct]

/-- Comparing values is comparing the integers that the expressions stand for. -/
theorem Expression.exact_lt_iff (hagrees : assignment.Agrees σ) {left right : Expression}
    {l r : Value} (hl : left.evaluate assignment = some l)
    (hr : right.evaluate assignment = some r) : left.exact σ < right.exact σ ↔ l < r := by
  rw [exact_of_evaluate hagrees hl, exact_of_evaluate hagrees hr, Int64.lt_iff_toInt_lt]

/-- An equation that holds is true. -/
theorem Equation.isTrue_of_holds (hagrees : assignment.Agrees σ) {equation : Equation}
    (h : equation.holds assignment = some true) : equation.IsTrue σ := by
  unfold holds at h
  split at h
  · rename_i l r hl hr
    have heq : l = r := of_decide_eq_true (Option.some.inj h)
    show equation.left.exact σ = equation.right.exact σ
    rw [Expression.exact_of_evaluate hagrees hl, Expression.exact_of_evaluate hagrees hr, heq]
  · cases h

/-! ### Comparisons without a value count as false -/

/-- The answer of a test on two values, which is `false` if one of them is missing. -/
def Value.both (test : Value → Value → Bool) : Option Value → Option Value → Bool
  | some l, some r => test l r
  | _, _ => false

/-- Whether a constraint is true if every comparison that lacks a value is counted as false. -/
def Constraint.certain (assignment : Assignment) : Constraint → Bool
  | .less left right =>
    Value.both (fun l r => decide (l < r)) (left.evaluate assignment) (right.evaluate assignment)
  | .greater left right =>
    Value.both (fun l r => decide (r < l)) (left.evaluate assignment) (right.evaluate assignment)
  | .and left right => left.certain assignment && right.certain assignment
  | .or left right => left.certain assignment || right.certain assignment

@[simp] theorem Constraint.certain_and (left right : Constraint) :
    (Constraint.and left right).certain assignment
      = (left.certain assignment && right.certain assignment) := rfl

@[simp] theorem Constraint.certain_or (left right : Constraint) :
    (Constraint.or left right).certain assignment
      = (left.certain assignment || right.certain assignment) := rfl

theorem Value.both_eq_true_iff {test : Value → Value → Bool} {x y : Option Value} :
    Value.both test x y = true ↔ ∃ l r, x = some l ∧ y = some r ∧ test l r = true := by
  constructor
  · intro h
    unfold Value.both at h
    split at h
    · exact ⟨_, _, rfl, rfl, h⟩
    · cases h
  · rintro ⟨l, r, rfl, rfl, htest⟩
    exact htest

/-- An equation holds if its sides have values that are equal. -/
theorem Equation.holds_eq_some_true_iff {equation : Equation} :
    equation.holds assignment = some true ↔
      Value.both (fun l r => decide (l = r)) (equation.left.evaluate assignment)
        (equation.right.evaluate assignment) = true := by
  rw [Value.both_eq_true_iff]
  unfold holds
  constructor
  · intro h
    split at h
    · rename_i l r hl hr
      exact ⟨l, r, hl, hr, Option.some.inj h⟩
    · cases h
  · rintro ⟨l, r, hl, hr, heq⟩
    rw [hl, hr]
    exact congrArg some heq

/-- Whatever is true with comparisons counted as false is true. -/
theorem Constraint.isTrue_of_certain (hagrees : assignment.Agrees σ) {constraint : Constraint}
    (h : constraint.certain assignment = true) : constraint.IsTrue σ := by
  induction constraint with
  | less left right =>
    obtain ⟨l, r, hl, hr, hlt⟩ := Value.both_eq_true_iff.mp h
    rw [isTrue_less, Expression.exact_lt_iff hagrees hl hr]
    exact of_decide_eq_true hlt
  | greater left right =>
    obtain ⟨l, r, hl, hr, hlt⟩ := Value.both_eq_true_iff.mp h
    rw [isTrue_greater, Expression.exact_lt_iff hagrees hr hl]
    exact of_decide_eq_true hlt
  | and left right ihl ihr =>
    simp only [certain_and, Bool.and_eq_true] at h
    exact ⟨ihl h.1, ihr h.2⟩
  | or left right ihl ihr =>
    simp only [certain_or, Bool.or_eq_true] at h
    exact h.imp ihl ihr

/-- Where a constraint has an answer, it is the same with comparisons counted as false: a missing
value only hides where the left side has decided. -/
theorem Constraint.certain_of_holds {constraint : Constraint} {answer : Bool}
    (h : constraint.holds assignment = some answer) : constraint.certain assignment = answer := by
  induction constraint generalizing answer with
  | less left right | greater left right =>
    unfold holds at h
    split at h
    · rename_i l r hl hr
      show Value.both _ (left.evaluate assignment) (right.evaluate assignment) = answer
      rw [hl, hr]
      exact Option.some.inj h
    · cases h
  | and left right ihl ihr =>
    rw [certain_and]
    unfold holds at h
    split at h
    · cases h
    · rename_i hl
      rw [ihl hl, Bool.false_and]
      exact Option.some.inj h
    · rename_i hl
      rw [ihl hl, Bool.true_and, ihr h]
  | or left right ihl ihr =>
    rw [certain_or]
    unfold holds at h
    split at h
    · cases h
    · rename_i hl
      rw [ihl hl, Bool.true_or]
      exact Option.some.inj h
    · rename_i hl
      rw [ihl hl, Bool.false_or, ihr h]

end Diophantine
