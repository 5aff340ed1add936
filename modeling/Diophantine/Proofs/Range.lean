import Mathlib.Algebra.Group.Int.Defs
import Diophantine.Problem.Basic
import Diophantine.Proofs.Exactness

/-!
# Staying in range

Arithmetic on values stops at a part that is out of range, even where the whole would be back in
it. So an expression has a value exactly if all of its parts stand for integers that fit into a word
of 64 bits, and a comparison counts as true exactly if it is true of the integers and both of its
operands have values.

- `FitsSigned`: the integers that fit;
- `Expression.InRange`: all parts of an expression fit;
- `Equation.IsTrueInRange`, `Constraint.IsTrueInRange`, `Problem.IsTrueInRange`: what is said is
  true of the integers, and the parts that make it true are in range;
- `Expression.evaluate_eq_some_iff`, `Equation.holds_iff_isTrueInRange`,
  `Constraint.certain_iff_isTrueInRange`: what is computed.
-/

namespace Diophantine

/-! ### Integers that fit -/

/-- The signed words of 64 bits. -/
def FitsSigned (x : Int) : Prop :=
  -2 ^ 63 ≤ x ∧ x < 2 ^ 63

/-- A number that fits into a word is not changed by being put into one. -/
theorem FitsSigned.toInt_ofInt {x : Int} (h : FitsSigned x) : (Int64.ofInt x).toInt = x :=
  Int64.toInt_ofInt_of_le h.1 h.2

theorem Value.fitsSigned (value : Value) : FitsSigned value.toInt :=
  ⟨Int64.le_toInt value, Int64.toInt_lt value⟩

/-! ### Parts in range -/

/-- All parts of an expression stand for integers that fit. -/
def Expression.InRange (σ : Name → Int) : Expression → Prop
  | .constant _ => True
  | .var name => FitsSigned (σ name)
  | .add left right =>
    left.InRange σ ∧ right.InRange σ ∧ FitsSigned (left.exact σ + right.exact σ)
  | .mul left right =>
    left.InRange σ ∧ right.InRange σ ∧ FitsSigned (left.exact σ * right.exact σ)

/-- Both sides are in range and stand for the same integer. -/
def Equation.IsTrueInRange (σ : Name → Int) (equation : Equation) : Prop :=
  equation.left.InRange σ ∧ equation.right.InRange σ ∧ equation.IsTrue σ

/-- A constraint is true by comparisons of which both operands are in range. -/
def Constraint.IsTrueInRange (σ : Name → Int) : Constraint → Prop
  | .less left right => left.InRange σ ∧ right.InRange σ ∧ left.exact σ < right.exact σ
  | .greater left right => left.InRange σ ∧ right.InRange σ ∧ right.exact σ < left.exact σ
  | .and left right => left.IsTrueInRange σ ∧ right.IsTrueInRange σ
  | .or left right => left.IsTrueInRange σ ∨ right.IsTrueInRange σ

/-- All that a problem says is true of the integers. -/
def Problem.IsTrue (σ : Name → Int) (problem : Problem) : Prop :=
  (∀ equation ∈ problem.equations, equation.IsTrue σ)
    ∧ ∀ constraint ∈ problem.constraints, constraint.IsTrue σ

/-- All that a problem says is true by parts that are in range. -/
def Problem.IsTrueInRange (σ : Name → Int) (problem : Problem) : Prop :=
  (∀ equation ∈ problem.equations, equation.IsTrueInRange σ)
    ∧ ∀ constraint ∈ problem.constraints, constraint.IsTrueInRange σ

variable {assignment : Assignment} {σ : Name → Int}

theorem Expression.InRange.fitsSigned {expression : Expression} (h : expression.InRange σ) :
    FitsSigned (expression.exact σ) := by
  cases expression with
  | constant value => exact value.fitsSigned
  | var name => exact h
  | add left right => exact h.2.2
  | mul left right => exact h.2.2

/-! ### What is computed -/

/-- Each of the given names is bound to the integer that it stands for. -/
def Assignment.Gives (assignment : Assignment) (names : List Name) (σ : Name → Int) : Prop :=
  ∀ name ∈ names, ∃ value, assignment.find? name = some value ∧ value.toInt = σ name

theorem Assignment.exists_agrees (assignment : Assignment) : ∃ σ, assignment.Agrees σ := by
  refine ⟨fun name => (assignment.find? name).elim 0 Int64.toInt, fun name value hfind => ?_⟩
  simp [hfind]

@[simp] theorem Assignment.gives_append {names others : List Name} :
    assignment.Gives (names ++ others) σ ↔
      assignment.Gives names σ ∧ assignment.Gives others σ :=
  List.forall_mem_append

/-- An expression has a value that is the integer that it stands for, or it has none because a part
is out of range. -/
def Expression.Computes (assignment : Assignment) (σ : Name → Int) (expression : Expression) :
    Prop :=
  ∀ value, expression.evaluate assignment = some value ↔
    expression.InRange σ ∧ expression.exact σ = value.toInt

section Operands

variable {left right : Expression} (hl : left.Computes assignment σ)
  (hr : right.Computes assignment σ)

include hl hr

/-- An operation that is exact or absent has a value if both operands are in range and the exact
result fits. -/
theorem Expression.bind_eq_some_iff {op : Value → Value → Option Value} {exact : Int → Int → Int}
    (hop : ∀ {l r v}, op l r = some v ↔ v.toInt = exact l.toInt r.toInt) (value : Value) :
    ((left.evaluate assignment).bind fun l => (right.evaluate assignment).bind fun r => op l r)
        = some value
      ↔ (left.InRange σ ∧ right.InRange σ ∧ FitsSigned (exact (left.exact σ) (right.exact σ)))
        ∧ exact (left.exact σ) (right.exact σ) = value.toInt := by
  constructor
  · intro h
    obtain ⟨l, hleft, h⟩ := Option.bind_eq_some_iff.mp h
    obtain ⟨r, hright, h⟩ := Option.bind_eq_some_iff.mp h
    obtain ⟨hlrange, hlexact⟩ := (hl l).mp hleft
    obtain ⟨hrrange, hrexact⟩ := (hr r).mp hright
    have hvalue : exact (left.exact σ) (right.exact σ) = value.toInt := by
      rw [hlexact, hrexact]
      exact (hop.mp h).symm
    exact ⟨⟨hlrange, hrrange, hvalue ▸ value.fitsSigned⟩, hvalue⟩
  · rintro ⟨⟨hlrange, hrrange, -⟩, hvalue⟩
    have hlexact := hlrange.fitsSigned.toInt_ofInt
    have hrexact := hrrange.fitsSigned.toInt_ofInt
    refine Option.bind_eq_some_iff.mpr ⟨_, (hl _).mpr ⟨hlrange, hlexact.symm⟩, ?_⟩
    refine Option.bind_eq_some_iff.mpr ⟨_, (hr _).mpr ⟨hrrange, hrexact.symm⟩, ?_⟩
    rw [hop, hlexact, hrexact]
    exact hvalue.symm

/-- A test on the values of two expressions passes if both are in range and the integers pass. -/
theorem Value.both_iff_exact {test : Value → Value → Bool} {R : Int → Int → Prop}
    (htest : ∀ {l r}, test l r = true ↔ R l.toInt r.toInt) :
    Value.both test (left.evaluate assignment) (right.evaluate assignment) = true
      ↔ left.InRange σ ∧ right.InRange σ ∧ R (left.exact σ) (right.exact σ) := by
  rw [Value.both_eq_true_iff]
  constructor
  · rintro ⟨l, r, hleft, hright, hpass⟩
    obtain ⟨hlrange, hlexact⟩ := (hl l).mp hleft
    obtain ⟨hrrange, hrexact⟩ := (hr r).mp hright
    refine ⟨hlrange, hrrange, ?_⟩
    rw [hlexact, hrexact]
    exact htest.mp hpass
  · rintro ⟨hlrange, hrrange, hrelation⟩
    have hlexact := hlrange.fitsSigned.toInt_ofInt
    have hrexact := hrrange.fitsSigned.toInt_ofInt
    refine ⟨_, _, (hl _).mpr ⟨hlrange, hlexact.symm⟩, (hr _).mpr ⟨hrrange, hrexact.symm⟩, ?_⟩
    rw [htest, hlexact, hrexact]
    exact hrelation

end Operands

/-- An expression has a value exactly if all of its parts are in range, and it is the integer that
the expression stands for. -/
theorem Expression.evaluate_eq_some_iff {expression : Expression}
    (hgives : assignment.Gives expression.names σ) : expression.Computes assignment σ := by
  induction expression with
  | constant c =>
    intro value
    simp [InRange, Int64.toInt_inj]
  | var name =>
    intro value
    obtain ⟨bound, hfind, hbound⟩ := hgives name (List.mem_singleton_self name)
    simp [InRange, hfind, ← hbound, bound.fitsSigned, Int64.toInt_inj]
  | add left right ihl ihr =>
    obtain ⟨hleft, hright⟩ := Assignment.gives_append.mp hgives
    intro value
    rw [evaluate_add]
    exact bind_eq_some_iff (ihl hleft) (ihr hright) Value.add?_eq_some_iff value
  | mul left right ihl ihr =>
    obtain ⟨hleft, hright⟩ := Assignment.gives_append.mp hgives
    intro value
    rw [evaluate_mul]
    exact bind_eq_some_iff (ihl hleft) (ihr hright) Value.mul?_eq_some_iff value

/-- An equation holds exactly if it is true and in range. -/
theorem Equation.holds_iff_isTrueInRange {equation : Equation}
    (hgives : assignment.Gives equation.names σ) :
    equation.holds assignment = some true ↔ equation.IsTrueInRange σ := by
  obtain ⟨hleft, hright⟩ := Assignment.gives_append.mp hgives
  rw [holds_eq_some_true_iff]
  refine Value.both_iff_exact (Expression.evaluate_eq_some_iff hleft)
    (Expression.evaluate_eq_some_iff hright) (R := (· = ·)) ?_
  intro l r
  rw [decide_eq_true_iff, Int64.toInt_inj]

/-- A constraint is certain exactly if it is true by comparisons that are in range. -/
theorem Constraint.certain_iff_isTrueInRange {constraint : Constraint}
    (hgives : assignment.Gives constraint.names σ) :
    constraint.certain assignment = true ↔ constraint.IsTrueInRange σ := by
  induction constraint with
  | less left right =>
    obtain ⟨hleft, hright⟩ := Assignment.gives_append.mp hgives
    refine Value.both_iff_exact (Expression.evaluate_eq_some_iff hleft)
      (Expression.evaluate_eq_some_iff hright) ?_
    intro l r
    rw [decide_eq_true_iff, Int64.lt_iff_toInt_lt]
  | greater left right =>
    obtain ⟨hleft, hright⟩ := Assignment.gives_append.mp hgives
    refine Value.both_iff_exact (Expression.evaluate_eq_some_iff hleft)
      (Expression.evaluate_eq_some_iff hright) (R := fun l r => r < l) ?_
    intro l r
    rw [decide_eq_true_iff, Int64.lt_iff_toInt_lt]
  | and left right ihl ihr =>
    obtain ⟨hleft, hright⟩ := Assignment.gives_append.mp hgives
    rw [certain_and, Bool.and_eq_true_iff, ihl hleft, ihr hright]
    exact Iff.rfl
  | or left right ihl ihr =>
    obtain ⟨hleft, hright⟩ := Assignment.gives_append.mp hgives
    rw [certain_or, Bool.or_eq_true_iff, ihl hleft, ihr hright]
    exact Iff.rfl

end Diophantine
