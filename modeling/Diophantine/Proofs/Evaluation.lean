import Diophantine.Proofs.Assignment
import Diophantine.Proofs.Range

/-!
# Evaluation is exact or absent

An expression has a value under an assignment exactly if all of its variables are bound and each of
its parts stands for an integer that fits; the value is the integer that the expression stands for.

A constraint may have an answer although some of its operands have no value, since the right side of
a connective is not asked where the left one decides. The answer is right all the same: it is the
truth over the integers, whatever the names stand for that are not bound. Only the names that occur
are looked up.

- `Expression.parts`: an expression and all that it is built from;
- `Expression.evaluate_eq_some_iff_parts`: when there is a value;
- `Constraint.isTrue_iff_of_holds`: what an answer says;
- `Constraint.exists_holds_of_operands`: when there is one;
- `Expression.evaluate_congr`, `Constraint.holds_congr`: which names are looked up;
- `evaluation_exact_or_absent`: all of it.
-/

namespace Diophantine

variable {assignment other : Assignment} {σ : Name → Int}

/-! ### Values -/

/-- An expression and all that it is built from. -/
def Expression.parts : Expression → List Expression
  | .constant value => [.constant value]
  | .var name => [.var name]
  | .add left right => .add left right :: (left.parts ++ right.parts)
  | .mul left right => .mul left right :: (left.parts ++ right.parts)

/-- An expression is in range if each of its parts fits. -/
theorem Expression.inRange_iff_parts (expression : Expression) :
    expression.InRange σ ↔ ∀ part ∈ expression.parts, FitsSigned (part.exact σ) := by
  induction expression with
  | constant value => exact iff_of_true trivial (List.forall_mem_singleton.mpr value.fitsSigned)
  | var name =>
    unfold parts
    rw [List.forall_mem_singleton]
    exact Iff.rfl
  | add left right ihl ihr | mul left right ihl ihr =>
    unfold parts
    rw [List.forall_mem_cons, List.forall_mem_append, ← ihl, ← ihr]
    exact and_rotate.symm

/-- Each of the given names has a value. -/
def Assignment.Binds (assignment : Assignment) (names : List Name) : Prop :=
  ∀ name ∈ names, ∃ value, assignment.find? name = some value

@[simp] theorem Assignment.binds_append {names more : List Name} :
    assignment.Binds (names ++ more) ↔ assignment.Binds names ∧ assignment.Binds more :=
  List.forall_mem_append

/-- Names that are bound have the values that they stand for. -/
theorem Assignment.Binds.gives {names : List Name} (h : assignment.Binds names)
    (hagrees : assignment.Agrees σ) : assignment.Gives names σ := by
  intro name hname
  obtain ⟨value, hvalue⟩ := h name hname
  exact ⟨value, hvalue, (hagrees name value hvalue).symm⟩

/-- No operation goes on without the values of both operands. -/
theorem Expression.binds_of_evaluate {expression : Expression} {value : Value}
    (h : expression.evaluate assignment = some value) : assignment.Binds expression.names := by
  induction expression generalizing value with
  | constant c => exact nofun
  | var name => exact List.forall_mem_singleton.mpr ⟨value, h⟩
  | add left right ihl ihr | mul left right ihl ihr =>
    simp only [evaluate_add, evaluate_mul] at h
    obtain ⟨l, hl, h⟩ := Option.bind_eq_some_iff.mp h
    obtain ⟨r, hr, -⟩ := Option.bind_eq_some_iff.mp h
    exact Assignment.binds_append.mpr ⟨ihl hl, ihr hr⟩

/-- An expression has a value exactly if its variables are bound and its parts fit, and the value is
the integer that it stands for. -/
theorem Expression.evaluate_eq_some_iff_parts (hagrees : assignment.Agrees σ)
    (expression : Expression) (value : Value) :
    expression.evaluate assignment = some value ↔
      assignment.Binds expression.names
        ∧ (∀ part ∈ expression.parts, FitsSigned (part.exact σ))
        ∧ expression.exact σ = value.toInt := by
  rw [← inRange_iff_parts]
  constructor
  · intro h
    have hbinds := binds_of_evaluate h
    exact ⟨hbinds, (evaluate_eq_some_iff (hbinds.gives hagrees) value).mp h⟩
  · rintro ⟨hbinds, h⟩
    exact (evaluate_eq_some_iff (hbinds.gives hagrees) value).mpr h

/-! ### Answers -/

/-- The answer of a comparison comes from the values of both operands. -/
theorem Value.exists_of_compare_eq_some {test : Value → Value → Bool} {x y : Option Value}
    {answer : Bool}
    (h : (match x, y with | some l, some r => some (test l r) | _, _ => none) = some answer) :
    ∃ l r, x = some l ∧ y = some r ∧ test l r = answer := by
  split at h
  · exact ⟨_, _, rfl, rfl, Option.some.inj h⟩
  · cases h

/-- The answer of a constraint is its truth over the integers. Where the left side of a connective
decides, it does so for all values of the right side. -/
theorem Constraint.isTrue_iff_of_holds (hagrees : assignment.Agrees σ) {constraint : Constraint}
    {answer : Bool} (h : constraint.holds assignment = some answer) :
    constraint.IsTrue σ ↔ answer = true := by
  induction constraint generalizing answer with
  | less left right =>
    obtain ⟨l, r, hl, hr, rfl⟩ := Value.exists_of_compare_eq_some h
    rw [isTrue_less, Expression.exact_lt_iff hagrees hl hr, decide_eq_true_iff]
  | greater left right =>
    obtain ⟨l, r, hl, hr, rfl⟩ := Value.exists_of_compare_eq_some h
    rw [isTrue_greater, Expression.exact_lt_iff hagrees hr hl, decide_eq_true_iff]
  | and left right ihl ihr =>
    unfold holds at h
    split at h
    · cases h
    · rename_i hl
      cases h
      simp [ihl hl]
    · rename_i hl
      simp [ihl hl, ihr h]
  | or left right ihl ihr =>
    unfold holds at h
    split at h
    · cases h
    · rename_i hl
      cases h
      simp [ihl hl]
    · rename_i hl
      simp [ihl hl, ihr h]

/-- The expressions that a constraint compares, from left to right. -/
def Constraint.operands : Constraint → List Expression
  | .less left right | .greater left right => [left, right]
  | .and left right | .or left right => left.operands ++ right.operands

/-- An answer is only missing if an operand has no value. -/
theorem Constraint.exists_holds_of_operands {constraint : Constraint}
    (h : ∀ operand ∈ constraint.operands, ∃ value, operand.evaluate assignment = some value) :
    ∃ answer, constraint.holds assignment = some answer := by
  induction constraint with
  | less left right | greater left right =>
    obtain ⟨⟨l, hl⟩, hright⟩ := List.forall_mem_cons.mp h
    obtain ⟨r, hr⟩ := List.forall_mem_singleton.mp hright
    unfold holds
    rw [hl, hr]
    exact ⟨_, rfl⟩
  | and left right ihl ihr =>
    obtain ⟨hleft, hright⟩ := List.forall_mem_append.mp h
    obtain ⟨l, hl⟩ := ihl hleft
    unfold holds
    rw [hl]
    cases l with
    | false => exact ⟨false, rfl⟩
    | true => exact ihr hright
  | or left right ihl ihr =>
    obtain ⟨hleft, hright⟩ := List.forall_mem_append.mp h
    obtain ⟨l, hl⟩ := ihl hleft
    unfold holds
    rw [hl]
    cases l with
    | false => exact ihr hright
    | true => exact ⟨true, rfl⟩

/-! ### Names that are looked up -/

/-- Both assignments have the same to say about each of the names. -/
def Assignment.AgreeOn (assignment other : Assignment) (names : List Name) : Prop :=
  ∀ name ∈ names, assignment.find? name = other.find? name

instance (names : List Name) : Decidable (assignment.AgreeOn other names) :=
  List.decidableBAll (fun name => assignment.find? name = other.find? name) names

@[simp] theorem Assignment.agreeOn_append {names more : List Name} :
    assignment.AgreeOn other (names ++ more) ↔
      assignment.AgreeOn other names ∧ assignment.AgreeOn other more :=
  List.forall_mem_append

theorem Expression.evaluate_congr {expression : Expression}
    (h : assignment.AgreeOn other expression.names) :
    expression.evaluate assignment = expression.evaluate other := by
  induction expression with
  | constant c => rfl
  | var name => exact h name (List.mem_singleton_self name)
  | add left right ihl ihr | mul left right ihl ihr =>
    obtain ⟨hl, hr⟩ := Assignment.agreeOn_append.mp h
    simp only [evaluate_add, evaluate_mul, ihl hl, ihr hr]

theorem Constraint.holds_congr {constraint : Constraint}
    (h : assignment.AgreeOn other constraint.names) :
    constraint.holds assignment = constraint.holds other := by
  induction constraint with
  | less left right | greater left right =>
    obtain ⟨hl, hr⟩ := Assignment.agreeOn_append.mp h
    unfold holds
    rw [Expression.evaluate_congr hl, Expression.evaluate_congr hr]
  | and left right ihl ihr | or left right ihl ihr =>
    obtain ⟨hl, hr⟩ := Assignment.agreeOn_append.mp h
    unfold holds
    rw [ihl hl, ihr hr]

/-! ### All of it -/

/-- **Evaluation is exact or absent**, and what it skips does not matter. For all integers that
names may stand for beside those that are bound, an expression has a value exactly if all of its
variables are bound and each of its parts stands for an integer that fits, and it is the integer
that the expression stands for; and a constraint that has an answer is true of the integers exactly
if the answer is yes, and it has one if its operands have values. Both look up the variables that
occur, and no other names. -/
theorem evaluation_exact_or_absent (assignment : Assignment) :
    (∀ σ, assignment.Agrees σ → ∀ (expression : Expression) (value : Value),
      expression.evaluate assignment = some value ↔
        assignment.Binds expression.vars.names
          ∧ (∀ part ∈ expression.parts, FitsSigned (part.exact σ))
          ∧ expression.exact σ = value.toInt)
    ∧ (∀ σ, assignment.Agrees σ → ∀ (constraint : Constraint) (answer : Bool),
      constraint.holds assignment = some answer → (constraint.IsTrue σ ↔ answer = true))
    ∧ (∀ constraint : Constraint,
      (∀ operand ∈ constraint.operands, ∃ value, operand.evaluate assignment = some value) →
        ∃ answer, constraint.holds assignment = some answer)
    ∧ (∀ (expression : Expression) (other : Assignment),
      assignment.AgreeOn other expression.vars.names →
        expression.evaluate assignment = expression.evaluate other)
    ∧ ∀ (constraint : Constraint) (other : Assignment),
      assignment.AgreeOn other constraint.vars.names →
        constraint.holds assignment = constraint.holds other := by
  refine ⟨fun σ hagrees expression value => ?_, fun σ hagrees constraint answer h => ?_,
    fun constraint h => ?_, fun expression other h => ?_, fun constraint other h => ?_⟩
  · have hvars : assignment.Binds expression.vars.names ↔ assignment.Binds expression.names :=
      forall_congr' fun name => imp_congr_left NameSet.mem_ofList
    rw [hvars]
    exact expression.evaluate_eq_some_iff_parts hagrees value
  · exact constraint.isTrue_iff_of_holds hagrees h
  · exact Constraint.exists_holds_of_operands h
  · exact Expression.evaluate_congr fun name hname => h name (NameSet.mem_ofList.mpr hname)
  · exact Constraint.holds_congr fun name hname => h name (NameSet.mem_ofList.mpr hname)

/-- The sum `(9223372036854775807 + x) + -1` has no value for `x = 1`: the whole would fit, but a
part does not. The comparison `x < 2` has an answer, and `x < 2 or y < 9223372036854775807 * x` is
true then, whatever `y` is and however much may be bound to another name. -/
theorem evaluation_exact_or_absent_overflow :
    let assignment := Assignment.ofList [('x', 1)]
    let sum : Expression :=
      .add (.add (.constant 9223372036854775807) (.var 'x')) (.constant (-1))
    let comparison : Constraint := .less (.var 'x') (.constant 2)
    let constraint : Constraint :=
      .or comparison
        (.less (.var 'y') (.mul (.constant 9223372036854775807) (.var 'x')))
    (∀ value, sum.evaluate assignment ≠ some value)
      ∧ (∀ σ, σ 'x' = 1 → sum.exact σ = 9223372036854775807 ∧ constraint.IsTrue σ)
      ∧ (∃ answer, comparison.holds assignment = some answer)
      ∧ sum.evaluate assignment = sum.evaluate (Assignment.ofList [('x', 1), ('z', 5)])
      ∧ constraint.holds assignment
        = constraint.holds (Assignment.ofList [('x', 1), ('z', 5)]) := by
  intro assignment sum comparison constraint
  obtain ⟨hvalue, hanswer, hexists, hsum, hconstraint⟩ := evaluation_exact_or_absent assignment
  have hfind : ∀ name, assignment.find? name = if name = 'x' then some 1 else none :=
    Assignment.find?_insert Assignment.empty 'x' 1
  have hagrees : ∀ σ : Name → Int, σ 'x' = 1 → assignment.Agrees σ := by
    intro σ hx name value hname
    rw [hfind] at hname
    split at hname
    · rename_i heq
      cases hname
      exact heq ▸ hx
    · cases hname
  refine ⟨fun value h => ?_, fun σ hx => ⟨?_, ?_⟩, hexists comparison ?_, hsum sum _ (by decide),
    hconstraint constraint _ (by decide)⟩
  · have hparts := ((hvalue (fun _ => 1) (hagrees _ rfl) sum value).mp h).2.1
    have hfits := hparts (.add (.constant 9223372036854775807) (.var 'x')) (by decide)
    exact absurd hfits.2 (by decide)
  · show (9223372036854775807 : Value).toInt + σ 'x' + (-1 : Value).toInt = 9223372036854775807
    rw [hx]
    rfl
  · exact (hanswer σ (hagrees σ hx) constraint true (by decide)).mpr rfl
  · exact List.forall_mem_cons.mpr ⟨⟨1, rfl⟩, List.forall_mem_singleton.mpr ⟨2, rfl⟩⟩

end Diophantine
