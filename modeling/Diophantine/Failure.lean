import Diophantine.Text.Slice

/-!
# Failures

Reading a text fails for one of a few causes, and at one place. A `Failure` holds both and no
text: the snippet that a person wants to see is added at the very end, from the whole text (see
`Diophantine.Diagnostic`). Comparing two failures is therefore comparing what went wrong, not how
it is worded.

* `Cause` lists what can go wrong, `Cause.message` words it,
* `Cause.kind` separates a character that fits no rule from a clause that is built wrongly,
* `map_eq_ok_iff` and its siblings say what was a result or a failure before it was passed on.
-/

namespace Diophantine

/-- The deepest nesting of parentheses within one clause. -/
def maxNesting : Nat := 128

/-- The two classes of failures. -/
inductive Kind
  /-- A character stands where no rule can use it. -/
  | syntactic
  /-- Parentheses do not pair up, or a clause lacks the sign that makes it one. -/
  | structural
deriving DecidableEq, Repr

/-- The heading of a failure. -/
def Kind.heading : Kind → String
  | .syntactic => "syntax error"
  | .structural => "structural error"

/-- What can be wrong with a text. -/
inductive Cause
  /-- A parenthesis is never closed. -/
  | unclosed
  /-- A closing parenthesis closes nothing. -/
  | unmatched
  /-- More than `maxNesting` parentheses are open at once. -/
  | tooDeep
  /-- Nothing stands where a clause belongs. -/
  | emptyClause
  /-- A clause for an equation has no equals sign outside parentheses. -/
  | noEquals
  /-- A clause for a constraint compares nothing. -/
  | noComparator
  /-- A term should begin here; another character does, or the clause ends. -/
  | noTerm (found : Option Char)
  /-- An operand is read, but no comparison sign follows it. -/
  | noComparison (found : Option Char)
  /-- A complete expression is followed by something else. -/
  | afterExpression (found : Char)
  /-- A complete constraint is followed by something else. -/
  | afterConstraint (found : Char)
  /-- The digits of a constant that is too large for a value. -/
  | outOfRange (digits : List Char)
deriving DecidableEq, Repr

namespace Cause

/-- How a message names what was found instead. -/
def describe : Option Char → String
  | some c => "'" ++ c.toString ++ "'"
  | none => "end of clause"

/-- The wording of a cause. -/
def message : Cause → String
  | .unclosed => "unclosed '('"
  | .unmatched => "unmatched ')'"
  | .tooDeep => "nesting too deep (more than " ++ toString maxNesting ++ " levels)"
  | .emptyClause => "empty clause"
  | .noEquals => "equation has no '='"
  | .noComparator => "constraint has no '<' or '>'"
  | .noTerm found => "expected a constant, variable or '(' but found " ++ describe found
  | .noComparison found => "expected '<' or '>' but found " ++ describe found
  | .afterExpression found => "unexpected " ++ describe (some found) ++ " after expression"
  | .afterConstraint found => "unexpected " ++ describe (some found) ++ " after constraint"
  | .outOfRange digits => "integer literal '" ++ String.ofList digits ++ "' is out of range"

/-- The class of a cause. -/
def kind : Cause → Kind
  | .unclosed | .unmatched | .tooDeep | .noEquals | .noComparator => .structural
  | .emptyClause | .noTerm _ | .noComparison _ | .afterExpression _ | .afterConstraint _
  | .outOfRange _ => .syntactic

end Cause

/-- A cause and the place where it shows. -/
structure Failure where
  cause : Cause
  span : Span
deriving DecidableEq, Repr

/-- A failure at the first character of a slice. -/
def Slice.fail (slice : Slice) (cause : Cause) : Failure :=
  { cause := cause, span := slice.point }

/-- A failure of a slice as a whole. -/
def Slice.failWhole (slice : Slice) (cause : Cause) : Failure :=
  { cause := cause, span := slice.span }

/-! ### Results that may be failures -/

section Results

variable {ε δ α β : Type} {result : Except ε α}

/-- A result behind which more is put is the one that was there, with more. -/
@[simp] theorem map_eq_ok_iff {f : α → β} {value : β} :
    result.map f = .ok value ↔ ∃ found, result = .ok found ∧ f found = value := by
  cases result with
  | error failure => exact iff_of_false nofun nofun
  | ok found =>
    constructor
    · intro h
      exact ⟨found, rfl, Except.ok.inj h⟩
    · rintro ⟨_, ⟨⟩, rfl⟩
      rfl

@[simp] theorem map_eq_error_iff {f : α → β} {failure : ε} :
    result.map f = .error failure ↔ result = .error failure := by
  cases result with
  | error inner =>
    constructor
    · intro h
      exact congrArg Except.error (Except.error.inj h)
    · rintro ⟨⟩
      rfl
  | ok found => exact iff_of_false nofun nofun

/-- Wording a failure differently makes no success of it. -/
@[simp] theorem mapError_eq_ok_iff {f : ε → δ} {value : α} :
    result.mapError f = .ok value ↔ result = .ok value := by
  cases result with
  | error failure => exact iff_of_false nofun nofun
  | ok found =>
    constructor
    · intro h
      exact congrArg Except.ok (Except.ok.inj h)
    · rintro ⟨⟩
      rfl

/-- A failure that is worded for a person was a failure before. -/
@[simp] theorem mapError_eq_error_iff {f : ε → δ} {worded : δ} :
    result.mapError f = .error worded ↔
      ∃ failure, result = .error failure ∧ f failure = worded := by
  cases result with
  | error failure =>
    constructor
    · intro h
      exact ⟨failure, rfl, Except.error.inj h⟩
    · rintro ⟨_, ⟨⟩, rfl⟩
      rfl
  | ok found => exact iff_of_false nofun nofun

/-- What is not accepted is refused for a reason. -/
theorem exists_eq_error (h : ∀ value, result ≠ .ok value) :
    ∃ failure, result = .error failure := by
  cases result with
  | error failure => exact ⟨failure, rfl⟩
  | ok value => exact absurd rfl (h value)

end Results

end Diophantine
