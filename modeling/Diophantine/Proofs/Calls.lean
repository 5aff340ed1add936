import Diophantine.Proofs.Constraint.Groups

/-!
# How many calls are open at once

Reading a clause calls itself for the groups of the clause, and those calls do the same for the
groups inside. Nothing counts the calls. What bounds them is the search for the closing parenthesis:
a group is not found if it holds parentheses that are `maxNesting` deep, so every call works on a
clause that nests less deeply than the one around it, and the outermost of them on one that nests
less deeply than `maxNesting`. This holds of any text, also of one whose parentheses do not pair up.

To say so, the same readers are run with a budget of calls. A call beyond the budget is left to
another reader, which may answer anything. So is a call on a slice that is not shorter than the one
around it. If the result is always the one without a budget, then that other reader is never asked.

- `Expression.readWithin`, `Constraint.readWithin`: reading with a budget;
- `Expression.readWithin_eq_read`, `Constraint.readWithin_eq_read`: which budgets are enough;
- `Expression.fits_of_read`, `Constraint.fits_of_read`: what is read is not too deep;
- `calls_within_maxNesting`: the bound for every slice.
-/

namespace Diophantine

/-- A call for a group needs less of a budget than the call around it. -/
theorem Slice.GroupOf.min_nesting_lt {interior : Slice} {text : List Char}
    (h : interior.GroupOf text) :
    min (nesting interior.chars) maxNesting < min (nesting text) maxNesting := by
  have hlt := h.nesting_lt
  have hroom := h.nesting_lt_maxNesting
  omega

namespace Expression

/-- Reads a slice as one expression with at most `budget` further calls open below this one. A call
beyond these, or on a slice that is not shorter than the one around it, is left to `aborted`. -/
def readWithin (aborted : GroupReader) : Nat → GroupReader
  | 0 => readWholeSum aborted
  | budget + 1 => fun slice =>
    readWholeSum
      (fun interior =>
        if interior.chars.length < slice.chars.length then readWithin aborted budget interior
        else aborted interior)
      slice

/-- A budget is enough if it allows for the nesting of the slice, or for any nesting at all. -/
theorem readWithin_eq_read (aborted : GroupReader) {budget : Nat} {slice : Slice}
    (h : min (nesting slice.chars) maxNesting ≤ budget) :
    readWithin aborted budget slice = read slice := by
  induction budget generalizing slice with
  | zero =>
    -- Without parentheses there is no group to be read.
    rw [readWithin, read_eq]
    refine readWholeSum_congr fun interior hgroup => ?_
    exact absurd (Nat.lt_of_lt_of_le hgroup.min_nesting_lt h) (Nat.not_lt_zero _)
  | succ budget ih =>
    rw [readWithin, read_eq]
    refine readWholeSum_congr fun interior hgroup => ?_
    rw [if_pos hgroup.length_lt]
    exact ih (Nat.le_of_lt_succ (Nat.lt_of_lt_of_le hgroup.min_nesting_lt h))

/-- With a budget of one, the second pair of parentheses is out of reach. -/
example : readWithin (fun interior => .error (interior.fail .unclosed)) 1 (Slice.ofString "((x))")
    = .error ((Slice.mk ⟨2, 1, 3⟩ ['x']).fail .unclosed) := by
  decide +kernel

theorem fits_of_read {slice : Slice} {tree : Expression} (h : read slice = .ok tree) :
    Fits slice.chars :=
  fits_of_readWholeSum ((read_eq slice).symm.trans h)

end Expression

namespace Constraint

/-- Reads a slice as one constraint with at most `budget` further calls open below this one, whether
they read operands or constraints. The other calls are left to `aborted`, as for expressions. -/
def readWithin (aborted : GroupReaders) : Nat → Slice → Except Failure Constraint
  | 0 => readWholeDisjunction aborted
  | budget + 1 => fun slice =>
    readWholeDisjunction
      { expression := fun interior =>
          if interior.chars.length < slice.chars.length then
            Expression.readWithin aborted.expression budget interior
          else aborted.expression interior
        constraint := fun interior =>
          if interior.chars.length < slice.chars.length then readWithin aborted budget interior
          else aborted.constraint interior }
      slice

theorem readWithin_eq_read (aborted : GroupReaders) {budget : Nat} {slice : Slice}
    (h : min (nesting slice.chars) maxNesting ≤ budget) :
    readWithin aborted budget slice = read slice := by
  induction budget generalizing slice with
  | zero =>
    rw [readWithin, read_eq]
    have hnone : ∀ interior : Slice, ¬ interior.GroupOf slice.chars := fun interior hgroup =>
      absurd (Nat.lt_of_lt_of_le hgroup.min_nesting_lt h) (Nat.not_lt_zero _)
    exact readWholeDisjunction_congr
      { expression := fun interior hgroup => absurd hgroup (hnone interior)
        constraint := fun interior hgroup => absurd hgroup (hnone interior) }
  | succ budget ih =>
    rw [readWithin, read_eq]
    have hbudget : ∀ interior : Slice, interior.GroupOf slice.chars →
        min (nesting interior.chars) maxNesting ≤ budget := fun interior hgroup =>
      Nat.le_of_lt_succ (Nat.lt_of_lt_of_le hgroup.min_nesting_lt h)
    refine readWholeDisjunction_congr
      { expression := fun interior hgroup => ?_, constraint := fun interior hgroup => ?_ }
    · exact (if_pos hgroup.length_lt).trans
        (Expression.readWithin_eq_read aborted.expression (hbudget interior hgroup))
    · exact (if_pos hgroup.length_lt).trans (ih (hbudget interior hgroup))

theorem fits_of_read {slice : Slice} {tree : Constraint} (h : read slice = .ok tree) :
    Fits slice.chars :=
  fits_of_readWholeDisjunction ((read_eq slice).symm.trans h)

end Constraint

/-- No slice needs more than `maxNesting` calls below the outermost one, all of them on shorter
slices: whatever further calls would give, the result is the same. A slice that nests more deeply
anywhere is refused. -/
theorem calls_within_maxNesting (slice : Slice) :
    (∀ aborted : GroupReader,
        Expression.readWithin aborted maxNesting slice = Expression.read slice) ∧
      (∀ aborted : GroupReaders,
        Constraint.readWithin aborted maxNesting slice = Constraint.read slice) ∧
      (maxNesting < nesting slice.chars →
        (∃ failure, Expression.read slice = .error failure) ∧
          ∃ failure, Constraint.read slice = .error failure) := by
  refine ⟨fun aborted => ?_, fun aborted => ?_, fun hdeep => ⟨?_, ?_⟩⟩
  · exact Expression.readWithin_eq_read aborted (Nat.min_le_right ..)
  · exact Constraint.readWithin_eq_read aborted (Nat.min_le_right ..)
  · exact exists_eq_error fun tree hread =>
      Nat.not_lt.mpr (Expression.fits_of_read hread).room hdeep
  · exact exists_eq_error fun tree hread =>
      Nat.not_lt.mpr (Constraint.fits_of_read hread).room hdeep

/-- A comparison in one pair of parentheses more than is allowed. -/
theorem calls_within_maxNesting_exceeded :
    let text := List.replicate 129 '(' ++ ['x', '<', '1'] ++ List.replicate 129 ')'
    maxNesting < nesting text ∧
      (∃ failure, Expression.read (Slice.ofChars text) = .error failure) ∧
        ∃ failure, Constraint.read (Slice.ofChars text) = .error failure := by
  intro text
  have hdeep : maxNesting < nesting text := by decide +kernel
  exact ⟨hdeep, (calls_within_maxNesting (Slice.ofChars text)).2.2 hdeep⟩

end Diophantine
