import Diophantine.Constraint.Basic
import Diophantine.Expression.Parser
import Diophantine.Reader

/-!
# Reading constraints

Constraints are read as expressions are, one level up: a disjunction joins conjunctions by `or`, a
conjunction joins atoms by `and`, both associate to the left, and `and` binds tighter.

An atom is a comparison or a constraint in parentheses. A parenthesis at its beginning could mean
either, as an operand may begin with one too. What is inside decides: a group that holds a
comparison sign anywhere is a constraint, since no expression holds one.

As for expressions, the functions take the readers for the insides of groups as arguments, and
`Constraint.read` closes the circle.

* `readComparison`, `readAtom`, `readConjunction` and `readDisjunction` read from the beginning of a
  slice and give the rest,
* `Constraint.read` reads a whole clause,
* `Constraint.parse` reads a text as people write it, with implicit products.
-/

namespace Diophantine

/-- How to read the insides of groups: those that are operands and those that are constraints. -/
structure GroupReaders where
  expression : GroupReader
  constraint : Slice → Except Failure Constraint

/-! ### Comparisons and atoms -/

/-- Reads two sums and the comparison sign between them. -/
def readComparison (inGroup : GroupReader) (slice : Slice) :
    Except Failure (Constraint × Slice) :=
  match readSum inGroup slice with
  | .error failure => .error failure
  | .ok (left, rest) =>
    match rest.skipSpacing.next? with
    | none => .error (rest.skipSpacing.fail (.noComparison none))
    | some (c, operand) =>
      if c = '<' then
        (readSum inGroup operand).map fun right => (.less left right.1, right.2)
      else if c = '>' then
        (readSum inGroup operand).map fun right => (.greater left right.1, right.2)
      else .error (rest.skipSpacing.fail (.noComparison (some c)))

/-- Reads a constraint in parentheses or a comparison. -/
def readAtom (readers : GroupReaders) (slice : Slice) : Except Failure (Constraint × Slice) :=
  match slice.skipSpacing.next? with
  | some ('(', _) =>
    match slice.skipSpacing.group with
    | .error failure => .error failure
    | .ok (interior, rest) =>
      -- The choice is final: a group that compares is never tried as an operand.
      if interior.compares then
        (readers.constraint interior).map fun constraint => (constraint, rest)
      else readComparison readers.expression slice.skipSpacing
  | _ => readComparison readers.expression slice.skipSpacing

theorem length_rest_of_readComparison {inGroup : GroupReader} {slice rest : Slice}
    {constraint : Constraint} (h : readComparison inGroup slice = .ok (constraint, rest)) :
    rest.chars.length < slice.chars.length := by
  unfold readComparison at h
  split at h
  · cases h
  · rename_i left after sum
    have := length_rest_of_readSum sum
    have := Slice.length_chars_skipSpacing_le after
    split at h
    · cases h
    · rename_i c operand next
      have := Slice.length_of_next? next
      split at h
      · obtain ⟨found, hright, heq⟩ := map_eq_ok_iff.mp h
        obtain ⟨-, rfl⟩ := Prod.mk.inj heq
        have := length_rest_of_readSum hright
        omega
      · split at h
        · obtain ⟨found, hright, heq⟩ := map_eq_ok_iff.mp h
          obtain ⟨-, rfl⟩ := Prod.mk.inj heq
          have := length_rest_of_readSum hright
          omega
        · cases h

/-- An atom takes at least one character. -/
theorem length_rest_of_readAtom {readers : GroupReaders} {slice rest : Slice}
    {constraint : Constraint} (h : readAtom readers slice = .ok (constraint, rest)) :
    rest.chars.length < slice.chars.length := by
  refine Nat.lt_of_lt_of_le ?_ (Slice.length_chars_skipSpacing_le slice)
  unfold readAtom at h
  split at h
  · split at h
    · cases h
    · rename_i interior after group
      split at h
      · obtain ⟨found, -, heq⟩ := map_eq_ok_iff.mp h
        obtain ⟨-, rfl⟩ := Prod.mk.inj heq
        exact length_rest_of_group group
      · exact length_rest_of_readComparison h
  · exact length_rest_of_readComparison h

/-! ### Conjunctions -/

/-- Reads the further atoms of a conjunction that begins with `left`. -/
def readConjuncts (readers : GroupReaders) (left : Constraint) (slice : Slice) :
    Except Failure (Constraint × Slice) :=
  match _found : slice.skipSpacing.afterKeyword? "and" with
  | none => .ok (left, slice)
  | some next =>
    match _atom : readAtom readers next with
    | .error failure => .error failure
    | .ok (right, rest) => readConjuncts readers (.and left right) rest
termination_by slice.chars.length
decreasing_by
  exact Nat.lt_of_lt_of_le (length_rest_of_readAtom _atom)
    (Nat.le_trans (Slice.length_of_afterKeyword? _found)
      (Slice.length_chars_skipSpacing_le slice))

/-- Reads atoms joined by `and`. -/
def readConjunction (readers : GroupReaders) (slice : Slice) :
    Except Failure (Constraint × Slice) :=
  match readAtom readers slice with
  | .error failure => .error failure
  | .ok (left, rest) => readConjuncts readers left rest

/-- One round of reading conjuncts. -/
theorem readConjuncts_eq (readers : GroupReaders) (left : Constraint) (slice : Slice) :
    readConjuncts readers left slice =
      match slice.skipSpacing.afterKeyword? "and" with
      | none => .ok (left, slice)
      | some next =>
        match readAtom readers next with
        | .error failure => .error failure
        | .ok (right, rest) => readConjuncts readers (.and left right) rest := by
  rw [readConjuncts]
  split
  · rename_i found
    rw [found]
  · rename_i next found
    split
    · rename_i atom
      simp only [found, atom]
    · rename_i atom
      simp only [found, atom]

theorem length_rest_of_readConjuncts {readers : GroupReaders} {left constraint : Constraint}
    {slice rest : Slice} (h : readConjuncts readers left slice = .ok (constraint, rest)) :
    rest.chars.length ≤ slice.chars.length := by
  fun_induction readConjuncts readers left slice with
  | case1 =>
    cases h
    exact Nat.le_refl _
  | case2 => cases h
  | case3 left slice next found right after atom ih =>
    have := length_rest_of_readAtom atom
    have := Slice.length_of_afterKeyword? found
    have := Slice.length_chars_skipSpacing_le slice
    have := ih h
    omega

/-- A conjunction takes at least one character. -/
theorem length_rest_of_readConjunction {readers : GroupReaders} {slice rest : Slice}
    {constraint : Constraint} (h : readConjunction readers slice = .ok (constraint, rest)) :
    rest.chars.length < slice.chars.length := by
  unfold readConjunction at h
  split at h
  · cases h
  · rename_i atom
    exact Nat.lt_of_le_of_lt (length_rest_of_readConjuncts h) (length_rest_of_readAtom atom)

/-! ### Disjunctions -/

/-- Reads the further conjunctions of a disjunction that begins with `left`. -/
def readDisjuncts (readers : GroupReaders) (left : Constraint) (slice : Slice) :
    Except Failure (Constraint × Slice) :=
  match _found : slice.skipSpacing.afterKeyword? "or" with
  | none => .ok (left, slice)
  | some next =>
    match _conjunction : readConjunction readers next with
    | .error failure => .error failure
    | .ok (right, rest) => readDisjuncts readers (.or left right) rest
termination_by slice.chars.length
decreasing_by
  exact Nat.lt_of_lt_of_le (length_rest_of_readConjunction _conjunction)
    (Nat.le_trans (Slice.length_of_afterKeyword? _found)
      (Slice.length_chars_skipSpacing_le slice))

/-- Reads conjunctions joined by `or`. -/
def readDisjunction (readers : GroupReaders) (slice : Slice) :
    Except Failure (Constraint × Slice) :=
  match readConjunction readers slice with
  | .error failure => .error failure
  | .ok (left, rest) => readDisjuncts readers left rest

/-- One round of reading disjuncts. -/
theorem readDisjuncts_eq (readers : GroupReaders) (left : Constraint) (slice : Slice) :
    readDisjuncts readers left slice =
      match slice.skipSpacing.afterKeyword? "or" with
      | none => .ok (left, slice)
      | some next =>
        match readConjunction readers next with
        | .error failure => .error failure
        | .ok (right, rest) => readDisjuncts readers (.or left right) rest := by
  rw [readDisjuncts]
  split
  · rename_i found
    rw [found]
  · rename_i next found
    split
    · rename_i conjunction
      simp only [found, conjunction]
    · rename_i conjunction
      simp only [found, conjunction]

/-! ### Whole clauses -/

/-- Reads a slice as one disjunction, after which only spacing may follow. A slice without any
comparison sign is refused as a whole. -/
def readWholeDisjunction (readers : GroupReaders) (slice : Slice) : Except Failure Constraint :=
  if slice.compares then
    match readDisjunction readers slice with
    | .error failure => .error failure
    | .ok (constraint, rest) =>
      match rest.skipSpacing.next? with
      | none => .ok constraint
      | some (c, _) =>
        if c = ')' then .error (rest.skipSpacing.fail .unmatched)
        else .error (rest.skipSpacing.fail (.afterConstraint c))
  else .error (slice.skipSpacing.trimEnd.failWhole .noComparator)

namespace Constraint

/-- Reads a slice as one constraint, without making implicit products explicit first. The inside of
a group is always shorter than the slice around it, so the other case does not arise. -/
def read (slice : Slice) : Except Failure Constraint :=
  readWholeDisjunction
    { expression := Expression.read
      constraint := fun interior =>
        if interior.chars.length < slice.chars.length then read interior
        else .error (interior.fail .unclosed) }
    slice
termination_by slice.chars.length

/-- Reads a text as one constraint. -/
def parse (text : String) : Except Diagnostic Constraint :=
  let source := explicitProducts text.toList
  (read (Slice.ofChars source)).mapError fun failure => failure.diagnose inlineSource source

end Constraint

end Diophantine
