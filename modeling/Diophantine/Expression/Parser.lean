import Diophantine.Diagnostic
import Diophantine.Expression.Basic
import Diophantine.Group
import Diophantine.Text.Blank
import Diophantine.Text.Juxtaposition

/-!
# Reading expressions

An expression is a sum of products of terms, and sums and products associate to the left. A term is
a constant, a variable or an expression in parentheses, each with an optional minus sign in front.

A minus sign between two products is the sign of the second one: the sum takes note of it and leaves
it in place for the term to absorb. So `x - 2*y` is the sum of `x` and `-2*y`.

The functions for terms, products and sums take the reader for the inside of a group as an argument.
Every statement about them thus speaks of one level of parentheses, and `Expression.read` closes the
circle: it is the reader that is its own reader for groups.

* `readTerm`, `readProduct` and `readSum` read from the beginning of a slice and give the rest,
* `Expression.read` reads a whole clause,
* `Expression.parse` reads a text as people write it, with implicit products.
-/

namespace Diophantine

/-- How to read the inside of a group. -/
abbrev GroupReader := Slice → Except Failure Expression

/-! ### Terms -/

/-- The slice after an optional minus sign, and whether there was one. Spacing may stand before and
after the sign. -/
def takeSign (slice : Slice) : Bool × Slice :=
  match slice.skipSpacing.next? with
  | some ('-', rest) => (true, rest.skipSpacing)
  | _ => (false, slice.skipSpacing)

/-- An expression with a minus sign in front, if there is one. -/
def signed (negative : Bool) (expression : Expression) : Expression :=
  if negative then .negated expression else expression

/-- Reads the digits that a slice begins with. The sign of a constant is part of it. -/
def readConstant (negative : Bool) (body : Slice) : Except Failure (Expression × Slice) :=
  match Value.ofDigits? negative (body.takeWhile Char.isDigit).chars with
  | some value => .ok (.constant value, body.dropWhile Char.isDigit)
  | none =>
    .error ((body.takeWhile Char.isDigit).failWhole
      (.outOfRange (body.takeWhile Char.isDigit).chars))

/-- Reads the group that a slice begins with. -/
def readGroup (inGroup : GroupReader) (negative : Bool) (body : Slice) :
    Except Failure (Expression × Slice) :=
  match body.group with
  | .error failure => .error failure
  | .ok (interior, rest) =>
    match inGroup interior with
    | .error failure => .error failure
    | .ok expression => .ok (signed negative expression, rest)

/-- Reads a constant, a variable or a group. -/
def readTerm (inGroup : GroupReader) (slice : Slice) : Except Failure (Expression × Slice) :=
  let (negative, body) := takeSign slice
  match body.next? with
  | none => .error (body.fail (.noTerm none))
  | some (c, rest) =>
    if c.isDigit then readConstant negative body
    else if c.isAlpha then .ok (signed negative (.var c), rest)
    else if c = '(' then readGroup inGroup negative body
    else .error (body.fail (.noTerm (some c)))

theorem length_takeSign_le (slice : Slice) :
    (takeSign slice).2.chars.length ≤ slice.chars.length := by
  have spacing := Slice.length_chars_skipSpacing_le slice
  unfold takeSign
  split
  · rename_i rest next
    have := Slice.length_chars_skipSpacing_le rest
    have := Slice.length_of_next? next
    show rest.skipSpacing.chars.length ≤ _
    omega
  · exact spacing

theorem length_rest_of_readConstant {negative : Bool} {body rest : Slice} {c : Char}
    {after : Slice} {expression : Expression} (next : body.next? = some (c, after))
    (digit : c.isDigit = true) (h : readConstant negative body = .ok (expression, rest)) :
    rest.chars.length < body.chars.length := by
  unfold readConstant at h
  split at h
  · cases h
    have := (List.dropWhile_sublist Char.isDigit (l := after.chars)).length_le
    simp [Slice.dropWhile, Slice.past, (Slice.next?_eq_some_iff.mp next).1, digit]
    omega
  · cases h

theorem length_rest_of_readGroup {inGroup : GroupReader} {negative : Bool} {body rest : Slice}
    {expression : Expression} (h : readGroup inGroup negative body = .ok (expression, rest)) :
    rest.chars.length < body.chars.length := by
  unfold readGroup at h
  split at h
  · cases h
  · rename_i group
    split at h
    · cases h
    · cases h
      exact length_rest_of_group group

/-- A term takes at least one character. -/
theorem length_rest_of_readTerm {inGroup : GroupReader} {slice rest : Slice}
    {expression : Expression} (h : readTerm inGroup slice = .ok (expression, rest)) :
    rest.chars.length < slice.chars.length := by
  have le := length_takeSign_le slice
  unfold readTerm at h
  split at h
  rename_i negative body sign
  rw [sign] at le
  refine Nat.lt_of_lt_of_le ?_ le
  split at h
  · cases h
  · rename_i c after next
    split at h
    · exact length_rest_of_readConstant next ‹_› h
    · split at h
      · cases h
        exact Slice.length_of_next? next
      · split at h
        · exact length_rest_of_readGroup h
        · cases h

/-! ### Products -/

/-- Where the next factor of a product begins, if there is one: after a star, or right here if a
digit or a group follows without any spacing. -/
def nextFactor? (slice : Slice) : Option Slice :=
  match slice.skipSpacing.next? with
  | some ('*', rest) => some rest
  -- Looked for without skipping spacing: `2 (x)` is not a product.
  | _ =>
    match slice.next? with
    | some (c, _) => if c.isDigit || c == '(' then some slice else none
    | none => none

theorem length_nextFactor?_le {slice next : Slice} (h : nextFactor? slice = some next) :
    next.chars.length ≤ slice.chars.length := by
  have spacing := Slice.length_chars_skipSpacing_le slice
  unfold nextFactor? at h
  split at h
  · rename_i next
    have := Slice.length_of_next? next
    cases h
    omega
  · split at h
    · split at h
      · cases h
        exact Nat.le_refl _
      · cases h
    · cases h

/-- Reads the further factors of a product that begins with `left`. -/
def readFactors (inGroup : GroupReader) (left : Expression) (slice : Slice) :
    Except Failure (Expression × Slice) :=
  match _found : nextFactor? slice with
  | none => .ok (left, slice)
  | some next =>
    match _term : readTerm inGroup next with
    | .error failure => .error failure
    | .ok (right, rest) => readFactors inGroup (.mul left right) rest
termination_by slice.chars.length
decreasing_by
  exact Nat.lt_of_lt_of_le (length_rest_of_readTerm _term) (length_nextFactor?_le _found)

/-- Reads a product of terms. -/
def readProduct (inGroup : GroupReader) (slice : Slice) : Except Failure (Expression × Slice) :=
  match readTerm inGroup slice with
  | .error failure => .error failure
  | .ok (left, rest) => readFactors inGroup left rest

/-- One round of reading factors. -/
theorem readFactors_eq (inGroup : GroupReader) (left : Expression) (slice : Slice) :
    readFactors inGroup left slice =
      match nextFactor? slice with
      | none => .ok (left, slice)
      | some next =>
        match readTerm inGroup next with
        | .error failure => .error failure
        | .ok (right, rest) => readFactors inGroup (.mul left right) rest := by
  rw [readFactors]
  split
  · rename_i found
    rw [found]
  · rename_i next found
    split
    · rename_i term
      simp only [found, term]
    · rename_i term
      simp only [found, term]

theorem length_rest_of_readFactors {inGroup : GroupReader} {left expression : Expression}
    {slice rest : Slice} (h : readFactors inGroup left slice = .ok (expression, rest)) :
    rest.chars.length ≤ slice.chars.length := by
  fun_induction readFactors inGroup left slice with
  | case1 =>
    cases h
    exact Nat.le_refl _
  | case2 => cases h
  | case3 left slice next found right after term ih =>
    have := length_rest_of_readTerm term
    have := length_nextFactor?_le found
    have := ih h
    omega

/-- A product takes at least one character. -/
theorem length_rest_of_readProduct {inGroup : GroupReader} {slice rest : Slice}
    {expression : Expression} (h : readProduct inGroup slice = .ok (expression, rest)) :
    rest.chars.length < slice.chars.length := by
  unfold readProduct at h
  split at h
  · cases h
  · rename_i term
    exact Nat.lt_of_le_of_lt (length_rest_of_readFactors h) (length_rest_of_readTerm term)

/-! ### Sums -/

/-- Where the next summand of a sum begins, if there is one: after a plus sign, or at a minus sign,
which belongs to the summand. -/
def nextSummand? (slice : Slice) : Option Slice :=
  match slice.skipSpacing.next? with
  | some ('+', rest) => some rest
  -- The sign stays where it is, for the first term of the summand.
  | some ('-', _) => some slice.skipSpacing
  | _ => none

theorem length_nextSummand?_le {slice next : Slice} (h : nextSummand? slice = some next) :
    next.chars.length ≤ slice.chars.length := by
  have spacing := Slice.length_chars_skipSpacing_le slice
  unfold nextSummand? at h
  split at h
  · rename_i next
    have := Slice.length_of_next? next
    cases h
    omega
  · cases h
    exact spacing
  · cases h

/-- Reads the further summands of a sum that begins with `left`. -/
def readSummands (inGroup : GroupReader) (left : Expression) (slice : Slice) :
    Except Failure (Expression × Slice) :=
  match _found : nextSummand? slice with
  | none => .ok (left, slice)
  | some next =>
    match _product : readProduct inGroup next with
    | .error failure => .error failure
    | .ok (right, rest) => readSummands inGroup (.add left right) rest
termination_by slice.chars.length
decreasing_by
  exact Nat.lt_of_lt_of_le (length_rest_of_readProduct _product) (length_nextSummand?_le _found)

/-- Reads a sum of products. -/
def readSum (inGroup : GroupReader) (slice : Slice) : Except Failure (Expression × Slice) :=
  match readProduct inGroup slice with
  | .error failure => .error failure
  | .ok (left, rest) => readSummands inGroup left rest

/-- One round of reading summands. -/
theorem readSummands_eq (inGroup : GroupReader) (left : Expression) (slice : Slice) :
    readSummands inGroup left slice =
      match nextSummand? slice with
      | none => .ok (left, slice)
      | some next =>
        match readProduct inGroup next with
        | .error failure => .error failure
        | .ok (right, rest) => readSummands inGroup (.add left right) rest := by
  rw [readSummands]
  split
  · rename_i found
    rw [found]
  · rename_i next found
    split
    · rename_i product
      simp only [found, product]
    · rename_i product
      simp only [found, product]

theorem length_rest_of_readSummands {inGroup : GroupReader} {left expression : Expression}
    {slice rest : Slice} (h : readSummands inGroup left slice = .ok (expression, rest)) :
    rest.chars.length ≤ slice.chars.length := by
  fun_induction readSummands inGroup left slice with
  | case1 =>
    cases h
    exact Nat.le_refl _
  | case2 => cases h
  | case3 left slice next found right after product ih =>
    have := length_rest_of_readProduct product
    have := length_nextSummand?_le found
    have := ih h
    omega

/-- A sum takes at least one character. -/
theorem length_rest_of_readSum {inGroup : GroupReader} {slice rest : Slice}
    {expression : Expression} (h : readSum inGroup slice = .ok (expression, rest)) :
    rest.chars.length < slice.chars.length := by
  unfold readSum at h
  split at h
  · cases h
  · rename_i product
    exact Nat.lt_of_le_of_lt (length_rest_of_readSummands h) (length_rest_of_readProduct product)

/-! ### Whole clauses -/

/-- Reads a slice as one sum, after which only spacing may follow. -/
def readWholeSum (inGroup : GroupReader) (slice : Slice) : Except Failure Expression :=
  match readSum inGroup slice with
  | .error failure => .error failure
  | .ok (expression, rest) =>
    match rest.skipSpacing.next? with
    | none => .ok expression
    | some (c, _) =>
      if c = ')' then .error (rest.skipSpacing.fail .unmatched)
      else .error (rest.skipSpacing.fail (.afterExpression c))

namespace Expression

/-- Reads a slice as one expression, without making implicit products explicit first. The inside of
a group is always shorter than the slice around it, so the other case does not arise. -/
def read (slice : Slice) : Except Failure Expression :=
  readWholeSum
    (fun interior =>
      if interior.chars.length < slice.chars.length then read interior
      else .error (interior.fail .unclosed))
    slice
termination_by slice.chars.length

/-- Reads a text as one expression. -/
def parse (text : String) : Except Diagnostic Expression :=
  let source := explicitProducts text.toList
  (read (Slice.ofChars source)).mapError fun failure => failure.diagnose inlineSource source

end Expression

end Diophantine
