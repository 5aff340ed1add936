import Diophantine.Text.Position

/-!
# Slices and spans

Every reader works on a `Slice`: some characters together with the position of the first of
them in the whole text. What a reader leaves unread is a slice again, and so is the inside of a
pair of parentheses, so a place can be reported wherever reading stops without looking at the
text as a whole.

A `Span` is what is left of a slice once only its place matters: two byte offsets, and the line
and column where it begins.

* `Slice.past` is the slice after some of its characters,
* `Slice.upTo` is the part of a slice before a byte offset,
* `Slice.span` covers a slice, `Slice.point` its first character.
-/

namespace Diophantine

/-! ### Spans -/

/-- A range of bytes in a text, with the line and column of its beginning. -/
structure Span where
  start : Nat
  stop : Nat
  line : Nat
  column : Nat
deriving DecidableEq, Repr

namespace Span

/-- The number of bytes covered: none when the range ends before it begins. -/
def length (span : Span) : Nat :=
  span.stop - span.start

/-- Whether no byte is covered. -/
def isEmpty (span : Span) : Bool :=
  span.length == 0

end Span

/-! ### Slices -/

/-- The first characters that fit into a number of bytes. -/
def takeBytes : Nat → List Char → List Char
  | _, [] => []
  | room, c :: chars =>
    if c.utf8Size ≤ room then c :: takeBytes (room - c.utf8Size) chars else []

/-- What is left after the characters that fit into a number of bytes. -/
def dropBytes : Nat → List Char → List Char
  | _, [] => []
  | room, c :: chars =>
    if c.utf8Size ≤ room then dropBytes (room - c.utf8Size) chars else c :: chars

/-- Characters of a text and the position of the first of them. -/
structure Slice where
  start : Position
  chars : List Char
deriving DecidableEq, Repr

namespace Slice

/-- A whole text, given by its characters. -/
def ofChars (chars : List Char) : Slice :=
  { start := Position.origin, chars := chars }

/-- A whole text. -/
def ofString (text : String) : Slice :=
  ofChars text.toList

/-- The characters as a text of their own. -/
def text (slice : Slice) : String :=
  String.ofList slice.chars

/-- The slice that begins after the characters `consumed` and holds `chars`. -/
def past (slice : Slice) (consumed chars : List Char) : Slice :=
  { start := slice.start.past consumed, chars := chars }

/-- The first character and the slice after it. -/
def next? (slice : Slice) : Option (Char × Slice) :=
  match slice.chars with
  | [] => none
  | c :: chars => some (c, { start := slice.start.advance c, chars := chars })

/-- The longest beginning whose characters are all accepted. -/
def takeWhile (accept : Char → Bool) (slice : Slice) : Slice :=
  { slice with chars := slice.chars.takeWhile accept }

/-- What follows the longest beginning whose characters are all accepted. -/
def dropWhile (accept : Char → Bool) (slice : Slice) : Slice :=
  slice.past (slice.chars.takeWhile accept) (slice.chars.dropWhile accept)

/-- The part of a slice that stands before a byte offset of the whole text. -/
def upTo (slice : Slice) (offset : Nat) : Slice :=
  { slice with chars := takeBytes (offset - slice.start.offset) slice.chars }

/-- What follows the first `count` bytes of a slice. -/
def dropBytes (slice : Slice) (count : Nat) : Slice :=
  slice.past (takeBytes count slice.chars) (Diophantine.dropBytes count slice.chars)

/-- The bytes of a slice from one offset within it up to another. -/
def cut (slice : Slice) (first last : Nat) : Slice :=
  let back := slice.dropBytes first
  back.upTo (back.start.offset + (last - first))

/-- The span of the whole slice. -/
def span (slice : Slice) : Span :=
  { start := slice.start.offset
    stop := slice.start.offset + byteLength slice.chars
    line := slice.start.line
    column := slice.start.column }

/-- The span of the first character, which covers nothing when there is none. -/
def point (slice : Slice) : Span :=
  { start := slice.start.offset
    stop := slice.start.offset + byteLength (slice.chars.take 1)
    line := slice.start.line
    column := slice.start.column }

theorem next?_eq_some_iff {slice rest : Slice} {c : Char} :
    slice.next? = some (c, rest) ↔
      slice.chars = c :: rest.chars ∧ rest.start = slice.start.advance c := by
  obtain ⟨start, chars⟩ := slice
  cases chars with
  | nil => simp [next?]
  | cons d chars =>
    obtain ⟨restStart, restChars⟩ := rest
    simp [next?]
    grind

/-- What follows the first character is shorter. -/
theorem length_of_next? {slice rest : Slice} {c : Char} (h : slice.next? = some (c, rest)) :
    rest.chars.length < slice.chars.length := by
  simp [(next?_eq_some_iff.mp h).1]

theorem length_chars_dropWhile_le (accept : Char → Bool) (slice : Slice) :
    (slice.dropWhile accept).chars.length ≤ slice.chars.length :=
  (List.dropWhile_sublist accept).length_le

end Slice

end Diophantine
