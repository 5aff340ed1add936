import Diophantine.Text.Slice

/-!
# Blanks

Two sets of characters count as empty space, and they are not the same. Between the words of a
clause only the four *spacing* characters of a plain text may stand. Whether a clause holds
anything at all, where it ends, and what separates it from a keyword before it, is asked of the
wider set of *blank* characters, those with the Unicode property `White_Space`.

* `isSpacing` and `Slice.skipSpacing` are for reading,
* `isBlank`, `Slice.allBlank` and `Slice.trimEnd` are for clauses as wholes.
-/

namespace Diophantine

/-- The characters that may stand between words: space, tab, carriage return and line feed. -/
def isSpacing (c : Char) : Bool :=
  c == ' ' || c == '\t' || c == '\r' || c == '\n'

/-- The ranges of code points with the Unicode property `White_Space`. -/
def blankRanges : List (Nat × Nat) :=
  [(0x09, 0x0D), (0x20, 0x20), (0x85, 0x85), (0xA0, 0xA0), (0x1680, 0x1680), (0x2000, 0x200A),
    (0x2028, 0x2029), (0x202F, 0x202F), (0x205F, 0x205F), (0x3000, 0x3000)]

/-- Whether a character has the Unicode property `White_Space`. -/
def isBlank (c : Char) : Bool :=
  blankRanges.any fun range => range.1 ≤ c.toNat && c.toNat ≤ range.2

/-- The characters without the blank ones at their end. -/
def trimBlankEnd (chars : List Char) : List Char :=
  (chars.reverse.dropWhile isBlank).reverse

namespace Slice

/-- The slice after the spacing at its beginning. -/
def skipSpacing (slice : Slice) : Slice :=
  slice.dropWhile isSpacing

/-- Whether nothing but blank characters is left. -/
def allBlank (slice : Slice) : Bool :=
  slice.chars.all isBlank

/-- The slice without the blank characters at its end. -/
def trimEnd (slice : Slice) : Slice :=
  { slice with chars := trimBlankEnd slice.chars }

theorem length_chars_skipSpacing_le (slice : Slice) :
    slice.skipSpacing.chars.length ≤ slice.chars.length :=
  length_chars_dropWhile_le isSpacing slice

end Slice

end Diophantine
