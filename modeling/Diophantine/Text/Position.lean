/-!
# Positions and lines

A position names a place between two characters of a text three ways at once: by the number of
UTF-8 bytes before it, by its line, and by its column. Machines slice at byte offsets; people
look for a line and count characters along it. All three move together, one character at a time,
so that none of them can drift from the others.

A line ends at a line feed, and a carriage return just before it belongs to the ending. The end of
the text ends the last line too, but does not begin another, and a carriage return there is kept.

* `Position.advance` steps over one character,
* `Position.past` steps over several,
* `byteLength` is the number of bytes that a run of characters takes up,
* `lines` cuts a text into lines, `lineAt` is one of them.
-/

namespace Diophantine

/-! ### Positions -/

/-- The number of bytes that the characters take up in UTF-8. -/
def byteLength : List Char → Nat
  | [] => 0
  | c :: chars => c.utf8Size + byteLength chars

@[simp] theorem byteLength_nil : byteLength [] = 0 := rfl

@[simp] theorem byteLength_cons (c : Char) (chars : List Char) :
    byteLength (c :: chars) = c.utf8Size + byteLength chars := rfl

@[simp] theorem byteLength_append (front back : List Char) :
    byteLength (front ++ back) = byteLength front + byteLength back := by
  induction front with
  | nil => simp
  | cons c front ih => simp [ih, Nat.add_assoc]

/-- A place in a text. Lines and columns count from one, columns in characters. -/
structure Position where
  offset : Nat
  line : Nat
  column : Nat
deriving DecidableEq, Repr

namespace Position

/-- The place before the first character. -/
def origin : Position :=
  { offset := 0, line := 1, column := 1 }

/-- The place after the character `c` that stands here. Only a line feed begins a new line: a
carriage return takes up a column like any other character. -/
def advance (here : Position) (c : Char) : Position :=
  if c = '\n' then
    { offset := here.offset + c.utf8Size, line := here.line + 1, column := 1 }
  else
    { offset := here.offset + c.utf8Size, line := here.line, column := here.column + 1 }

/-- The place after all the characters that stand here. -/
def past (here : Position) (chars : List Char) : Position :=
  chars.foldl advance here

@[simp] theorem past_nil (here : Position) : here.past [] = here := rfl

@[simp] theorem past_cons (here : Position) (c : Char) (chars : List Char) :
    here.past (c :: chars) = (here.advance c).past chars := rfl

@[simp] theorem past_append (here : Position) (front back : List Char) :
    here.past (front ++ back) = (here.past front).past back :=
  List.foldl_append

@[simp] theorem offset_advance (here : Position) (c : Char) :
    (here.advance c).offset = here.offset + c.utf8Size := by
  unfold advance
  split <;> rfl

@[simp] theorem offset_past (here : Position) (chars : List Char) :
    (here.past chars).offset = here.offset + byteLength chars := by
  induction chars generalizing here with
  | nil => simp
  | cons c chars ih => simp [ih, Nat.add_assoc]

end Position

/-! ### Lines -/

/-- The lines of a text, without their endings. -/
def lines : List Char → List (List Char)
  | [] => []
  | '\n' :: chars => [] :: lines chars
  | '\r' :: '\n' :: chars => [] :: lines chars
  | c :: chars =>
    match lines chars with
    | [] => [[c]]
    | line :: more => (c :: line) :: more

@[simp] theorem lines_feed (chars : List Char) : lines ('\n' :: chars) = [] :: lines chars := rfl

@[simp] theorem lines_return_feed (chars : List Char) :
    lines ('\r' :: '\n' :: chars) = [] :: lines chars := rfl

/-- The line of a text with the given number, counted from one. A text that has no such line
stands for an empty one. -/
def lineAt (chars : List Char) (number : Nat) : List Char :=
  (lines chars)[number - 1]?.getD []

end Diophantine
