import Diophantine.Text.Slice

/-!
# Readers

A reader looks at the beginning of a slice. Either it fails, or it gives a value and the slice that
is left. Failing is an ordinary answer without a reason attached, so readers can be tried one after
the other.

Choice is committed: `p.orElse q` turns to `q` only when `p` itself fails on the slice. Once `p` has
succeeded, a failure further on does not bring `q` back.

A `Reader` is a description, and `Reader.read` interprets it. Being data, readers can be reasoned
about by induction: whatever is composed of these constructors stays within the slice that it was
given.

* the constructors are the primitive readers and the ways to compose them,
* `map`, `andThen`, `keyword` and `many1` are composed from those,
* `Reader.read` runs a reader.
-/

namespace Diophantine

/-- A description of how to read a value of type `α`. -/
inductive Reader : Type → Type 1
  /-- Succeeds with a value and takes nothing. -/
  | pure {α : Type} (value : α) : Reader α
  /-- Fails. -/
  | never {α : Type} : Reader α
  /-- Takes one character, whichever it is. -/
  | item : Reader Char
  /-- Takes one character if it is accepted. -/
  | satisfy (accept : Char → Bool) : Reader Char
  /-- Takes exactly the given text, and gives the part of the slice that is as long. -/
  | literal (text : List Char) : Reader Slice
  /-- Takes nothing, and fails if the next character is rejected. -/
  | notFollowedBy (reject : Char → Bool) : Reader Unit
  /-- Tries the first reader, and the second one if the first fails. -/
  | orElse {α : Type} (first second : Reader α) : Reader α
  /-- Goes on with the reader that the first value selects. -/
  | bind {α β : Type} (first : Reader α) (next : α → Reader β) : Reader β
  /-- Reads as often as it can, and fails if that would never end. -/
  | many {α : Type} (body : Reader α) : Reader (List α)
  /-- Gives what was taken in place of the value that was read. -/
  | recognize {α : Type} (body : Reader α) : Reader Slice

namespace Reader

/-! ### Running a reader -/

/-- What is left after the characters of a text, if the slice begins with them. -/
def afterText : List Char → Slice → Option Slice
  | [], slice => some slice
  | c :: text, slice =>
    match slice.next? with
    | none => none
    | some (d, rest) => if d = c then afterText text rest else none

/-- Repeats a step and collects its values until it fails, at most `fuel` times. A step that
succeeds without moving on could be repeated for ever: then the repetition as a whole fails. -/
def repeatStep {α : Type} (step : Slice → Option (α × Slice)) :
    Nat → Slice → Option (List α × Slice)
  | 0, _ => none
  | fuel + 1, slice =>
    match step slice with
    | none => some ([], slice)
    | some (value, rest) =>
      if rest.start.offset = slice.start.offset then none
      else
        match repeatStep step fuel rest with
        | none => none
        | some (values, rest) => some (value :: values, rest)

/-- Runs a reader on a slice. Every step of a repetition takes at least one character, so one step
more than there are characters is enough to see it fail. -/
def read {α : Type} : Reader α → Slice → Option (α × Slice)
  | .pure value, slice => some (value, slice)
  | .never, _ => none
  | .item, slice => slice.next?
  | .satisfy accept, slice =>
    match slice.next? with
    | none => none
    | some (c, rest) => if accept c then some (c, rest) else none
  | .literal text, slice =>
    match afterText text slice with
    | none => none
    | some rest => some (slice.upTo (slice.start.offset + byteLength text), rest)
  | .notFollowedBy reject, slice =>
    match slice.next? with
    | none => some ((), slice)
    | some (c, _) => if reject c then none else some ((), slice)
  | .orElse first second, slice =>
    match first.read slice with
    | none => second.read slice
    | some result => some result
  | .bind first next, slice =>
    match first.read slice with
    | none => none
    | some (value, rest) => (next value).read rest
  | .many body, slice => repeatStep body.read (slice.chars.length + 1) slice
  | .recognize body, slice =>
    match body.read slice with
    | none => none
    | some (_, rest) => some (slice.upTo rest.start.offset, rest)

/-! ### Composed readers -/

/-- Reads a value and transforms it. -/
def map {α β : Type} (f : α → β) (body : Reader α) : Reader β :=
  body.bind fun value => .pure (f value)

/-- Reads twice and keeps the second value. -/
def andThen {α β : Type} (first : Reader α) (second : Reader β) : Reader β :=
  first.bind fun _ => second

/-- Takes a word that is not the beginning of a longer one: no ASCII letter or digit follows. -/
def keyword (word : List Char) : Reader Slice :=
  (literal word).bind fun matched => (notFollowedBy Char.isAlphanum).map fun _ => matched

/-- Reads at least once and as often as it can. -/
def many1 {α : Type} (body : Reader α) : Reader (List α) :=
  body.bind fun value => body.many.map fun values => value :: values

end Reader

/-! ### Literal texts and keywords -/

namespace Reader

/-- The slice after a text begins where the text ends. -/
theorem afterText_eq_some_iff {text : List Char} {slice rest : Slice} :
    afterText text slice = some rest ↔
      slice.chars = text ++ rest.chars ∧ rest.start = slice.start.past text := by
  induction text generalizing slice with
  | nil =>
    obtain ⟨start, chars⟩ := slice
    obtain ⟨restStart, restChars⟩ := rest
    simp [afterText]
    grind
  | cons c text ih =>
    obtain ⟨start, chars⟩ := slice
    cases chars with
    | nil => simp [afterText, Slice.next?]
    | cons d chars =>
      simp only [afterText, Slice.next?]
      split
      · subst_vars
        rw [ih]
        simp
      · simp
        grind

end Reader

namespace Slice

/-- The slice after a keyword, if it stands at the beginning. -/
def afterKeyword? (slice : Slice) (word : String) : Option Slice :=
  ((Reader.keyword word.toList).read slice).map Prod.snd

/-- A keyword stands at the beginning exactly if its characters do and the next character could not
make it a longer word. -/
theorem afterKeyword?_eq_some_iff {slice rest : Slice} {word : String} :
    slice.afterKeyword? word = some rest ↔
      slice.chars = word.toList ++ rest.chars ∧ rest.start = slice.start.past word.toList ∧
        ∀ c ∈ rest.chars.head?, c.isAlphanum = false := by
  obtain ⟨start, chars⟩ := slice
  simp only [afterKeyword?, Reader.keyword, Reader.read, Reader.map]
  cases eq : Reader.afterText word.toList { start := start, chars := chars } with
  | none =>
    simp only [Option.map_none, reduceCtorEq, false_iff]
    rintro ⟨charsEq, startEq, -⟩
    have found : Reader.afterText word.toList { start := start, chars := chars } = some rest :=
      Reader.afterText_eq_some_iff.mpr ⟨charsEq, startEq⟩
    rw [eq] at found
    cases found
  | some after =>
    obtain ⟨charsEq, startEq⟩ := Reader.afterText_eq_some_iff.mp eq
    obtain ⟨afterStart, afterChars⟩ := after
    obtain ⟨restStart, restChars⟩ := rest
    simp only at charsEq startEq ⊢
    subst charsEq startEq
    cases afterChars with
    | nil => simp [next?]; grind
    | cons c afterChars =>
      simp only [next?]
      by_cases alnum : c.isAlphanum = true <;> simp [alnum] <;> grind

theorem length_of_afterKeyword? {slice rest : Slice} {word : String}
    (h : slice.afterKeyword? word = some rest) : rest.chars.length ≤ slice.chars.length := by
  simp [(afterKeyword?_eq_some_iff.mp h).1]

end Slice

end Diophantine
