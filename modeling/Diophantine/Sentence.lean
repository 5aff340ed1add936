import Diophantine.Diagnostic
import Diophantine.Reader
import Diophantine.Text.Blank

/-!
# Sentences and clauses

A problem is told in sentences, and a sentence is a list of clauses with commas between them. A
sentence ends with a period, or with the words `such that`, or where the text does. None of these
counts within parentheses, and the caller says which of them count at all.

Clauses are taken as they stand, with the spacing around them. A clause before a comma is kept even
if it is blank, so that a missing clause can be noticed; a blank clause at the very end of a
sentence is no clause.

Splitting pairs up parentheses, and fails only if it cannot: at a closing one that closes nothing,
or, if the text ends, at the last one that was left open.

* `nextPiece` walks to the next terminator, and `nextPiece_cons` says what one character does to the
  walk,
* `Sentence.read` collects the clauses of one sentence,
* `splitClauses` does so for a text of its own.
-/

namespace Diophantine

/-! ### Terminators -/

/-- What ends a sentence, other than the end of the text. -/
inductive Ending
  | period
  | suchThat
deriving DecidableEq, Repr

/-- What separates the clauses of a sentence or ends the sentence. -/
inductive Terminator
  | comma
  | ending (ending : Ending)
deriving DecidableEq, Repr

/-- The slice after one blank character, if one stands at the beginning. -/
def skipSeparator (slice : Slice) : Slice :=
  match slice.next? with
  | some (c, rest) => if isBlank c then rest else slice
  | none => slice

/-- The terminator that a slice begins with, if it is among the active ones, and the slice after
it. The words `such that` do not count in the middle of a word, and they take one blank with
them. -/
def terminator? (active : List Terminator) (inWord : Bool) (slice : Slice) :
    Option (Terminator × Slice) :=
  match slice.next? with
  | some (',', rest) => if .comma ∈ active then some (.comma, rest) else none
  | some ('.', rest) =>
    if .ending .period ∈ active then some (.ending .period, rest) else none
  | some ('s', _) =>
    if .ending .suchThat ∈ active ∧ inWord = false then
      (slice.afterKeyword? "such that").map fun rest => (.ending .suchThat, skipSeparator rest)
    else none
  | _ => none

theorem length_skipSeparator_le (slice : Slice) :
    (skipSeparator slice).chars.length ≤ slice.chars.length := by
  unfold skipSeparator
  split
  · rename_i next
    have := Slice.length_of_next? next
    split <;> omega
  · exact Nat.le_refl _

/-- A terminator takes at least one character. -/
theorem length_of_terminator? {active : List Terminator} {inWord : Bool} {slice rest : Slice}
    {terminator : Terminator} (h : terminator? active inWord slice = some (terminator, rest)) :
    rest.chars.length < slice.chars.length := by
  unfold terminator? at h
  split at h
  · rename_i next
    split at h
    · cases h
      exact Slice.length_of_next? next
    · cases h
  · rename_i next
    split at h
    · cases h
      exact Slice.length_of_next? next
    · cases h
  · split at h
    · obtain ⟨after, keyword, eq⟩ := Option.map_eq_some_iff.mp h
      cases eq
      have := length_skipSeparator_le after
      have := congrArg List.length (Slice.afterKeyword?_eq_some_iff.mp keyword).1
      have word : "such that".toList.length = 9 := by decide
      simp only [List.length_append, word] at this
      omega
    · cases h
  · cases h

/-! ### Pieces -/

/-- What stands before a terminator or the end of the text, and what follows. -/
structure Piece where
  chars : List Char
  terminator : Option Terminator
  rest : Slice

/-- A piece with one more character in front. -/
def Piece.cons (c : Char) (piece : Piece) : Piece :=
  { piece with chars := c :: piece.chars }

/-- Walks to the next active terminator outside parentheses. `opened` holds the slices that begin
with the parentheses still open, the innermost first, and `inWord` says whether an ASCII letter or
digit was just passed. -/
def nextPiece (active : List Terminator) (opened : List Slice) (inWord : Bool) (here : Position) :
    List Char → Except Failure Piece
  | [] =>
    -- The text may end anywhere but within parentheses.
    match opened with
    | [] => .ok { chars := [], terminator := none, rest := { start := here, chars := [] } }
    | opening :: _ => .error (opening.fail .unclosed)
  | c :: chars =>
    if c = '(' then
      (nextPiece active ({ start := here, chars := c :: chars } :: opened) false
        (here.advance c) chars).map (Piece.cons c)
    else if c = ')' then
      match opened with
      | [] => .error (Slice.fail { start := here, chars := c :: chars } .unmatched)
      | _ :: opened => (nextPiece active opened false (here.advance c) chars).map (Piece.cons c)
    else
      -- Only outside all parentheses does a terminator count.
      match opened with
      | [] =>
        match terminator? active inWord { start := here, chars := c :: chars } with
        | some (terminator, rest) =>
          .ok { chars := [], terminator := some terminator, rest := rest }
        | none => (nextPiece active [] c.isAlphanum (here.advance c) chars).map (Piece.cons c)
      | opening :: opened =>
        (nextPiece active (opening :: opened) c.isAlphanum (here.advance c) chars).map
          (Piece.cons c)

/-- A walk steps over a character: the parentheses in `opened` are open before it, and those in
`next` behind it. Outside all parentheses, no terminator begins there. -/
inductive StepsOver (active : List Terminator) (inWord : Bool) (here : Position)
    (chars : List Char) : Char → (opened next : List Slice) → Prop
  | opening (opened : List Slice) :
      StepsOver active inWord here chars '(' opened
        ({ start := here, chars := '(' :: chars } :: opened)
  | closing (first : Slice) (opened : List Slice) :
      StepsOver active inWord here chars ')' (first :: opened) opened
  | other {c : Char} {opened : List Slice} (hopen : c ≠ '(') (hclose : c ≠ ')')
      (hnone : opened = [] →
        terminator? active inWord { start := here, chars := c :: chars } = none) :
      StepsOver active inWord here chars c opened opened

/-- What one character does to a walk: it closes nothing, or a terminator begins with it, or the
walk steps over it and goes on. -/
theorem nextPiece_cons (active : List Terminator) (opened : List Slice) (inWord : Bool)
    (here : Position) (c : Char) (chars : List Char) :
    (c = ')' ∧ opened = [] ∧ nextPiece active opened inWord here (c :: chars)
        = .error (Slice.fail { start := here, chars := c :: chars } .unmatched))
    ∨ (∃ terminator rest, opened = []
        ∧ terminator? active inWord { start := here, chars := c :: chars } = some (terminator, rest)
        ∧ nextPiece active opened inWord here (c :: chars)
          = .ok { chars := [], terminator := some terminator, rest := rest })
    ∨ ∃ next, StepsOver active inWord here chars c opened next
        ∧ nextPiece active opened inWord here (c :: chars)
          = (nextPiece active next c.isAlphanum (here.advance c) chars).map (Piece.cons c) := by
  by_cases hopen : c = '('
  · subst hopen
    exact .inr (.inr ⟨_, .opening opened, rfl⟩)
  by_cases hclose : c = ')'
  · subst hclose
    cases opened with
    | nil => exact .inl ⟨rfl, rfl, rfl⟩
    | cons first opened => exact .inr (.inr ⟨opened, .closing first opened, rfl⟩)
  · cases opened with
    | nil =>
      cases hfound : terminator? active inWord { start := here, chars := c :: chars } with
      | none =>
        refine .inr (.inr ⟨[], .other hopen hclose fun _ => hfound, ?_⟩)
        rw [nextPiece, if_neg hopen, if_neg hclose, hfound]
      | some found =>
        refine .inr (.inl ⟨found.1, found.2, rfl, rfl, ?_⟩)
        rw [nextPiece, if_neg hopen, if_neg hclose, hfound]
    | cons first opened =>
      refine .inr (.inr ⟨_, .other hopen hclose nofun, ?_⟩)
      rw [nextPiece, if_neg hopen, if_neg hclose]

/-- What follows a piece is shorter than the slice that it begins, unless the text ends with it. -/
theorem length_rest_of_nextPiece {active : List Terminator} {opened : List Slice} {inWord : Bool}
    {here : Position} {chars : List Char} {piece : Piece}
    (h : nextPiece active opened inWord here chars = .ok piece) :
    piece.rest.chars = [] ∧ piece.terminator = none ∨
      piece.rest.chars.length < chars.length := by
  induction chars generalizing opened inWord here piece with
  | nil =>
    unfold nextPiece at h
    split at h
    · cases h
      exact .inl ⟨rfl, rfl⟩
    · cases h
  | cons c chars ih =>
    rcases nextPiece_cons active opened inWord here c chars with
      ⟨-, -, heq⟩ | ⟨terminator, rest, -, hfound, heq⟩ | ⟨next, -, heq⟩
    · rw [heq] at h
      cases h
    · rw [heq] at h
      cases h
      exact .inr (length_of_terminator? hfound)
    · obtain ⟨inner, hinner, rfl⟩ := map_eq_ok_iff.mp (heq.symm.trans h)
      exact (ih hinner).imp_right Nat.lt_succ_of_lt

/-! ### Sentences -/

/-- The clauses of a sentence, what ended it, and the slice after that. -/
structure Sentence where
  clauses : List Slice
  remainder : Slice
  stop : Option Ending

namespace Sentence

/-- A sentence with one more clause in front. -/
def cons (clause : Slice) (sentence : Sentence) : Sentence :=
  { sentence with clauses := clause :: sentence.clauses }

/-- The end of a sentence, with its last clause unless that is blank. -/
def last (clause remainder : Slice) (stop : Option Ending) : Sentence :=
  { clauses := if clause.allBlank then [] else [clause], remainder := remainder, stop := stop }

/-- Reads the sentence at the beginning of a slice. -/
def read (active : List Terminator) (slice : Slice) : Except Failure Sentence :=
  match _piece : nextPiece active [] false slice.start slice.chars with
  | .error failure => .error failure
  | .ok piece =>
    match _terminator : piece.terminator with
    | some .comma =>
      match read active piece.rest with
      | .error failure => .error failure
      | .ok sentence => .ok (cons { slice with chars := piece.chars } sentence)
    | some (.ending ending) =>
      .ok (last { slice with chars := piece.chars } piece.rest (some ending))
    | none => .ok (last { slice with chars := piece.chars } piece.rest none)
termination_by slice.chars.length
decreasing_by
  rcases length_rest_of_nextPiece _piece with ⟨-, ends⟩ | shorter
  · simp [ends] at _terminator
  · exact shorter

/-- Nothing is left after a sentence, or less than was there. -/
theorem length_remainder {active : List Terminator} {slice : Slice} {sentence : Sentence}
    (h : read active slice = .ok sentence) :
    sentence.remainder.chars = [] ∨
      sentence.remainder.chars.length < slice.chars.length := by
  fun_induction read active slice generalizing sentence with
  | case1 => cases h
  | case2 => cases h
  | case3 slice piece found terminator sentence rest ih =>
    cases h
    rcases length_rest_of_nextPiece found with ⟨-, ends⟩ | shorter
    · simp [ends] at terminator
    · exact (ih rest).imp id fun lt => Nat.lt_trans lt shorter
  | case4 slice piece found =>
    cases h
    exact (length_rest_of_nextPiece found).imp And.left id
  | case5 slice piece found =>
    cases h
    exact (length_rest_of_nextPiece found).imp And.left id

end Sentence

/-! ### Splitting a text of its own -/

/-- The clauses of a text that is one sentence, as texts. -/
structure ClauseSplit where
  clauses : List String
  remainder : String
  stop : Option Ending
deriving DecidableEq, Repr

/-- Splits a text, as it stands, into the clauses of its first sentence. -/
def splitClauses (text : String) (active : List Terminator) : Except Diagnostic ClauseSplit :=
  match Sentence.read active (Slice.ofString text) with
  | .error failure => .error (failure.diagnose inlineSource text.toList)
  | .ok sentence =>
    .ok { clauses := sentence.clauses.map Slice.text
          remainder := sentence.remainder.text
          stop := sentence.stop }

end Diophantine
