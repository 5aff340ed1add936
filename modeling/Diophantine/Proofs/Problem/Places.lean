import Diophantine.Proofs.Constraint.Places
import Diophantine.Proofs.Problem.Course
import Diophantine.Proofs.Splitting

/-!
# Places of failures in problems

Every failure to read a problem shows a place in the text of the problem. Clauses end in front of
commas, periods and words, so none of them is followed by a line feed. A blank clause is shown where
it begins: that is behind a comma, or where its sentence begins.

- `within_of_terminator?`, `within_of_nextPiece_error`: terminators and pieces;
- `Slice.ClauseOf`: clauses of a sentence;
- `Sentence.clauseOf_of_read`, `Sentence.within_of_read_error`: sentences;
- `Equation.raisedIn_of_read`, `Part.cases_of_check_error`: clauses that fail;
- `Course.within`, `Part.Ends.within`: how far reading goes, and what it shows in the end;
- `Problem.within_of_read`: whole problems.
-/

namespace Diophantine

/-! ### Terminators -/

theorem within_skipSeparator (slice : Slice) : (skipSeparator slice).Within slice := by
  unfold skipSeparator
  split
  · rename_i c rest hnext
    split
    · exact Slice.within_of_next? hnext
    · exact .refl slice
  · exact .refl slice

/-- What follows a terminator is a part of the slice. -/
theorem within_of_terminator? {active : List Terminator} {inWord : Bool} {slice rest : Slice}
    {terminator : Terminator} (h : terminator? active inWord slice = some (terminator, rest)) :
    rest.Within slice := by
  unfold terminator? at h
  split at h
  · rename_i hnext
    split at h
    · cases h
      exact Slice.within_of_next? hnext
    · cases h
  · rename_i hnext
    split at h
    · cases h
      exact Slice.within_of_next? hnext
    · cases h
  · split at h
    · obtain ⟨after, hafter, heq⟩ := Option.map_eq_some_iff.mp h
      cases heq
      exact (within_skipSeparator after).trans (Slice.within_of_afterKeyword? hafter)
    · cases h
  · cases h

/-- A comma is one character. -/
theorem next?_of_terminator?_comma {active : List Terminator} {inWord : Bool} {slice rest : Slice}
    (h : terminator? active inWord slice = some (.comma, rest)) :
    slice.next? = some (',', rest) := by
  unfold terminator? at h
  split at h
  · rename_i hnext
    split at h
    · cases h
      exact hnext
    · cases h
  · split at h
    · cases h
    · cases h
  · split at h
    · obtain ⟨after, -, heq⟩ := Option.map_eq_some_iff.mp h
      cases heq
    · cases h
  · cases h

theorem Terminator.Begins.head?_ne {terminator : Terminator} {inWord : Bool} {text : List Char}
    (h : terminator.Begins inWord text) : text.head? ≠ some '\n' := by
  rcases h.head?_eq with heq | heq | heq <;> rw [heq] <;> decide

/-! ### Pieces -/

/-- What is open behind a character was open before it, or it is that character. -/
theorem StepsOver.mem {active : List Terminator} {inWord : Bool} {here : Position} {c : Char}
    {chars : List Char} {opened next : List Slice}
    (h : StepsOver active inWord here chars c opened next) :
    ∀ opening ∈ next, opening ∈ opened
      ∨ c = '(' ∧ opening = { start := here, chars := '(' :: chars } := by
  intro opening hmem
  cases h with
  | opening =>
    rcases List.mem_cons.mp hmem with rfl | hmem
    · exact .inr ⟨rfl, rfl⟩
    · exact .inl hmem
  | closing => exact .inl (List.mem_cons_of_mem _ hmem)
  | other => exact .inl hmem

/-- A piece that fails shows a parenthesis in it, or one that was open before. -/
theorem within_of_nextPiece_error {active : List Terminator} {opened : List Slice} {inWord : Bool}
    {here : Position} {chars : List Char} {failure : Failure}
    (h : nextPiece active opened inWord here chars = .error failure) :
    failure.Within { start := here, chars := chars }
      ∨ ∃ opening ∈ opened, failure = opening.fail .unclosed := by
  induction chars generalizing opened inWord here with
  | nil =>
    unfold nextPiece at h
    split at h
    · cases h
    · cases h
      exact .inr ⟨_, List.mem_cons_self .., rfl⟩
  | cons c chars ih =>
    rcases nextPiece_cons active opened inWord here c chars with
      ⟨rfl, -, heq⟩ | ⟨_, _, -, -, heq⟩ | ⟨next, hsteps, heq⟩
    · rw [heq] at h
      cases h
      exact .inl (Slice.fail_within (head?_cons_ne (by decide) _) _)
    · rw [heq] at h
      cases h
    · rcases ih (map_eq_error_iff.mp (heq.symm.trans h)) with hwithin | ⟨opening, hmem, rfl⟩
      · exact .inl (hwithin.trans (.tail here c chars))
      · rcases hsteps.mem opening hmem with hmem | ⟨rfl, rfl⟩
        · exact .inr ⟨opening, hmem, rfl⟩
        · exact .inl (Slice.fail_within (head?_cons_ne (by decide) _) _)

section Pieces

variable {active : List Terminator} {slice : Slice} {piece : Piece}
  (h : nextPiece active [] false slice.start slice.chars = .ok piece)

include h

/-- What is read of a slice as a piece is followed by nothing, or by a terminator. -/
theorem exists_tail_of_nextPiece :
    ∃ tail, slice.chars = piece.chars ++ tail ∧ tail.head? ≠ some '\n'
      ∧ piece.Stops active (wordAfter false piece.chars) (slice.start.past piece.chars) tail := by
  obtain ⟨tail, hchars, -, -, hstops⟩ := exists_of_nextPiece h
  refine ⟨tail, hchars, ?_, hstops⟩
  unfold Piece.Stops at hstops
  split at hstops
  · rw [hstops.1]
    exact nofun
  · exact (exists_of_terminator? hstops).2.1.head?_ne

/-- Nothing is left behind a piece, or a part of the slice. -/
theorem within_rest_of_nextPiece : piece.rest.chars = [] ∨ piece.rest.Within slice := by
  obtain ⟨tail, hchars, -, hstops⟩ := exists_tail_of_nextPiece h
  unfold Piece.Stops at hstops
  split at hstops
  · exact .inl hstops.2
  · exact .inr ((within_of_terminator? hstops).trans (.of_rest hchars rfl))

/-- A piece that ends with a comma is followed by what stands behind the comma. -/
theorem rest_of_nextPiece_comma (hcomma : piece.terminator = some .comma) :
    slice.chars = (piece.chars ++ [',']) ++ piece.rest.chars
      ∧ piece.rest.start = slice.start.past (piece.chars ++ [',']) := by
  obtain ⟨tail, hchars, -, hstops⟩ := exists_tail_of_nextPiece h
  unfold Piece.Stops at hstops
  rw [hcomma] at hstops
  obtain ⟨htail, hstart⟩ := Slice.next?_eq_some_iff.mp (next?_of_terminator?_comma hstops)
  constructor
  · rw [hchars, show tail = ',' :: piece.rest.chars from htail, List.append_assoc,
      List.singleton_append]
  · rw [hstart, Position.past_append]
    rfl

end Pieces

/-! ### Sentences -/

/-- A clause of a slice. It begins where the slice does, or behind a comma. -/
def Slice.ClauseOf (clause slice : Slice) : Prop :=
  ∃ front back, slice.chars = front ++ (clause.chars ++ back)
    ∧ clause.start = slice.start.past front ∧ back.head? ≠ some '\n'
    ∧ (front = [] ∨ ',' ∈ front.getLast?)

namespace Slice.ClauseOf

variable {clause slice : Slice}

theorem within (h : clause.ClauseOf slice) : clause.Within slice := by
  obtain ⟨front, back, hchars, hstart, hback, -⟩ := h
  exact ⟨front, back, hchars, hstart, hback⟩

/-- A clause of what follows a comma. -/
theorem behind_comma {rest : Slice} {front : List Char} (h : clause.ClauseOf rest)
    (hchars : slice.chars = (front ++ [',']) ++ rest.chars)
    (hstart : rest.start = slice.start.past (front ++ [','])) : clause.ClauseOf slice := by
  obtain ⟨front', back, hchars', hstart', hback, hfront⟩ := h
  refine ⟨(front ++ [',']) ++ front', back, ?_, ?_, hback, .inr ?_⟩
  · rw [hchars, hchars', List.append_assoc _ front']
  · rw [hstart', hstart, Position.past_append _ (front ++ [','])]
  · rcases hfront with rfl | hlast
    · rw [List.append_nil, List.getLast?_concat]
      rfl
    · exact List.mem_getLast?_append_of_mem_getLast? hlast

/-- A clause may be shown where it begins. -/
theorem fail_within (h : clause.ClauseOf slice) (hhead : slice.chars.head? ≠ some '\n')
    (cause : Cause) : (clause.fail cause).Within slice := by
  obtain ⟨front, back, hchars, hstart, -, hfront⟩ := h
  have hclause := (List.take_append_drop 1 clause.chars).symm
  refine ⟨front, clause.chars.take 1, clause.chars.drop 1 ++ back, ?_, ?_, fun hfeed => ?_⟩
  · rw [hchars, ← List.append_assoc (clause.chars.take 1), ← hclause]
  · rw [← hstart]
    exact clause.point_covers
  · rcases hfront with rfl | hlast
    · rw [← List.append_assoc, ← hclause] at hfeed
      rw [hchars, List.nil_append] at hhead
      exact absurd hfeed hhead
    · exact ⟨',', hlast, by decide⟩

end Slice.ClauseOf

namespace Sentence

/-- What fails in a sentence shows a parenthesis in it. -/
theorem within_of_read_error {active : List Terminator} {slice : Slice} {failure : Failure}
    (h : read active slice = .error failure) : failure.Within slice := by
  fun_induction read active slice with
  | case1 slice inner hpiece =>
    cases h
    rcases within_of_nextPiece_error hpiece with hwithin | ⟨opening, hmem, -⟩
    · exact hwithin
    · cases hmem
  | case2 slice piece hpiece hcomma inner hread ih =>
    cases h
    obtain ⟨hchars, hstart⟩ := rest_of_nextPiece_comma hpiece hcomma
    exact (ih hread).trans (.of_rest hchars hstart)
  | case3 => cases h
  | case4 => cases h
  | case5 => cases h

theorem clauseOf_of_piece {active : List Terminator} {slice : Slice} {piece : Piece}
    (h : nextPiece active [] false slice.start slice.chars = .ok piece) :
    Slice.ClauseOf { slice with chars := piece.chars } slice := by
  obtain ⟨tail, hchars, htail, -⟩ := exists_tail_of_nextPiece h
  exact ⟨[], tail, hchars, rfl, htail, .inl rfl⟩

/-- A sentence that ends with its first piece has no other clauses. -/
theorem clauseOf_last {active : List Terminator} {slice : Slice} {piece : Piece}
    (h : nextPiece active [] false slice.start slice.chars = .ok piece) (stop : Option Ending) :
    ∀ clause ∈ (last { slice with chars := piece.chars } piece.rest stop).clauses,
      clause.ClauseOf slice := by
  unfold last
  dsimp only
  split
  · exact nofun
  · exact List.forall_mem_singleton.mpr (clauseOf_of_piece h)

/-- Of a sentence that is read, all clauses are clauses of the slice, and what is left is a part of
it. -/
theorem clauseOf_of_read {active : List Terminator} {slice : Slice} {sentence : Sentence}
    (h : read active slice = .ok sentence) :
    (∀ clause ∈ sentence.clauses, clause.ClauseOf slice)
      ∧ (sentence.remainder.chars = [] ∨ sentence.remainder.Within slice) := by
  fun_induction read active slice generalizing sentence with
  | case1 => cases h
  | case2 => cases h
  | case3 slice piece hpiece hcomma inner hread ih =>
    cases h
    obtain ⟨hchars, hstart⟩ := rest_of_nextPiece_comma hpiece hcomma
    obtain ⟨hclauses, hremainder⟩ := ih hread
    refine ⟨?_, hremainder.imp_right fun hwithin => hwithin.trans (.of_rest hchars hstart)⟩
    refine List.forall_mem_cons.mpr ⟨clauseOf_of_piece hpiece, fun clause hmem => ?_⟩
    exact (hclauses clause hmem).behind_comma hchars hstart
  | case4 slice piece hpiece ending hending =>
    cases h
    exact ⟨clauseOf_last hpiece (some ending), within_rest_of_nextPiece hpiece⟩
  | case5 slice piece hpiece hnone =>
    cases h
    exact ⟨clauseOf_last hpiece none, within_rest_of_nextPiece hpiece⟩

end Sentence

/-! ### Clauses -/

namespace Equation

theorem raisedIn_of_read {clause : Slice} {failure : Failure} (h : read clause = .error failure) :
    failure.RaisedIn clause := by
  unfold read at h
  split at h
  · rename_i hsplit
    cases h
    exact Slice.raisedIn_of_splitOutside hsplit
  · cases h
    exact clause.failWhole_trimmed_raisedIn (by simp)
  · rename_i front back hsplit
    obtain ⟨hfront, hback⟩ := Slice.within_of_splitOutside (by decide) hsplit
    have hbalanced := Slice.balanced_of_splitOutside (by decide) hsplit
    split at h
    · rename_i hleft
      cases h
      have hraised := Expression.raisedIn_of_read hleft
      exact ⟨hraised.within.trans hfront,
        fun hunpaired hclause => hraised.unbalanced hunpaired (hbalanced hclause).1⟩
    · split at h
      · rename_i hright
        cases h
        have hraised := Expression.raisedIn_of_read hright
        exact ⟨hraised.within.trans hback,
          fun hunpaired hclause => hraised.unbalanced hunpaired (hbalanced hclause).2⟩
      · cases h

end Equation

/-- A clause that fails is blank, or its reader fails. -/
theorem cases_of_readUnlessBlank_error {α : Type} {read : Slice → Except Failure α}
    {clause : Slice} {failure : Failure} (h : readUnlessBlank read clause = .error failure) :
    clause.allBlank = true ∧ failure = clause.fail .emptyClause ∨ read clause = .error failure := by
  unfold readUnlessBlank at h
  split at h
  · rename_i hblank
    exact .inl ⟨hblank, (Except.error.inj h).symm⟩
  · exact .inr h

/-- A clause that is not accepted is blank and shown where it begins, or it shows characters of its
own. -/
theorem Part.cases_of_check_error {part : Part} {clause : Slice} {failure : Failure}
    (h : part.check clause = .error failure) :
    failure = clause.fail .emptyClause ∨ failure.RaisedIn clause := by
  cases part with
  | equations =>
    exact (cases_of_readUnlessBlank_error (map_eq_error_iff.mp h)).imp And.right
      Equation.raisedIn_of_read
  | constraints =>
    exact (cases_of_readUnlessBlank_error (map_eq_error_iff.mp h)).imp And.right
      Constraint.raisedIn_of_read

/-! ### Problems -/

namespace Part.Reads

variable {part : Part} {slice : Slice} {sentence : Sentence}

/-- The clauses of a sentence are parts of the slice, and so is what follows it. -/
theorem within (h : part.Reads slice (.ok sentence)) :
    (∀ clause ∈ sentence.clauses, clause.Within slice)
      ∧ (sentence.remainder.chars = [] ∨ sentence.remainder.Within slice) := by
  obtain ⟨hclauses, hremainder⟩ := Sentence.clauseOf_of_read h.read_eq
  exact ⟨fun clause hmem => (hclauses clause hmem).within.trans slice.within_skipSpacing,
    hremainder.imp_right fun hwithin => hwithin.trans slice.within_skipSpacing⟩

/-- A clause that is not accepted is shown in the slice. -/
theorem within_of_check_error (h : part.Reads slice (.ok sentence)) {clause : Slice}
    (hmem : clause ∈ sentence.clauses) {failure : Failure}
    (hcheck : part.check clause = .error failure) : failure.Within slice := by
  have hclause := (Sentence.clauseOf_of_read h.read_eq).1 clause hmem
  rcases Part.cases_of_check_error hcheck with rfl | hraised
  · exact (hclause.fail_within slice.head?_skipSpacing _).trans slice.within_skipSpacing
  · exact hraised.within.trans (h.within.1 clause hmem)

end Part.Reads

/-- Where reading comes to an end, it shows a place in what is in front of it. -/
theorem Part.Ends.within {part : Part} {slice : Slice} {failure : Failure}
    (h : part.Ends slice (.error failure)) : failure.Within slice := by
  cases h with
  | split hreads =>
    exact (Sentence.within_of_read_error hreads.read_eq).trans slice.within_skipSpacing
  | clause hreads hclauses _ hcheck =>
    exact hreads.within_of_check_error (hclauses ▸ List.mem_append_right _ (List.mem_cons_self ..))
      hcheck

theorem Slice.skipSpacing_eq_nil {slice : Slice} (h : slice.chars = []) :
    slice.skipSpacing.chars = [] :=
  congrArg (List.dropWhile isSpacing) h

/-- There is something left where reading fails. -/
theorem Part.Ends.ne_nil {part : Part} {slice : Slice} {failure : Failure}
    (h : part.Ends slice (.error failure)) : slice.chars ≠ [] := by
  cases h with
  | split hreads => exact mt Slice.skipSpacing_eq_nil hreads.nonblank
  | clause hreads => exact mt Slice.skipSpacing_eq_nil hreads.nonblank

namespace Course

variable {part other : Part} {slice last : Slice} {clauses : List (Part × Slice)}

/-- Where nothing is left, reading does not go on. -/
theorem eq_nil (h : Course part slice clauses other last) (hnil : slice.chars = []) :
    last.chars = [] ∧ clauses = [] := by
  cases h with
  | nil => exact ⟨hnil, rfl⟩
  | words hwords =>
    have hchars := (Slice.afterKeyword?_eq_some_iff.mp hwords).1
    rw [Slice.skipSpacing_eq_nil hnil] at hchars
    cases hchars
  | sentence hreads => exact absurd (Slice.skipSpacing_eq_nil hnil) hreads.nonblank

/-- Whatever reading goes on to is a part of the slice, unless nothing is left, and so are the
clauses on the way. -/
theorem within (h : Course part slice clauses other last) :
    (last.chars = [] ∨ last.Within slice) ∧ ∀ read ∈ clauses, read.2.Within slice := by
  induction h with
  | @nil _ slice => exact ⟨.inr (.refl slice), nofun⟩
  | @words slice rest _ _ _ hwords _ ih =>
    have hrest := (Slice.within_of_afterKeyword? hwords).trans slice.within_skipSpacing
    exact ⟨ih.1.imp_right fun hlast => hlast.trans hrest,
      fun read hmem => (ih.2 read hmem).trans hrest⟩
  | @sentence part _ slice _ sentence _ hreads _ hmore ih =>
    obtain ⟨hwithin, hremainder⟩ := hreads.within
    have hsentence : ∀ read ∈ sentence.clauses.map (part, ·), read.2.Within slice :=
      List.forall_mem_map.mpr hwithin
    rcases hremainder with hnil | hremainder
    · obtain ⟨hlast, rfl⟩ := hmore.eq_nil hnil
      rw [List.append_nil]
      exact ⟨.inl hlast, hsentence⟩
    · refine ⟨ih.1.imp_right fun hlast => hlast.trans hremainder, fun read hmem => ?_⟩
      rcases List.mem_append.mp hmem with hmem | hmem
      · exact hsentence read hmem
      · exact (ih.2 read hmem).trans hremainder

end Course

namespace Problem

/-- A failure to read a problem shows a place in the slice. -/
theorem within_of_read {slice : Slice} {failure : Failure}
    (h : (read slice).result = .error failure) : failure.Within slice := by
  cases hsolve : slice.skipSpacing.afterKeyword? "Solve" with
  | none =>
    rw [read, hsolve] at h
    cases h
  | some rest =>
    obtain ⟨clauses, part, last, hcourse, hends⟩ := exists_course_read hsolve
    rw [h] at hends
    have hlast := hcourse.within.1.resolve_left hends.ne_nil
    have hrest := (Slice.within_of_afterKeyword? hsolve).trans slice.within_skipSpacing
    exact (hends.within.trans hlast).trans hrest

end Problem

end Diophantine
