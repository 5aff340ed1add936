import Diophantine.Proofs.Diagnostics

/-!
# What carets underline

A failure shows some characters of a text, and its diagnostic has carets under those that are on the
first line of them. But spans are measured in bytes, and lines in characters: there is a caret for
each byte of the span as far as the line goes. So the characters are underlined exactly if each of
them takes up one byte, or if the line ends before more than these could be underlined. Otherwise
there are too many carets, though never too few.

- `byteLength_eq_length_iff`: characters of one byte each;
- `Span.onFirstLine`: how many characters of a span are on its first line;
- `Span.Covers.onFirstLine_eq`: they are those in front of the end of the line;
- `Span.Covers.caretCount_eq_iff`: how many carets there are instead;
- `Failure.Underlined`, `Failure.Within.underlined`: the carets of a failure;
- `carets_underline_iff`: when they underline what the failure shows;
- `carets_exceed_characters`: a failure for which they do not.
-/

namespace Diophantine

/-! ### Bytes -/

theorem length_le_byteLength (chars : List Char) : chars.length ≤ byteLength chars := by
  induction chars with
  | nil => exact Nat.le_refl _
  | cons c chars ih =>
    have hpos := c.utf8Size_pos
    simp only [List.length_cons, byteLength_cons]
    omega

/-- There are as many bytes as characters exactly if each character takes up one byte. -/
@[simp] theorem byteLength_eq_length_iff {chars : List Char} :
    byteLength chars = chars.length ↔ ∀ c ∈ chars, c.utf8Size = 1 := by
  induction chars with
  | nil => exact iff_of_true rfl nofun
  | cons c chars ih =>
    have hpos := c.utf8Size_pos
    have hle := length_le_byteLength chars
    rw [List.forall_mem_cons, ← ih]
    simp only [List.length_cons, byteLength_cons]
    omega

/-- Fewer characters take up fewer bytes. -/
theorem byteLength_take_lt {chars : List Char} {count : Nat} (h : count < chars.length) :
    byteLength (chars.take count) < byteLength chars := by
  have hsplit := congrArg byteLength (List.take_append_drop count chars)
  have hrest := length_le_byteLength (chars.drop count)
  rw [byteLength_append] at hsplit
  rw [List.length_drop] at hrest
  omega

/-! ### Characters of a span -/

/-- Of the first numbers, those below a limit. -/
theorem countP_range_lt (limit total : Nat) :
    (List.range total).countP (fun k => decide (k < limit)) = min total limit := by
  induction total with
  | zero => exact (Nat.zero_min _).symm
  | succ total ih =>
    rw [List.range_succ, List.countP_append, ih, List.countP_singleton]
    split
    · rename_i hlt
      have hlt := of_decide_eq_true hlt
      omega
    · rename_i hge
      have hge := mt decide_eq_true hge
      omega

namespace Span

/-- The place lies in the span, on the line where it begins, and in front of the end of this line as
it is shown. -/
def HoldsOnFirstLine (span : Span) (source : List Char) (place : Position) : Prop :=
  span.start ≤ place.offset ∧ place.offset < span.stop ∧ place.line = span.line
    ∧ place.column ≤ (lineAt source span.line).length

instance (span : Span) (source : List Char) (place : Position) :
    Decidable (span.HoldsOnFirstLine source place) :=
  inferInstanceAs (Decidable (_ ∧ _ ∧ _ ∧ _))

/-- The number of characters of a text that a span covers on the line where it begins, as far as
this line is shown. -/
def onFirstLine (span : Span) (source : List Char) : Nat :=
  (List.range source.length).countP fun i =>
    span.HoldsOnFirstLine source (Position.origin.past (source.take i))

namespace Covers

variable {span : Span} {front shown back : List Char}
  (h : span.Covers shown (Position.origin.past front)) (hplace : Unsplit front (shown ++ back))

include h hplace

/-- The line that is shown goes on from the place where the span begins to the end of the line. -/
theorem length_lineAt_eq :
    (lineAt (front ++ (shown ++ back)) span.line).length + 1
      = span.column + (lineAt (shown ++ back) 1).length := by
  rw [h.lineAt_eq hplace, List.length_append, h.column_eq, Position.column_past]
  omega

/-- From the beginning of the span on, its first line holds the characters that are in the span and
in front of the end of the line. -/
theorem holdsOnFirstLine_iff (k : Nat) :
    span.HoldsOnFirstLine (front ++ (shown ++ back))
        (Position.origin.past (front ++ (shown ++ back).take k))
      ↔ k < shown.length ∧ k < (lineAt (shown ++ back) 1).length := by
  have hlength := h.length_lineAt_eq hplace
  unfold HoldsOnFirstLine
  rw [Position.past_append, Position.offset_past, Position.line_past_eq, ← h.start_eq, ← h.line_eq]
  by_cases hk : k < shown.length
  · have hbytes : byteLength ((shown ++ back).take k) < byteLength shown := by
      rw [List.take_append_of_le_length (Nat.le_of_lt hk)]
      exact byteLength_take_lt hk
    have hstop := h.stop_eq
    rw [← h.start_eq] at hstop
    have hcolumn : ((shown ++ back).take k).count '\n' = 0 →
        ((Position.origin.past front).past ((shown ++ back).take k)).column = span.column + k := by
      intro hfeed
      have hall : k ≤ (shown ++ back).length := by
        rw [List.length_append]
        omega
      rw [Position.column_past_eq _ hfeed, ← h.column_eq, List.length_take_of_le hall]
    constructor
    · rintro ⟨-, -, hline, hshown⟩
      rw [hcolumn (by omega)] at hshown
      exact ⟨hk, by omega⟩
    · rintro ⟨-, hend⟩
      -- What is in front of the end of the line contains no line feed.
      have hfeed : ((shown ++ back).take k).count '\n' = 0 := by
        obtain ⟨⟨more, hmore⟩, hnone⟩ := lineAt_one_begins (shown ++ back)
        rw [← hmore, List.take_append_of_le_length (Nat.le_of_lt hend)]
        exact Nat.eq_zero_of_le_zero (hnone ▸ (List.take_sublist _ _).count_le _)
      rw [hcolumn hfeed]
      omega
  · refine iff_of_false (fun hheld => ?_) fun hheld => hk hheld.1
    have hbytes : byteLength shown ≤ byteLength ((shown ++ back).take k) := by
      rw [List.take_append, List.take_of_length_le (Nat.le_of_not_lt hk), byteLength_append]
      omega
    have hstop := h.stop_eq
    rw [← h.start_eq] at hstop
    omega

/-- The characters of a span on its first line are those in front of the end of the line. -/
theorem onFirstLine_eq :
    span.onFirstLine (front ++ (shown ++ back))
      = min shown.length (lineAt (shown ++ back) 1).length := by
  have hfront : (List.range front.length).countP (fun i => span.HoldsOnFirstLine
      (front ++ (shown ++ back)) (Position.origin.past ((front ++ (shown ++ back)).take i)))
        = 0 := by
    refine List.countP_eq_zero.mpr fun i hi => ?_
    have hlt := List.mem_range.mp hi
    rw [List.take_append_of_le_length (Nat.le_of_lt hlt), decide_eq_true_iff]
    rintro ⟨hstart, -⟩
    have hbytes := byteLength_take_lt hlt
    rw [h.start_eq, Position.offset_past, Position.offset_past] at hstart
    omega
  have hbehind : ∀ k, span.HoldsOnFirstLine (front ++ (shown ++ back))
      (Position.origin.past ((front ++ (shown ++ back)).take (front.length + k)))
        ↔ k < min shown.length (lineAt (shown ++ back) 1).length := by
    intro k
    rw [List.take_length_add_append, h.holdsOnFirstLine_iff hplace, Nat.lt_min]
  have hline := (lineAt_one_begins (shown ++ back)).1.length_le
  unfold onFirstLine
  rw [List.length_append, List.range_add, List.countP_append, hfront, List.countP_map]
  simp only [Function.comp_def, hbehind]
  rw [countP_range_lt]
  omega

/-- There is a caret for each byte of the span, as far as the line goes, and at least one. These are
enough for the characters on the first line, and too many if some of the characters are longer and
the line goes on behind them. -/
theorem caretCount_eq_iff :
    let source := front ++ (shown ++ back)
    let width := (lineAt source span.line).length
    span.caretCount width = min (max span.length 1) (max (width - (span.column - 1)) 1)
      ∧ max (span.onFirstLine source) 1 ≤ span.caretCount width
      ∧ (span.caretCount width = max (span.onFirstLine source) 1 ↔
          (∀ c ∈ shown, c.utf8Size = 1) ∨ width ≤ span.column - 1 + shown.length) := by
  intro source width
  have hwidth : width = span.column - 1 + (lineAt (shown ++ back) 1).length := by
    have hlength : width + 1 = span.column + _ := h.length_lineAt_eq hplace
    have hcolumn : 1 ≤ span.column := by
      rw [h.column_eq, Position.column_past]
      exact Nat.le_add_right ..
    omega
  have hbytes : span.length = byteLength shown := by
    unfold length
    rw [h.start_eq, h.stop_eq, Nat.add_sub_cancel_left]
  have hcount : span.caretCount width
      = min (max span.length 1) (max (width - (span.column - 1)) 1) := by
    have hclamp : span.column - 1 ≤ width := hwidth.symm ▸ Nat.le_add_right ..
    unfold caretCount caretColumn
    rw [Nat.min_eq_left hclamp]
  have hrest : width - (span.column - 1) = (lineAt (shown ++ back) 1).length := by
    rw [hwidth, Nat.add_sub_cancel_left]
  have hends : width ≤ span.column - 1 + shown.length ↔
      (lineAt (shown ++ back) 1).length ≤ shown.length := by
    rw [hwidth, Nat.add_le_add_iff_left]
  have hle := length_le_byteLength shown
  have hempty : shown.length = 0 → byteLength shown = 0 := by
    intro hnil
    rw [List.length_eq_zero_iff.mp hnil]
    rfl
  rw [h.onFirstLine_eq hplace, ← byteLength_eq_length_iff, hends, hcount, hrest, hbytes]
  generalize shown.length = characters, byteLength shown = bytes,
    (lineAt (shown ++ back) 1).length = rest at hle hempty
  refine ⟨rfl, ?_, ?_⟩
  · omega
  · omega

end Covers

@[simp] theorem count_pointer (span : Span) (width : Nat) :
    (span.pointer width).count '^' = span.caretCount width := by
  unfold pointer
  rw [List.count_append, List.count_replicate_self, List.count_replicate]
  exact Nat.zero_add _

end Span

/-! ### Failures -/

/-- The number of carets of a diagnostic. -/
def Diagnostic.carets (diagnostic : Diagnostic) : Nat :=
  diagnostic.pointer.toList.count '^'

/-- What the carets of a diagnostic say about the span of its failure. -/
structure Failure.Underlined (failure : Failure) (source : List Char) (diagnostic : Diagnostic) :
    Prop where
  diagnostic_eq : ∃ file, diagnostic = failure.diagnose file source
  carets_eq : diagnostic.carets
    = min (max failure.span.length 1) (max (diagnostic.snippet.length - (diagnostic.column - 1)) 1)
  le_carets : max (failure.span.onFirstLine source) 1 ≤ diagnostic.carets
  carets_eq_iff : ∃ front shown back, source = front ++ (shown ++ back)
    ∧ failure.span.Covers shown (Position.origin.past front)
    ∧ (diagnostic.carets = max (failure.span.onFirstLine source) 1 ↔
        (∀ c ∈ shown, c.utf8Size = 1)
          ∨ diagnostic.snippet.length ≤ diagnostic.column - 1 + shown.length)

theorem Failure.Within.underlined {failure : Failure} {source : List Char}
    (h : failure.Within (Slice.ofChars source)) (file : String) :
    failure.Underlined source (failure.diagnose file source) := by
  obtain ⟨front, shown, back, rfl, hspan, hplace⟩ := h.exists_unsplit
  generalize hdiagnostic : failure.diagnose file (front ++ (shown ++ back)) = diagnostic
  have hsnippet : diagnostic.snippet.length
      = (lineAt (front ++ (shown ++ back)) failure.span.line).length := by
    rw [← hdiagnostic]
    exact String.length_ofList
  have hcarets : diagnostic.carets = failure.span.caretCount
      (lineAt (front ++ (shown ++ back)) failure.span.line).length := by
    rw [← hdiagnostic, Diagnostic.carets]
    show (String.ofList (failure.span.pointer _)).toList.count '^' = _
    rw [String.toList_ofList, Span.count_pointer]
  have hcolumn : diagnostic.column = failure.span.column := by
    rw [← hdiagnostic]
    rfl
  obtain ⟨heq, hle, hiff⟩ := hspan.caretCount_eq_iff hplace
  rw [← hcarets] at heq hle hiff
  rw [← hsnippet, ← hcolumn] at heq hiff
  exact ⟨⟨file, hdiagnostic.symm⟩, heq, hle, front, shown, back, rfl, hspan, hiff⟩

/-- **What carets underline.** Whatever text is refused, as an expression, a constraint or a problem
from any source: there is a caret for each byte of what the failure shows, as far as the line goes,
and at least one. These are never too few for the characters that the failure shows on its first
line, and they are as many exactly if each of its characters takes up one byte, or if the line ends
with them or before. -/
theorem carets_underline_iff (text : String) :
    (∀ diagnostic, Expression.parse text = .error diagnostic →
      ∃ failure, Expression.read (Slice.ofString (normalize text)) = .error failure
        ∧ failure.Underlined (normalize text).toList diagnostic)
    ∧ (∀ diagnostic, Constraint.parse text = .error diagnostic →
      ∃ failure, Constraint.read (Slice.ofString (normalize text)) = .error failure
        ∧ failure.Underlined (normalize text).toList diagnostic)
    ∧ ∀ source diagnostic, (Problem.parseFrom source text).result = .error diagnostic →
      ∃ failure, (Problem.read (Slice.ofString (normalize text))).result = .error failure
        ∧ failure.Underlined (normalize text).toList diagnostic := by
  rw [Slice.ofString_normalize, normalize, String.toList_ofList]
  refine ⟨fun diagnostic h => ?_, fun diagnostic h => ?_, fun source diagnostic h => ?_⟩
  · obtain ⟨failure, hfailure, rfl⟩ := mapError_eq_error_iff.mp h
    exact ⟨failure, hfailure, (Expression.raisedIn_of_read hfailure).within.underlined _⟩
  · obtain ⟨failure, hfailure, rfl⟩ := mapError_eq_error_iff.mp h
    exact ⟨failure, hfailure, (Constraint.raisedIn_of_read hfailure).within.underlined _⟩
  · obtain ⟨failure, hfailure, rfl⟩ := mapError_eq_error_iff.mp h
    exact ⟨failure, hfailure, (Problem.within_of_read hfailure).underlined source⟩

/-- A character of two bytes has one caret at the end of its line and two in front of others. A
clause without an equals sign has one for each of its characters. -/
theorem carets_underline_iff_clause :
    (∃ (failure : Failure) (diagnostic : Diagnostic), Constraint.parse "x < é" = .error diagnostic
        ∧ failure.Underlined (normalize "x < é").toList diagnostic
        ∧ failure.span.length = 2 ∧ diagnostic.carets = 1)
      ∧ (∃ (failure : Failure) (diagnostic : Diagnostic), Expression.parse "é y" = .error diagnostic
        ∧ failure.Underlined (normalize "é y").toList diagnostic
        ∧ failure.span.length = 2 ∧ diagnostic.carets = 2)
      ∧ ∃ (failure : Failure) (diagnostic : Diagnostic),
        (Problem.parseFrom inlineSource "Solve x 1.").result = .error diagnostic
          ∧ failure.Underlined (normalize "Solve x 1.").toList diagnostic
          ∧ failure.span.onFirstLine (normalize "Solve x 1.").toList = 3
          ∧ diagnostic.carets = 3 := by
  have hconstraint : Constraint.parse "x < é" = .error ⟨.syntactic,
      "expected a constant, variable or '(' but found 'é'", inlineSource, 4, 1, 5, "x < é",
      "    ^"⟩ := by
    decide +kernel
  have hexpression : Expression.parse "é y" = .error ⟨.syntactic,
      "expected a constant, variable or '(' but found 'é'", inlineSource, 0, 1, 1, "é y",
      "^^"⟩ := by
    decide +kernel
  have hproblem : (Problem.parseFrom inlineSource "Solve x 1.").result = .error ⟨.structural,
      "equation has no '='", inlineSource, 6, 1, 7, "Solve x 1.", "      ^^^"⟩ := by
    decide +kernel
  have hshown : Constraint.read (Slice.ofString (normalize "x < é"))
      = .error ⟨.noTerm (some 'é'), ⟨4, 6, 1, 5⟩⟩ := by
    decide +kernel
  have hshown' : Expression.read (Slice.ofString (normalize "é y"))
      = .error ⟨.noTerm (some 'é'), ⟨0, 2, 1, 1⟩⟩ := by
    decide +kernel
  have hclause : (Problem.read (Slice.ofString (normalize "Solve x 1."))).result
      = .error ⟨.noEquals, ⟨6, 9, 1, 7⟩⟩ := by
    decide +kernel
  obtain ⟨failure, hfailure, hcarets⟩ := (carets_underline_iff "x < é").2.1 _ hconstraint
  obtain ⟨failure', hfailure', hcarets'⟩ := (carets_underline_iff "é y").1 _ hexpression
  obtain ⟨failure'', hfailure'', hcarets''⟩ :=
    (carets_underline_iff "Solve x 1.").2.2 _ _ hproblem
  obtain rfl := Except.error.inj (hshown.symm.trans hfailure)
  obtain rfl := Except.error.inj (hshown'.symm.trans hfailure')
  obtain rfl := Except.error.inj (hclause.symm.trans hfailure'')
  exact ⟨⟨_, _, hconstraint, hcarets, rfl, by decide⟩,
    ⟨_, _, hexpression, hcarets', rfl, by decide⟩, _, _, hproblem, hcarets'', by decide +kernel,
    by decide⟩

/-- A character of two bytes in front of others has two carets. -/
theorem carets_exceed_characters :
    ∃ failure, Expression.read (Slice.ofString (normalize "é y")) = .error failure
      ∧ failure.span.onFirstLine (normalize "é y").toList = 1
      ∧ ∃ diagnostic, Expression.parse "é y" = .error diagnostic ∧ diagnostic.carets = 2 := by
  refine ⟨⟨.noTerm (some 'é'), ⟨0, 2, 1, 1⟩⟩, by decide +kernel, by decide +kernel,
    ⟨.syntactic, "expected a constant, variable or '(' but found 'é'", inlineSource, 0, 1, 1, "é y",
      "^^"⟩, by decide +kernel, by decide +kernel⟩

end Diophantine
