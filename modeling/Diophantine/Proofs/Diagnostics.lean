import Diophantine.Proofs.Lines
import Diophantine.Proofs.Problem.Places

/-!
# Diagnostics point where they say

A diagnostic says three times where something is wrong: by an offset, by a line and a column, and by
carets under the line. All of them mean the same place of the text. The carets are put in their
place without looking at the text in front of it, and they are kept from leaving the line. For a
place that belongs to no line this would move them, but no failure shows one.

- `Diagnostic.Points`: what it means for a diagnostic to point into a text;
- `Failure.Within.points`: failures that show a place of the text have such diagnostics;
- `diagnostics_point`: so do all failures to read a text.
-/

namespace Diophantine

/-! ### Carets -/

/-- Carets begin at the column of the span if this is in the line or just behind it. -/
theorem Span.exists_pointer {span : Span} {width : Nat} (h : span.column - 1 ≤ width) :
    ∃ carets, 0 < carets
      ∧ span.pointer width = List.replicate (span.column - 1) ' ' ++ List.replicate carets '^'
      ∧ (span.column - 1 + carets ≤ width ∨ span.column - 1 = width ∧ carets = 1) := by
  have hcolumn : span.caretColumn width = span.column - 1 := Nat.min_eq_left h
  refine ⟨span.caretCount width, ?_, ?_, ?_⟩
  · unfold caretCount
    omega
  · unfold pointer
    rw [hcolumn]
  · unfold caretCount
    rw [hcolumn]
    omega

/-! ### Places -/

/-- The line of a place begins with what stands in front of it on this line. -/
theorem Span.Covers.lineAt_eq {span : Span} {shown front back : List Char}
    (h : span.Covers shown (Position.origin.past front)) (hplace : Unsplit front back) :
    lineAt (front ++ back) span.line = lastLine front ++ lineAt back 1 := by
  rw [h.line_eq, Position.line_past, lineAt_append hplace]

/-- A failure in a text does not show a place between a carriage return and a line feed. -/
theorem Failure.Within.exists_unsplit {failure : Failure} {chars : List Char}
    (h : failure.Within (Slice.ofChars chars)) :
    ∃ front shown back, chars = front ++ (shown ++ back)
      ∧ failure.span.Covers shown (Position.origin.past front)
      ∧ Unsplit front (shown ++ back) := by
  obtain ⟨front, shown, back, hchars, hspan, hplace⟩ := h
  refine ⟨front, shown, back, hchars, hspan, fun hreturn hfeed => ?_⟩
  obtain ⟨c, hc, hne⟩ := hplace hfeed
  exact hne (Option.some.inj (hc.symm.trans hreturn))

namespace Diagnostic

/-- The diagnostic points into the text: it shows a place between two characters, by its offset in
bytes, its line and its column, and with carets under its line, which begins with the characters in
front of the place. -/
structure Points (diagnostic : Diagnostic) (text : String) : Prop where
  place : ∃ front back : String, text = front ++ back
    ∧ diagnostic.offset = front.utf8ByteSize
    ∧ diagnostic.line = 1 + front.toList.count '\n'
    ∧ diagnostic.column = 1 + (lastLine front.toList).length
    ∧ lastLine front.toList <+: diagnostic.snippet.toList
  snippet_eq : diagnostic.snippet = String.ofList (lineAt text.toList diagnostic.line)
  pointer_eq : ∃ carets, 0 < carets
    ∧ diagnostic.pointer = String.ofList
        (List.replicate (diagnostic.column - 1) ' ' ++ List.replicate carets '^')
    ∧ (diagnostic.column - 1 + carets ≤ diagnostic.snippet.length
        ∨ diagnostic.column - 1 = diagnostic.snippet.length ∧ carets = 1)

/-- The diagnostic points into the text with its products made explicit, and the line that it shows
is one of the text with its products made explicit. -/
structure PointsNormalized (diagnostic : Diagnostic) (text : String) : Prop where
  points : diagnostic.Points (normalize text)
  snippet_eq : diagnostic.snippet = normalize (String.ofList (lineAt text.toList diagnostic.line))

end Diagnostic

namespace Failure.Within

variable {failure : Failure}

/-- A failure that shows a place in a text has a diagnostic that points there. -/
theorem points {chars : List Char} (h : failure.Within (Slice.ofChars chars)) (file : String) :
    (failure.diagnose file chars).Points (String.ofList chars) := by
  obtain ⟨front, shown, rest, hchars, hspan, hplace⟩ := h.exists_unsplit
  generalize shown ++ rest = back at hchars hplace
  have hoffset : failure.span.start = (String.ofList front).utf8ByteSize :=
    hspan.start_eq.trans (Position.offset_past_origin front)
  have hline : failure.span.line = 1 + front.count '\n' :=
    hspan.line_eq.trans (Position.line_past front)
  have hcolumn : failure.span.column = 1 + (lastLine front).length :=
    hspan.column_eq.trans (Position.column_past front)
  have hsnippet : lineAt chars failure.span.line = lastLine front ++ lineAt back 1 :=
    hchars ▸ hspan.lineAt_eq hplace
  have hwidth : failure.span.column - 1 ≤ (lineAt chars failure.span.line).length := by
    rw [hsnippet, hcolumn, List.length_append]
    omega
  obtain ⟨carets, hpos, hpointer, hend⟩ := Span.exists_pointer hwidth
  refine ⟨⟨String.ofList front, String.ofList back, ?_, hoffset, ?_, ?_, ?_⟩, ?_,
    carets, hpos, ?_, ?_⟩
  · rw [hchars, String.ofList_append]
  · rw [String.toList_ofList]
    exact hline
  · rw [String.toList_ofList]
    exact hcolumn
  · rw [String.toList_ofList]
    show lastLine front <+: (String.ofList (lineAt chars failure.span.line)).toList
    rw [String.toList_ofList, hsnippet]
    exact List.prefix_append _ _
  · rw [String.toList_ofList]
    rfl
  · exact congrArg String.ofList hpointer
  · show _ ≤ (String.ofList (lineAt chars failure.span.line)).length
      ∨ _ = (String.ofList (lineAt chars failure.span.line)).length ∧ _
    rw [String.length_ofList]
    exact hend

/-- The lines of a text stay lines while its products are made explicit. -/
theorem pointsNormalized {text : String}
    (h : failure.Within (Slice.ofChars (explicitProducts text.toList))) (file : String) :
    (failure.diagnose file (explicitProducts text.toList)).PointsNormalized text := by
  refine ⟨h.points file, ?_⟩
  show String.ofList (lineAt (explicitProducts text.toList) failure.span.line)
    = normalize (String.ofList (lineAt text.toList failure.span.line))
  rw [lineAt_explicitProducts, normalize, String.toList_ofList]

end Failure.Within

/-- **Diagnostics point where they say**: whatever text is refused, as an expression, a constraint
or a problem from any source, or when it is split into clauses, the diagnostic points into the text
that was read. -/
theorem diagnostics_point (text : String) :
    (∀ diagnostic, Expression.parse text = .error diagnostic → diagnostic.PointsNormalized text)
      ∧ (∀ diagnostic, Constraint.parse text = .error diagnostic →
          diagnostic.PointsNormalized text)
      ∧ (∀ diagnostic, Problem.parse text = .error diagnostic → diagnostic.PointsNormalized text)
      ∧ (∀ source diagnostic, (Problem.parseFrom source text).result = .error diagnostic →
          diagnostic.PointsNormalized text)
      ∧ ∀ active diagnostic, splitClauses text active = .error diagnostic →
          diagnostic.Points text := by
  have hproblem : ∀ source diagnostic, (Problem.parseFrom source text).result = .error diagnostic →
      diagnostic.PointsNormalized text := by
    intro source diagnostic h
    obtain ⟨failure, hfailure, rfl⟩ := mapError_eq_error_iff.mp h
    exact (Problem.within_of_read hfailure).pointsNormalized source
  refine ⟨fun diagnostic h => ?_, fun diagnostic h => ?_, hproblem inlineSource, hproblem,
    fun active diagnostic h => ?_⟩
  · obtain ⟨failure, hfailure, rfl⟩ := mapError_eq_error_iff.mp h
    exact (Expression.raisedIn_of_read hfailure).within.pointsNormalized inlineSource
  · obtain ⟨failure, hfailure, rfl⟩ := mapError_eq_error_iff.mp h
    exact (Constraint.raisedIn_of_read hfailure).within.pointsNormalized inlineSource
  · unfold splitClauses at h
    split at h
    · rename_i failure hfailure
      cases h
      have hpoints := (Sentence.within_of_read_error hfailure).points inlineSource
      rwa [String.ofList_toList] at hpoints
    · cases h

/-- Offsets count bytes, columns count characters, and a line may end with two. -/
theorem diagnostics_point_lines :
    (∃ diagnostic, Expression.parse "x\r\n+ 2y )" = .error diagnostic
        ∧ diagnostic.PointsNormalized "x\r\n+ 2y )"
        ∧ diagnostic.line = 2 ∧ diagnostic.snippet = "+ 2*y )")
      ∧ ∃ diagnostic, splitClauses "é (x\r\n" [.comma] = .error diagnostic
        ∧ diagnostic.Points "é (x\r\n"
        ∧ diagnostic.offset = 3 ∧ diagnostic.column = 3 := by
  have hparse : Expression.parse "x\r\n+ 2y )"
      = .error ⟨.structural, "unmatched ')'", inlineSource, 9, 2, 7, "+ 2*y )", "      ^"⟩ := by
    decide +kernel
  have hsplit : splitClauses "é (x\r\n" [.comma]
      = .error ⟨.structural, "unclosed '('", inlineSource, 3, 1, 3, "é (x", "  ^"⟩ := by
    decide +kernel
  obtain ⟨hexpression, -, -, -, -⟩ := diagnostics_point "x\r\n+ 2y )"
  obtain ⟨-, -, -, -, hclauses⟩ := diagnostics_point "é (x\r\n"
  exact ⟨⟨_, hparse, hexpression _ hparse, rfl, rfl⟩,
    ⟨_, hsplit, hclauses _ _ hsplit, rfl, rfl⟩⟩

end Diophantine
