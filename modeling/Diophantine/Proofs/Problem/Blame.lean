import Diophantine.Proofs.Expression.Rendering
import Diophantine.Proofs.Juxtaposition
import Diophantine.Proofs.Problem.Places

/-!
# Who blames parentheses

Splitting a sentence, looking for the end of a group and looking for a sign outside parentheses each
count parentheses for themselves. Once a sentence is split, the other two have nothing to complain
about: its clauses pair up their parentheses, and so does everything that is cut out of them. So if
a problem is refused for a parenthesis, it is splitting that refuses it.

- `Cause.unpaired_iff_message`: which failures these are, by their wording;
- `Sentence.balanced_of_read`: the clauses of a sentence;
- `Course.balanced`: what reading has passed over;
- `Problem.only_splitting_blames`: texts that are read as problems.
-/

namespace Diophantine

/-! ### Wording -/

theorem append_ne_of_not_begins {front text : String} (h : ¬front.toList <+: text.toList)
    (back : String) : front ++ back ≠ text := by
  rintro rfl
  exact h ⟨back.toList, String.toList_append.symm⟩

/-- Only what blames a parenthesis is worded like that. -/
theorem Cause.unpaired_iff_message {cause : Cause} :
    cause = .unclosed ∨ cause = .unmatched ↔
      cause.message = "unclosed '('" ∨ cause.message = "unmatched ')'" := by
  -- Every other wording begins in another way.
  have hworded : ∀ {cause : Cause} (front : String) {back : String}, cause.message = front ++ back →
      ¬front.toList <+: "unclosed '('".toList → ¬front.toList <+: "unmatched ')'".toList →
      ¬(cause.message = "unclosed '('" ∨ cause.message = "unmatched ')'") := by
    intro cause front back heq hunclosed hunmatched
    rw [heq]
    exact not_or.mpr
      ⟨append_ne_of_not_begins hunclosed back, append_ne_of_not_begins hunmatched back⟩
  cases cause with
  | unclosed => exact iff_of_true (.inl rfl) (.inl rfl)
  | unmatched => exact iff_of_true (.inr rfl) (.inr rfl)
  | tooDeep | emptyClause | noEquals | noComparator => decide +kernel
  | noTerm found =>
    exact iff_of_false (by simp) (hworded "expected a constant, variable or '(' but found " rfl
      (by decide +kernel) (by decide +kernel))
  | noComparison found =>
    exact iff_of_false (by simp) (hworded "expected '<' or '>' but found " rfl
      (by decide +kernel) (by decide +kernel))
  | afterExpression found | afterConstraint found =>
    exact iff_of_false (by simp) (hworded "unexpected " (String.append_assoc ..)
      (by decide +kernel) (by decide +kernel))
  | outOfRange digits =>
    exact iff_of_false (by simp) (hworded "integer literal '" (String.append_assoc ..)
      (by decide +kernel) (by decide +kernel))

/-! ### Sentences -/

theorem balanced_intercalate {texts : List (List Char)} (h : ∀ text ∈ texts, Balanced text) :
    Balanced ([','].intercalate texts) := by
  induction texts with
  | nil => exact rfl
  | cons text texts ih =>
    obtain ⟨htext, hmore⟩ := List.forall_mem_cons.mp h
    by_cases hnil : texts = []
    · rwa [hnil, List.intercalate_singleton]
    · rw [List.intercalate_cons_of_ne_nil hnil]
      have hcomma : Balanced [','] := rfl
      exact (htext.append hcomma).append (ih hmore)

/-- What a terminator takes away holds no parenthesis. -/
theorem Terminator.Takes.balanced {taken : List Char} {terminator : Terminator}
    (h : terminator.Takes taken) : Balanced taken := by
  rcases terminator with _ | _ | _
  · obtain rfl : taken = [','] := h
    exact rfl
  · obtain rfl : taken = ['.'] := h
    exact rfl
  · obtain ⟨gap, -, hblank, rfl⟩ := h
    refine Balanced.append rfl (Balanced.of_plain fun c hc => ?_).1
    constructor <;> rintro rfl <;> exact absurd (hblank _ hc) (by decide)

namespace Sentence

variable {active : List Terminator} {slice : Slice} {sentence : Sentence}

/-- Every clause of a sentence pairs up its parentheses. -/
theorem balanced_of_read (h : read active slice = .ok sentence) :
    ∀ clause ∈ sentence.clauses, Balanced clause.chars := by
  obtain ⟨front, last, -, hclauses, -, -, -, -, hwhole⟩ := exists_of_read h
  intro clause hmem
  have hchars : clause.chars ∈ front ++ (if last.all isBlank then [] else [last]) :=
    hclauses ▸ List.mem_map_of_mem hmem
  refine (hwhole clause.chars ?_).balanced
  rcases List.mem_append.mp hchars with hfront | hlast
  · exact List.mem_append_left _ hfront
  · split at hlast
    · cases hlast
    · exact List.mem_append_right _ hlast

/-- A slice that a sentence is read from pairs up exactly if what follows the sentence does. -/
theorem balanced_iff_of_read (h : read active slice = .ok sentence) :
    Balanced slice.chars ↔ Balanced sentence.remainder.chars := by
  obtain ⟨front, last, closing, -, hchars, hcloses, -, -, hwhole⟩ := exists_of_read h
  have hfront : openAfter 0 ([','].intercalate (front ++ [last])) = some 0 :=
    balanced_intercalate fun text hmem => (hwhole text hmem).balanced
  unfold Balanced
  rw [hchars, openAfter_append, hfront]
  unfold Closes at hcloses
  split at hcloses
  · rw [hcloses.1, hcloses.2]
    rfl
  · obtain ⟨taken, htaken, rfl⟩ := hcloses
    show openAfter 0 (taken ++ sentence.remainder.chars) = some 0 ↔ _
    rw [openAfter_append, show openAfter 0 taken = some 0 from htaken.balanced]
    rfl

end Sentence

/-! ### Clauses -/

/-- A clause that pairs up its parentheses is refused for none of them, as whatever it is read. -/
theorem not_unpaired_of_read_error {clause : Slice} {failure : Failure}
    (hclause : Balanced clause.chars)
    (h : Equation.read clause = .error failure ∨ Equation.readClause clause = .error failure
      ∨ Constraint.read clause = .error failure ∨ Constraint.readClause clause = .error failure) :
    ¬failure.Unpaired := by
  have hraised : failure.RaisedIn clause → ¬failure.Unpaired :=
    fun hraised hunpaired => hraised.unbalanced hunpaired hclause
  have hblank : ∀ {α : Type} {read : Slice → Except Failure α},
      (∀ {inner}, read clause = .error inner → inner.RaisedIn clause) →
      readUnlessBlank read clause = .error failure → ¬failure.Unpaired := by
    intro α read hread h
    rcases cases_of_readUnlessBlank_error h with ⟨-, rfl⟩ | hfailure
    · rintro (hcause | hcause) <;> cases hcause
    · exact fun hunpaired => (hread hfailure).unbalanced hunpaired hclause
  rcases h with hequation | hclause | hconstraint | hclause
  · exact hraised (Equation.raisedIn_of_read hequation)
  · exact hblank Equation.raisedIn_of_read hclause
  · exact hraised (Constraint.raisedIn_of_read hconstraint)
  · exact hblank Constraint.raisedIn_of_read hclause

theorem Part.not_unpaired_of_check {part : Part} {clause : Slice} {failure : Failure}
    (hclause : Balanced clause.chars) (h : part.check clause = .error failure) :
    ¬failure.Unpaired := by
  cases part with
  | equations =>
    exact not_unpaired_of_read_error hclause (.inr (.inl (map_eq_error_iff.mp h)))
  | constraints =>
    exact not_unpaired_of_read_error hclause (.inr (.inr (.inr (map_eq_error_iff.mp h))))

/-! ### Problems -/

/-- Words stand behind spacing. -/
theorem Slice.leaves_of_words {slice rest : Slice} {words : String}
    (hplain : ∀ c ∈ words.toList, c ≠ '(' ∧ c ≠ ')')
    (h : slice.skipSpacing.afterKeyword? words = some rest) : slice.Leaves rest :=
  slice.leaves_skipSpacing.trans
    ⟨words.toList, (afterKeyword?_eq_some_iff.mp h).1, .of_plain hplain⟩

/-- What reading has passed over pairs up its parentheses. -/
theorem Course.balanced {part other : Part} {slice last : Slice} {clauses : List (Part × Slice)}
    (h : Course part slice clauses other last) (hlast : Balanced last.chars) :
    Balanced slice.chars := by
  induction h with
  | nil => exact hlast
  | words hwords _ ih =>
    exact (Slice.leaves_of_words (by simp) hwords).balanced_iff.mpr (ih hlast)
  | sentence hreads _ _ ih =>
    rw [Slice.leaves_skipSpacing _ |>.balanced_iff, Sentence.balanced_iff_of_read hreads.read_eq]
    exact ih hlast

/-- **Only splitting blames parentheses.** Once a slice is split into clauses, none of them is
refused for a parenthesis that is not closed or closes nothing. So a text that is refused for one,
as a problem, is refused where one of its sentences is split. And if a text that begins with the
word `Solve` is read as a problem, its parentheses pair up as a whole. -/
theorem Problem.only_splitting_blames (source text : String) :
    (∀ (active : List Terminator) (slice : Slice) (sentence : Sentence),
      Sentence.read active slice = .ok sentence → ∀ clause ∈ sentence.clauses, ∀ failure : Failure,
        (Equation.read clause = .error failure ∨ Equation.readClause clause = .error failure
          ∨ Constraint.read clause = .error failure
          ∨ Constraint.readClause clause = .error failure) →
        failure.cause.message ≠ "unclosed '('" ∧ failure.cause.message ≠ "unmatched ')'")
    ∧ (∀ diagnostic, (parseFrom source text).result = .error diagnostic →
      diagnostic.message = "unclosed '('" ∨ diagnostic.message = "unmatched ')'" →
        ∃ failure, (read (Slice.ofString (normalize text))).result = .error failure
          ∧ diagnostic = failure.diagnose source (normalize text).toList
          ∧ SplitFails text failure)
    ∧ ∀ problem, (parseFrom source text).result = .ok problem →
      ((Slice.ofString (normalize text)).skipSpacing.afterKeyword? "Solve").isSome →
        Balanced text.toList := by
  refine ⟨fun active slice sentence hsentence clause hmem failure hfailure => ?_,
    fun diagnostic hdiagnostic hmessage => ?_, fun problem hproblem hsolve => ?_⟩
  · have hclause := Sentence.balanced_of_read hsentence clause hmem
    have hunpaired := not_unpaired_of_read_error hclause hfailure
    rwa [Failure.Unpaired, Cause.unpaired_iff_message, not_or] at hunpaired
  · obtain ⟨failure, rest, clauses, part, last, hread, rfl, hsolve, hcourse, hends⟩ :=
      exists_course_parseFrom hdiagnostic
    have hunpaired : failure.Unpaired := Cause.unpaired_iff_message.mpr hmessage
    refine ⟨failure, hread, rfl, rest, clauses, part, last, hsolve, hcourse, ?_⟩
    cases hends with
    | split hreads => exact hreads
    | clause hreads hclauses _ hcheck =>
      have hmem := hclauses ▸ List.mem_append_right _ (List.mem_cons_self ..)
      have hclause := Sentence.balanced_of_read hreads.read_eq _ hmem
      exact absurd hunpaired (Part.not_unpaired_of_check hclause hcheck)
  · obtain ⟨rest, hrest⟩ := Option.isSome_iff_exists.mp hsolve
    obtain ⟨clauses, part, last, hcourse, hends⟩ := exists_course_read hrest
    rw [Slice.ofString_normalize] at hrest hends
    have hread : (read (Slice.ofChars (explicitProducts text.toList))).result = .ok problem :=
      mapError_eq_ok_iff.mp hproblem
    rw [hread] at hends
    obtain ⟨hblank⟩ := hends
    have hlast : Balanced last.chars := by
      rw [last.leaves_skipSpacing.balanced_iff, hblank]
      rfl
    rw [← balanced_explicitProducts]
    exact (Slice.leaves_of_words (by simp) hrest).balanced_iff.mpr (hcourse.balanced hlast)

/-- A clause is refused for a term that is missing in front of its parenthesis. A text is refused
for the parenthesis that it does not close, and is read once it does. -/
theorem Problem.only_splitting_blames_pair :
    (∃ sentence, Sentence.read equationTerminators (Slice.ofString " (x +) = 1.") = .ok sentence
      ∧ ∃ clause ∈ sentence.clauses, ∃ failure, Equation.readClause clause = .error failure
        ∧ failure.cause.message ≠ "unclosed '('" ∧ failure.cause.message ≠ "unmatched ')'")
      ∧ (∃ failure, SplitFails "Solve x = 1, (y) = (2." failure)
      ∧ Balanced "Solve x = 1, (y) = (2).".toList := by
  have hclauses : (Sentence.read equationTerminators (Slice.ofString " (x +) = 1.")).map
      Sentence.clauses = .ok [Slice.ofString " (x +) = 1"] := by
    decide +kernel
  have hclause : Equation.readClause (Slice.ofString " (x +) = 1")
      = .error ⟨.noTerm none, { start := 5, stop := 5, line := 1, column := 6 }⟩ := by
    decide +kernel
  have hopen : (parseFrom inlineSource "Solve x = 1, (y) = (2.").result
      = .error ⟨.structural, "unclosed '('", inlineSource, 19, 1, 20, "Solve x = 1, (y) = (2.",
        "                   ^"⟩ := by
    decide +kernel
  have hclosed : (parseFrom inlineSource "Solve x = 1, (y) = (2).").result
      = .ok ⟨[⟨.var 'x', .constant 1⟩, ⟨.var 'y', .constant 2⟩], []⟩ := by
    decide +kernel
  refine ⟨?_, ?_, ?_⟩
  · cases hsentence : Sentence.read equationTerminators (Slice.ofString " (x +) = 1.") with
    | error failure =>
      rw [hsentence] at hclauses
      cases hclauses
    | ok sentence =>
      rw [hsentence] at hclauses
      have hmem : Slice.ofString " (x +) = 1" ∈ sentence.clauses :=
        Except.ok.inj hclauses ▸ List.mem_singleton_self _
      exact ⟨sentence, rfl, _, hmem, _, hclause,
        (only_splitting_blames inlineSource "").1 _ _ sentence hsentence _ hmem _
          (.inr (.inl hclause))⟩
  · obtain ⟨failure, -, -, hsplit⟩ :=
      (only_splitting_blames inlineSource "Solve x = 1, (y) = (2.").2.1 _ hopen (.inl rfl)
    exact ⟨failure, hsplit⟩
  · exact (only_splitting_blames inlineSource "Solve x = 1, (y) = (2).").2.2 _ hclosed
      (by decide +kernel)

end Diophantine
