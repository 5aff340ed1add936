import Diophantine.Proofs.Problem.Words

/-!
# What making products explicit keeps

The readers understand some texts as they stand, implicit products included. Making products
explicit first is meant to widen what is understood and to change nothing about the rest. For
expressions it does. Constraints and problems have words, and of a word directly against a
parenthesis or a digit it makes a factor: `x < 1 and(y > 2)` is read as it stands, but not with a
star behind the word.

- `Expression.parse_of_read`: expressions are understood as before;
- `parse_of_read_wordsApart`: so are constraints and problems whose words stand apart, and no
  others;
- `word_against_parenthesis_lost`: some that are not.
-/

namespace Diophantine

/-- An expression that is read as it stands is read the same with its products made explicit. -/
theorem Expression.parse_of_read {text : String} {tree : Expression}
    (h : Expression.read (Slice.ofString text) = .ok tree) : Expression.parse text = .ok tree := by
  have hwritten := Expression.written_of_read h
  refine Expression.parse_eq_ok_iff_derives.mpr ⟨hwritten.derives, ?_⟩
  rw [nesting_explicitProducts]
  exact hwritten.fits.room

/-- Implicit products of constants, groups and a variable, with signs and spacing between them. -/
theorem Expression.parse_of_read_products :
    Expression.read (Slice.ofString "-2(x - 3)(y)4 + x2 * ( -y)")
        = .ok (.add
            (.mul (.mul (.mul (.constant (-2)) (.add (.var 'x') (.constant (-3)))) (.var 'y'))
              (.constant 4))
            (.mul (.mul (.var 'x') (.constant 2)) (.negated (.var 'y'))))
      ∧ Expression.parse "-2(x - 3)(y)4 + x2 * ( -y)"
        = .ok (.add
            (.mul (.mul (.mul (.constant (-2)) (.add (.var 'x') (.constant (-3)))) (.var 'y'))
              (.constant 4))
            (.mul (.mul (.var 'x') (.constant 2)) (.negated (.var 'y')))) := by
  have hread : Expression.read (Slice.ofString "-2(x - 3)(y)4 + x2 * ( -y)")
      = .ok (.add
          (.mul (.mul (.mul (.constant (-2)) (.add (.var 'x') (.constant (-3)))) (.var 'y'))
            (.constant 4))
          (.mul (.mul (.var 'x') (.constant 2)) (.negated (.var 'y')))) := by
    decide +kernel
  exact ⟨hread, Expression.parse_of_read hread⟩

/-- **Making products explicit keeps what is understood where words stand apart, and only there.** A
constraint that is read as it stands is read the same with its products made explicit if none of its
words stands directly against a parenthesis or a digit, and not at all otherwise. The same holds for
a problem that begins with the word `Solve`. Any other text is the empty problem either way. -/
theorem parse_of_read_wordsApart (text : String) :
    (∀ constraint, Constraint.read (Slice.ofString text) = .ok constraint →
      (WordsApart ["and", "or"] text.toList → Constraint.parse text = .ok constraint)
      ∧ (¬WordsApart ["and", "or"] text.toList → ∀ other, Constraint.parse text ≠ .ok other))
    ∧ ∀ problem, (Problem.read (Slice.ofString text)).result = .ok problem →
      (WordsApart ["Solve", "such that", "and", "or"] text.toList →
          Problem.parse text = .ok problem)
      ∧ (¬Problem.BeginsIn text.toList → Problem.parse text = .ok problem)
      ∧ (Problem.BeginsIn text.toList →
          ¬WordsApart ["Solve", "such that", "and", "or"] text.toList →
          ∀ other, Problem.parse text ≠ .ok other) := by
  have hnorm : Normalizes (Slice.ofString text) (Slice.ofChars (explicitProducts text.toList)) :=
    rfl
  refine ⟨fun constraint h => ⟨fun happart => ?_, fun hnot other hother => ?_⟩,
    fun problem h => ⟨fun happart => ?_, fun hbegins => ?_, fun hbegins hnot other hother => ?_⟩⟩
  · have happart : WordsApart connectives (Slice.ofString text).chars := happart
    have hwritten := Constraint.written_of_read happart h
    refine Constraint.parse_eq_ok_iff_derives.mpr ⟨hwritten.derives, ?_⟩
    rw [nesting_explicitProducts]
    exact hwritten.fits.room
  · exact hnot (Constraint.parse_eq_ok_iff_derives.mp hother).1.wordsApart
  · exact mapError_eq_ok_iff.mpr (Problem.read_normalizes hnorm happart h)
  · obtain ⟨hempty, hother⟩ := Problem.read_of_not_beginsIn hnorm hbegins
    obtain rfl : problem = .empty := Except.ok.inj (h.symm.trans hempty)
    exact mapError_eq_ok_iff.mpr hother
  · exact hnot (Problem.wordsApart_of_read hnorm hbegins (mapError_eq_ok_iff.mp hother))

/-- Words apart, and implicit products that are read as they stand; and words that are not. -/
theorem parse_of_read_wordsApart_products :
    (Constraint.read (Slice.ofString "2(x) < 1 and (y > 2)")
        = .ok (.and (.less (.mul (.constant 2) (.var 'x')) (.constant 1))
            (.greater (.var 'y') (.constant 2)))
      ∧ WordsApart ["and", "or"] "2(x) < 1 and (y > 2)".toList
      ∧ Constraint.parse "2(x) < 1 and (y > 2)"
        = .ok (.and (.less (.mul (.constant 2) (.var 'x')) (.constant 1))
            (.greater (.var 'y') (.constant 2))))
    ∧ (¬WordsApart ["and", "or"] "x < 1 and(y > 2)".toList
      ∧ ∀ other, Constraint.parse "x < 1 and(y > 2)" ≠ .ok other)
    ∧ ((Problem.read (Slice.ofString "Solve 2(x) = 4 such that (x) > 1.")).result
        = .ok { equations := [{ left := .mul (.constant 2) (.var 'x'), right := .constant 4 }]
                constraints := [.greater (.var 'x') (.constant 1)] }
      ∧ Problem.parse "Solve 2(x) = 4 such that (x) > 1."
        = .ok { equations := [{ left := .mul (.constant 2) (.var 'x'), right := .constant 4 }]
                constraints := [.greater (.var 'x') (.constant 1)] })
    ∧ (¬Problem.BeginsIn "and(2)".toList ∧ Problem.parse "and(2)" = .ok .empty)
    ∧ (¬WordsApart ["Solve", "such that", "and", "or"] "Solve(x) = 1.".toList
      ∧ ∀ other, Problem.parse "Solve(x) = 1." ≠ .ok other) := by
  have hread : Constraint.read (Slice.ofString "2(x) < 1 and (y > 2)")
      = .ok (.and (.less (.mul (.constant 2) (.var 'x')) (.constant 1))
          (.greater (.var 'y') (.constant 2))) := by
    decide +kernel
  have hapart : WordsApart ["and", "or"] "2(x) < 1 and (y > 2)".toList := by decide +kernel
  have hread' : Constraint.read (Slice.ofString "x < 1 and(y > 2)")
      = .ok (.and (.less (.var 'x') (.constant 1)) (.greater (.var 'y') (.constant 2))) := by
    decide +kernel
  have hnot : ¬WordsApart ["and", "or"] "x < 1 and(y > 2)".toList := by decide +kernel
  have hproblem : (Problem.read (Slice.ofString "Solve 2(x) = 4 such that (x) > 1.")).result
      = .ok { equations := [{ left := .mul (.constant 2) (.var 'x'), right := .constant 4 }]
              constraints := [.greater (.var 'x') (.constant 1)] } := by
    decide +kernel
  have hempty : (Problem.read (Slice.ofString "and(2)")).result = .ok .empty := by decide +kernel
  have hbegins : ¬Problem.BeginsIn "and(2)".toList := by
    rintro ⟨rest, hrest, -⟩
    cases hrest
  have hproblem' : (Problem.read (Slice.ofString "Solve(x) = 1.")).result
      = .ok { equations := [{ left := .var 'x', right := .constant 1 }], constraints := [] } := by
    decide +kernel
  have hbegins' : Problem.BeginsIn "Solve(x) = 1.".toList :=
    ⟨"(x) = 1.".toList, rfl, fun c hc => by cases hc; rfl⟩
  have hnot' : ¬WordsApart ["Solve", "such that", "and", "or"] "Solve(x) = 1.".toList := by
    decide +kernel
  exact ⟨⟨hread, hapart, ((parse_of_read_wordsApart _).1 _ hread).1 hapart⟩,
    ⟨hnot, ((parse_of_read_wordsApart _).1 _ hread').2 hnot⟩,
    ⟨hproblem, ((parse_of_read_wordsApart _).2 _ hproblem).1 (by decide +kernel)⟩,
    ⟨hbegins, ((parse_of_read_wordsApart _).2 _ hempty).2.1 hbegins⟩,
    hnot', ((parse_of_read_wordsApart _).2 _ hproblem').2.2 hbegins' hnot'⟩

/-- Texts that are read as they stand, and lost once products are explicit: a star takes the place
next to a word. -/
theorem word_against_parenthesis_lost :
    (Constraint.read (Slice.ofString "x < 1 and(y > 2)")
        = .ok (.and (.less (.var 'x') (.constant 1)) (.greater (.var 'y') (.constant 2)))
      ∧ Constraint.parse "x < 1 and(y > 2)"
        ≠ .ok (.and (.less (.var 'x') (.constant 1)) (.greater (.var 'y') (.constant 2))))
    ∧ (Problem.read (Slice.ofString "Solve x = 1 such that(x < 2).")).result
        = .ok { equations := [{ left := .var 'x', right := .constant 1 }]
                constraints := [.less (.var 'x') (.constant 2)] }
      ∧ Problem.parse "Solve x = 1 such that(x < 2)."
        ≠ .ok { equations := [{ left := .var 'x', right := .constant 1 }]
                constraints := [.less (.var 'x') (.constant 2)] } := by
  decide +kernel

end Diophantine
