import Diophantine.Proofs.Correspondence
import Diophantine.Proofs.Places
import Diophantine.Proofs.Problem.Sentences

/-!
# Problems as they are written

A problem that is read as it stands is read as the same problem once its products are made explicit,
if none of its words stands directly against a parenthesis or a digit. Clause by clause, what is
read is written for an equation or a constraint, and so the clause is found and read again.

- `Equation.written_of_readClause`, `Constraint.written_of_readClause`: clauses are written for what
  they are read as;
- `readSentence_normalizes`: the clauses of a sentence are read again;
- `readConstraints_normalizes`, `readEquations_normalizes`: so is sentence after sentence;
- `Problem.read_normalizes`: whole problems.
-/

namespace Diophantine

/-! ### Clauses -/

/-- The clause is written for what it is read as: with its products made explicit, splitting finds
it and reading gives the item. -/
structure WrittenClause {α : Type} (active : List Terminator) (read : Slice → Except Failure α)
    (clause : Slice) (item : α) : Prop where
  clauseOf : ClauseOf active read (explicitProducts clause.chars) item
  room : nesting (explicitProducts clause.chars) ≤ maxNesting

/-- With the products of its sides made explicit, a clause derives the equation that it is read as.
-/
theorem Equation.derives_of_readClause {clause : Slice} {equation : Equation}
    (h : readClause clause = .ok equation) :
    Derives (explicitProducts clause.chars) equation ∧ Fits clause.chars := by
  unfold readClause readUnlessBlank Equation.read at h
  split at h
  · cases h
  · split at h
    · cases h
    · cases h
    · rename_i front back hsplit
      split at h
      · cases h
      · rename_i left hleft
        split at h
        · cases h
        · rename_i right hright
          cases h
          have hl := Expression.written_of_read hleft
          have hr := Expression.written_of_read hright
          have hproducts : explicitProducts (front.chars ++ '=' :: back.chars)
              = explicitProducts front.chars ++ '=' :: explicitProducts back.chars :=
            explicitProducts_operator Spaced.nil _ _ (by decide)
          rw [(Slice.parts_of_splitOutside hsplit).1, hproducts]
          exact ⟨.intro hl.derives hr.derives, .operator Spaced.nil hl.fits hr.fits (by decide)⟩

theorem Equation.written_of_readClause {clause : Slice} {equation : Equation}
    (h : readClause clause = .ok equation) :
    WrittenClause equationTerminators readClause clause equation := by
  obtain ⟨hderives, hfits⟩ := derives_of_readClause h
  exact ⟨hderives.clauseOf, (nesting_explicitProducts _).trans_le hfits.room⟩

/-- So does a clause of words that stand apart derive the constraint. -/
theorem Constraint.derives_of_readClause {clause : Slice} {constraint : Constraint}
    (happart : WordsApart connectives clause.chars) (h : readClause clause = .ok constraint) :
    Derives .clause (explicitProducts clause.chars) constraint ∧ Fits clause.chars := by
  unfold readClause readUnlessBlank at h
  split at h
  · cases h
  · have hwritten := written_of_read happart h
    exact ⟨hwritten.derives, hwritten.fits⟩

theorem Constraint.written_of_readClause {clause : Slice} {constraint : Constraint}
    (happart : WordsApart keywords clause.chars) (h : readClause clause = .ok constraint) :
    WrittenClause constraintTerminators readClause clause constraint := by
  obtain ⟨hderives, hfits⟩ := derives_of_readClause (happart.mono connectives_subset_keywords) h
  exact ⟨hderives.clauseOf, (nesting_explicitProducts _).trans_le hfits.room⟩

/-- Written clauses are read again. -/
theorem readClauses_normalizes {α : Type} {active : List Terminator}
    {read : Slice → Except Failure α} {clauses others : List Slice} {items : List α}
    (hclauses : List.Forall₂ (WrittenClause active read) clauses items)
    (hnorm : List.Forall₂ Normalizes clauses others) : readClauses read others = .ok items := by
  have hboth : List.Forall₂ (fun clause item =>
      nesting (explicitProducts clause.chars) ≤ maxNesting
        ∧ ClauseOf active read (explicitProducts clause.chars) item) clauses items :=
    hclauses.imp fun _ _ h => ⟨h.room, h.clauseOf⟩
  obtain ⟨hroom, hclauses⟩ := (List.forall₂_and_left _ _).mp hboth
  have htexts : List.Forall₂ (ClauseOf active read)
      (clauses.map fun clause => explicitProducts clause.chars) items :=
    List.forall₂_map_left_iff.mpr hclauses
  have hframed : List.Forall₂ Framed others
      (clauses.map fun clause => explicitProducts clause.chars) := by
    refine List.forall₂_map_right_iff.mpr (hnorm.flip.imp fun other clause h => ?_)
    exact ⟨[], [], Spaced.nil, Spaced.nil, by rw [List.append_nil]; exact h⟩
  exact (readClauses_framed htexts hframed items).mpr ⟨rfl, List.forall_mem_map.mpr hroom⟩

/-! ### Sentence after sentence -/

/-- A sentence is found again, and so are the items in it. -/
theorem readSentence_normalizes {α : Type} {active : List Terminator}
    {readClause : Slice → Except Failure α}
    (hclause : ∀ clause item, WordsApart keywords clause.chars → readClause clause = .ok item →
      WrittenClause active readClause clause item)
    {slice other : Slice} {sentence : Sentence} {items : List α} (hnorm : Normalizes slice other)
    (happart : WordsApart keywords slice.chars) (h : Sentence.read active slice = .ok sentence)
    (hitems : readClauses readClause sentence.clauses = .ok items) :
    ∃ found, Sentence.read active other = .ok found
      ∧ readClauses readClause found.clauses = .ok items
      ∧ Normalizes sentence.remainder found.remainder ∧ found.stop = sentence.stop := by
  have hapart' : ∀ clause ∈ sentence.clauses, WordsApart keywords clause.chars :=
    fun clause hmem => happart.infix_of ((Sentence.infix_of_read h).1 clause hmem)
  have hwritten : List.Forall₂ (WrittenClause active readClause) sentence.clauses items :=
    ((List.forall₂_and_left _ _).mpr ⟨hapart', forall₂_of_readClauses hitems⟩).imp
      fun clause item h => hclause clause item h.1 h.2
  have hquiet : ∀ clause ∈ sentence.clauses, Quiet active (explicitProducts clause.chars) :=
    forall_mem_of_forall₂ hwritten fun _ _ _ h => h.clauseOf.quiet
  obtain ⟨found, hfound, hclauses, hremainder, hstop⟩ :=
    Sentence.read_normalizes hnorm happart hquiet h
  exact ⟨found, hfound, readClauses_normalizes hwritten hclauses, hremainder, hstop⟩

/-- Sentences of constraints are read again. Spacing in front of them may differ. -/
theorem readConstraints_normalizes {slice other : Slice} {problem : Problem}
    (hnorm : Normalizes slice.skipSpacing other.skipSpacing)
    (happart : WordsApart keywords slice.skipSpacing.chars)
    (h : (readConstraints slice).result = .ok problem) :
    (readConstraints other).result = .ok problem := by
  fun_induction readConstraints slice generalizing other problem with
  | case1 slice hempty =>
    rw [readConstraints, dif_pos (hnorm.chars_eq_nil_iff.mpr hempty)]
    exact h
  | case2 => cases h
  | case3 => cases h
  | case4 slice hne sentence hsentence constraints hclauses more =>
    rename_i ih
    obtain ⟨problem, hmore, rfl⟩ := map_eq_ok_iff.mp h
    obtain ⟨found, hfound, hitems, hremainder, -⟩ :=
      readSentence_normalizes (fun _ _ => Constraint.written_of_readClause) hnorm happart hsentence
        hclauses
    have hpart := (Slice.infix_skipSpacing _).trans (Sentence.infix_of_read hsentence).2
    have hrest := ih hremainder.skipSpacing (happart.infix_of hpart) hmore
    rw [result_readConstraints_sentence (fun hnil => hne (hnorm.chars_eq_nil_iff.mp hnil)) hfound,
      hitems]
    show Except.map _ (readConstraints found.remainder).result = _
    rw [hrest]
    rfl

/-- Sentences of equations are read again, and so are the constraints after them. -/
theorem readEquations_normalizes {slice other : Slice} {problem : Problem}
    (hnorm : Normalizes slice other) (happart : WordsApart keywords slice.chars)
    (h : (readEquations slice).result = .ok problem) :
    (readEquations other).result = .ok problem := by
  fun_induction readEquations slice generalizing other problem with
  | case1 slice hempty =>
    rw [readEquations, dif_pos (hnorm.skipSpacing.chars_eq_nil_iff.mpr hempty)]
    exact h
  | case2 slice hne rest hwords =>
    have happart := happart.infix_of slice.infix_skipSpacing
    obtain ⟨found, hfound, hrest⟩ :=
      afterKeyword?_normalizes hnorm.skipSpacing happart (by decide) hwords
    rw [result_readEquations_suchThat (fun hnil => hne (hnorm.skipSpacing.chars_eq_nil_iff.mp hnil))
      hfound]
    have happart := happart.infix_of (Slice.infix_of_afterKeyword? hwords)
    exact readConstraints_normalizes hrest.skipSpacing (happart.infix_of rest.infix_skipSpacing) h
  | case3 => cases h
  | case4 => cases h
  | case5 slice hne hwords sentence hsentence equations hclauses more =>
    rename_i ih
    obtain ⟨problem, hmore, rfl⟩ := map_eq_ok_iff.mp h
    have happart := happart.infix_of slice.infix_skipSpacing
    obtain ⟨found, hfound, hitems, hremainder, hstop⟩ :=
      readSentence_normalizes (fun _ _ _ => Equation.written_of_readClause) hnorm.skipSpacing
        happart hsentence hclauses
    have happart' := happart.infix_of (Sentence.infix_of_read hsentence).2
    rw [result_readEquations_sentence
      (fun hnil => hne (hnorm.skipSpacing.chars_eq_nil_iff.mp hnil))
      (afterKeyword?_normalizes_none hnorm.skipSpacing happart (by decide) hwords) hfound, hitems,
      hstop]
    -- Whoever reads on, it reads the same.
    have hrest : (if sentence.stop = some .suchThat then (readConstraints found.remainder).result
        else (readEquations found.remainder).result) = .ok problem := by
      simp only [more] at hmore
      split at hmore
      · rename_i hwhich
        rw [if_pos hwhich]
        exact readConstraints_normalizes hremainder.skipSpacing
          (happart'.infix_of (Slice.infix_skipSpacing _)) hmore
      · rename_i hwhich
        rw [if_neg hwhich]
        exact ih hremainder happart' hmore
    show Except.map _ (if _ then _ else _) = _
    rw [hrest]
    rfl

/-- **Making products explicit changes nothing for problems**: if no word stands directly against a
parenthesis or a digit, what is read as a problem is read as the same one with its products made
explicit. -/
theorem Problem.read_normalizes {slice other : Slice} {problem : Problem}
    (hnorm : Normalizes slice other) (happart : WordsApart keywords slice.chars)
    (h : (read slice).result = .ok problem) : (read other).result = .ok problem := by
  have happart := happart.infix_of slice.infix_skipSpacing
  unfold read at h ⊢
  cases hword : slice.skipSpacing.afterKeyword? "Solve" with
  | none =>
    rw [afterKeyword?_normalizes_none hnorm.skipSpacing happart (by decide) hword]
    rw [hword] at h
    exact h
  | some rest =>
    obtain ⟨found, hfound, hrest⟩ :=
      afterKeyword?_normalizes hnorm.skipSpacing happart (by decide) hword
    rw [hword] at h
    rw [hfound]
    dsimp only at h ⊢
    cases hbody : (readEquations rest).result with
    | error failure =>
      rw [hbody] at h
      cases h
    | ok inner =>
      rw [hbody] at h
      obtain rfl : inner = problem := Except.ok.inj h
      have happart := happart.infix_of (Slice.infix_of_afterKeyword? hword)
      rw [readEquations_normalizes hrest happart hbody]

end Diophantine
