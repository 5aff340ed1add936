import Diophantine.Proofs.Problem.Places
import Diophantine.Proofs.Relocation
import Diophantine.Proofs.Unbalanced

/-!
# The first clause that is refused

A text that fails to be read as a problem, all of whose sentences are split, is refused for one of
its clauses. It is the first that would be refused if it stood alone, it would be refused for the
same cause, and what is shown is within it.

- `Course.eq_of_ends`: from where it begins, reading comes to one end only;
- `Part.span_within_of_check_error`: what is shown of a clause that is refused;
- `Problem.Reaches`, `Problem.Refuses`: the clause that a text is refused for;
- `Problem.refuses_first`: whatever is refused, unless a sentence is not split, is refused for one.
-/

namespace Diophantine

/-! ### One course -/

namespace Course

variable {part other other' : Part} {slice last last' : Slice}
  {clauses clauses' : List (Part × Slice)}

/-- Reading accepts all clauses on its way. -/
theorem accepted (h : Course part slice clauses other last) :
    ∀ read ∈ clauses, read.1.check read.2 = .ok () := by
  induction h with
  | nil => exact nofun
  | words _ _ ih => exact ih
  | sentence _ hclauses _ ih =>
    exact List.forall_mem_append.mpr ⟨List.forall_mem_map.mpr hclauses, ih⟩

end Course

/-- A sentence is split in one way. -/
theorem Part.Reads.unique {part : Part} {slice : Slice} {result result' : Except Failure Sentence}
    (h : part.Reads slice result) (h' : part.Reads slice result') : result = result' :=
  h.read_eq.symm.trans h'.read_eq

/-- Where reading fails, it does not go on. -/
theorem Part.Ends.eq_of_course {part other : Part} {slice last : Slice}
    {clauses : List (Part × Slice)} {failure : Failure} (hends : part.Ends slice (.error failure))
    (h : Course part slice clauses other last) : other = part ∧ last = slice := by
  cases h with
  | nil => exact ⟨rfl, rfl⟩
  | words hwords =>
    have hno : slice.skipSpacing.afterKeyword? "such that" = none := by
      cases hends with
      | split hreads => exact hreads.no_words rfl
      | clause hreads => exact hreads.no_words rfl
    rw [hwords] at hno
    cases hno
  | sentence hreads' hclauses' =>
    cases hends with
    | split hreads => cases hreads.unique hreads'
    | clause hreads hclauses _ hcheck =>
      cases hreads.unique hreads'
      have hmem := hclauses ▸ List.mem_append_right _ (List.mem_cons_self ..)
      rw [hclauses' _ hmem] at hcheck
      cases hcheck

/-- From where it begins, reading comes to one end only. -/
theorem Course.eq_of_ends {part other other' : Part} {slice last last' : Slice}
    {clauses clauses' : List (Part × Slice)} {failure failure' : Failure}
    (h : Course part slice clauses other last) (hends : other.Ends last (.error failure))
    (h' : Course part slice clauses' other' last') (hends' : other'.Ends last' (.error failure')) :
    other = other' ∧ last = last' := by
  induction h generalizing clauses' with
  | nil =>
    obtain ⟨rfl, rfl⟩ := hends.eq_of_course h'
    exact ⟨rfl, rfl⟩
  | words hwords hmore ih =>
    cases h' with
    | nil =>
      obtain ⟨rfl, rfl⟩ := hends'.eq_of_course (.words hwords hmore)
      exact ⟨rfl, rfl⟩
    | words hwords' hmore' =>
      cases hwords.symm.trans hwords'
      exact ih hends hmore'
    | sentence hreads' =>
      rw [hreads'.no_words rfl] at hwords
      cases hwords
  | sentence hreads hclauses hmore ih =>
    cases h' with
    | nil =>
      obtain ⟨rfl, rfl⟩ := hends'.eq_of_course (.sentence hreads hclauses hmore)
      exact ⟨rfl, rfl⟩
    | words hwords' =>
      rw [hreads.no_words rfl] at hwords'
      cases hwords'
    | sentence hreads' _ hmore' =>
      cases hreads.unique hreads'
      exact ih hends hmore'

/-! ### What is shown -/

/-- A failure that shows characters of a slice has its span in that of the slice. -/
theorem Failure.Within.span_within {failure : Failure} {slice : Slice} (h : failure.Within slice) :
    slice.span.start ≤ failure.span.start ∧ failure.span.start ≤ failure.span.stop
      ∧ failure.span.stop ≤ slice.span.stop := by
  obtain ⟨front, shown, back, hchars, hcovers, -⟩ := h
  have hstop : slice.span.stop
      = slice.start.offset + (byteLength front + (byteLength shown + byteLength back)) := by
    show slice.start.offset + byteLength slice.chars = _
    rw [hchars, byteLength_append, byteLength_append]
  have hstart : slice.span.start = slice.start.offset := rfl
  rw [hcovers.start_eq, hcovers.stop_eq, Position.offset_past, hstop, hstart]
  omega

/-- Whatever a clause is refused for, the whole span of the failure is within that of the clause. -/
theorem Part.span_within_of_check_error {part : Part} {clause : Slice} {failure : Failure}
    (h : part.check clause = .error failure) :
    clause.span.start ≤ failure.span.start ∧ failure.span.start ≤ failure.span.stop
      ∧ failure.span.stop ≤ clause.span.stop := by
  rcases Part.cases_of_check_error h with rfl | hraised
  · refine ⟨Nat.le_refl _, Nat.le_add_right _ _, ?_⟩
    have hlength := byteLength_append (clause.chars.take 1) (clause.chars.drop 1)
    rw [List.take_append_drop] at hlength
    exact Nat.add_le_add_left (hlength ▸ Nat.le_add_right ..) _
  · exact hraised.within.span_within

/-! ### Problems -/

namespace Problem

/-- Reading a text as a problem comes to a clause of one of its sentences. The clauses of the
sentences before and of this one, up to it, are `earlier`. -/
def Reaches (text : String) (earlier : List (Part × Slice)) (part : Part) (clause : Slice) : Prop :=
  ∃ rest before last sentence front back,
    (Slice.ofString (normalize text)).skipSpacing.afterKeyword? "Solve" = some rest
      ∧ Course .equations rest before part last ∧ part.Reads last (.ok sentence)
      ∧ sentence.clauses = front ++ clause :: back ∧ earlier = before ++ front.map (part, ·)

/-- A text is refused for one of its clauses: each of those before it is accepted on its own, and it
is refused on its own for the same cause. What is shown is within it. -/
structure Refuses (text : String) (failure : Failure) (earlier : List (Part × Slice)) (part : Part)
    (clause : Slice) : Prop where
  reaches : Reaches text earlier part clause
  accepted : ∀ other ∈ earlier, other.1.check (Slice.ofChars other.2.chars) = .ok ()
  refused : ∃ own, part.check (Slice.ofChars clause.chars) = .error own
    ∧ own.cause = failure.cause
  place : clause.Within (Slice.ofString (normalize text))
  span_within : clause.span.start ≤ failure.span.start ∧ failure.span.start ≤ failure.span.stop
    ∧ failure.span.stop ≤ clause.span.stop

end Problem

/-- A clause that is accepted where it stands is accepted on its own, and the other way round. -/
theorem Part.check_ofChars_eq_ok_iff {part : Part} {clause : Slice} :
    part.check (Slice.ofChars clause.chars) = .ok () ↔ part.check clause = .ok () := by
  have halike := part.alike_check (show (Slice.ofChars clause.chars).Alike clause from rfl)
  generalize part.check (Slice.ofChars clause.chars) = own, part.check clause = result at halike ⊢
  cases halike with
  | ok => exact iff_of_true rfl rfl
  | error => exact iff_of_false nofun nofun

/-- A clause that is refused where it stands is refused on its own, for the same cause. -/
theorem Part.exists_check_ofChars_eq_error_iff {part : Part} {clause : Slice} {cause : Cause} :
    (∃ own, part.check (Slice.ofChars clause.chars) = .error own ∧ own.cause = cause)
      ↔ ∃ failure, part.check clause = .error failure ∧ failure.cause = cause := by
  have halike := part.alike_check (show (Slice.ofChars clause.chars).Alike clause from rfl)
  generalize part.check (Slice.ofChars clause.chars) = own, part.check clause = result at halike ⊢
  cases halike with
  | ok => exact iff_of_false nofun nofun
  | error hcause => simp [hcause]

namespace Problem

variable {source text : String}

/-- Where reading comes to an end at a clause, the text is refused for it. -/
theorem exists_refuses_of_ends {failure : Failure} {rest last : Slice} {part : Part}
    {before : List (Part × Slice)}
    (hsolve : (Slice.ofString (normalize text)).skipSpacing.afterKeyword? "Solve" = some rest)
    (hcourse : Course .equations rest before part last) (hends : part.Ends last (.error failure)) :
    SplitFails text failure ∨ ∃ earlier clause, Refuses text failure earlier part clause := by
  cases hends with
  | split hreads => exact .inl ⟨rest, before, part, last, hsolve, hcourse, hreads⟩
  | @clause sentence front back clause _ hreads hclauses hfront hcheck =>
    have hmem : clause ∈ sentence.clauses :=
      hclauses ▸ List.mem_append_right _ (List.mem_cons_self ..)
    have hlast : last.Within rest := hcourse.within.1.resolve_left
      (mt Slice.skipSpacing_eq_nil hreads.nonblank)
    have hrest := (Slice.within_of_afterKeyword? hsolve).trans (Slice.within_skipSpacing _)
    refine .inr ⟨before ++ front.map (part, ·), clause, ?_⟩
    exact {
      reaches := ⟨rest, before, last, sentence, front, back, hsolve, hcourse, hreads, hclauses, rfl⟩
      accepted := fun other hother => Part.check_ofChars_eq_ok_iff.mpr
        (List.forall_mem_append.mpr ⟨hcourse.accepted, List.forall_mem_map.mpr hfront⟩ other hother)
      refused := Part.exists_check_ofChars_eq_error_iff.mpr ⟨failure, hcheck, rfl⟩
      place := ((hreads.within.1 clause hmem).trans hlast).trans hrest
      span_within := Part.span_within_of_check_error hcheck }

/-- Where a sentence is not split, a parenthesis is to blame. -/
theorem SplitFails.unpaired {failure : Failure} (h : SplitFails text failure) :
    failure.Unpaired := by
  obtain ⟨_, _, _, _, _, _, hreads⟩ := h
  exact (Sentence.mispaired_of_read hreads.read_eq).unpaired

/-- A text that is refused for a clause has its sentences split up to there. -/
theorem Refuses.not_splitFails {failure failure' : Failure} {earlier : List (Part × Slice)}
    {part : Part} {clause : Slice} (h : Refuses text failure earlier part clause) :
    ¬SplitFails text failure' := by
  rintro ⟨rest', clauses, other, last', hsolve', hcourse', hreads'⟩
  obtain ⟨rest, before, last, sentence, front, back, hsolve, hcourse, hreads, hclauses, rfl⟩ :=
    h.reaches
  obtain ⟨own, hcheck, -⟩ := Part.exists_check_ofChars_eq_error_iff.mp h.refused
  cases hsolve.symm.trans hsolve'
  have hfront : ∀ other ∈ front, part.check other = .ok () := fun other hother =>
    Part.check_ofChars_eq_ok_iff.mp
      (h.accepted (part, other) (List.mem_append_right _ (List.mem_map_of_mem hother)))
  obtain ⟨rfl, rfl⟩ := hcourse.eq_of_ends (.clause hreads hclauses hfront hcheck) hcourse'
    (.split hreads')
  cases hreads.unique hreads'

/-- **A text names its first bad clause.** If it fails to be read as a problem, and not because a
sentence is not split, then it is refused for a clause: each clause before it in the text is
accepted on its own, it is refused on its own for the same cause, so with the same kind and message,
and the whole span of the failure lies within its bytes. -/
theorem refuses_first {diagnostic : Diagnostic}
    (h : (parseFrom source text).result = .error diagnostic) :
    ∃ failure, (read (Slice.ofString (normalize text))).result = .error failure
      ∧ diagnostic = failure.diagnose source (normalize text).toList
      ∧ (¬SplitFails text failure ↔
        ∃ earlier part clause, Refuses text failure earlier part clause) := by
  obtain ⟨failure, rest, before, part, last, hread, rfl, hsolve, hcourse, hends⟩ :=
    exists_course_parseFrom h
  refine ⟨failure, hread, rfl, fun hnot => ?_, fun ⟨earlier, part, clause, hrefuses⟩ =>
    hrefuses.not_splitFails⟩
  obtain ⟨earlier, clause, hrefuses⟩ :=
    (exists_refuses_of_ends hsolve hcourse hends).resolve_left hnot
  exact ⟨earlier, part, clause, hrefuses⟩

/-- The first clause of the second sentence is no equation. The one behind it is none either, but it
comes too late. -/
theorem refuses_first_missing_equals :
    let text := "Solve x = 1. y 2, = 3."
    ∃ failure, (parseFrom inlineSource text).result
        = .error (failure.diagnose inlineSource (normalize text).toList)
      ∧ failure = ⟨.noEquals, { start := 13, stop := 16, line := 1, column := 14 }⟩
      ∧ ∃ earlier part clause, Refuses text failure earlier part clause := by
  intro text
  have hparse : (parseFrom inlineSource text).result = .error ⟨.structural, "equation has no '='",
      inlineSource, 13, 1, 14, "Solve x = 1. y 2, = 3.", "             ^^^"⟩ := by
    decide +kernel
  have hread : (read (Slice.ofString (normalize text))).result
      = .error ⟨.noEquals, { start := 13, stop := 16, line := 1, column := 14 }⟩ := by
    decide +kernel
  obtain ⟨failure, hfailure, heq, hiff⟩ := refuses_first hparse
  cases hread.symm.trans hfailure
  refine ⟨_, heq ▸ hparse, rfl, hiff.mp fun hsplit => ?_⟩
  rcases hsplit.unpaired with hcause | hcause
  · cases hcause
  · cases hcause

end Problem

end Diophantine
