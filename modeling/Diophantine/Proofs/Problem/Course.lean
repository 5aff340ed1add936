import Mathlib.Data.List.Forall2
import Diophantine.Problem.Parser

/-!
# The course of reading a problem

A problem is read sentence by sentence, first equations and then constraints. On its way, reading
has accepted clauses behind it and a slice in front of it. It goes on as long as there is a sentence
that can be split and whose clauses are all accepted, and it comes to an end where nothing is left,
where a sentence cannot be split, or at the first clause that is not accepted.

- `Part`, `Part.check`: the two parts of a problem, and what they make of a clause;
- `Part.Reads`, `Part.Ends`: a sentence that is split, and where reading comes to an end;
- `Course`: how reading goes on, with the clauses that it accepts;
- `exists_course_readConstraints`, `exists_course_readEquations`: this is how problems are read;
- `Problem.SplitFails`: texts that fail because a sentence is not split.
-/

namespace Diophantine

/-! ### Parts of a problem -/

/-- The equations of a problem, or its constraints. -/
inductive Part
  | equations
  | constraints

namespace Part

/-- What separates and ends clauses in a part. -/
def terminators : Part → List Terminator
  | equations => equationTerminators
  | constraints => constraintTerminators

/-- Whether a clause is one of a part, or why it is not. -/
def check : Part → Slice → Except Failure Unit
  | equations, clause => (Equation.readClause clause).map fun _ => ()
  | constraints, clause => (Constraint.readClause clause).map fun _ => ()

/-- The part that follows a sentence. -/
def next (part : Part) (stop : Option Ending) : Part :=
  if stop = some .suchThat then constraints else part

/-- What a slice begins with is split as a sentence of a part. The words `such that` in front of
constraints are no sentence. -/
structure Reads (part : Part) (slice : Slice) (result : Except Failure Sentence) : Prop where
  nonblank : slice.skipSpacing.chars ≠ []
  no_words : part = equations → slice.skipSpacing.afterKeyword? "such that" = none
  read_eq : Sentence.read part.terminators slice.skipSpacing = result

/-- Where reading comes to an end. -/
inductive Ends (part : Part) (slice : Slice) : Except Failure Problem → Prop
  /-- Nothing is left. -/
  | done {problem : Problem} (hblank : slice.skipSpacing.chars = []) : Ends part slice (.ok problem)
  /-- A sentence is not split. -/
  | split {failure : Failure} (hreads : part.Reads slice (.error failure)) :
      Ends part slice (.error failure)
  /-- A clause of a sentence is the first one that is not accepted. -/
  | clause {sentence : Sentence} {front back : List Slice} {clause : Slice} {failure : Failure}
      (hreads : part.Reads slice (.ok sentence))
      (hclauses : sentence.clauses = front ++ clause :: back)
      (hfront : ∀ other ∈ front, part.check other = .ok ())
      (hcheck : part.check clause = .error failure) : Ends part slice (.error failure)

theorem Ends.map {part : Part} {slice : Slice} {result : Except Failure Problem}
    (h : part.Ends slice result) (f : Problem → Problem) : part.Ends slice (result.map f) := by
  cases h with
  | done hblank => exact .done hblank
  | split hreads => exact .split hreads
  | clause hreads hclauses hfront hcheck => exact .clause hreads hclauses hfront hcheck

end Part

/-- Reading goes on from one slice to another, and accepts some clauses on the way. -/
inductive Course : Part → Slice → List (Part × Slice) → Part → Slice → Prop
  | nil {part : Part} {slice : Slice} : Course part slice [] part slice
  | words {slice rest last : Slice} {clauses : List (Part × Slice)} {part : Part}
      (hwords : slice.skipSpacing.afterKeyword? "such that" = some rest)
      (hmore : Course .constraints rest clauses part last) :
      Course .equations slice clauses part last
  | sentence {part other : Part} {slice last : Slice} {sentence : Sentence}
      {clauses : List (Part × Slice)} (hreads : part.Reads slice (.ok sentence))
      (hclauses : ∀ clause ∈ sentence.clauses, part.check clause = .ok ())
      (hmore : Course (part.next sentence.stop) sentence.remainder clauses other last) :
      Course part slice (sentence.clauses.map (part, ·) ++ clauses) other last

/-! ### Clauses -/

theorem forall_mem_of_forall₂ {α β : Type} {r : α → β → Prop} {p : α → Prop} {front : List α}
    {back : List β} (h : List.Forall₂ r front back) (hp : ∀ a ∈ front, ∀ b, r a b → p a) :
    ∀ a ∈ front, p a := by
  induction h with
  | nil => exact List.forall_mem_nil p
  | @cons a b _ _ hab _ ih =>
    obtain ⟨hfirst, hmore⟩ := List.forall_mem_cons.mp hp
    exact List.forall_mem_cons.mpr ⟨hfirst b hab, ih hmore⟩

section Clauses

variable {α : Type} {read : Slice → Except Failure α} {clauses : List Slice}

/-- Clause by clause, what was read are the items. -/
theorem forall₂_of_readClauses {items : List α} (h : readClauses read clauses = .ok items) :
    List.Forall₂ (fun clause item => read clause = .ok item) clauses items := by
  induction clauses generalizing items with
  | nil =>
    cases h
    exact .nil
  | cons clause clauses ih =>
    rw [readClauses] at h
    split at h
    · cases h
    · rename_i item hitem
      split at h
      · cases h
      · rename_i more hmore
        cases h
        exact .cons hitem (ih hmore)

/-- Clauses that are read together are read one by one. -/
theorem exists_item_of_readClauses {items : List α} (h : readClauses read clauses = .ok items) :
    ∀ clause ∈ clauses, ∃ item, read clause = .ok item :=
  forall_mem_of_forall₂ (forall₂_of_readClauses h) fun _ _ item hitem => ⟨item, hitem⟩

theorem check_of_readClauses {items : List α} (h : readClauses read clauses = .ok items) :
    ∀ clause ∈ clauses, (read clause).map (fun _ => ()) = .ok () := by
  intro clause hmem
  obtain ⟨item, hitem⟩ := exists_item_of_readClauses h clause hmem
  rw [hitem]
  rfl

/-- Clauses that fail together fail at the first of them that does. -/
theorem exists_of_readClauses_error {failure : Failure}
    (h : readClauses read clauses = .error failure) :
    ∃ front clause back, clauses = front ++ clause :: back
      ∧ (∀ other ∈ front, (read other).map (fun _ => ()) = .ok ())
      ∧ (read clause).map (fun _ => ()) = .error failure := by
  induction clauses with
  | nil => cases h
  | cons clause clauses ih =>
    unfold readClauses at h
    split at h
    · rename_i hclause
      cases h
      refine ⟨[], clause, clauses, rfl, nofun, ?_⟩
      rw [hclause]
      rfl
    · rename_i item hitem
      split at h
      · rename_i hclauses
        cases h
        obtain ⟨front, other, back, rfl, hfront, hother⟩ := ih hclauses
        refine ⟨clause :: front, other, back, rfl, List.forall_mem_cons.mpr ⟨?_, hfront⟩, hother⟩
        rw [hitem]
        rfl
      · cases h

end Clauses

/-! ### Sentences -/

/-- Constraints are read sentence by sentence. -/
theorem exists_course_readConstraints (slice : Slice) :
    ∃ clauses last, Course .constraints slice clauses .constraints last
      ∧ Part.constraints.Ends last (readConstraints slice).result := by
  fun_induction readConstraints slice with
  | case1 slice hblank => exact ⟨[], slice, .nil, .done hblank⟩
  | case2 slice hne failure hsentence =>
    exact ⟨[], slice, .nil, .split ⟨hne, nofun, hsentence⟩⟩
  | case3 slice hne sentence hsentence failure hclauses =>
    obtain ⟨front, clause, back, hsplit, hfront, hclause⟩ := exists_of_readClauses_error hclauses
    exact ⟨[], slice, .nil, .clause ⟨hne, nofun, hsentence⟩ hsplit hfront hclause⟩
  | case4 slice hne sentence hsentence constraints hclauses more =>
    rename_i ih
    obtain ⟨clauses, last, hcourse, hends⟩ := ih
    have hmore : Course (Part.constraints.next sentence.stop) sentence.remainder clauses
        .constraints last := by
      rw [Part.next, ite_self]
      exact hcourse
    exact ⟨_, last, .sentence ⟨hne, nofun, hsentence⟩ (check_of_readClauses hclauses) hmore,
      hends.map _⟩

/-- Equations and the constraints behind them are read sentence by sentence. -/
theorem exists_course_readEquations (slice : Slice) :
    ∃ clauses part last, Course .equations slice clauses part last
      ∧ part.Ends last (readEquations slice).result := by
  fun_induction readEquations slice with
  | case1 slice hblank => exact ⟨[], .equations, slice, .nil, .done hblank⟩
  | case2 slice hne rest hwords =>
    obtain ⟨clauses, last, hcourse, hends⟩ := exists_course_readConstraints rest
    exact ⟨clauses, .constraints, last, .words hwords hcourse, hends⟩
  | case3 slice hne hwords failure hsentence =>
    exact ⟨[], .equations, slice, .nil, .split ⟨hne, fun _ => hwords, hsentence⟩⟩
  | case4 slice hne hwords sentence hsentence failure hclauses =>
    obtain ⟨front, clause, back, hsplit, hfront, hclause⟩ := exists_of_readClauses_error hclauses
    exact ⟨[], .equations, slice, .nil,
      .clause ⟨hne, fun _ => hwords, hsentence⟩ hsplit hfront hclause⟩
  | case5 slice hne hwords sentence hsentence equations hclauses more =>
    rename_i ih
    -- The words at the end of a sentence lead on to the constraints.
    have hmore : ∃ clauses part last,
        Course (Part.equations.next sentence.stop) sentence.remainder clauses part last
          ∧ part.Ends last more.result := by
      unfold Part.next
      simp only [more]
      split
      · obtain ⟨clauses, last, hcourse, hends⟩ :=
          exists_course_readConstraints sentence.remainder
        exact ⟨clauses, .constraints, last, hcourse, hends⟩
      · exact ih
    obtain ⟨clauses, part, last, hcourse, hends⟩ := hmore
    exact ⟨_, part, last, .sentence ⟨hne, fun _ => hwords, hsentence⟩
      (check_of_readClauses hclauses) hcourse, hends.map _⟩

/-! ### Problems -/

theorem Slice.ofString_normalize (text : String) :
    Slice.ofString (normalize text) = Slice.ofChars (explicitProducts text.toList) :=
  congrArg Slice.ofChars String.toList_ofList

namespace Problem

/-- Reading a problem takes its course behind the word `Solve`. -/
theorem exists_course_read {slice rest : Slice}
    (hsolve : slice.skipSpacing.afterKeyword? "Solve" = some rest) :
    ∃ clauses part last, Course .equations rest clauses part last
      ∧ part.Ends last (read slice).result := by
  obtain ⟨clauses, part, last, hcourse, hends⟩ := exists_course_readEquations rest
  refine ⟨clauses, part, last, hcourse, ?_⟩
  unfold read
  rw [hsolve]
  dsimp only
  split
  · rename_i hbody
    rw [hbody] at hends
    exact hends
  · rename_i hbody
    rw [hbody] at hends
    exact hends

/-- A text fails to be read as a problem where one of its sentences is split. All clauses before
are accepted. -/
def SplitFails (text : String) (failure : Failure) : Prop :=
  ∃ rest clauses part last,
    (Slice.ofString (normalize text)).skipSpacing.afterKeyword? "Solve" = some rest
      ∧ Course .equations rest clauses part last ∧ part.Reads last (.error failure)

/-- The failure to parse a text takes its course behind the word `Solve`. -/
theorem exists_course_parseFrom {source text : String} {diagnostic : Diagnostic}
    (h : (parseFrom source text).result = .error diagnostic) :
    ∃ failure rest clauses part last,
      (read (Slice.ofString (normalize text))).result = .error failure
        ∧ diagnostic = failure.diagnose source (normalize text).toList
        ∧ (Slice.ofString (normalize text)).skipSpacing.afterKeyword? "Solve" = some rest
        ∧ Course .equations rest clauses part last ∧ part.Ends last (.error failure) := by
  rw [Slice.ofString_normalize, normalize, String.toList_ofList]
  have hread : (read (Slice.ofChars (explicitProducts text.toList))).result.mapError
      (fun failure => failure.diagnose source (explicitProducts text.toList))
        = .error diagnostic := h
  cases hsolve :
      (Slice.ofChars (explicitProducts text.toList)).skipSpacing.afterKeyword? "Solve" with
  | none =>
    rw [read, hsolve] at hread
    cases hread
  | some rest =>
    obtain ⟨clauses, part, last, hcourse, hends⟩ := exists_course_read hsolve
    cases hresult : (read (Slice.ofChars (explicitProducts text.toList))).result with
    | ok problem =>
      rw [hresult] at hread
      cases hread
    | error failure =>
      rw [hresult] at hread hends
      exact ⟨failure, rest, clauses, part, last, rfl, (Except.error.inj hread).symm, rfl, hcourse,
        hends⟩

end Problem

end Diophantine
