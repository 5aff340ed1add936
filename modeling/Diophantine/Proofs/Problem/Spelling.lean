import Diophantine.Proofs.Constraint.Spelling
import Diophantine.Proofs.Problem.Course

/-!
# Which leaves of a problem can be written

The leaves of a problem are those of its equations and constraints. Sentence by sentence and clause
by clause, no text makes the reader return one that cannot be written.
-/

namespace Diophantine

/-! ### Leaves -/

namespace Equation

/-- The constants of an equation, from left to right. -/
def constants (equation : Equation) : List Value :=
  equation.left.constants ++ equation.right.constants

/-- Every leaf of an equation can be written. -/
def Spelled (equation : Equation) : Prop :=
  Spellable equation.names equation.constants

@[simp] theorem spelled_iff {equation : Equation} :
    equation.Spelled ↔ equation.left.Spelled ∧ equation.right.Spelled :=
  Spellable.append_iff

end Equation

namespace Problem

/-- The constants of a problem, in the order of the text. -/
def constants (problem : Problem) : List Value :=
  problem.equations.flatMap Equation.constants ++ problem.constraints.flatMap Constraint.constants

/-- Every leaf of a problem can be written. -/
def Spelled (problem : Problem) : Prop :=
  Spellable problem.names problem.constants

@[simp] theorem spelled_iff {problem : Problem} :
    problem.Spelled ↔ (∀ equation ∈ problem.equations, equation.Spelled)
      ∧ ∀ constraint ∈ problem.constraints, constraint.Spelled := by
  rw [Spelled, names, constants, Spellable.append_iff, Spellable.flatMap_iff,
    Spellable.flatMap_iff]
  rfl

theorem spelled_empty : Problem.empty.Spelled :=
  Spellable.nil

theorem spelled_withEquations {equations : List Equation} {problem : Problem}
    (hfront : ∀ equation ∈ equations, equation.Spelled) (h : problem.Spelled) :
    (problem.withEquations equations).Spelled := by
  obtain ⟨hequations, hconstraints⟩ := spelled_iff.mp h
  refine spelled_iff.mpr ⟨fun equation hmem => ?_, hconstraints⟩
  exact (List.mem_append.mp hmem).elim (hfront equation) (hequations equation)

theorem spelled_withConstraints {constraints : List Constraint} {problem : Problem}
    (hfront : ∀ constraint ∈ constraints, constraint.Spelled) (h : problem.Spelled) :
    (problem.withConstraints constraints).Spelled := by
  obtain ⟨hequations, hconstraints⟩ := spelled_iff.mp h
  refine spelled_iff.mpr ⟨hequations, fun constraint hmem => ?_⟩
  exact (List.mem_append.mp hmem).elim (hfront constraint) (hconstraints constraint)

end Problem

/-! ### Clauses that are read -/

theorem Equation.spelled_of_readClause {clause : Slice} {equation : Equation}
    (h : Equation.readClause clause = .ok equation) : equation.Spelled := by
  unfold readClause readUnlessBlank Equation.read at h
  split at h
  · cases h
  · split at h
    · cases h
    · cases h
    · split at h
      · cases h
      · rename_i left hleft
        split at h
        · cases h
        · rename_i right hright
          cases h
          exact spelled_iff.mpr
            ⟨Expression.spelled_of_read hleft, Expression.spelled_of_read hright⟩

theorem Constraint.spelled_of_readClause {clause : Slice} {constraint : Constraint}
    (h : Constraint.readClause clause = .ok constraint) : constraint.Spelled := by
  unfold readClause readUnlessBlank at h
  split at h
  · cases h
  · exact Constraint.spelled_of_read h

/-- What holds of every item that is read holds of all of them. -/
theorem forall_mem_of_readClauses {α : Type} {read : Slice → Except Failure α} {p : α → Prop}
    (hread : ∀ clause item, read clause = .ok item → p item) {clauses : List Slice}
    {items : List α} (h : readClauses read clauses = .ok items) : ∀ item ∈ items, p item :=
  forall_mem_of_forall₂ (forall₂_of_readClauses h).flip fun item _ clause => hread clause item

/-! ### Problems that are read -/

namespace Problem

theorem spelled_of_readConstraints {slice : Slice} {problem : Problem}
    (h : (readConstraints slice).result = .ok problem) : problem.Spelled := by
  fun_induction readConstraints slice generalizing problem with
  | case1 =>
    cases h
    exact spelled_empty
  | case2 => cases h
  | case3 => cases h
  | case4 slice _ sentence _ constraints hclauses more =>
    rename_i ih
    obtain ⟨found, hfound, rfl⟩ := map_eq_ok_iff.mp h
    exact spelled_withConstraints
      (forall_mem_of_readClauses (fun _ _ => Constraint.spelled_of_readClause) hclauses)
      (ih hfound)

theorem spelled_of_readEquations {slice : Slice} {problem : Problem}
    (h : (readEquations slice).result = .ok problem) : problem.Spelled := by
  fun_induction readEquations slice generalizing problem with
  | case1 =>
    cases h
    exact spelled_empty
  | case2 => exact spelled_of_readConstraints h
  | case3 => cases h
  | case4 => cases h
  | case5 slice _ _ sentence _ equations hclauses more =>
    rename_i ih
    obtain ⟨found, hfound, rfl⟩ := map_eq_ok_iff.mp h
    refine spelled_withEquations
      (forall_mem_of_readClauses (fun _ _ => Equation.spelled_of_readClause) hclauses) ?_
    simp only [more] at hfound
    split at hfound
    · exact spelled_of_readConstraints hfound
    · exact ih hfound

/-- No text makes the reader return a problem with a leaf that cannot be written. -/
theorem spelled_of_read {slice : Slice} {problem : Problem}
    (h : (read slice).result = .ok problem) : problem.Spelled := by
  unfold read at h
  split at h
  · cases h
    exact spelled_empty
  · rename_i rest _
    dsimp only at h
    cases hbody : (readEquations rest).result with
    | error failure =>
      rw [hbody] at h
      cases h
    | ok found =>
      rw [hbody] at h
      cases h
      exact spelled_of_readEquations hbody

end Problem

end Diophantine
