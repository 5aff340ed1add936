import Diophantine.Proofs.Problem.Sentences

/-!
# Reading what was rendered

A problem that was rendered is read as itself, exactly if its leaves can be written and no side of
an equation and no constraint nests too deep. What is rendered is put together from the texts of its
equations and constraints, so reading it is reading these.

- `Problem.read_render`: a rendered problem is read as itself;
- `Problem.explicit_render`: no product is implicit in it;
- `Problem.parse_display_iff`: the equivalence for problems.
-/

namespace Diophantine

/-! ### Rendered lists -/

theorem Equation.forall₂_derives_render {equations : List Equation}
    (h : ∀ equation ∈ equations, equation.Spelled) :
    List.Forall₂ Derives (equations.map fun equation => equation.render []) equations := by
  rw [List.forall₂_map_left_iff, List.forall₂_same]
  exact fun equation hmem => derives_render (h equation hmem)

theorem Constraint.forall₂_derives_render {constraints : List Constraint}
    (h : ∀ tree ∈ constraints, tree.Spelled) :
    List.Forall₂ (Derives .clause) (constraints.map fun tree => tree.render []) constraints := by
  rw [List.forall₂_map_left_iff, List.forall₂_same]
  exact fun tree hmem => derives_clause (h tree hmem)

theorem Equation.forall_nesting_render_iff {equations : List Equation}
    (h : ∀ equation ∈ equations, equation.Spelled) :
    (∀ text ∈ equations.map fun equation => equation.render [], nesting text ≤ maxNesting)
      ↔ ∀ equation ∈ equations, equation.Shallow := by
  rw [List.forall_mem_map]
  exact forall₂_congr fun equation hmem => nesting_render_le_iff (h equation hmem)

theorem Constraint.forall_nesting_render_iff {constraints : List Constraint}
    (h : ∀ tree ∈ constraints, tree.Spelled) :
    (∀ text ∈ constraints.map fun tree => tree.render [], nesting text ≤ maxNesting)
      ↔ ∀ tree ∈ constraints, tree.depth ≤ maxNesting := by
  rw [List.forall_mem_map]
  exact forall₂_congr fun tree hmem => by rw [nesting_render (h tree hmem)]

/-! ### Whole problems -/

namespace Problem

/-- Every side of an equation and every constraint nests no deeper than is allowed. -/
structure Shallow (problem : Problem) : Prop where
  equations : ∀ equation ∈ problem.equations, equation.Shallow
  constraints : ∀ tree ∈ problem.constraints, tree.depth ≤ maxNesting

@[simp] theorem shallow_iff {equations : List Equation} {constraints : List Constraint} :
    (Problem.mk equations constraints).Shallow
      ↔ (∀ equation ∈ equations, equation.Shallow)
        ∧ ∀ tree ∈ constraints, tree.depth ≤ maxNesting :=
  ⟨fun h => ⟨h.equations, h.constraints⟩, fun h => ⟨h.1, h.2⟩⟩

/-- The text of a problem that asks for something. -/
theorem render_of_ne_empty {problem : Problem} (h : problem.isEmpty = false) :
    problem.render = "Solve".toList
      ++ renderEquations problem.equations (renderConstraints problem.constraints ['.']) := by
  unfold render
  rw [if_neg (by simp [h])]

theorem renderConstraints_of_ne_nil {constraints : List Constraint} (hne : constraints ≠ []) :
    renderConstraints constraints ['.']
      = [' '] ++ ("such that".toList ++ ' ' ::
          ([',', ' '].intercalate (constraints.map fun tree => tree.render []) ++ ['.'])) := by
  rw [← renderList_eq_intercalate Constraint.render_eq_append]
  unfold renderConstraints
  rw [if_neg (by simp [hne])]
  rfl

theorem renderEquations_of_ne_nil {equations : List Equation} (hne : equations ≠ [])
    (rest : List Char) :
    renderEquations equations rest
      = [' '] ++ ([',', ' '].intercalate (equations.map fun equation => equation.render [])
          ++ rest) := by
  rw [← renderList_eq_intercalate Equation.render_eq_append]
  unfold renderEquations
  rw [if_neg (by simp [hne])]
  rfl

/-- A rendered problem is read as itself, if it is not too deep for that. -/
theorem read_render {problem : Problem} (h : problem.Spelled) :
    Yields (read (Slice.ofChars problem.render)).result problem problem.Shallow := by
  obtain ⟨equations, constraints⟩ := problem
  obtain ⟨hequations, hconstraints⟩ := spelled_iff.mp h
  have hderives := Equation.forall₂_derives_render hequations
  have hderives' := Constraint.forall₂_derives_render hconstraints
  have hnest := Equation.forall_nesting_render_iff hequations
  have hnest' := Constraint.forall_nesting_render_iff hconstraints
  by_cases hne : equations = []
  · subst hne
    by_cases hne' : constraints = []
    · subst hne'
      have hempty : (read (Slice.ofChars (render { equations := [], constraints := [] }))).result
          = .ok .empty := rfl
      rw [hempty]
      exact (Yields.ok Problem.empty).congr (iff_of_true trivial ⟨nofun, nofun⟩)
    · have hsome : (Problem.mk [] constraints).isEmpty = false := by simp [isEmpty, hne']
      have hread := read_solve (readEquations_suchThat hderives' Spaced.single
        (fun hnil => hne' (List.map_eq_nil_iff.mp hnil)) _)
      rw [render_of_ne_empty hsome]
      show Yields (read (Slice.ofChars ("Solve".toList
        ++ renderConstraints constraints ['.']))).result _ _
      rw [renderConstraints_of_ne_nil hne']
      exact hread.congr ((shallow_iff.trans (and_iff_right (List.forall_mem_nil _))).trans
        hnest'.symm).symm
  · have hsome : (Problem.mk equations constraints).isEmpty = false := by simp [isEmpty, hne]
    have hmap : equations.map (fun equation => equation.render []) ≠ [] :=
      fun hnil => hne (List.map_eq_nil_iff.mp hnil)
    rw [render_of_ne_empty hsome, renderEquations_of_ne_nil hne]
    by_cases hne' : constraints = []
    · subst hne'
      have hread := read_solve (readEquations_period hderives Spaced.single hmap _)
      exact hread.congr ((shallow_iff.trans (and_iff_left (List.forall_mem_nil _))).trans
        hnest.symm).symm
    · have hread := read_solve (readEquations_both hderives hderives' Spaced.single hmap
        (fun hnil => hne' (List.map_eq_nil_iff.mp hnil)) _)
      rw [renderConstraints_of_ne_nil hne']
      exact hread.congr (shallow_iff.trans (and_congr hnest.symm hnest'.symm)).symm

/-! ### Products are explicit -/

theorem explicit_renderList {α : Type} {render : α → List Char → List Char} {items : List α}
    (hitems : ∀ item ∈ items, ∀ rest, Explicit rest → Apart rest → Explicit (render item rest))
    {rest : List Char} (hrest : Explicit rest) (hapart : Apart rest) :
    Explicit (renderList render items rest) := by
  induction items with
  | nil => exact hrest
  | cons item items ih =>
    have hitem := hitems item (List.mem_cons_self ..)
    have hmore := ih fun next hmem => hitems next (List.mem_cons_of_mem item hmem)
    cases items with
    | nil => exact hitem rest hrest hapart
    | cons next items =>
      have hspace : Explicit (' ' :: renderList render (next :: items) rest) :=
        hmore.cons (by decide)
      exact hitem _ (hspace.cons (by decide)) (Apart.cons (by decide) _)

/-- No product is implicit in a rendered problem. -/
theorem explicit_render (problem : Problem) : Explicit problem.render := by
  have hconstraints : Explicit (renderConstraints problem.constraints ['.'])
      ∧ Apart (renderConstraints problem.constraints ['.']) := by
    unfold renderConstraints
    split
    · exact ⟨by decide, Apart.cons (by decide) []⟩
    · refine ⟨?_, Apart.cons (by decide) _⟩
      have hlist : Explicit (renderList Constraint.render problem.constraints ['.']) :=
        explicit_renderList (fun tree _ rest hrest hapart => tree.explicit_render hrest hapart)
          (by decide) (Apart.cons (by decide) [])
      exact hlist.word "such that".toList (by decide)
  have hequations : Explicit (renderEquations problem.equations
      (renderConstraints problem.constraints ['.']))
      ∧ Apart (renderEquations problem.equations
          (renderConstraints problem.constraints ['.'])) := by
    unfold renderEquations
    split
    · exact hconstraints
    · refine ⟨?_, Apart.cons (by decide) _⟩
      have hlist : Explicit (renderList Equation.render problem.equations
          (renderConstraints problem.constraints ['.'])) :=
        explicit_renderList
          (fun equation _ rest hrest hapart => equation.explicit_render hrest hapart)
          hconstraints.1 hconstraints.2
      exact hlist.cons (by decide)
  unfold render
  split
  · exact List.isChain_nil
  · exact Explicit.append (by decide) hequations.1 hequations.2

/-! ### The equivalence -/

/-- No text makes the parser return a leaf that cannot be written. -/
theorem spelled_of_parse {text : String} {problem : Problem} (h : parse text = .ok problem) :
    problem.Spelled :=
  spelled_of_read (mapError_eq_ok_iff.mp h)

/-- A text that was rendered from leaves that can be written is read as the problem or as none, and
it is read if it does not nest too deep. -/
theorem parse_display_eq_ok_iff {problem other : Problem} (h : problem.Spelled) :
    parse problem.display = .ok other ↔ problem = other ∧ problem.Shallow := by
  have hexplicit : explicitProducts problem.display.toList = problem.render := by
    rw [display, String.toList_ofList]
    exact explicitProducts_eq_self (explicit_render problem)
  unfold parse parseFrom
  rw [hexplicit]
  exact mapError_eq_ok_iff.trans (read_render h other)

/-- A problem that was rendered is read as itself exactly if its leaves can be written and it does
not nest too deep. -/
theorem parse_display_iff (problem : Problem) :
    parse problem.display = .ok problem ↔ problem.Spelled ∧ problem.Shallow := by
  constructor
  -- Whatever is read can be spelled, so a tree that comes back is one that can be.
  · intro hparse
    have hspelled : problem.Spelled := spelled_of_parse hparse
    exact ⟨hspelled, ((parse_display_eq_ok_iff hspelled).mp hparse).2⟩
  · rintro ⟨hspelled, hshallow⟩
    exact (parse_display_eq_ok_iff hspelled).mpr ⟨rfl, hshallow⟩

end Problem

/-- **Reading is the inverse of rendering**, and exactly this far: a tree comes back as it was if
and only if its variables are letters, the least value is not among its constants, and no side of an
equation and no constraint nests more than 128 deep. -/
theorem parse_display_eq_self_iff :
    (∀ problem : Problem, Problem.parse problem.display = .ok problem ↔
      (∀ name ∈ problem.names, name.isAlpha = true)
        ∧ Int64.minValue ∉ problem.constants
        ∧ (∀ equation ∈ problem.equations,
            equation.left.depth ≤ 128 ∧ equation.right.depth ≤ 128)
        ∧ ∀ constraint ∈ problem.constraints, constraint.depth ≤ 128)
    ∧ (∀ expression : Expression, Expression.parse expression.display = .ok expression ↔
      (∀ name ∈ expression.names, name.isAlpha = true)
        ∧ Int64.minValue ∉ expression.constants ∧ expression.depth ≤ 128)
    ∧ ∀ constraint : Constraint, Constraint.parse constraint.display = .ok constraint ↔
      (∀ name ∈ constraint.names, name.isAlpha = true)
        ∧ Int64.minValue ∉ constraint.constants ∧ constraint.depth ≤ 128 := by
  refine ⟨fun problem => ?_, fun expression => ?_, fun constraint => ?_⟩
  · rw [problem.parse_display_iff]
    constructor
    · rintro ⟨⟨hletters, hvalues⟩, hequations, hconstraints⟩
      exact ⟨hletters, hvalues, hequations, hconstraints⟩
    · rintro ⟨hletters, hvalues, hequations, hconstraints⟩
      exact ⟨⟨hletters, hvalues⟩, hequations, hconstraints⟩
  · rw [expression.parse_display_iff]
    constructor
    · rintro ⟨⟨hletters, hvalues⟩, hdepth⟩
      exact ⟨hletters, hvalues, hdepth⟩
    · rintro ⟨hletters, hvalues, hdepth⟩
      exact ⟨⟨hletters, hvalues⟩, hdepth⟩
  · rw [constraint.parse_display_iff]
    constructor
    · rintro ⟨⟨hletters, hvalues⟩, hdepth⟩
      exact ⟨hletters, hvalues, hdepth⟩
    · rintro ⟨hletters, hvalues, hdepth⟩
      exact ⟨⟨hletters, hvalues⟩, hdepth⟩

end Diophantine
