import Diophantine.Proofs.Constraint.Soundness
import Diophantine.Proofs.Problem.Sentences

/-!
# Problems compose clause by clause

The sides of equations and the constraints of a problem may be texts that were parsed on their own.
Put together to the text of a problem, they are parsed as what they were parsed as before. Products
are made explicit in the whole text at once, which is the same as in each part, as parts are kept
apart by spaces and signs.

- `explicitProducts_intercalate`: products in a list of texts;
- `Problem.compose`: the text that is put together;
- `Problem.parse_compose`: it is parsed clause by clause.
-/

namespace Diophantine

/-! ### Products in parts -/

theorem explicitProducts_intercalate (texts : List (List Char)) :
    explicitProducts ([',', ' '].intercalate texts)
      = [',', ' '].intercalate (texts.map explicitProducts) := by
  induction texts with
  | nil => rfl
  | cons text texts ih =>
    by_cases hmore : texts = []
    · subst hmore
      rw [List.map_singleton, List.intercalate_singleton, List.intercalate_singleton]
    · have hmap : texts.map explicitProducts ≠ [] := fun hnil => hmore (List.map_eq_nil_iff.mp hnil)
      rw [List.map_cons, List.intercalate_cons_of_ne_nil hmore,
        List.intercalate_cons_of_ne_nil hmap, List.append_assoc, List.append_assoc,
        explicitProducts_separate _ _ (by simp) (by simp), ih]

namespace Problem

/-- The text of a problem, put together from the sides of its equations and from its constraints. -/
def compose (equations : List (String × String)) (constraints : List String) : String :=
  "Solve " ++ ", ".intercalate (equations.map fun sides => sides.1 ++ " = " ++ sides.2)
    ++ (if constraints = [] then "" else " such that " ++ ", ".intercalate constraints) ++ "."

/-! ### The parts -/

/-- The text of an equation, put together from its sides with products made explicit. -/
def sidesText (sides : String × String) : List Char :=
  explicitProducts sides.1.toList ++ ([' ', '=', ' '] ++ explicitProducts sides.2.toList)

/-- Sides that are parsed make an equation, and it does not nest too deep. -/
theorem derives_sidesText {sides : String × String} {equation : Equation}
    (hleft : Expression.parse sides.1 = .ok equation.left)
    (hright : Expression.parse sides.2 = .ok equation.right) :
    nesting (sidesText sides) ≤ maxNesting ∧ Equation.Derives (sidesText sides) equation := by
  obtain ⟨hl, hlnest⟩ := Expression.parse_eq_ok_iff_derives.mp hleft
  obtain ⟨hr, hrnest⟩ := Expression.parse_eq_ok_iff_derives.mp hright
  obtain ⟨hderives, hnest⟩ := Equation.derives_sides hl hr
  exact ⟨hnest.trans_le (Nat.max_le.mpr ⟨hlnest, hrnest⟩), hderives⟩

theorem explicitProducts_sides (equations : List (String × String)) :
    explicitProducts ([',', ' '].intercalate
        (equations.map fun sides => sides.1.toList ++ ([' ', '=', ' '] ++ sides.2.toList)))
      = [',', ' '].intercalate (equations.map sidesText) := by
  rw [explicitProducts_intercalate, List.map_map]
  refine congrArg _ (List.map_congr_left fun sides _ => ?_)
  exact explicitProducts_separate _ _ (by simp) (by simp)

theorem toList_intercalate_sides (equations : List (String × String)) :
    (", ".intercalate (equations.map fun sides => sides.1 ++ " = " ++ sides.2)).toList
      = [',', ' '].intercalate
          (equations.map fun sides => sides.1.toList ++ ([' ', '=', ' '] ++ sides.2.toList)) := by
  rw [String.toList_intercalate, List.map_map]
  refine congrArg _ (List.map_congr_left fun sides _ => ?_)
  show (sides.1 ++ " = " ++ sides.2).toList = _
  rw [String.toList_append, String.toList_append, List.append_assoc]
  rfl

/-! ### The whole -/

/-- The text of a problem without constraints, with products made explicit. -/
theorem explicitProducts_compose_nil (equations : List (String × String)) :
    explicitProducts (compose equations []).toList
      = "Solve".toList
        ++ ([' '] ++ ([',', ' '].intercalate (equations.map sidesText) ++ ['.'])) := by
  have htext : (compose equations []).toList = "Solve".toList ++ ([' '] ++ ([',', ' '].intercalate
      (equations.map fun sides => sides.1.toList ++ ([' ', '=', ' '] ++ sides.2.toList))
        ++ (['.'] ++ []))) := by
    rw [← toList_intercalate_sides]
    simp only [compose, String.toList_append, List.append_assoc]
    rfl
  rw [htext, explicitProducts_separate _ _ (by simp) (by simp),
    explicitProducts_separate _ _ (by simp) (by simp), explicitProducts_sides]
  rfl

/-- The text of a problem with constraints, with products made explicit. -/
theorem explicitProducts_compose (equations : List (String × String)) {constraints : List String}
    (hne : constraints ≠ []) :
    explicitProducts (compose equations constraints).toList
      = "Solve".toList ++ ([' '] ++ ([',', ' '].intercalate (equations.map sidesText)
          ++ ([' '] ++ ("such that".toList ++ ([' '] ++ ([',', ' '].intercalate
            (constraints.map fun text => explicitProducts text.toList) ++ ['.'])))))) := by
  have htext : (compose equations constraints).toList
      = "Solve".toList ++ ([' '] ++ ([',', ' '].intercalate
          (equations.map fun sides => sides.1.toList ++ ([' ', '=', ' '] ++ sides.2.toList))
        ++ ([' '] ++ ("such that".toList ++ ([' '] ++ ([',', ' '].intercalate
            (constraints.map String.toList) ++ (['.'] ++ []))))))) := by
    rw [← toList_intercalate_sides]
    simp only [compose, if_neg hne, String.toList_append, String.toList_intercalate,
      List.append_assoc]
    rfl
  rw [htext, explicitProducts_separate _ _ (by simp) (by simp),
    explicitProducts_separate _ _ (by simp) (by simp),
    explicitProducts_separate _ _ (by simp) (by simp),
    explicitProducts_separate _ _ (by simp) (by simp), explicitProducts_sides,
    explicitProducts_intercalate, List.map_map]
  rfl

/-- **Problems compose clause by clause**: the sides of equations and the constraints that are
parsed on their own are parsed as the same trees once they are put together to a problem, none of
them lost, twice or in the wrong place. -/
theorem parse_compose {sides : List (String × String)} {equations : List Equation}
    {texts : List String} {constraints : List Constraint}
    (hequations : List.Forall₂ (fun (sides : String × String) (equation : Equation) =>
      Expression.parse sides.1 = .ok equation.left
        ∧ Expression.parse sides.2 = .ok equation.right) sides equations)
    (hconstraints : List.Forall₂ (fun text constraint => Constraint.parse text = .ok constraint)
      texts constraints) :
    parse (compose sides texts) = .ok { equations := equations, constraints := constraints } := by
  have hsides : List.Forall₂ (fun text equation => nesting text ≤ maxNesting
      ∧ Equation.Derives text equation) (sides.map sidesText) equations :=
    List.forall₂_map_left_iff.mpr (hequations.imp fun _ _ h => derives_sidesText h.1 h.2)
  have hwords : List.Forall₂ (fun text constraint => nesting text ≤ maxNesting
      ∧ Constraint.Derives .clause text constraint)
      (texts.map fun text => explicitProducts text.toList) constraints :=
    List.forall₂_map_left_iff.mpr
      (hconstraints.imp fun _ _ h => (Constraint.parse_eq_ok_iff_derives.mp h).symm)
  obtain ⟨hroom, hderives⟩ := (List.forall₂_and_left _ _).mp hsides
  obtain ⟨hroom', hderives'⟩ := (List.forall₂_and_left _ _).mp hwords
  refine mapError_eq_ok_iff.mpr ?_
  by_cases hne' : texts = []
  · subst hne'
    cases hconstraints
    rw [explicitProducts_compose_nil]
    by_cases hne : sides = []
    · subst hne
      cases hequations
      have hnothing : Yields (readEquations { start := Position.origin.past "Solve".toList
                                              chars := ' ' :: ['.'] }).result .empty True := by
        rw [readEquations_nothing]
        exact Yields.ok _
      exact (read_solve hnothing _).mpr ⟨rfl, trivial⟩
    · have hmap : sides.map sidesText ≠ [] := fun hnil => hne (List.map_eq_nil_iff.mp hnil)
      exact (read_solve (readEquations_period hderives Spaced.single hmap _) _).mpr ⟨rfl, hroom⟩
  · have hmap' : texts.map (fun text => explicitProducts text.toList) ≠ [] :=
      fun hnil => hne' (List.map_eq_nil_iff.mp hnil)
    rw [explicitProducts_compose sides hne']
    by_cases hne : sides = []
    · subst hne
      cases hequations
      exact (read_solve (readEquations_suchThat hderives' (Spaced.single.append Spaced.single)
        hmap' _) _).mpr ⟨rfl, hroom'⟩
    · have hmap : sides.map sidesText ≠ [] := fun hnil => hne (List.map_eq_nil_iff.mp hnil)
      exact (read_solve (readEquations_both hderives hderives' Spaced.single hmap hmap' _) _).mpr
        ⟨rfl, hroom, hroom'⟩

/-- An implicit product in each half, and parentheses that look like both kinds. -/
theorem parse_compose_pair :
    compose [("2x", "(y+1)")] ["3x < y or (x > y)"]
        = "Solve 2x = (y+1) such that 3x < y or (x > y)."
      ∧ parse (compose [("2x", "(y+1)")] ["3x < y or (x > y)"])
        = .ok { equations := [{ left := .mul (.constant 2) (.var 'x')
                                right := .add (.var 'y') (.constant 1) }]
                constraints := [.or (.less (.mul (.constant 3) (.var 'x')) (.var 'y'))
                  (.greater (.var 'x') (.var 'y'))] } :=
  ⟨by decide +kernel, parse_compose
    (.cons ⟨by decide +kernel, by decide +kernel⟩ .nil) (.cons (by decide +kernel) .nil)⟩

end Problem

end Diophantine
