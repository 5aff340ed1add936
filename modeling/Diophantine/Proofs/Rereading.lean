import Diophantine.Proofs.Problem.RoundTrip

/-!
# Reading what was read

Rendering what was read gives a text that is read as the same tree, or not at all: a rendering has a
pair of parentheses for every node with two sides, and a text needs none of them to build a deep
tree, so what comes back is decided by the depth of the tree alone.

- `parse_display_of_parse_iff`: what is read of a rendering of what was read;
- `Expression.chain`: a sum that nests as deep as it has summands behind the first;
- `Expression.parse_chain`, `Expression.parse_display_chain_iff`: it is written without parentheses,
  and is not read again if it has more than 128 of them;
- `display_chain_lost`: the shortest such sum.
-/

namespace Diophantine

/-- What was read of a text is rendered as a text that is read as the same tree or as none. It is
read exactly if no side of an equation and no constraint nests more than 128 deep. -/
theorem parse_display_of_parse_iff (text : String) :
    (∀ problem other : Problem, Problem.parse text = .ok problem →
      (Problem.parse problem.display = .ok other ↔ problem = other
        ∧ (∀ equation ∈ problem.equations,
            equation.left.depth ≤ 128 ∧ equation.right.depth ≤ 128)
        ∧ ∀ constraint ∈ problem.constraints, constraint.depth ≤ 128))
    ∧ (∀ expression other : Expression, Expression.parse text = .ok expression →
      (Expression.parse expression.display = .ok other ↔
        expression = other ∧ expression.depth ≤ 128))
    ∧ ∀ constraint other : Constraint, Constraint.parse text = .ok constraint →
      (Constraint.parse constraint.display = .ok other ↔
        constraint = other ∧ constraint.depth ≤ 128) := by
  refine ⟨fun problem other h => ?_, fun expression other h => ?_, fun constraint other h => ?_⟩
  · rw [Problem.parse_display_eq_ok_iff (Problem.spelled_of_parse h)]
    exact and_congr_right fun _ => Problem.shallow_iff
  · exact Expression.parse_display_eq_ok_iff (Expression.spelled_of_parse h)
  · exact Constraint.parse_display_eq_ok_iff (Constraint.spelled_of_parse h)

/-- A problem, a sum and a disjunction are read again from what they are rendered as. -/
theorem parse_display_of_parse_iff_sums :
    ∃ problem expression constraint,
      (Problem.parse "Solve x + y = 2." = .ok problem
        ∧ Problem.parse problem.display = .ok problem)
      ∧ (Expression.parse "x + y + 1" = .ok expression
        ∧ Expression.parse expression.display = .ok expression)
      ∧ (Constraint.parse "x < y or y < 2" = .ok constraint
        ∧ Constraint.parse constraint.display = .ok constraint) := by
  refine ⟨{ equations := [{ left := .add (.var 'x') (.var 'y'), right := .constant 2 }]
            constraints := [] }, .add (.add (.var 'x') (.var 'y')) (.constant 1),
    .or (.less (.var 'x') (.var 'y')) (.less (.var 'y') (.constant 2)), ?_, ?_, ?_⟩
  · have hparse : Problem.parse "Solve x + y = 2." = .ok
        { equations := [{ left := .add (.var 'x') (.var 'y'), right := .constant 2 }]
          constraints := [] } := by
      decide +kernel
    exact ⟨hparse, ((parse_display_of_parse_iff _).1 _ _ hparse).mpr ⟨rfl, by decide, by decide⟩⟩
  · have hparse : Expression.parse "x + y + 1"
        = .ok (.add (.add (.var 'x') (.var 'y')) (.constant 1)) := by
      decide +kernel
    exact ⟨hparse, ((parse_display_of_parse_iff _).2.1 _ _ hparse).mpr ⟨rfl, by decide⟩⟩
  · have hparse : Constraint.parse "x < y or y < 2"
        = .ok (.or (.less (.var 'x') (.var 'y')) (.less (.var 'y') (.constant 2))) := by
      decide +kernel
    exact ⟨hparse, ((parse_display_of_parse_iff _).2.2 _ _ hparse).mpr ⟨rfl, by decide⟩⟩

/-! ### Chains -/

namespace Expression

/-- A variable to which it is added a number of times, without parentheses. -/
def chainText : Nat → List Char
  | 0 => ['x']
  | count + 1 => chainText count ++ ['+', 'x']

/-- The sum of a chain, which is built from the left. -/
def chain : Nat → Expression
  | 0 => .var 'x'
  | count + 1 => .add (chain count) (.var 'x')

theorem derives_chain (count : Nat) : Derives .sum (chainText count) (chain count) := by
  have hx : Derives .product ['x'] (.var 'x') :=
    .factor (.var (.plain Spaced.nil) (by decide : Char.isAlpha 'x' = true))
  induction count with
  | zero => exact .summand hx
  | succ count ih => exact .plus ih Spaced.nil hx

theorem explicit_chainText (count : Nat) : Explicit (chainText count) := by
  induction count with
  | zero => exact List.isChain_singleton _
  | succ count ih => exact ih.append (by decide) (Apart.cons (by decide) _)

/-- A chain has no parentheses. -/
@[simp] theorem nesting_chainText (count : Nat) : nesting (chainText count) = 0 := by
  refine (Balanced.of_plain ?_).2
  have hx : ∀ c ∈ ['x'], c ≠ '(' ∧ c ≠ ')' := List.forall_mem_singleton.mpr (by decide)
  induction count with
  | zero => exact hx
  | succ count ih =>
    exact List.forall_mem_append.mpr ⟨ih, List.forall_mem_cons.mpr ⟨by decide, hx⟩⟩

@[simp] theorem depth_chain (count : Nat) : (chain count).depth = count := by
  induction count with
  | zero => rfl
  | succ count ih =>
    show max (chain count).depth 0 + 1 = count + 1
    rw [ih, Nat.max_zero]

/-- A chain of any length is read. -/
theorem parse_chain (count : Nat) :
    Expression.parse (String.ofList (chainText count)) = .ok (chain count) := by
  refine mapError_eq_ok_iff.mpr ?_
  rw [String.toList_ofList, explicitProducts_eq_self (explicit_chainText count)]
  refine ((derives_chain count).clause_of_sum.read_eq_ok_iff _).mpr ⟨rfl, ?_⟩
  rw [nesting_chainText]
  exact Nat.zero_le _

/-- What a chain is rendered as is read again up to a length of 128. -/
theorem parse_display_chain_iff (count : Nat) (other : Expression) :
    Expression.parse (chain count).display = .ok other ↔ chain count = other ∧ count ≤ 128 := by
  rw [parse_display_eq_ok_iff (spelled_of_parse (parse_chain count)), depth_chain]
  exact Iff.rfl

end Expression

/-- A sum of 130 variables is read, but what it is rendered as is not. -/
theorem display_chain_lost :
    Expression.parse (String.ofList (Expression.chainText 129)) = .ok (Expression.chain 129)
      ∧ ∀ other, Expression.parse (Expression.chain 129).display ≠ .ok other := by
  refine ⟨Expression.parse_chain 129, fun other h => ?_⟩
  have hroom : 129 ≤ 128 := ((Expression.parse_display_chain_iff 129 other).mp h).2
  exact absurd hroom (by decide)

end Diophantine
