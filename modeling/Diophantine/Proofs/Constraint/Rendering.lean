import Diophantine.Constraint.Basic
import Diophantine.Proofs.Constraint.Completeness
import Diophantine.Proofs.Constraint.Spelling
import Diophantine.Proofs.Expression.Rendering

/-!
# Rendered constraints

What a constraint is rendered as is an atom of the grammar: a comparison stands as it is, and a
connective in parentheses of its own. So only connectives count for the nesting.

- `Constraint.depth`, `Constraint.nesting_render`: how deep a rendering nests;
- `Constraint.derives_render`: a rendering is an atom, and of which tree;
- `Constraint.explicit_render`: no product is implicit in it.
-/

namespace Diophantine

namespace Constraint

/-! ### The text of a tree -/

theorem render_eq_append (tree : Constraint) (rest : List Char) :
    tree.render rest = tree.render [] ++ rest := by
  induction tree generalizing rest with
  | less left right | greater left right =>
    unfold render
    rw [left.render_eq_append, right.render_eq_append, left.render_eq_append (' ' :: _)]
    simp only [List.cons_append, List.append_assoc]
  | and left right ihl ihr | or left right ihl ihr =>
    unfold render
    rw [ihl, ihr, ihl (' ' :: _), ihr [')']]
    simp only [List.cons_append, List.append_assoc, List.nil_append]

/-- How deep a tree nests: every connective is one level, a comparison is none. -/
def depth : Constraint → Nat
  | .less left right | .greater left right => max left.depth right.depth
  | .and left right | .or left right => max left.depth right.depth + 1

/-! ### The rendering derives the tree -/

/-- Spacing may stand in front of whatever is derived. -/
theorem Derives.spaced {layer : Layer} {text : List Char} {tree : Constraint}
    (h : Derives layer text tree) {space : List Char} (hspace : Spaced space) :
    Derives layer (space ++ text) tree := by
  induction h with
  | comparison hsign hleft hmiddle hright =>
    rw [← List.append_assoc]
    exact .comparison hsign (hleft.spaced hspace) hmiddle hright
  | group hbefore hinner _ =>
    rw [← List.append_assoc]
    exact .group (hspace.append hbefore) hinner
  | conjunct _ ih => exact .conjunct ih
  | and _ hmiddle hright hword ih _ =>
    rw [← List.append_assoc]
    exact .and ih hmiddle hright hword
  | disjunct _ ih => exact .disjunct ih
  | or _ hmiddle hright hword ih _ =>
    rw [← List.append_assoc]
    exact .or ih hmiddle hright hword
  | clause _ hbehind ih =>
    rw [← List.append_assoc]
    exact .clause ih hbehind

theorem Derives.clause_of_disjunction {text : List Char} {tree : Constraint}
    (h : Derives .disjunction text tree) : Derives .clause text tree := by
  rw [← List.append_nil text]
  exact .clause h Spaced.nil

/-- A text of the grammar in parentheses is an atom. -/
theorem Derives.parenthesised {inner : List Char} {tree : Constraint}
    (h : Derives .disjunction inner tree) : Derives .atom ('(' :: (inner ++ [')'])) tree :=
  .group Spaced.nil h.clause_of_disjunction

/-- What a comparison is rendered as. -/
theorem render_comparison {sign : Char} {build : Expression → Expression → Constraint}
    (hsign : ComparisonSign sign build) (left right : Expression) :
    (build left right).render []
      = left.render [] ++ ([' '] ++ sign :: ([' '] ++ right.render [])) := by
  cases hsign with
  | less => exact left.render_eq_append _
  | greater => exact left.render_eq_append _

/-- What stands between the parentheses of a connective. -/
def renderSides (word : List Char) (left right : Constraint) : List Char :=
  left.render [] ++ ([' '] ++ (word ++ ([' '] ++ right.render [])))

@[simp] theorem render_and (left right : Constraint) :
    (and left right).render [] = '(' :: (renderSides "and".toList left right ++ [')']) := by
  unfold renderSides
  rw [render, render_eq_append left, render_eq_append right]
  simp only [List.cons_append, List.append_assoc, List.nil_append]
  rfl

@[simp] theorem render_or (left right : Constraint) :
    (or left right).render [] = '(' :: (renderSides "or".toList left right ++ [')']) := by
  unfold renderSides
  rw [render, render_eq_append left, render_eq_append right]
  simp only [List.cons_append, List.append_assoc, List.nil_append]
  rfl

theorem derives_comparison {sign : Char} {build : Expression → Expression → Constraint}
    (hsign : ComparisonSign sign build) {left right : Expression} (hl : left.Spelled)
    (hr : right.Spelled) : Derives .atom ((build left right).render []) (build left right) := by
  rw [render_comparison hsign]
  exact .comparison hsign (Expression.derives_render hl).sum_of_term Spaced.single
    ((Expression.derives_render hr).sum_of_term.spaced Spaced.single)

/-- **Rendering stays in the grammar**: what a tree is rendered as derives the tree. -/
theorem derives_render {tree : Constraint} (h : tree.Spelled) :
    Derives .atom (tree.render []) tree := by
  -- A space follows each connective, so its word ends there.
  have hword : ∀ (text : List Char), ∀ c ∈ ([' '] ++ text).head?, c.isAlphanum = false := by
    intro text c hc
    obtain rfl : ' ' = c := Option.some.inj hc
    rfl
  induction tree with
  | less left right =>
    obtain ⟨hl, hr⟩ := spelled_less_iff.mp h
    exact derives_comparison .less hl hr
  | greater left right =>
    obtain ⟨hl, hr⟩ := spelled_greater_iff.mp h
    exact derives_comparison .greater hl hr
  | and left right ihl ihr =>
    obtain ⟨hl, hr⟩ := spelled_and_iff.mp h
    rw [render_and]
    exact (Derives.disjunct (.and (.conjunct (ihl hl)) Spaced.single
      ((ihr hr).spaced Spaced.single) (hword _))).parenthesised
  | or left right ihl ihr =>
    obtain ⟨hl, hr⟩ := spelled_or_iff.mp h
    rw [render_or]
    exact (Derives.or (.disjunct (.conjunct (ihl hl))) Spaced.single
      (.conjunct ((ihr hr).spaced Spaced.single)) (hword _)).parenthesised

theorem derives_clause {tree : Constraint} (h : tree.Spelled) :
    Derives .clause (tree.render []) tree :=
  (Derives.disjunct (.conjunct (derives_render h))).clause_of_disjunction

/-! ### Nesting -/

theorem nesting_renderSides (word : List Char) {left right : Constraint}
    (hword : word.all Char.isAlpha = true) (hl : left.Spelled) (hr : right.Spelled) :
    Balanced (renderSides word left right)
      ∧ nesting (renderSides word left right)
        = max (nesting (left.render [])) (nesting (right.render [])) := by
  have hleft := (derives_render hl).balanced
  have hright := (derives_render hr).balanced
  obtain ⟨hspaceBal, hspaceNest⟩ := Balanced.of_neutral Spaced.single.neutral
  obtain ⟨hbal, hnest⟩ :=
    hleft.connective Spaced.single hword (hspaceBal.append hright)
  refine ⟨hbal, ?_⟩
  show nesting (left.render [] ++ ([' '] ++ (word ++ ([' '] ++ right.render [])))) = _
  rw [hnest, hspaceBal.nesting_append, hspaceNest, Nat.zero_max]

theorem nesting_comparison {sign : Char} {build : Expression → Expression → Constraint}
    (hsign : ComparisonSign sign build) {left right : Expression} (hl : left.Spelled)
    (hr : right.Spelled) : nesting ((build left right).render []) = max left.depth right.depth := by
  rw [render_comparison hsign]
  show nesting (Expression.renderSides sign left right) = _
  rw [(Expression.nesting_renderSides sign hsign.neutral hl hr).2, Expression.nesting_render hl,
    Expression.nesting_render hr]

/-- A rendering nests as deep as the tree. -/
theorem nesting_render {tree : Constraint} (h : tree.Spelled) :
    nesting (tree.render []) = tree.depth := by
  induction tree with
  | less left right =>
    obtain ⟨hl, hr⟩ := spelled_less_iff.mp h
    exact nesting_comparison .less hl hr
  | greater left right =>
    obtain ⟨hl, hr⟩ := spelled_greater_iff.mp h
    exact nesting_comparison .greater hl hr
  | and left right ihl ihr =>
    obtain ⟨hl, hr⟩ := spelled_and_iff.mp h
    obtain ⟨hbal, hnest⟩ := nesting_renderSides "and".toList (by decide) hl hr
    rw [render_and, hbal.group.2, hnest, ihl hl, ihr hr]
    rfl
  | or left right ihl ihr =>
    obtain ⟨hl, hr⟩ := spelled_or_iff.mp h
    obtain ⟨hbal, hnest⟩ := nesting_renderSides "or".toList (by decide) hl hr
    rw [render_or, hbal.group.2, hnest, ihl hl, ihr hr]
    rfl

/-! ### Products are explicit -/

/-- In front of a text that begins no factor, a tree is rendered without implicit products. -/
theorem explicit_render (tree : Constraint) {rest : List Char} (hrest : Explicit rest)
    (hapart : Apart rest) : Explicit (tree.render rest) := by
  induction tree generalizing rest with
  | less left right =>
    have hright := right.explicit_render hrest hapart
    have hmiddle := hright.operator '<' (by decide)
    exact left.explicit_render hmiddle (Apart.cons (by decide) _)
  | greater left right =>
    have hright := right.explicit_render hrest hapart
    have hmiddle := hright.operator '>' (by decide)
    exact left.explicit_render hmiddle (Apart.cons (by decide) _)
  | and left right ihl ihr =>
    have hclosed : Explicit (')' :: rest) := hrest.cons_of_apart hapart
    have hright := ihr hclosed (Apart.cons (by decide) rest)
    have hmiddle := hright.word "and".toList (by decide)
    exact (ihl hmiddle (Apart.cons (by decide) _)).cons (by decide)
  | or left right ihl ihr =>
    have hclosed : Explicit (')' :: rest) := hrest.cons_of_apart hapart
    have hright := ihr hclosed (Apart.cons (by decide) rest)
    have hmiddle := hright.word "or".toList (by decide)
    exact (ihl hmiddle (Apart.cons (by decide) _)).cons (by decide)

/-! ### Reading what was rendered -/

/-- No text makes the parser return a leaf that cannot be written. -/
theorem spelled_of_parse {text : String} {tree : Constraint} (h : parse text = .ok tree) :
    tree.Spelled :=
  spelled_of_read (mapError_eq_ok_iff.mp h)

/-- A text that was rendered from leaves that can be written is read as the tree or as none, and it
is read if it does not nest too deep. -/
theorem parse_display_eq_ok_iff {tree other : Constraint} (h : tree.Spelled) :
    parse tree.display = .ok other ↔ tree = other ∧ tree.depth ≤ maxNesting := by
  have hexplicit : explicitProducts tree.display.toList = tree.render [] := by
    rw [display, String.toList_ofList]
    exact explicitProducts_eq_self (explicit_render tree List.isChain_nil nofun)
  unfold parse
  rw [hexplicit, mapError_eq_ok_iff, ← nesting_render h]
  exact (derives_clause h).read_eq_ok_iff _

/-- A text that was rendered is read as the tree exactly if its leaves can be written and it does
not nest too deep. -/
theorem parse_display_iff (tree : Constraint) :
    parse tree.display = .ok tree ↔ tree.Spelled ∧ tree.depth ≤ maxNesting := by
  constructor
  · intro hparse
    have hspelled : tree.Spelled := spelled_of_parse hparse
    exact ⟨hspelled, ((parse_display_eq_ok_iff hspelled).mp hparse).2⟩
  · rintro ⟨hspelled, hroom⟩
    exact (parse_display_eq_ok_iff hspelled).mpr ⟨rfl, hroom⟩

end Constraint

end Diophantine
