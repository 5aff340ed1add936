import Diophantine.Expression.Basic
import Diophantine.Proofs.Expression.Spelling
import Diophantine.Proofs.Juxtaposition

/-!
# Rendered expressions

What an expression is rendered as is a text of the grammar, and it derives the expression that it
was rendered from. Its nesting can be read off the tree: every node with two sides has a pair of
parentheses of its own.

- `Value.ofDigits?_natAbs`: the digits of a constant are read back, unless it is the least value;
- `Expression.depth`, `Expression.nesting_render`: how deep a rendering nests;
- `Expression.derives_render`: a rendering is a term, and of which tree;
- `Expression.explicit_render`: no product is implicit in it.
-/

namespace Diophantine

/-! ### Digits -/

/-- No product is implicit among digits. -/
theorem explicit_of_isDigit {digits : List Char} (h : ∀ c ∈ digits, c.isDigit = true) :
    Explicit digits := by
  induction digits with
  | nil => exact List.isChain_nil
  | cons c digits ih =>
    refine List.IsChain.cons (ih fun d hd => h d (List.mem_cons_of_mem _ hd)) fun d hd => ?_
    obtain ⟨-, hclose, halpha⟩ := neutral_of_isDigit (h c (List.mem_cons_self ..))
    obtain ⟨hopen, -, halpha'⟩ :=
      neutral_of_isDigit (h d (List.mem_cons_of_mem _ (List.mem_of_mem_head? hd)))
    simp [juxtaposed, hclose, halpha, hopen, halpha']

namespace Value

/-- The digits of a value, behind its sign, are read back as the value. -/
theorem ofDigits?_natAbs {v : Value} (h : v ≠ Int64.minValue) :
    ofDigits? (decide (v.toInt < 0)) (Nat.toDigits 10 v.toInt.natAbs) = some v := by
  have hlow : -9223372036854775808 ≤ v.toInt := Int64.minValue_le_toInt v
  have htop : v.toInt ≤ 9223372036854775807 := Int64.toInt_le v
  have hne : v.toInt ≠ -9223372036854775808 :=
    fun heq => h (Int64.toInt_inj.mp (heq.trans rfl))
  rw [ofDigits?_eq_some_iff, Nat.ofDigitChars_ten_toDigits]
  simp only [decide_eq_true_eq]
  refine ⟨by omega, ?_⟩
  split <;> omega

theorem isDigit_of_mem_toDigits {n : Nat} :
    ∀ c ∈ Nat.toDigits 10 n, c.isDigit = true :=
  fun _ hc => Nat.isDigit_of_mem_toDigits (by decide) (by decide) hc

/-- The digits of a value derive its constant. -/
theorem derives_digits {v : Value} (h : v ≠ Int64.minValue) :
    Expression.Derives .term (digits v) (.constant v) := by
  have hdenotes := ofDigits?_natAbs h
  unfold digits
  by_cases hneg : v.toInt < 0
  · rw [decide_eq_true hneg] at hdenotes
    rw [if_pos hneg]
    exact .numeral (.minus Spaced.nil Spaced.nil) Nat.toDigits_ne_nil
      isDigit_of_mem_toDigits hdenotes
  · rw [decide_eq_false hneg] at hdenotes
    rw [if_neg hneg]
    exact .numeral (.plain Spaced.nil) Nat.toDigits_ne_nil isDigit_of_mem_toDigits hdenotes

theorem explicit_digits (v : Value) : Explicit (digits v) := by
  have hplain : Explicit (Nat.toDigits 10 v.toInt.natAbs) :=
    explicit_of_isDigit isDigit_of_mem_toDigits
  unfold digits
  split
  · exact hplain.cons (by decide)
  · exact hplain

end Value

namespace Expression

/-! ### The text of a tree -/

/-- Rendering writes in front of what is there, and looks at none of it. -/
theorem render_eq_append (tree : Expression) (rest : List Char) :
    tree.render rest = tree.render [] ++ rest := by
  induction tree generalizing rest with
  | constant value =>
    show Value.digits value ++ rest = Value.digits value ++ [] ++ rest
    rw [List.append_nil]
  | var name => rfl
  | add left right ihl ihr | mul left right ihl ihr =>
    unfold render
    rw [ihl, ihr, ihl (' ' :: _), ihr [')']]
    simp only [List.cons_append, List.append_assoc, List.nil_append]

/-- How deep a tree nests: every node with two sides is one level. -/
def depth : Expression → Nat
  | .constant _ | .var _ => 0
  | .add left right | .mul left right => max left.depth right.depth + 1

/-! ### The rendering derives the tree -/

theorem signText_spaced {negative : Bool} {space sign : List Char} (hspace : Spaced space)
    (h : SignText negative sign) : SignText negative (space ++ sign) := by
  cases h with
  | plain hmore => exact .plain (hspace.append hmore)
  | minus hbefore hbehind =>
    rw [← List.append_assoc]
    exact .minus (hspace.append hbefore) hbehind

/-- Spacing may stand in front of whatever is derived. -/
theorem Derives.spaced {layer : Layer} {text : List Char} {tree : Expression}
    (h : Derives layer text tree) {space : List Char} (hspace : Spaced space) :
    Derives layer (space ++ text) tree := by
  induction h with
  | constant hsign hne hdigits hrange hvalue =>
    rw [← List.append_assoc]
    exact .constant (signText_spaced hspace hsign) hne hdigits hrange hvalue
  | var hsign hname =>
    rw [← List.append_assoc]
    exact .var (signText_spaced hspace hsign) hname
  | group hsign hinner _ =>
    rw [← List.append_assoc]
    exact .group (signText_spaced hspace hsign) hinner
  | factor _ ih => exact .factor ih
  | times _ hmiddle hright ih _ =>
    rw [← List.append_assoc]
    exact .times ih hmiddle hright
  | summand _ ih => exact .summand ih
  | plus _ hmiddle hright ih _ =>
    rw [← List.append_assoc]
    exact .plus ih hmiddle hright
  | minus _ hmiddle hright ih _ =>
    rw [← List.append_assoc]
    exact .minus ih hmiddle hright
  | clause _ hbehind ih =>
    rw [← List.append_assoc]
    exact .clause ih hbehind

/-- A term is a sum, and a clause, by itself. -/
theorem Derives.sum_of_term {text : List Char} {tree : Expression} (h : Derives .term text tree) :
    Derives .sum text tree :=
  .summand (.factor h)

theorem Derives.clause_of_sum {text : List Char} {tree : Expression}
    (h : Derives .sum text tree) : Derives .clause text tree := by
  rw [← List.append_nil text]
  exact .clause h Spaced.nil

/-- What stands between the parentheses of a node. -/
def renderSides (op : Char) (left right : Expression) : List Char :=
  left.render [] ++ ([' '] ++ op :: ([' '] ++ right.render []))

@[simp] theorem render_add (left right : Expression) :
    (add left right).render [] = '(' :: (renderSides '+' left right ++ [')']) := by
  unfold renderSides
  rw [render, render_eq_append left, render_eq_append right]
  simp only [List.cons_append, List.append_assoc, List.nil_append]

@[simp] theorem render_mul (left right : Expression) :
    (mul left right).render [] = '(' :: (renderSides '*' left right ++ [')']) := by
  unfold renderSides
  rw [render, render_eq_append left, render_eq_append right]
  simp only [List.cons_append, List.append_assoc, List.nil_append]

/-- A text of the grammar in parentheses is a term. -/
theorem Derives.parenthesised {inner : List Char} {tree : Expression}
    (h : Derives .sum inner tree) : Derives .term ('(' :: (inner ++ [')'])) tree := by
  show Derives .term ([] ++ '(' :: (inner ++ [')'])) tree
  exact .group (.plain Spaced.nil) h.clause_of_sum

/-- **Rendering stays in the grammar**: what a tree is rendered as derives the tree. -/
theorem derives_render {tree : Expression} (h : tree.Spelled) :
    Derives .term (tree.render []) tree := by
  induction tree with
  | constant value =>
    show Derives .term (Value.digits value ++ []) (.constant value)
    rw [List.append_nil]
    exact Value.derives_digits (spelled_constant_iff.mp h)
  | var name =>
    show Derives .term ([] ++ [name]) (.var name)
    exact .var (.plain Spaced.nil) (spelled_var_iff.mp h)
  | add left right ihl ihr =>
    obtain ⟨hl, hr⟩ := spelled_add_iff.mp h
    rw [render_add]
    exact (Derives.plus (ihl hl).sum_of_term Spaced.single
      (.factor ((ihr hr).spaced Spaced.single))).parenthesised
  | mul left right ihl ihr =>
    obtain ⟨hl, hr⟩ := spelled_mul_iff.mp h
    rw [render_mul]
    exact (Derives.summand (.times (.factor (ihl hl)) Spaced.single
      ((ihr hr).spaced Spaced.single))).parenthesised

/-! ### Nesting -/

theorem nesting_renderSides (op : Char) {left right : Expression} (hop : Neutral op)
    (hl : left.Spelled) (hr : right.Spelled) :
    Balanced (renderSides op left right)
      ∧ nesting (renderSides op left right)
        = max (nesting (left.render [])) (nesting (right.render [])) := by
  have hleft := (derives_render hl).balanced
  have hright := (derives_render hr).balanced
  obtain ⟨hspaceBal, hspaceNest⟩ := Balanced.of_neutral Spaced.single.neutral
  obtain ⟨hbal, hnest⟩ := hleft.operator Spaced.single hop (hspaceBal.append hright)
  refine ⟨hbal, ?_⟩
  show nesting (left.render [] ++ ([' '] ++ op :: ([' '] ++ right.render []))) = _
  rw [hnest, hspaceBal.nesting_append, hspaceNest, Nat.zero_max]

/-- A rendering nests as deep as the tree. -/
theorem nesting_render {tree : Expression} (h : tree.Spelled) :
    nesting (tree.render []) = tree.depth := by
  induction tree with
  | constant value =>
    show nesting (Value.digits value ++ []) = 0
    rw [List.append_nil]
    refine (Balanced.of_neutral fun c hc => ?_).2
    unfold Value.digits at hc
    split at hc
    · rcases List.mem_cons.mp hc with rfl | hc
      · decide
      · exact neutral_of_isDigit (Value.isDigit_of_mem_toDigits c hc)
    · exact neutral_of_isDigit (Value.isDigit_of_mem_toDigits c hc)
  | var name =>
    refine (Balanced.of_plain fun c hc => ?_).2
    rw [List.mem_singleton.mp hc]
    exact not_parenthesis_of_isAlpha (spelled_var_iff.mp h)
  | add left right ihl ihr =>
    obtain ⟨hl, hr⟩ := spelled_add_iff.mp h
    obtain ⟨hbal, hnest⟩ := nesting_renderSides '+' (by decide) hl hr
    rw [render_add, hbal.group.2, hnest, ihl hl, ihr hr]
    rfl
  | mul left right ihl ihr =>
    obtain ⟨hl, hr⟩ := spelled_mul_iff.mp h
    obtain ⟨hbal, hnest⟩ := nesting_renderSides '*' (by decide) hl hr
    rw [render_mul, hbal.group.2, hnest, ihl hl, ihr hr]
    rfl

/-! ### Products are explicit -/

/-- In front of a text that begins no factor, a tree is rendered without implicit products. -/
theorem explicit_render (tree : Expression) {rest : List Char} (hrest : Explicit rest)
    (hapart : Apart rest) : Explicit (tree.render rest) := by
  induction tree generalizing rest with
  | constant value => exact (Value.explicit_digits value).append hrest hapart
  | var name => exact hrest.cons_of_apart hapart
  | add left right ihl ihr =>
    have hclosed : Explicit (')' :: rest) := hrest.cons_of_apart hapart
    have hright := ihr hclosed (Apart.cons (by decide) rest)
    have hmiddle := hright.operator '+' (by decide)
    exact (ihl hmiddle (Apart.cons (by decide) _)).cons (by decide)
  | mul left right ihl ihr =>
    have hclosed : Explicit (')' :: rest) := hrest.cons_of_apart hapart
    have hright := ihr hclosed (Apart.cons (by decide) rest)
    have hmiddle := hright.operator '*' (by decide)
    exact (ihl hmiddle (Apart.cons (by decide) _)).cons (by decide)

/-! ### Reading what was rendered -/

/-- No text makes the parser return a leaf that cannot be written. -/
theorem spelled_of_parse {text : String} {tree : Expression} (h : parse text = .ok tree) :
    tree.Spelled :=
  spelled_of_read (mapError_eq_ok_iff.mp h)

/-- A text that was rendered from leaves that can be written is read as the tree or as none, and it
is read if it does not nest too deep. -/
theorem parse_display_eq_ok_iff {tree other : Expression} (h : tree.Spelled) :
    parse tree.display = .ok other ↔ tree = other ∧ tree.depth ≤ maxNesting := by
  have hexplicit : explicitProducts tree.display.toList = tree.render [] := by
    rw [display, String.toList_ofList]
    exact explicitProducts_eq_self (explicit_render tree List.isChain_nil nofun)
  unfold parse
  rw [hexplicit, mapError_eq_ok_iff, ← nesting_render h]
  exact (derives_render h).sum_of_term.clause_of_sum.read_eq_ok_iff _

/-- A text that was rendered is read as the tree exactly if its leaves can be written and it does
not nest too deep. -/
theorem parse_display_iff (tree : Expression) :
    parse tree.display = .ok tree ↔ tree.Spelled ∧ tree.depth ≤ maxNesting := by
  constructor
  · intro hparse
    have hspelled : tree.Spelled := spelled_of_parse hparse
    exact ⟨hspelled, ((parse_display_eq_ok_iff hspelled).mp hparse).2⟩
  · rintro ⟨hspelled, hroom⟩
    exact (parse_display_eq_ok_iff hspelled).mpr ⟨rfl, hroom⟩

end Expression

end Diophantine
