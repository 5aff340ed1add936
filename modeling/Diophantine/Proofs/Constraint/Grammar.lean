import Diophantine.Constraint.Parser
import Diophantine.Proofs.Expression.Grammar

/-!
# The grammar of constraints

Which texts are constraints, and of which trees. It is built on the grammar of expressions: a
comparison has a sum on either side of its sign. A parenthesis in front may begin an operand or a
constraint of its own, and nothing here says how to tell them apart.

- `Constraint.Derives`: the grammar, one layer for each connective;
- `Constraint.Derives.balanced`: whatever is derived pairs up its parentheses;
- `Constraint.Derives.mem_alphabet`: which characters may occur;
- `Constraint.Derives.strip`: what a derived text begins with;
- `Constraint.Derives.compares`: a constraint holds a comparison sign, and
  `Expression.Derives.not_compares`: an expression does not. This is how to tell them apart.
-/

namespace Diophantine

/-! ### Derivations -/

/-- The signs of comparisons, with the trees that they build. -/
inductive ComparisonSign : Char → (Expression → Expression → Constraint) → Prop
  | less : ComparisonSign '<' .less
  | greater : ComparisonSign '>' .greater

theorem ComparisonSign.neutral {sign : Char} {build : Expression → Expression → Constraint}
    (h : ComparisonSign sign build) : Neutral sign := by
  cases h with
  | less => decide
  | greater => decide

namespace Constraint

/-- The layers of the grammar, from the tightest. -/
inductive Layer
  | atom
  | conjunction
  | disjunction
  | clause

/-- The text derives the tree on a layer of the grammar. -/
inductive Derives : Layer → List Char → Constraint → Prop
  | comparison {sign : Char} {build : Expression → Expression → Constraint}
      {front space back : List Char} {left right : Expression}
      (hsign : ComparisonSign sign build) (hleft : Expression.Derives .sum front left)
      (hspace : Spaced space) (hright : Expression.Derives .sum back right) :
      Derives .atom (front ++ (space ++ sign :: back)) (build left right)
  | group {space inner : List Char} {tree : Constraint} (hspace : Spaced space)
      (hinner : Derives .clause inner tree) :
      Derives .atom (space ++ '(' :: (inner ++ [')'])) tree
  | conjunct {text : List Char} {tree : Constraint} (hatom : Derives .atom text tree) :
      Derives .conjunction text tree
  /-- The word counts only if no letter or digit follows it. -/
  | and {front space back : List Char} {left right : Constraint}
      (hleft : Derives .conjunction front left) (hspace : Spaced space)
      (hright : Derives .atom back right) (hword : ∀ c ∈ back.head?, c.isAlphanum = false) :
      Derives .conjunction (front ++ (space ++ ("and".toList ++ back))) (.and left right)
  | disjunct {text : List Char} {tree : Constraint}
      (hconjunction : Derives .conjunction text tree) :
      Derives .disjunction text tree
  | or {front space back : List Char} {left right : Constraint}
      (hleft : Derives .disjunction front left) (hspace : Spaced space)
      (hright : Derives .conjunction back right) (hword : ∀ c ∈ back.head?, c.isAlphanum = false) :
      Derives .disjunction (front ++ (space ++ ("or".toList ++ back))) (.or left right)
  | clause {text space : List Char} {tree : Constraint}
      (hdisjunction : Derives .disjunction text tree) (hspace : Spaced space) :
      Derives .clause (text ++ space) tree

end Constraint

/-! ### Parentheses -/

/-- A word of letters holds no parentheses. -/
theorem plain_of_isAlpha {word : List Char} (h : word.all Char.isAlpha = true) :
    ∀ c ∈ word, c ≠ '(' ∧ c ≠ ')' := by
  intro c hc
  have hletter : c.isAlpha = true := List.all_eq_true.mp h c hc
  constructor
  · rintro rfl
    cases hletter
  · rintro rfl
    cases hletter

/-- A connective with spacing in front changes nothing about the parentheses around it. -/
theorem Balanced.connective {front space word back : List Char} (hf : Balanced front)
    (hspace : Spaced space) (hword : word.all Char.isAlpha = true) (hb : Balanced back) :
    Balanced (front ++ (space ++ (word ++ back)))
      ∧ nesting (front ++ (space ++ (word ++ back))) = max (nesting front) (nesting back) := by
  obtain ⟨hspaceBal, hspaceNest⟩ := Balanced.of_neutral hspace.neutral
  obtain ⟨hwordBal, hwordNest⟩ := Balanced.of_plain (plain_of_isAlpha hword)
  refine ⟨hf.append (hspaceBal.append (hwordBal.append hb)), ?_⟩
  rw [hf.nesting_append, hspaceBal.nesting_append, hwordBal.nesting_append, hspaceNest, hwordNest,
    Nat.zero_max, Nat.zero_max]

namespace Constraint

theorem Derives.balanced {layer : Layer} {text : List Char} {tree : Constraint}
    (h : Derives layer text tree) : Balanced text := by
  induction h with
  | comparison hsign hleft hspace hright =>
    exact (hleft.balanced.operator hspace hsign.neutral hright.balanced).1
  | group hspace _ ih => exact (Balanced.of_neutral hspace.neutral).1.append ih.group.1
  | conjunct _ ih | disjunct _ ih => exact ih
  | and _ hspace _ _ ihl ihr | or _ hspace _ _ ihl ihr =>
    exact (ihl.connective hspace (by decide) ihr).1
  | clause _ hspace ih => exact ih.append (Balanced.of_neutral hspace.neutral).1

end Constraint

/-! ### The alphabet -/

namespace Constraint

/-- A constraint is written with the characters of expressions and the two comparison signs. -/
theorem Derives.mem_alphabet {layer : Layer} {text : List Char} {tree : Constraint}
    (h : Derives layer text tree) : ∀ c ∈ text, inAlphabet c = true ∨ c = '<' ∨ c = '>' := by
  induction h with
  | comparison hsign hleft hspace hright =>
    intro c hc
    simp only [List.mem_append, List.mem_cons] at hc
    rcases hc with hc | hc | rfl | hc
    · exact .inl (hleft.mem_alphabet c hc)
    · exact .inl (hspace.inAlphabet c hc)
    · cases hsign <;> decide
    · exact .inl (hright.mem_alphabet c hc)
  | group hspace _ ih =>
    intro c hc
    simp only [List.mem_append, List.mem_cons, List.not_mem_nil, or_false] at hc
    rcases hc with hc | rfl | hc | rfl
    · exact .inl (hspace.inAlphabet c hc)
    · decide
    · exact ih c hc
    · decide
  | conjunct _ ih | disjunct _ ih => exact ih
  | and _ hspace _ _ ihl ihr | or _ hspace _ _ ihl ihr =>
    intro c hc
    simp only [List.mem_append] at hc
    rcases hc with hc | hc | hc | hc
    · exact ihl c hc
    · exact .inl (hspace.inAlphabet c hc)
    · have hletter : c.isAlpha = true := List.all_eq_true.mp (by decide) c hc
      exact .inl (by simp [inAlphabet, Char.isAlphanum, hletter])
    · exact ihr c hc
  | clause _ hspace ih =>
    intro c hc
    rcases List.mem_append.mp hc with hc | hc
    · exact ih c hc
    · exact .inl (hspace.inAlphabet c hc)

theorem Derives.not_mem {layer : Layer} {text : List Char} {tree : Constraint}
    (h : Derives layer text tree) {c : Char}
    (hc : inAlphabet c = false ∧ c ≠ '<' ∧ c ≠ '>') : c ∉ text := by
  intro hmem
  rcases h.mem_alphabet c hmem with hin | hless | hgreater
  · rw [hc.1] at hin
    cases hin
  · exact hc.2.1 hless
  · exact hc.2.2 hgreater

end Constraint

/-! ### Comparison signs -/

/-- A comparison sign stands somewhere in the text. -/
def Compares (text : List Char) : Prop :=
  '<' ∈ text ∨ '>' ∈ text

@[simp] theorem Slice.compares_iff {slice : Slice} :
    slice.compares = true ↔ Compares slice.chars := by
  simp only [Slice.compares, List.any_eq_true, Bool.or_eq_true, beq_iff_eq]
  constructor
  · rintro ⟨c, hc, rfl | rfl⟩
    · exact .inl hc
    · exact .inr hc
  · rintro (hc | hc)
    · exact ⟨_, hc, .inl rfl⟩
    · exact ⟨_, hc, .inr rfl⟩

theorem Compares.append_left {back : List Char} (h : Compares back) (front : List Char) :
    Compares (front ++ back) :=
  h.imp (List.mem_append_right front) (List.mem_append_right front)

theorem Compares.append_right {front : List Char} (h : Compares front) (back : List Char) :
    Compares (front ++ back) :=
  h.imp (List.mem_append_left back) (List.mem_append_left back)

theorem Expression.Derives.not_compares {layer : Expression.Layer} {text : List Char}
    {tree : Expression} (h : Expression.Derives layer text tree) : ¬Compares text := by
  rintro (hc | hc)
  · exact h.not_mem (by decide) hc
  · exact h.not_mem (by decide) hc

namespace Constraint

theorem Derives.compares {layer : Layer} {text : List Char} {tree : Constraint}
    (h : Derives layer text tree) : Compares text := by
  induction h with
  | comparison hsign =>
    cases hsign with
    | less => exact .inl (by simp)
    | greater => exact .inr (by simp)
  | @group space inner tree _ _ ih =>
    have hclosed : Compares (['('] ++ (inner ++ [')'])) :=
      (ih.append_right [')']).append_left ['(']
    exact hclosed.append_left space
  | conjunct _ ih | disjunct _ ih => exact ih
  | and _ _ _ _ ih _ | or _ _ _ _ ih _ => exact ih.append_right _
  | clause _ _ ih => exact ih.append_right _

/-- Without the spacing in front of it, a text derives the same tree. -/
theorem Derives.strip {layer : Layer} {text : List Char} {tree : Constraint}
    (h : Derives layer text tree) :
    ∃ space core, text = space ++ core ∧ Spaced space ∧ Opens core ∧ Derives layer core tree := by
  induction h with
  | comparison hsign hleft hmiddle hright =>
    obtain ⟨space, core, rfl, hspace, hopens, hcore⟩ := hleft.strip
    exact ⟨space, _, List.append_assoc .., hspace, hopens.append _,
      .comparison hsign hcore hmiddle hright⟩
  | group hspace hinner _ =>
    exact ⟨_, _, rfl, hspace, .group hinner.balanced, .group Spaced.nil hinner⟩
  | conjunct _ ih =>
    obtain ⟨space, core, rfl, hspace, hopens, hcore⟩ := ih
    exact ⟨space, core, rfl, hspace, hopens, .conjunct hcore⟩
  | disjunct _ ih =>
    obtain ⟨space, core, rfl, hspace, hopens, hcore⟩ := ih
    exact ⟨space, core, rfl, hspace, hopens, .disjunct hcore⟩
  | and _ hmiddle hright hword ih _ =>
    obtain ⟨space, core, rfl, hspace, hopens, hcore⟩ := ih
    exact ⟨space, _, List.append_assoc .., hspace, hopens.append _,
      .and hcore hmiddle hright hword⟩
  | or _ hmiddle hright hword ih _ =>
    obtain ⟨space, core, rfl, hspace, hopens, hcore⟩ := ih
    exact ⟨space, _, List.append_assoc .., hspace, hopens.append _, .or hcore hmiddle hright hword⟩
  | clause _ hbehind ih =>
    obtain ⟨space, core, rfl, hspace, hopens, hcore⟩ := ih
    exact ⟨space, _, List.append_assoc .., hspace, hopens.append _, .clause hcore hbehind⟩

/-- A derived text is never empty. -/
theorem Derives.ne_nil {layer : Layer} {text : List Char} {tree : Constraint}
    (h : Derives layer text tree) : text ≠ [] := by
  rintro rfl
  exact h.compares.elim nofun nofun

end Constraint

end Diophantine
