import Diophantine.Proofs.Constraint.Grammar
import Diophantine.Proofs.Constraint.Groups
import Diophantine.Proofs.Expression.Completeness

/-!
# What the grammar of constraints derives, the reader accepts

One level up from expressions, and with one choice more: a parenthesis at the beginning of an atom
opens a constraint if its group holds a comparison sign, and an operand otherwise. On derived text
the choice is always right, since an operand never holds such a sign and a constraint always does.

- `group_of_operand`, `readAtom_of_operand`: the choice for operands;
- `Constraint.Derives.accepts`: a derived text is read as its tree, by induction on the derivation;
- `Constraint.Derives.rejects`: beyond the limit on nesting, it is refused;
- `Constraint.Derives.read_eq_ok_iff`: both together, for a clause.
-/

namespace Diophantine

/-! ### Spacing in front -/

@[simp] theorem readTerm_skipSpacing (inGroup : GroupReader) (slice : Slice) :
    readTerm inGroup slice.skipSpacing = readTerm inGroup slice := by
  have hsign : takeSign slice.skipSpacing = takeSign slice := by
    unfold takeSign
    rw [Slice.skipSpacing_skipSpacing]
  unfold readTerm
  rw [hsign]

@[simp] theorem readComparison_skipSpacing (inGroup : GroupReader) (slice : Slice) :
    readComparison inGroup slice.skipSpacing = readComparison inGroup slice := by
  unfold readComparison readSum readProduct
  rw [readTerm_skipSpacing]

/-! ### Operands -/

/-- The group that an operand begins with holds no comparison sign. If it is too deep, it is not
found at all. -/
theorem group_of_operand {here : Position} {layer : Expression.Layer} {front : List Char}
    {tree : Expression} (hfront : Expression.Derives layer front tree) (tail : List Char)
    {inside : Slice}
    (hnext : (Slice.mk here (front ++ tail)).skipSpacing.next? = some ('(', inside)) :
    (∃ interior rest, (Slice.mk here (front ++ tail)).skipSpacing.group = .ok (interior, rest)
      ∧ interior.compares = false)
    ∨ maxNesting < nesting front
      ∧ ∃ failure, (Slice.mk here (front ++ tail)).skipSpacing.group = .error failure := by
  obtain ⟨space, back, rfl, hspace, hopens⟩ := hfront.opens
  cases hopens with
  -- An operand that begins with a sign, a letter or a digit begins with no parenthesis.
  | minus =>
    rw [List.append_assoc, Slice.skipSpacing_append hspace (by simp; decide)] at hnext
    cases hnext
  | @alphanum c more hc =>
    have hsolid : isSpacing c = false := by
      refine Bool.eq_false_iff.mpr fun hs => ?_
      rw [Char.isAlphanum, (neutral_of_isSpacing hs).2.2, isDigit_of_isSpacing hs] at hc
      cases hc
    rw [List.append_assoc, Slice.skipSpacing_append hspace (by simp [hsolid])] at hnext
    cases hnext
    cases hc
  | @group inner more hinner =>
    rw [List.append_assoc, Slice.skipSpacing_append hspace (by simp; decide),
      List.cons_append, List.append_assoc, List.cons_append]
    by_cases hinside : nesting inner < maxNesting
    · -- The group is part of the operand, and so is everything in it.
      left
      refine ⟨_, _, Slice.group_of_balanced (more ++ tail) hinner hinside, ?_⟩
      refine Bool.eq_false_iff.mpr fun hcompares => hfront.not_compares ?_
      have hgroup : Compares (['('] ++ (inner ++ ')' :: more)) :=
        ((Slice.compares_iff.mp hcompares).append_right (')' :: more)).append_left ['(']
      exact hgroup.append_left space
    · right
      refine ⟨?_, Slice.group_too_deep (here.past space) (more ++ tail) hinner
        (Nat.le_of_not_lt hinside)⟩
      have hsplit : '(' :: (inner ++ ')' :: more) = '(' :: (inner ++ [')']) ++ more := by simp
      obtain ⟨hspaceBal, hspaceNest⟩ := Balanced.of_neutral hspace.neutral
      rw [hsplit, hspaceBal.nesting_append, hspaceNest, hinner.group.1.nesting_append,
        hinner.group.2]
      omega

/-- A parenthesis that begins an operand does not open a constraint. If its group is too deep, this
is noticed before the choice. -/
theorem readAtom_of_operand (readers : GroupReaders) (here : Position) {layer : Expression.Layer}
    {front : List Char} {tree : Expression} (hfront : Expression.Derives layer front tree)
    (tail : List Char) :
    readAtom readers { start := here, chars := front ++ tail }
        = readComparison readers.expression { start := here, chars := front ++ tail }
    ∨ maxNesting < nesting front
      ∧ ∃ failure, readAtom readers { start := here, chars := front ++ tail } = .error failure := by
  rw [← readComparison_skipSpacing]
  unfold readAtom
  split
  · rename_i rest hnext
    rcases group_of_operand hfront tail hnext with
      ⟨interior, behind, hgroup, hplain⟩ | ⟨hdeep, failure, hf⟩
    · left
      rw [hgroup]
      dsimp only
      rw [hplain, if_neg (by decide)]
    -- The group is looked for before anything is read, so the failure comes from there.
    · exact .inr ⟨hdeep, failure, by rw [hf]⟩
  · exact .inl rfl

/-! ### Comparisons -/

theorem ComparisonSign.ends {sign : Char} {build : Expression → Expression → Constraint}
    (h : ComparisonSign sign build) {space : List Char} (hspace : Spaced space)
    (back : List Char) : EndsSum (space ++ sign :: back) := by
  cases h with
  | less =>
    exact EndsSum.of_solid hspace (by decide)
  | greater =>
    exact EndsSum.of_solid hspace (by decide)

/-- Behind its left operand, a comparison is the sum that follows the sign. -/
theorem readComparison_of_left {here : Position} {sign : Char}
    {build : Expression → Expression → Constraint} (hsign : ComparisonSign sign build)
    {front space : List Char} {left : Expression} (hleft : Expression.Derives .sum front left)
    (hroom : nesting front ≤ maxNesting) (hspace : Spaced space) (back : List Char) :
    readComparison Expression.read { start := here, chars := front ++ (space ++ sign :: back) }
      = (readSum Expression.read
          { start := here.past (front ++ (space ++ [sign])), chars := back }).map
            fun right => (build left right.1, right.2) := by
  unfold readComparison
  rw [(hleft.accepts hroom).sum here (hsign.ends hspace back)]
  cases hsign with
  | less =>
    have hsolid : ∀ c ∈ ('<' :: back).head?, isSpacing c = false := by
      simp
      decide
    simp only [Slice.skipSpacing_append hspace hsolid, Position.past_append]
    rfl
  | greater =>
    have hsolid : ∀ c ∈ ('>' :: back).head?, isSpacing c = false := by
      simp
      decide
    simp only [Slice.skipSpacing_append hspace hsolid, Position.past_append]
    rfl

/-! ### Words -/

theorem afterKeyword?_append {here : Position} {word : String} {back : List Char}
    (hword : ∀ c ∈ back.head?, c.isAlphanum = false) :
    Slice.afterKeyword? { start := here, chars := word.toList ++ back } word
      = some { start := here.past word.toList, chars := back } :=
  Slice.afterKeyword?_eq_some_iff.mpr ⟨rfl, rfl, hword⟩

/-- A word is not found where something else than its first character stands. -/
theorem afterKeyword?_eq_none {here : Position} {tail : List Char} {word : String} {first : Char}
    (hword : word.toList.head? = some first) (htail : firstSolid tail ≠ some first) :
    (Slice.skipSpacing { start := here, chars := tail }).afterKeyword? word = none := by
  refine Option.eq_none_iff_forall_ne_some.mpr fun rest hrest => htail ?_
  have hchars := (Slice.afterKeyword?_eq_some_iff.mp hrest).1
  show (Slice.skipSpacing { start := here, chars := tail }).chars.head? = some first
  rw [hchars, List.head?_append, hword]
  rfl

namespace Constraint

/-- The readers of groups that reading a constraint ends up with. -/
def groupReaders : GroupReaders :=
  { expression := Expression.read, constraint := read }

/-! ### Acceptance -/

/-- No further conjunct follows a conjunction. -/
structure EndsConjunction (tail : List Char) : Prop extends EndsSum tail where
  conjunct : firstSolid tail ≠ some 'a'

theorem endsSum_and {space : List Char} (hspace : Spaced space) (back : List Char) :
    EndsSum (space ++ ("and".toList ++ back)) :=
  EndsSum.of_solid (c := 'a') hspace (by decide)

theorem endsConjunction_or {space : List Char} (hspace : Spaced space) (back : List Char) :
    EndsConjunction (space ++ ("or".toList ++ back)) where
  toEndsSum := EndsSum.of_solid (c := 'o') hspace (by decide)
  conjunct := by
    have hsolid : firstSolid (space ++ ("or".toList ++ back)) = some 'o' :=
      firstSolid_cons hspace (by decide)
    rw [hsolid]
    decide

theorem endsConjunction_of_spaced {space : List Char} (hspace : Spaced space) :
    EndsConjunction space where
  toEndsSum := EndsSum.of_spaced hspace
  conjunct := by
    rw [firstSolid_eq_none hspace]
    exact nofun

/-- What it means for the reader to accept a text on a layer. -/
def Accepts : Layer → List Char → Constraint → Prop
  | .atom, text, tree => ∀ (here : Position) (tail : List Char), EndsSum tail →
      readAtom groupReaders { start := here, chars := text ++ tail }
        = .ok (tree, { start := here.past text, chars := tail })
  | .conjunction, text, tree => ∀ (here : Position) (tail : List Char), EndsSum tail →
      readConjunction groupReaders { start := here, chars := text ++ tail }
        = readConjuncts groupReaders tree { start := here.past text, chars := tail }
  | .disjunction, text, tree => ∀ (here : Position) (tail : List Char), EndsConjunction tail →
      readDisjunction groupReaders { start := here, chars := text ++ tail }
        = readDisjuncts groupReaders tree { start := here.past text, chars := tail }
  | .clause, text, tree => ∀ here : Position, read { start := here, chars := text } = .ok tree

/-- A conjunction that is not followed by a conjunct is read whole. -/
theorem Accepts.conjunction {text : List Char} {tree : Constraint}
    (h : Accepts .conjunction text tree) (here : Position) {tail : List Char}
    (htail : EndsConjunction tail) :
    readConjunction groupReaders { start := here, chars := text ++ tail }
      = .ok (tree, { start := here.past text, chars := tail }) := by
  rw [h here tail htail.toEndsSum, readConjuncts_eq, afterKeyword?_eq_none (by rfl) htail.conjunct]

/-- A disjunction that is followed by nothing but spacing is read whole. -/
theorem Accepts.disjunction {text space : List Char} {tree : Constraint}
    (h : Accepts .disjunction text tree) (here : Position) (hspace : Spaced space) :
    readDisjunction groupReaders { start := here, chars := text ++ space }
      = .ok (tree, { start := here.past text, chars := space }) := by
  have hnone : firstSolid space ≠ some 'o' := by
    rw [firstSolid_eq_none hspace]
    exact nofun
  rw [h here space (endsConjunction_of_spaced hspace), readDisjuncts_eq,
    afterKeyword?_eq_none (by rfl) hnone]

theorem accepts_comparison {sign : Char} {build : Expression → Expression → Constraint}
    (hsign : ComparisonSign sign build) {front space back : List Char} {left right : Expression}
    (hleft : Expression.Derives .sum front left) (hspace : Spaced space)
    (hright : Expression.Derives .sum back right)
    (hroom : nesting (front ++ (space ++ sign :: back)) ≤ maxNesting) :
    Accepts .atom (front ++ (space ++ sign :: back)) (build left right) := by
  intro here tail htail
  rw [(hleft.balanced.operator hspace hsign.neutral hright.balanced).2, Nat.max_le] at hroom
  have hchoice := (readAtom_of_operand groupReaders here hleft
    (space ++ sign :: (back ++ tail))).resolve_right fun h => absurd hroom.1 (Nat.not_le.mpr h.1)
  rw [List.append_assoc, List.append_assoc, List.cons_append, hchoice]
  show readComparison Expression.read _ = _
  rw [readComparison_of_left hsign hleft hroom.1 hspace, (hright.accepts hroom.2).sum _ htail,
    ← Position.past_append]
  simp only [List.append_assoc, List.singleton_append]
  rfl

theorem accepts_group {space inner : List Char} {tree : Constraint} (hspace : Spaced space)
    (hinner : Derives .clause inner tree) (hroom : nesting inner < maxNesting)
    (haccepts : Accepts .clause inner tree) :
    Accepts .atom (space ++ '(' :: (inner ++ [')'])) tree := by
  intro here tail _
  have hcompares : Slice.compares { start := (here.past space).advance '(', chars := inner }
      = true := Slice.compares_iff.mpr hinner.compares
  have hread : read { start := (here.past space).advance '(', chars := inner } = .ok tree :=
    haccepts _
  unfold readAtom
  rw [List.append_assoc, List.cons_append, List.append_assoc, List.singleton_append,
    Slice.skipSpacing_append hspace (by simp; decide),
    Slice.group_of_balanced tail hinner.balanced hroom]
  show (if Slice.compares { start := (here.past space).advance '(', chars := inner } = true then
    (read { start := (here.past space).advance '(', chars := inner }).map
      fun constraint =>
        (constraint, Slice.mk ((here.past space).past ('(' :: (inner ++ [')']))) tail)
    else _) = _
  rw [if_pos hcompares, hread, Position.past_append]
  rfl

section Connectives

variable {front space back tail : List Char} {left : Constraint} (hspace : Spaced space)
  (hne : back ≠ []) (hword : ∀ c ∈ back.head?, c.isAlphanum = false) (here : Position)

include hspace hne hword

/-- Behind an accepted conjunction, the word `and` leads on to a conjunct. -/
theorem Accepts.and (hleft : Accepts .conjunction front left) :
    readConjunction groupReaders
        { start := here, chars := front ++ (space ++ ("and".toList ++ back)) ++ tail }
      = (readAtom groupReaders
          { start := ((here.past front).past space).past "and".toList
            chars := back ++ tail }).bind
              fun found => readConjuncts groupReaders (.and left found.1) found.2 := by
  have hnext : ∀ c ∈ (back ++ tail).head?, c.isAlphanum = false := by
    rwa [List.head?_append_of_ne_nil _ hne]
  rw [List.append_assoc, List.append_assoc, List.append_assoc,
    hleft here _ (endsSum_and hspace _), readConjuncts_eq,
    Slice.skipSpacing_append hspace (by simp; decide), afterKeyword?_append hnext]
  dsimp only
  cases readAtom groupReaders { start := _, chars := back ++ tail } <;> rfl

/-- Behind an accepted disjunction, the word `or` leads on to a disjunct. -/
theorem Accepts.or (hleft : Accepts .disjunction front left) :
    readDisjunction groupReaders
        { start := here, chars := front ++ (space ++ ("or".toList ++ back)) ++ tail }
      = (readConjunction groupReaders
          { start := ((here.past front).past space).past "or".toList
            chars := back ++ tail }).bind
              fun found => readDisjuncts groupReaders (.or left found.1) found.2 := by
  have hnext : ∀ c ∈ (back ++ tail).head?, c.isAlphanum = false := by
    rwa [List.head?_append_of_ne_nil _ hne]
  rw [List.append_assoc, List.append_assoc, List.append_assoc,
    hleft here _ (endsConjunction_or hspace _), readDisjuncts_eq,
    Slice.skipSpacing_append hspace (by simp; decide), afterKeyword?_append hnext]
  dsimp only
  cases readConjunction groupReaders { start := _, chars := back ++ tail } <;> rfl

end Connectives

/-- **Completeness**: the reader accepts what is derived, if it does not nest too deep. -/
theorem Derives.accepts {layer : Layer} {text : List Char} {tree : Constraint}
    (h : Derives layer text tree) : nesting text ≤ maxNesting → Accepts layer text tree := by
  induction h with
  | comparison hsign hleft hspace hright =>
    exact fun hroom => accepts_comparison hsign hleft hspace hright hroom
  | @group space inner tree hspace hinner ih =>
    intro hroom
    obtain ⟨hbal, hnest⟩ := Balanced.of_neutral hspace.neutral
    rw [hbal.nesting_append, hnest, hinner.balanced.group.2, Nat.zero_max] at hroom
    exact accepts_group hspace hinner hroom (ih (Nat.le_of_succ_le hroom))
  | conjunct _ ih =>
    intro hroom here tail htail
    unfold readConjunction
    rw [ih hroom here tail htail]
  | @and front space back left right hleft hspace hright hword ihl ihr =>
    intro hroom here tail htail
    rw [(hleft.balanced.connective hspace (by decide) hright.balanced).2, Nat.max_le] at hroom
    rw [(ihl hroom.1).and hspace hright.ne_nil hword, ihr hroom.2 _ tail htail]
    show readConjuncts groupReaders (.and left right) _ = _
    simp only [← Position.past_append, List.append_assoc]
  | disjunct _ ih =>
    intro hroom here tail htail
    unfold readDisjunction
    rw [(ih hroom).conjunction here htail]
  | @or front space back left right hleft hspace hright hword ihl ihr =>
    intro hroom here tail htail
    rw [(hleft.balanced.connective hspace (by decide) hright.balanced).2, Nat.max_le] at hroom
    rw [(ihl hroom.1).or hspace hright.ne_nil hword, (ihr hroom.2).conjunction _ htail]
    show readDisjuncts groupReaders (.or left right) _ = _
    simp only [← Position.past_append, List.append_assoc]
  | @clause text space tree hdisjunction hspace ih =>
    intro hroom here
    rw [hdisjunction.balanced.nesting_append, Nat.max_le] at hroom
    -- A text without a comparison is refused at once, but a derived one has a comparison.
    have hcompares : Slice.compares { start := here, chars := text ++ space } = true :=
      Slice.compares_iff.mpr (hdisjunction.compares.append_right space)
    rw [read_eq]
    show readWholeDisjunction groupReaders _ = _
    unfold readWholeDisjunction
    rw [if_pos hcompares, (ih hroom.1).disjunction here hspace]
    simp only [Slice.skipSpacing_spaced hspace]
    rfl

/-! ### Refusal -/

/-- What it means for the reader to refuse a text on a layer. -/
def Rejects : Layer → List Char → Prop
  | .atom, text => ∀ (here : Position) (tail : List Char), EndsSum tail →
      ∃ failure, readAtom groupReaders { start := here, chars := text ++ tail } = .error failure
  | .conjunction, text => ∀ (here : Position) (tail : List Char), EndsSum tail →
      ∃ failure,
        readConjunction groupReaders { start := here, chars := text ++ tail } = .error failure
  | .disjunction, text => ∀ (here : Position) (tail : List Char), EndsConjunction tail →
      ∃ failure,
        readDisjunction groupReaders { start := here, chars := text ++ tail } = .error failure
  | .clause, text => ∀ here : Position,
      ∃ failure, read { start := here, chars := text } = .error failure

theorem rejects_comparison {sign : Char} {build : Expression → Expression → Constraint}
    (hsign : ComparisonSign sign build) {front space back : List Char} {left right : Expression}
    (hleft : Expression.Derives .sum front left) (hspace : Spaced space)
    (hright : Expression.Derives .sum back right)
    (hdeep : maxNesting < nesting (front ++ (space ++ sign :: back))) :
    Rejects .atom (front ++ (space ++ sign :: back)) := by
  intro here tail htail
  rw [(hleft.balanced.operator hspace hsign.neutral hright.balanced).2, lt_max_iff] at hdeep
  rw [List.append_assoc, List.append_assoc, List.cons_append]
  rcases readAtom_of_operand groupReaders here hleft
    (space ++ sign :: (back ++ tail)) with hchoice | ⟨-, hrefused⟩
  · rw [hchoice]
    show ∃ failure, readComparison Expression.read _ = .error failure
    by_cases hfront : maxNesting < nesting front
    · obtain ⟨failure, hf⟩ := hleft.rejects hfront here _
        (hsign.ends hspace (back ++ tail)).toEndsProduct
      refine ⟨failure, ?_⟩
      unfold readComparison
      rw [hf]
    · obtain ⟨failure, hf⟩ := hright.rejects (hdeep.resolve_left hfront)
        (here.past (front ++ (space ++ [sign]))) tail htail.toEndsProduct
      refine ⟨failure, ?_⟩
      rw [readComparison_of_left hsign hleft (Nat.le_of_not_lt hfront) hspace, hf]
      rfl
  · exact hrefused

theorem rejects_group {space inner : List Char} (hspace : Spaced space) (hbal : Balanced inner)
    (hdeep : maxNesting ≤ nesting inner) : Rejects .atom (space ++ '(' :: (inner ++ [')'])) := by
  intro here tail _
  obtain ⟨failure, hf⟩ := Slice.group_too_deep (here.past space) tail hbal hdeep
  refine ⟨failure, ?_⟩
  unfold readAtom
  rw [List.append_assoc, List.cons_append, List.append_assoc, List.singleton_append,
    Slice.skipSpacing_append hspace (by simp; decide), hf]
  rfl

/-- Of two sides that go too deep, one is refused. It is the front, unless that is accepted. -/
theorem Derives.rejects_side {layer behind : Layer} {front back : List Char} {left : Constraint}
    (hleft : Derives layer front left) (hfront : maxNesting < nesting front → Rejects layer front)
    (hback : maxNesting < nesting back → Rejects behind back)
    (hdeep : maxNesting < max (nesting front) (nesting back)) :
    Rejects layer front ∨ Accepts layer front left ∧ Rejects behind back := by
  by_cases hroom : nesting front ≤ maxNesting
  · have hbehind := (lt_max_iff.mp hdeep).resolve_left (Nat.not_lt_of_le hroom)
    exact .inr ⟨hleft.accepts hroom, hback hbehind⟩
  · exact .inl (hfront (Nat.lt_of_not_le hroom))

section Connectives

variable {front space back : List Char} {left : Constraint} (hspace : Spaced space)
  (hne : back ≠ []) (hword : ∀ c ∈ back.head?, c.isAlphanum = false)

include hspace hne hword

theorem rejects_and
    (h : Rejects .conjunction front ∨ Accepts .conjunction front left ∧ Rejects .atom back) :
    Rejects .conjunction (front ++ (space ++ ("and".toList ++ back))) := by
  intro here tail htail
  rcases h with hfront | ⟨hleft, hback⟩
  · rw [List.append_assoc, List.append_assoc, List.append_assoc]
    exact hfront here _ (endsSum_and hspace _)
  · obtain ⟨failure, hf⟩ :=
      hback (((here.past front).past space).past "and".toList) tail htail
    refine ⟨failure, ?_⟩
    rw [hleft.and hspace hne hword, hf]
    rfl

theorem rejects_or
    (h : Rejects .disjunction front ∨ Accepts .disjunction front left ∧ Rejects .conjunction back) :
    Rejects .disjunction (front ++ (space ++ ("or".toList ++ back))) := by
  intro here tail htail
  rcases h with hfront | ⟨hleft, hback⟩
  · rw [List.append_assoc, List.append_assoc, List.append_assoc]
    exact hfront here _ (endsConjunction_or hspace _)
  · obtain ⟨failure, hf⟩ :=
      hback (((here.past front).past space).past "or".toList) tail htail.toEndsSum
    refine ⟨failure, ?_⟩
    rw [hleft.or hspace hne hword, hf]
    rfl

end Connectives

/-- **The limit on nesting**: a derived text beyond it is refused, wherever it goes too deep. -/
theorem Derives.rejects {layer : Layer} {text : List Char} {tree : Constraint}
    (h : Derives layer text tree) : maxNesting < nesting text → Rejects layer text := by
  induction h with
  | comparison hsign hleft hspace hright =>
    exact fun hdeep => rejects_comparison hsign hleft hspace hright hdeep
  | @group space inner tree hspace hinner _ =>
    intro hdeep
    obtain ⟨hbal, hnest⟩ := Balanced.of_neutral hspace.neutral
    rw [hbal.nesting_append, hnest, hinner.balanced.group.2, Nat.zero_max] at hdeep
    exact rejects_group hspace hinner.balanced (Nat.le_of_lt_succ hdeep)
  | conjunct _ ih =>
    intro hdeep here tail htail
    obtain ⟨failure, hf⟩ := ih hdeep here tail htail
    refine ⟨failure, ?_⟩
    unfold readConjunction
    rw [hf]
  | and hleft hspace hright hword ihl ihr =>
    intro hdeep
    rw [(hleft.balanced.connective hspace (by decide) hright.balanced).2] at hdeep
    exact rejects_and hspace hright.ne_nil hword (hleft.rejects_side ihl ihr hdeep)
  | disjunct _ ih =>
    intro hdeep here tail htail
    obtain ⟨failure, hf⟩ := ih hdeep here tail htail.toEndsSum
    refine ⟨failure, ?_⟩
    unfold readDisjunction
    rw [hf]
  | or hleft hspace hright hword ihl ihr =>
    intro hdeep
    rw [(hleft.balanced.connective hspace (by decide) hright.balanced).2] at hdeep
    exact rejects_or hspace hright.ne_nil hword (hleft.rejects_side ihl ihr hdeep)
  | @clause text space tree hdisjunction hspace ih =>
    intro hdeep here
    obtain ⟨_, hnest⟩ := Balanced.of_neutral hspace.neutral
    rw [hdisjunction.balanced.nesting_append, hnest, Nat.max_zero] at hdeep
    obtain ⟨failure, hf⟩ := ih hdeep here space (endsConjunction_of_spaced hspace)
    have hcompares : Slice.compares { start := here, chars := text ++ space } = true :=
      Slice.compares_iff.mpr (hdisjunction.compares.append_right space)
    refine ⟨failure, ?_⟩
    rw [read_eq]
    show readWholeDisjunction groupReaders _ = _
    unfold readWholeDisjunction
    rw [if_pos hcompares, hf]

/-- A derived clause is read exactly if it does not nest too deep. -/
theorem Derives.read_eq_ok_iff {text : List Char} {tree other : Constraint}
    (h : Derives .clause text tree) (here : Position) :
    read { start := here, chars := text } = .ok other
      ↔ tree = other ∧ nesting text ≤ maxNesting := by
  by_cases hroom : nesting text ≤ maxNesting
  · rw [h.accepts hroom here]
    exact ⟨fun heq => ⟨Except.ok.inj heq, hroom⟩, fun heq => congrArg Except.ok heq.1⟩
  · obtain ⟨failure, hf⟩ := h.rejects (Nat.lt_of_not_le hroom) here
    rw [hf]
    exact ⟨nofun, fun heq => absurd heq.2 hroom⟩

end Constraint

end Diophantine
