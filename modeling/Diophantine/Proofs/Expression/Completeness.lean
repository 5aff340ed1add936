import Mathlib.Order.MinMax
import Diophantine.Proofs.Expression.Groups

/-!
# What the grammar derives, the reader accepts

A derived text is read as the tree that it derives, whatever follows it, as long as what follows
could not be more of it. Products and sums are read by loops, so what is known of them is that the
loop arrives behind the text with the tree built so far.

- `EndsTerm`, `EndsProduct`, `EndsSum`: what may follow the text of each layer;
- `Expression.Accepts`, `Expression.Derives.accepts`: the statement for each layer, and its proof
  by induction on the derivation;
- `Expression.Rejects`, `Expression.Derives.rejects`: beyond the limit on nesting, the same text is
  refused;
- `Expression.Derives.read_eq_ok_iff`: both together, for a clause.
-/

namespace Diophantine

/-! ### Spacing and signs -/

theorem takeWhile_dropWhile_append {accept : Char → Bool} {front back : List Char}
    (hf : ∀ c ∈ front, accept c = true) (hb : ∀ c ∈ back.head?, accept c = false) :
    (front ++ back).takeWhile accept = front ∧ (front ++ back).dropWhile accept = back := by
  rw [List.takeWhile_append_of_pos hf, List.dropWhile_append_of_pos hf]
  cases back with
  | nil => exact ⟨List.append_nil front, rfl⟩
  | cons c back =>
    have hc : accept c = false := hb c rfl
    rw [List.takeWhile_cons_of_neg (by simp [hc]), List.dropWhile_cons_of_neg (by simp [hc])]
    exact ⟨List.append_nil front, rfl⟩

namespace Slice

theorem skipSpacing_append {here : Position} {space back : List Char} (hspace : Spaced space)
    (hback : ∀ c ∈ back.head?, isSpacing c = false) :
    skipSpacing { start := here, chars := space ++ back }
      = { start := here.past space, chars := back } := by
  obtain ⟨htake, hdrop⟩ := takeWhile_dropWhile_append hspace hback
  show Slice.mk (here.past ((space ++ back).takeWhile isSpacing))
    ((space ++ back).dropWhile isSpacing) = _
  rw [htake, hdrop]

theorem skipSpacing_spaced {here : Position} {space : List Char} (hspace : Spaced space) :
    skipSpacing { start := here, chars := space } = { start := here.past space, chars := [] } := by
  have h : skipSpacing { start := here, chars := space ++ [] } = _ :=
    skipSpacing_append hspace nofun
  rwa [List.append_nil] at h

/-- Spacing is skipped once and for all. -/
@[simp] theorem skipSpacing_skipSpacing (slice : Slice) :
    slice.skipSpacing.skipSpacing = slice.skipSpacing := by
  refine skipSpacing_append Spaced.nil fun c hc => ?_
  have hnot := List.head?_dropWhile_not isSpacing slice.chars
  rw [show (slice.chars.dropWhile isSpacing).head? = some c from hc] at hnot
  simpa using hnot

end Slice

/-- The first character behind spacing. -/
def firstSolid (text : List Char) : Option Char :=
  (text.dropWhile isSpacing).head?

theorem firstSolid_append {space back : List Char} (hspace : Spaced space) :
    firstSolid (space ++ back) = firstSolid back := by
  show ((space ++ back).dropWhile isSpacing).head? = _
  rw [List.dropWhile_append_of_pos hspace]
  rfl

theorem firstSolid_cons {space back : List Char} {c : Char} (hspace : Spaced space)
    (hsolid : isSpacing c = false) : firstSolid (space ++ c :: back) = some c := by
  rw [firstSolid_append hspace]
  show ((c :: back).dropWhile isSpacing).head? = _
  rw [List.dropWhile_cons_of_neg (by simp [hsolid])]
  rfl

theorem firstSolid_eq_none {space : List Char} (hspace : Spaced space) :
    firstSolid space = none := by
  have h : firstSolid (space ++ []) = firstSolid [] := firstSolid_append hspace
  rwa [List.append_nil] at h

theorem isDigit_of_isSpacing {c : Char} (h : isSpacing c = true) : c.isDigit = false := by
  simp only [isSpacing, Bool.or_eq_true, beq_iff_eq] at h
  rcases h with ((rfl | rfl) | rfl) | rfl <;> rfl

theorem firstSolid_of_next? {slice rest : Slice} {c : Char}
    (h : slice.skipSpacing.next? = some (c, rest)) : firstSolid slice.chars = some c := by
  show slice.skipSpacing.chars.head? = some c
  rw [(Slice.next?_eq_some_iff.mp h).1]
  rfl

theorem takeSign_append {here : Position} {negative : Bool} {sign body : List Char}
    (hsign : SignText negative sign)
    (hbody : ∀ c ∈ body.head?, isSpacing c = false ∧ c ≠ '-') :
    takeSign { start := here, chars := sign ++ body }
      = (negative, { start := here.past sign, chars := body }) := by
  have hsolid : ∀ c ∈ body.head?, isSpacing c = false := fun c hc => (hbody c hc).1
  cases hsign with
  | plain hspace =>
    unfold takeSign
    rw [Slice.skipSpacing_append hspace hsolid]
    split
    · rename_i rest hnext
      have hhead : body.head? = some '-' := congrArg List.head? (Slice.next?_eq_some_iff.mp hnext).1
      exact absurd rfl (hbody '-' hhead).2
    · rfl
  | @minus before behind hbefore hbehind =>
    unfold takeSign
    rw [List.append_assoc, List.cons_append, Slice.skipSpacing_append hbefore (by simp; decide)]
    show (true, Slice.skipSpacing
      { start := (here.past before).advance '-', chars := behind ++ body }) = _
    rw [Slice.skipSpacing_append hbehind hsolid, Position.past_append]
    rfl

/-! ### What may follow -/

/-- No further digit follows a constant. -/
def EndsTerm (tail : List Char) : Prop :=
  ∀ c ∈ tail.head?, c.isDigit = false

/-- No further factor follows a product. -/
structure EndsProduct (tail : List Char) : Prop where
  digit : EndsTerm tail
  group : tail.head? ≠ some '('
  star : firstSolid tail ≠ some '*'

/-- No further summand follows a sum. -/
structure EndsSum (tail : List Char) : Prop extends EndsProduct tail where
  plus : firstSolid tail ≠ some '+'
  minus : firstSolid tail ≠ some '-'

theorem EndsTerm.of_solid {space back : List Char} {c : Char} (hspace : Spaced space)
    (hdigit : c.isDigit = false) : EndsTerm (space ++ c :: back) := by
  intro d hd
  cases space with
  | nil =>
    obtain rfl : c = d := Option.some.inj hd
    exact hdigit
  | cons b space =>
    obtain rfl : b = d := Option.some.inj hd
    exact isDigit_of_isSpacing (hspace b (List.mem_cons_self ..))

theorem EndsProduct.of_solid {space back : List Char} {c : Char} (hspace : Spaced space)
    (hc : isSpacing c = false ∧ c.isDigit = false ∧ c ∉ ['(', '*']) :
    EndsProduct (space ++ c :: back) where
  digit := EndsTerm.of_solid hspace hc.2.1
  group := by
    intro hd
    cases space with
    | nil =>
      obtain rfl : c = '(' := Option.some.inj hd
      exact hc.2.2 (by simp)
    | cons b space =>
      obtain rfl : b = '(' := Option.some.inj hd
      exact absurd (hspace '(' (List.mem_cons_self ..)) (by decide)
  star := by
    rw [firstSolid_cons hspace hc.1]
    rintro ⟨rfl⟩
    exact hc.2.2 (by simp)

theorem EndsSum.of_solid {space back : List Char} {c : Char} (hspace : Spaced space)
    (hc : isSpacing c = false ∧ c.isDigit = false ∧ c ∉ ['(', '*', '+', '-']) :
    EndsSum (space ++ c :: back) where
  toEndsProduct := EndsProduct.of_solid hspace
    ⟨hc.1, hc.2.1, fun hmem => hc.2.2 (List.mem_append_left ['+', '-'] hmem)⟩
  plus := by
    rw [firstSolid_cons hspace hc.1]
    rintro ⟨rfl⟩
    exact hc.2.2 (by simp)
  minus := by
    rw [firstSolid_cons hspace hc.1]
    rintro ⟨rfl⟩
    exact hc.2.2 (by simp)

/-- Nothing but spacing ends everything. -/
theorem EndsSum.of_spaced {space : List Char} (hspace : Spaced space) : EndsSum space := by
  have hnone := firstSolid_eq_none hspace
  refine { digit := fun c hc => ?_, group := fun hc => ?_, star := ?_, plus := ?_, minus := ?_ }
  · exact isDigit_of_isSpacing (hspace c (List.mem_of_head? hc))
  · exact absurd (hspace '(' (List.mem_of_head? hc)) (by decide)
  all_goals
    rw [hnone]
    exact nofun

/-! ### The loops -/

theorem nextFactor?_eq_none {here : Position} {tail : List Char} (h : EndsProduct tail) :
    nextFactor? { start := here, chars := tail } = none := by
  unfold nextFactor?
  split
  · rename_i rest hnext
    exact absurd (firstSolid_of_next? hnext) h.star
  · split
    · rename_i c rest hnext
      have hhead : tail.head? = some c := congrArg List.head? (Slice.next?_eq_some_iff.mp hnext).1
      have hdigit : c.isDigit = false := h.digit c hhead
      have hgroup : (c == '(') = false :=
        beq_eq_false_iff_ne.mpr fun heq => h.group (heq ▸ hhead)
      rw [if_neg (by simp [hdigit, hgroup])]
    · rfl

theorem nextFactor?_star {here : Position} {space back : List Char} (hspace : Spaced space) :
    nextFactor? { start := here, chars := space ++ '*' :: back }
      = some { start := here.past (space ++ ['*']), chars := back } := by
  unfold nextFactor?
  rw [Slice.skipSpacing_append hspace (by simp; decide), Position.past_append]
  rfl

theorem nextSummand?_eq_none {here : Position} {tail : List Char} (h : EndsSum tail) :
    nextSummand? { start := here, chars := tail } = none := by
  unfold nextSummand?
  split
  · rename_i rest hnext
    exact absurd (firstSolid_of_next? hnext) h.plus
  · rename_i rest hnext
    exact absurd (firstSolid_of_next? hnext) h.minus
  · rfl

theorem nextSummand?_plus {here : Position} {space back : List Char} (hspace : Spaced space) :
    nextSummand? { start := here, chars := space ++ '+' :: back }
      = some { start := here.past (space ++ ['+']), chars := back } := by
  unfold nextSummand?
  rw [Slice.skipSpacing_append hspace (by simp; decide), Position.past_append]
  rfl

theorem nextSummand?_minus {here : Position} {space back : List Char} (hspace : Spaced space) :
    nextSummand? { start := here, chars := space ++ '-' :: back }
      = some { start := here.past space, chars := '-' :: back } := by
  unfold nextSummand?
  rw [Slice.skipSpacing_append hspace (by simp; decide)]
  rfl

/-! ### Acceptance -/

/-- A constant is read whole. -/
theorem readConstant_append {here : Position} {negative : Bool} {digits tail : List Char}
    {value : Value} (hdigits : ∀ c ∈ digits, c.isDigit = true) (htail : EndsTerm tail)
    (hvalue : Value.ofDigits? negative digits = some value) :
    readConstant negative { start := here, chars := digits ++ tail }
      = .ok (.constant value, { start := here.past digits, chars := tail }) := by
  obtain ⟨htake, hdrop⟩ := takeWhile_dropWhile_append hdigits htail
  have hfront : (Slice.mk here (digits ++ tail)).takeWhile Char.isDigit
      = { start := here, chars := digits } := by
    show Slice.mk here ((digits ++ tail).takeWhile Char.isDigit) = _
    rw [htake]
  have hback : (Slice.mk here (digits ++ tail)).dropWhile Char.isDigit
      = { start := here.past digits, chars := tail } := by
    show Slice.mk (here.past ((digits ++ tail).takeWhile Char.isDigit))
      ((digits ++ tail).dropWhile Char.isDigit) = _
    rw [htake, hdrop]
  unfold readConstant
  rw [hfront, hback, hvalue]

/-- A term in parentheses is left to the reader of groups. -/
theorem readTerm_group {inGroup : GroupReader} {here : Position} {negative : Bool}
    {sign inner tail : List Char} (hsign : SignText negative sign) :
    readTerm inGroup { start := here, chars := sign ++ '(' :: (inner ++ [')']) ++ tail }
      = readGroup inGroup negative
          { start := here.past sign, chars := '(' :: (inner ++ ')' :: tail) } := by
  unfold readTerm
  rw [List.append_assoc, List.cons_append, List.append_assoc, List.singleton_append,
    takeSign_append hsign (by simp; decide)]
  rfl

namespace Expression

/-- What it means for the reader to accept a text on a layer: it arrives behind the text with the
tree, and further factors or summands are looked for there. -/
def Accepts : Layer → List Char → Expression → Prop
  | .term, text, tree => ∀ (here : Position) (tail : List Char), EndsTerm tail →
      readTerm read { start := here, chars := text ++ tail }
        = .ok (tree, { start := here.past text, chars := tail })
  | .product, text, tree => ∀ (here : Position) (tail : List Char), EndsTerm tail →
      readProduct read { start := here, chars := text ++ tail }
        = readFactors read tree { start := here.past text, chars := tail }
  | .sum, text, tree => ∀ (here : Position) (tail : List Char), EndsProduct tail →
      readSum read { start := here, chars := text ++ tail }
        = readSummands read tree { start := here.past text, chars := tail }
  | .clause, text, tree => ∀ here : Position,
      read { start := here, chars := text } = .ok tree

/-- A product that is not followed by a factor is read whole. -/
theorem Accepts.product {text : List Char} {tree : Expression} (h : Accepts .product text tree)
    (here : Position) {tail : List Char} (htail : EndsProduct tail) :
    readProduct read { start := here, chars := text ++ tail }
      = .ok (tree, { start := here.past text, chars := tail }) := by
  rw [h here tail htail.digit, readFactors_eq, nextFactor?_eq_none htail]

/-- A sum that is not followed by a summand is read whole. -/
theorem Accepts.sum {text : List Char} {tree : Expression} (h : Accepts .sum text tree)
    (here : Position) {tail : List Char} (htail : EndsSum tail) :
    readSum read { start := here, chars := text ++ tail }
      = .ok (tree, { start := here.past text, chars := tail }) := by
  rw [h here tail htail.toEndsProduct, readSummands_eq, nextSummand?_eq_none htail]

theorem accepts_constant {negative : Bool} {sign digits : List Char} {value : Value}
    (hsign : SignText negative sign) (hne : digits ≠ [])
    (hdigits : ∀ c ∈ digits, c.isDigit = true)
    (hvalue : Value.ofDigits? negative digits = some value) :
    Accepts .term (sign ++ digits) (.constant value) := by
  intro here tail htail
  obtain ⟨c, more, rfl⟩ := List.exists_cons_of_ne_nil hne
  have hc : c.isDigit = true := hdigits c (List.mem_cons_self ..)
  have hbody : ∀ d ∈ (c :: more ++ tail).head?, isSpacing d = false ∧ d ≠ '-' := by
    intro d hd
    obtain rfl : c = d := Option.some.inj hd
    refine ⟨Bool.eq_false_iff.mpr fun hs => ?_, ?_⟩
    · rw [isDigit_of_isSpacing hs] at hc
      cases hc
    · rintro rfl
      exact absurd hc (by decide)
  unfold readTerm
  rw [List.append_assoc, takeSign_append hsign hbody]
  show (if c.isDigit = true then
    readConstant negative { start := here.past sign, chars := c :: more ++ tail } else _) = _
  rw [if_pos hc, readConstant_append hdigits htail hvalue, Position.past_append]

theorem accepts_var {negative : Bool} {sign : List Char} {name : Name}
    (hsign : SignText negative sign) (hname : name.isAlpha = true) :
    Accepts .term (sign ++ [name]) (signed negative (.var name)) := by
  intro here tail _
  have hbody : ∀ d ∈ (name :: tail).head?, isSpacing d = false ∧ d ≠ '-' := by
    intro d hd
    obtain rfl : name = d := Option.some.inj hd
    refine ⟨Bool.eq_false_iff.mpr fun hs => ?_, ?_⟩
    · rw [(neutral_of_isSpacing hs).2.2] at hname
      cases hname
    · rintro rfl
      exact absurd hname (by decide)
  have hdigit : name.isDigit = false := by
    refine Bool.eq_false_iff.mpr fun hd => ?_
    rw [(neutral_of_isDigit hd).2.2] at hname
    cases hname
  unfold readTerm
  rw [List.append_assoc, List.singleton_append, takeSign_append hsign hbody]
  show (if name.isDigit = true then _ else if name.isAlpha = true then
    Except.ok (signed negative (.var name), Slice.mk ((here.past sign).advance name) tail)
      else _) = _
  rw [hdigit, if_neg (by decide), if_pos hname, Position.past_append]
  rfl

theorem accepts_group {negative : Bool} {sign inner : List Char} {tree : Expression}
    (hsign : SignText negative sign) (hbal : Balanced inner) (hroom : nesting inner < maxNesting)
    (hinner : Accepts .clause inner tree) :
    Accepts .term (sign ++ '(' :: (inner ++ [')'])) (signed negative tree) := by
  intro here tail _
  have hread : read { start := (here.past sign).advance '(', chars := inner } = .ok tree :=
    hinner _
  rw [readTerm_group hsign]
  unfold readGroup
  rw [Slice.group_of_balanced tail hbal hroom]
  dsimp only
  rw [hread, Position.past_append]

section Operators

variable {front space back tail : List Char} {left : Expression} (hspace : Spaced space)
  (here : Position)

include hspace

/-- Behind an accepted product, a star leads on to a factor. -/
theorem Accepts.times (hleft : Accepts .product front left) :
    readProduct read { start := here, chars := front ++ (space ++ '*' :: back) ++ tail }
      = (readTerm read
          { start := (here.past front).past (space ++ ['*']), chars := back ++ tail }).bind
            fun found => readFactors read (.mul left found.1) found.2 := by
  rw [List.append_assoc, List.append_assoc, List.cons_append,
    hleft here _ (EndsTerm.of_solid hspace (by decide)), readFactors_eq, nextFactor?_star hspace]
  dsimp only
  cases readTerm read
    { start := (here.past front).past (space ++ ['*']), chars := back ++ tail } <;> rfl

/-- Behind an accepted sum, a plus leads on to a summand. -/
theorem Accepts.plus (hleft : Accepts .sum front left) :
    readSum read { start := here, chars := front ++ (space ++ '+' :: back) ++ tail }
      = (readProduct read
          { start := (here.past front).past (space ++ ['+']), chars := back ++ tail }).bind
            fun found => readSummands read (.add left found.1) found.2 := by
  rw [List.append_assoc, List.append_assoc, List.cons_append,
    hleft here _ (EndsProduct.of_solid hspace (by decide)), readSummands_eq,
    nextSummand?_plus hspace]
  dsimp only
  cases readProduct read
    { start := (here.past front).past (space ++ ['+']), chars := back ++ tail } <;> rfl

/-- Behind an accepted sum, a minus leads on to a summand that begins with it. -/
theorem Accepts.minus (hleft : Accepts .sum front left) :
    readSum read { start := here, chars := front ++ (space ++ '-' :: back) ++ tail }
      = (readProduct read
          { start := (here.past front).past space, chars := '-' :: back ++ tail }).bind
            fun found => readSummands read (.add left found.1) found.2 := by
  rw [List.append_assoc, List.append_assoc, List.cons_append,
    hleft here _ (EndsProduct.of_solid hspace (by decide)), readSummands_eq,
    nextSummand?_minus hspace]
  dsimp only
  cases readProduct read
    { start := (here.past front).past space, chars := '-' :: (back ++ tail) } <;> rfl

end Operators

/-- **Completeness**: the reader accepts what is derived, if it does not nest too deep. -/
theorem Derives.accepts {layer : Layer} {text : List Char} {tree : Expression}
    (h : Derives layer text tree) : nesting text ≤ maxNesting → Accepts layer text tree := by
  induction h with
  | constant hsign hne hdigits hrange hvalue =>
    have hdenotes := Value.ofDigits?_eq_some_iff.mpr ⟨hrange, hvalue⟩
    exact fun _ => accepts_constant hsign hne hdigits hdenotes
  | var hsign hname => exact fun _ => accepts_var hsign hname
  | @group negative sign inner tree hsign hinner ih =>
    intro hroom
    obtain ⟨hbal, hnest⟩ := Balanced.of_neutral hsign.neutral
    rw [hbal.nesting_append, hnest, hinner.balanced.group.2, Nat.zero_max] at hroom
    exact accepts_group hsign hinner.balanced hroom (ih (Nat.le_of_succ_le hroom))
  | factor _ ih =>
    intro hroom here tail htail
    unfold readProduct
    -- The first term is read as it stands, and the loop takes over from there.
    rw [ih hroom here tail htail]
  | @times front space back left right hleft hspace hright ihl ihr =>
    intro hroom here tail htail
    rw [(hleft.balanced.operator hspace (by decide) hright.balanced).2,
      Nat.max_le] at hroom
    rw [(ihl hroom.1).times hspace, ihr hroom.2 _ tail htail]
    show readFactors read (.mul left right) _ = _
    simp only [← Position.past_append, List.append_assoc, List.singleton_append]
  | summand _ ih =>
    intro hroom here tail htail
    unfold readSum
    rw [(ih hroom).product here htail]
  | @plus front space back left right hleft hspace hright ihl ihr =>
    intro hroom here tail htail
    rw [(hleft.balanced.operator hspace (by decide) hright.balanced).2,
      Nat.max_le] at hroom
    rw [(ihl hroom.1).plus hspace, (ihr hroom.2).product _ htail]
    show readSummands read (.add left right) _ = _
    simp only [← Position.past_append, List.append_assoc, List.singleton_append]
  | @minus front space back left right hleft hspace hright ihl ihr =>
    intro hroom here tail htail
    obtain ⟨hbal, hnest⟩ := Balanced.of_neutral hspace.neutral
    rw [hleft.balanced.nesting_append, hbal.nesting_append, hnest, Nat.zero_max,
      Nat.max_le] at hroom
    rw [(ihl hroom.1).minus hspace, (ihr hroom.2).product _ htail]
    show readSummands read (.add left right) _ = _
    simp only [← Position.past_append, List.append_assoc]
  | @clause text space tree hsum hspace ih =>
    intro hroom here
    rw [hsum.balanced.nesting_append, Nat.max_le] at hroom
    rw [read_eq]
    unfold readWholeSum
    rw [(ih hroom.1).sum here (EndsSum.of_spaced hspace)]
    simp only [Slice.skipSpacing_spaced hspace]
    rfl

/-! ### Refusal -/

/-- What it means for the reader to refuse a text on a layer. -/
def Rejects : Layer → List Char → Prop
  | .term, text => ∀ (here : Position) (tail : List Char), EndsTerm tail →
      ∃ failure, readTerm read { start := here, chars := text ++ tail } = .error failure
  | .product, text => ∀ (here : Position) (tail : List Char), EndsTerm tail →
      ∃ failure, readProduct read { start := here, chars := text ++ tail } = .error failure
  | .sum, text => ∀ (here : Position) (tail : List Char), EndsProduct tail →
      ∃ failure, readSum read { start := here, chars := text ++ tail } = .error failure
  | .clause, text => ∀ here : Position,
      ∃ failure, read { start := here, chars := text } = .error failure

theorem rejects_group {negative : Bool} {sign inner : List Char}
    (hsign : SignText negative sign) (hbal : Balanced inner) (hdeep : maxNesting ≤ nesting inner) :
    Rejects .term (sign ++ '(' :: (inner ++ [')'])) := by
  intro here tail _
  obtain ⟨failure, hf⟩ := Slice.group_too_deep (here.past sign) tail hbal hdeep
  refine ⟨failure, ?_⟩
  rw [readTerm_group hsign]
  unfold readGroup
  rw [hf]

theorem nesting_sign_digits {negative : Bool} {sign digits : List Char}
    (hsign : SignText negative sign) (hdigits : ∀ c ∈ digits, c.isDigit = true) :
    nesting (sign ++ digits) = 0 := by
  refine (Balanced.of_neutral fun c hc => ?_).2
  rcases List.mem_append.mp hc with hc | hc
  · exact hsign.neutral c hc
  · exact neutral_of_isDigit (hdigits c hc)

theorem nesting_sign_name {negative : Bool} {sign : List Char} {name : Char}
    (hsign : SignText negative sign) (hname : name.isAlpha = true) :
    nesting (sign ++ [name]) = 0 := by
  refine (Balanced.of_plain fun c hc => ?_).2
  rcases List.mem_append.mp hc with hc | hc
  · exact ⟨(hsign.neutral c hc).1, (hsign.neutral c hc).2.1⟩
  · rw [List.mem_singleton.mp hc]
    exact not_parenthesis_of_isAlpha hname

/-- Of two sides that go too deep, one is refused. It is the front, unless that is accepted. -/
theorem Derives.rejects_side {layer behind : Layer} {front back : List Char} {left : Expression}
    (hleft : Derives layer front left) (hfront : maxNesting < nesting front → Rejects layer front)
    (hback : maxNesting < nesting back → Rejects behind back)
    (hdeep : maxNesting < max (nesting front) (nesting back)) :
    Rejects layer front ∨ Accepts layer front left ∧ Rejects behind back := by
  by_cases hroom : nesting front ≤ maxNesting
  · have hbehind := (lt_max_iff.mp hdeep).resolve_left (Nat.not_lt_of_le hroom)
    exact .inr ⟨hleft.accepts hroom, hback hbehind⟩
  · exact .inl (hfront (Nat.lt_of_not_le hroom))

section Operators

variable {front space back : List Char} {left : Expression} (hspace : Spaced space)

include hspace

theorem rejects_times
    (h : Rejects .product front ∨ Accepts .product front left ∧ Rejects .term back) :
    Rejects .product (front ++ (space ++ '*' :: back)) := by
  intro here tail htail
  rcases h with hfront | ⟨hleft, hback⟩
  · rw [List.append_assoc, List.append_assoc, List.cons_append]
    exact hfront here _ (EndsTerm.of_solid hspace (by decide))
  · obtain ⟨failure, hf⟩ := hback ((here.past front).past (space ++ ['*'])) tail htail
    refine ⟨failure, ?_⟩
    rw [hleft.times hspace, hf]
    rfl

theorem rejects_plus
    (h : Rejects .sum front ∨ Accepts .sum front left ∧ Rejects .product back) :
    Rejects .sum (front ++ (space ++ '+' :: back)) := by
  intro here tail htail
  rcases h with hfront | ⟨hleft, hback⟩
  · rw [List.append_assoc, List.append_assoc, List.cons_append]
    exact hfront here _ (EndsProduct.of_solid hspace (by decide))
  · obtain ⟨failure, hf⟩ := hback ((here.past front).past (space ++ ['+'])) tail htail.digit
    refine ⟨failure, ?_⟩
    rw [hleft.plus hspace, hf]
    rfl

theorem rejects_minus
    (h : Rejects .sum front ∨ Accepts .sum front left ∧ Rejects .product ('-' :: back)) :
    Rejects .sum (front ++ (space ++ '-' :: back)) := by
  intro here tail htail
  rcases h with hfront | ⟨hleft, hback⟩
  · rw [List.append_assoc, List.append_assoc, List.cons_append]
    exact hfront here _ (EndsProduct.of_solid hspace (by decide))
  · obtain ⟨failure, hf⟩ := hback ((here.past front).past space) tail htail.digit
    refine ⟨failure, ?_⟩
    rw [hleft.minus hspace, hf]
    rfl

end Operators

/-- **The limit on nesting**: a derived text beyond it is refused, wherever it goes too deep. -/
theorem Derives.rejects {layer : Layer} {text : List Char} {tree : Expression}
    (h : Derives layer text tree) : maxNesting < nesting text → Rejects layer text := by
  induction h with
  | @constant negative sign digits value hsign _ hdigits =>
    intro hdeep
    have hflat := nesting_sign_digits hsign hdigits
    omega
  | @var negative sign name hsign hname =>
    intro hdeep
    have hflat := nesting_sign_name hsign hname
    omega
  | @group negative sign inner tree hsign hinner _ =>
    intro hdeep
    obtain ⟨hbal, hnest⟩ := Balanced.of_neutral hsign.neutral
    rw [hbal.nesting_append, hnest, hinner.balanced.group.2, Nat.zero_max] at hdeep
    exact rejects_group hsign hinner.balanced (Nat.le_of_lt_succ hdeep)
  | factor _ ih =>
    intro hdeep here tail htail
    obtain ⟨failure, hf⟩ := ih hdeep here tail htail
    refine ⟨failure, ?_⟩
    unfold readProduct
    rw [hf]
  | times hleft hspace hright ihl ihr =>
    intro hdeep
    rw [(hleft.balanced.operator hspace (by decide) hright.balanced).2] at hdeep
    exact rejects_times hspace (hleft.rejects_side ihl ihr hdeep)
  | summand _ ih =>
    intro hdeep here tail htail
    obtain ⟨failure, hf⟩ := ih hdeep here tail htail.digit
    refine ⟨failure, ?_⟩
    unfold readSum
    rw [hf]
  | plus hleft hspace hright ihl ihr =>
    intro hdeep
    rw [(hleft.balanced.operator hspace (by decide) hright.balanced).2] at hdeep
    exact rejects_plus hspace (hleft.rejects_side ihl ihr hdeep)
  | minus hleft hspace _ ihl ihr =>
    intro hdeep
    obtain ⟨hbal, hnest⟩ := Balanced.of_neutral hspace.neutral
    rw [hleft.balanced.nesting_append, hbal.nesting_append, hnest, Nat.zero_max] at hdeep
    exact rejects_minus hspace (hleft.rejects_side ihl ihr hdeep)
  | @clause text space tree hsum hspace ih =>
    intro hdeep here
    obtain ⟨_, hnest⟩ := Balanced.of_neutral hspace.neutral
    rw [hsum.balanced.nesting_append, hnest, Nat.max_zero] at hdeep
    obtain ⟨failure, hf⟩ := ih hdeep here space (EndsSum.of_spaced hspace).toEndsProduct
    refine ⟨failure, ?_⟩
    rw [read_eq]
    unfold readWholeSum
    rw [hf]

/-- A derived clause is read exactly if it does not nest too deep. -/
theorem Derives.read_eq_ok_iff {text : List Char} {tree other : Expression}
    (h : Derives .clause text tree) (here : Position) :
    read { start := here, chars := text } = .ok other
      ↔ tree = other ∧ nesting text ≤ maxNesting := by
  by_cases hroom : nesting text ≤ maxNesting
  · rw [h.accepts hroom here]
    exact ⟨fun heq => ⟨Except.ok.inj heq, hroom⟩, fun heq => congrArg Except.ok heq.1⟩
  · obtain ⟨failure, hf⟩ := h.rejects (Nat.lt_of_not_le hroom) here
    rw [hf]
    exact ⟨nofun, fun heq => absurd heq.2 hroom⟩

end Expression

end Diophantine
