import Diophantine.Proofs.Constraint.Groups
import Diophantine.Proofs.Problem.Course

/-!
# Reading does not depend on the place

A slice knows where it stands, and so does what is left of it. This shows in the span of a failure
and nowhere else: of two slices with the same characters, the same is read and the same is left, and
if reading fails, it fails for the same cause. So a clause can be read as a text of its own.

- `Slice.Alike`: slices that differ in their place only;
- `OutcomesAlike`: what comes of reading them;
- `readOn`, `loopRound`, `endWith`: the shapes that readers are made of;
- `Expression.alike_read`, `Constraint.alike_read`: the readers, layer by layer;
- `Part.alike_check`: clauses.
-/

namespace Diophantine

/-! ### Slices -/

namespace Slice

/-- The slices hold the same characters, wherever they stand. -/
def Alike (slice other : Slice) : Prop :=
  slice.chars = other.chars

end Slice

/-- The same is found, and the same is left. -/
inductive FoundAlike {α : Type} : α × Slice → α × Slice → Prop
  | intro {value : α} {rest rest' : Slice} (h : rest.Alike rest') :
      FoundAlike (value, rest) (value, rest')

namespace Slice.Alike

variable {slice other : Slice}

theorem dropWhile (h : slice.Alike other) (accept : Char → Bool) :
    (slice.dropWhile accept).Alike (other.dropWhile accept) :=
  congrArg (List.dropWhile accept) h

theorem skipSpacing (h : slice.Alike other) : slice.skipSpacing.Alike other.skipSpacing :=
  h.dropWhile isSpacing

/-- They begin with the same character. -/
theorem next? (h : slice.Alike other) : Option.Rel FoundAlike slice.next? other.next? := by
  obtain ⟨start, chars⟩ := slice
  obtain ⟨start', chars'⟩ := other
  obtain rfl : chars = chars' := h
  cases chars with
  | nil => exact .none
  | cons c chars => exact .some ⟨rfl⟩

/-- They begin with the same words. -/
theorem afterKeyword? (h : slice.Alike other) (word : String) :
    Option.Rel Slice.Alike (slice.afterKeyword? word) (other.afterKeyword? word) := by
  cases hfound : slice.afterKeyword? word with
  | some rest =>
    obtain ⟨hchars, -, hends⟩ := Slice.afterKeyword?_eq_some_iff.mp hfound
    have hother : other.afterKeyword? word
        = some { start := other.start.past word.toList, chars := rest.chars } :=
      Slice.afterKeyword?_eq_some_iff.mpr ⟨h.symm.trans hchars, rfl, hends⟩
    rw [hother]
    exact .some rfl
  | none =>
    have hnone : other.afterKeyword? word = none := by
      refine Option.eq_none_iff_forall_ne_some.mpr fun rest hrest => ?_
      obtain ⟨hchars, -, hends⟩ := Slice.afterKeyword?_eq_some_iff.mp hrest
      have hslice : slice.afterKeyword? word
          = some { start := slice.start.past word.toList, chars := rest.chars } :=
        Slice.afterKeyword?_eq_some_iff.mpr ⟨h.trans hchars, rfl, hends⟩
      rw [hfound] at hslice
      cases hslice
    rw [hnone]
    exact .none

end Slice.Alike

/-! ### Outcomes -/

/-- The same comes of two readers, up to a relation between what they give, or both fail for the
same cause. -/
inductive OutcomesAlike {α : Type} (R : α → α → Prop) : Except Failure α → Except Failure α → Prop
  | ok {value value' : α} (h : R value value') : OutcomesAlike R (.ok value) (.ok value')
  | error {failure failure' : Failure} (h : failure.cause = failure'.cause) :
      OutcomesAlike R (.error failure) (.error failure')

theorem OutcomesAlike.map {α β : Type} {R : α → α → Prop} {S : β → β → Prop}
    {result result' : Except Failure α} (h : OutcomesAlike R result result') {f g : α → β}
    (hf : ∀ {value value'}, R value value' → S (f value) (g value')) :
    OutcomesAlike S (result.map f) (result'.map g) := by
  cases h with
  | ok h => exact .ok (hf h)
  | error h => exact .error h

/-! ### Parentheses -/

theorem alike_closeGroup {opening opening' : Slice} (inner : Nat) (here here' : Position)
    (chars : List Char) :
    OutcomesAlike FoundAlike (closeGroup opening inner here chars)
      (closeGroup opening' inner here' chars) := by
  induction chars generalizing inner here here' with
  | nil => exact .error rfl
  | cons c chars ih =>
    have hcons : ∀ {found found' : List Char × Slice}, FoundAlike found found' →
        FoundAlike (c :: found.1, found.2) (c :: found'.1, found'.2) := by
      rintro _ _ ⟨h⟩
      exact ⟨h⟩
    unfold closeGroup
    split
    · split
      · exact (ih _ _ _).map hcons
      · exact .error rfl
    · split
      · cases inner with
        | zero => exact .ok ⟨rfl⟩
        | succ inner => exact (ih _ _ _).map hcons
      · exact (ih _ _ _).map hcons

theorem alike_findOutside (needle : Char) (depth : Nat) (here here' : Position)
    (chars : List Char) :
    OutcomesAlike (Option.Rel FoundAlike) (findOutside needle depth here chars)
      (findOutside needle depth here' chars) := by
  induction chars generalizing depth here here' with
  | nil => exact .ok .none
  | cons c chars ih =>
    have hcons : ∀ {found found' : Option (List Char × Slice)}, Option.Rel FoundAlike found found' →
        Option.Rel FoundAlike (found.map fun found => (c :: found.1, found.2))
          (found'.map fun found => (c :: found.1, found.2)) := by
      rintro _ _ (⟨⟨h⟩⟩ | _)
      · exact .some ⟨h⟩
      · exact .none
    unfold findOutside
    split
    · exact (ih _ _ _).map hcons
    · split
      · cases depth with
        | zero => exact .error rfl
        | succ depth => exact (ih _ _ _).map hcons
      · split
        · exact .ok (.some ⟨rfl⟩)
        · exact (ih _ _ _).map hcons

namespace Slice.Alike

variable {slice other : Slice}

/-- Two slices that are both alike others. -/
def Both (found found' : Slice × Slice) : Prop :=
  found.1.Alike found'.1 ∧ found.2.Alike found'.2

theorem group (h : slice.Alike other) : OutcomesAlike Both slice.group other.group := by
  unfold Slice.group
  have hnext := h.next?
  generalize slice.next? = found, other.next? = found' at hnext ⊢
  cases hnext with
  | none => exact .error rfl
  | some hfound =>
    obtain ⟨hinside⟩ := hfound
    dsimp only
    rw [show Slice.chars _ = Slice.chars _ from hinside]
    refine (alike_closeGroup 0 _ _ _).map ?_
    rintro _ _ ⟨h⟩
    exact ⟨rfl, h⟩

theorem splitOutside (h : slice.Alike other) (needle : Char) :
    OutcomesAlike (Option.Rel Both) (slice.splitOutside needle) (other.splitOutside needle) := by
  unfold Slice.splitOutside
  rw [show slice.chars = other.chars from h]
  refine (alike_findOutside needle 0 _ _ _).map ?_
  rintro _ _ (⟨⟨h⟩⟩ | _)
  · exact .some ⟨rfl, h⟩
  · exact .none

theorem compares (h : slice.Alike other) : slice.compares = other.compares :=
  congrArg (List.any · fun c => c == '<' || c == '>') h

theorem allBlank (h : slice.Alike other) : slice.allBlank = other.allBlank :=
  congrArg (List.all · isBlank) h

end Slice.Alike

/-! ### Signs

What a sign decides, said with a condition on the character in place of a pattern. -/

theorem takeSign_eq (slice : Slice) :
    takeSign slice = match slice.skipSpacing.next? with
      | some (c, rest) =>
        if c = '-' then (true, rest.skipSpacing) else (false, slice.skipSpacing)
      | none => (false, slice.skipSpacing) := by
  unfold takeSign
  split
  · rename_i hminus
    rw [hminus]
    rfl
  · rename_i hnot
    split
    · rename_i c rest hnext
      rw [if_neg]
      rintro rfl
      exact hnot rest hnext
    · rfl

/-- The next factor begins at a digit or a parenthesis right here. -/
def factorHere? (slice : Slice) : Option Slice :=
  if slice.chars.head?.any fun c => c.isDigit || c == '(' then some slice else none

theorem nextFactor?_eq (slice : Slice) :
    nextFactor? slice = match slice.skipSpacing.next? with
      | some (c, rest) => if c = '*' then some rest else factorHere? slice
      | none => factorHere? slice := by
  have hhere : (match slice.next? with
      | some (c, _) => if c.isDigit || c == '(' then some slice else none
      | none => none) = factorHere? slice := by
    unfold factorHere? Slice.next?
    cases slice.chars <;> rfl
  unfold nextFactor?
  split
  · rename_i hstar
    rw [hstar]
    rfl
  · rename_i hnot
    refine hhere.trans ?_
    split
    · rename_i c rest hnext
      rw [if_neg]
      rintro rfl
      exact hnot rest hnext
    · rfl

theorem nextSummand?_eq (slice : Slice) :
    nextSummand? slice = match slice.skipSpacing.next? with
      | some (c, rest) =>
        if c = '+' then some rest else if c = '-' then some slice.skipSpacing else none
      | none => none := by
  unfold nextSummand?
  split
  · rename_i hplus
    rw [hplus]
    rfl
  · rename_i hminus
    rw [hminus]
    rfl
  · rename_i hplus hminus
    split
    · rename_i c rest hnext
      rw [if_neg, if_neg]
      · rintro rfl
        exact hminus rest hnext
      · rintro rfl
        exact hplus rest hnext
    · rfl

/-! ### Shapes of readers -/

section Shapes

variable {α β : Type}

/-- Goes on from what was read and what is left, unless reading has failed. -/
def readOn (result : Except Failure (α × Slice)) (more : α → Slice → Except Failure β) :
    Except Failure β :=
  match result with
  | .error failure => .error failure
  | .ok (value, rest) => more value rest

/-- One round of a loop that goes on as long as there is a next place to read from. -/
def loopRound (next? : Slice → Option Slice) (read : Slice → Except Failure (β × Slice))
    (join : α → β → α) (loop : α → Slice → Except Failure (α × Slice)) (left : α) (slice : Slice) :
    Except Failure (α × Slice) :=
  match next? slice with
  | none => .ok (left, slice)
  | some next => readOn (read next) fun right rest => loop (join left right) rest

theorem alike_readOn {R : β → β → Prop} {result result' : Except Failure (α × Slice)}
    {more more' : α → Slice → Except Failure β} (h : OutcomesAlike FoundAlike result result')
    (hmore : ∀ value {rest rest' : Slice}, result = .ok (value, rest) → rest.Alike rest' →
      OutcomesAlike R (more value rest) (more' value rest')) :
    OutcomesAlike R (readOn result more) (readOn result' more') := by
  cases h with
  | error hcause => exact .error hcause
  | ok hfound =>
    obtain ⟨hrest⟩ := hfound
    exact hmore _ rfl hrest

/-- A loop whose rounds shorten the slice gives the same wherever the slice stands, if what its
rounds read does. -/
theorem alike_loop {next? : Slice → Option Slice} {read read' : Slice → Except Failure (β × Slice)}
    {join : α → β → α} {loop loop' : α → Slice → Except Failure (α × Slice)}
    (hloop : ∀ left slice, loop left slice = loopRound next? read join loop left slice)
    (hloop' : ∀ left slice, loop' left slice = loopRound next? read' join loop' left slice)
    (hshorter : ∀ {slice next right rest}, next? slice = some next → read next = .ok (right, rest) →
      rest.chars.length < slice.chars.length)
    (hnext : ∀ {slice other}, slice.Alike other →
      Option.Rel Slice.Alike (next? slice) (next? other))
    (hread : ∀ {slice other}, slice.Alike other →
      OutcomesAlike FoundAlike (read slice) (read' other))
    (left : α) {slice other : Slice} (h : slice.Alike other) :
    OutcomesAlike FoundAlike (loop left slice) (loop' left other) := by
  -- Each round leaves less than it was given.
  induction hlength : slice.chars.length using Nat.strongRecOn generalizing left slice other with
  | _ length ih =>
    have hplace := hnext h
    rw [hloop, hloop']
    unfold loopRound
    cases hfound : next? slice with
    | none =>
      rw [hfound] at hplace
      generalize next? other = next' at hplace ⊢
      cases hplace
      exact .ok ⟨h⟩
    | some next =>
      rw [hfound] at hplace
      generalize next? other = next' at hplace ⊢
      cases hplace with
      | some halike =>
        exact alike_readOn (hread halike) fun right {_ _} hright hrest =>
          ih _ (hlength ▸ hshorter hfound hright) _ hrest rfl

/-- Gives what was read, if only spacing is left. -/
def endWith (leftOver : Char → Cause) (value : α) (rest : Slice) : Except Failure α :=
  match rest.skipSpacing.next? with
  | none => .ok value
  | some (c, _) =>
    if c = ')' then .error (rest.skipSpacing.fail .unmatched)
    else .error (rest.skipSpacing.fail (leftOver c))

theorem alike_endWith (leftOver : Char → Cause) (value : α) {rest rest' : Slice}
    (h : rest.Alike rest') :
    OutcomesAlike Eq (endWith leftOver value rest) (endWith leftOver value rest') := by
  have hnext := h.skipSpacing.next?
  unfold endWith
  generalize rest.skipSpacing.next? = found, rest'.skipSpacing.next? = found' at hnext ⊢
  cases hnext with
  | none => exact .ok rfl
  | some hfound =>
    obtain ⟨-⟩ := hfound
    dsimp only
    split
    · exact .error rfl
    · exact .error rfl

end Shapes

/-! ### Expressions -/

section Signs

variable {slice other : Slice}

theorem alike_takeSign (h : slice.Alike other) : FoundAlike (takeSign slice) (takeSign other) := by
  have hnext := h.skipSpacing.next?
  rw [takeSign_eq, takeSign_eq]
  generalize slice.skipSpacing.next? = found, other.skipSpacing.next? = found' at hnext ⊢
  cases hnext with
  | none => exact ⟨h.skipSpacing⟩
  | some hfound =>
    obtain ⟨hrest⟩ := hfound
    dsimp only
    split
    · exact ⟨hrest.skipSpacing⟩
    · exact ⟨h.skipSpacing⟩

theorem alike_nextFactor? (h : slice.Alike other) :
    Option.Rel Slice.Alike (nextFactor? slice) (nextFactor? other) := by
  have hhere : Option.Rel Slice.Alike (factorHere? slice) (factorHere? other) := by
    unfold factorHere?
    rw [show slice.chars = other.chars from h]
    split
    · exact .some h
    · exact .none
  have hnext := h.skipSpacing.next?
  rw [nextFactor?_eq, nextFactor?_eq]
  generalize slice.skipSpacing.next? = found, other.skipSpacing.next? = found' at hnext ⊢
  cases hnext with
  | none => exact hhere
  | some hfound =>
    obtain ⟨hrest⟩ := hfound
    dsimp only
    split
    · exact .some hrest
    · exact hhere

theorem alike_nextSummand? (h : slice.Alike other) :
    Option.Rel Slice.Alike (nextSummand? slice) (nextSummand? other) := by
  have hnext := h.skipSpacing.next?
  rw [nextSummand?_eq, nextSummand?_eq]
  generalize slice.skipSpacing.next? = found, other.skipSpacing.next? = found' at hnext ⊢
  cases hnext with
  | none => exact .none
  | some hfound =>
    obtain ⟨hrest⟩ := hfound
    dsimp only
    split
    · exact .some hrest
    · split
      · exact .some h.skipSpacing
      · exact .none

end Signs

theorem alike_readConstant (negative : Bool) {slice other : Slice} (h : slice.Alike other) :
    OutcomesAlike FoundAlike (readConstant negative slice) (readConstant negative other) := by
  have hdigits : (slice.takeWhile Char.isDigit).chars = (other.takeWhile Char.isDigit).chars :=
    congrArg (List.takeWhile Char.isDigit) h
  unfold readConstant
  rw [hdigits]
  split
  · exact .ok ⟨h.dropWhile Char.isDigit⟩
  · exact .error rfl

/-- The same comes of two readers for groups, wherever the groups stand. -/
def GroupsAlike {α : Type} (f g : Slice → Except Failure α) : Prop :=
  ∀ interior interior' : Slice, interior.Alike interior' →
    OutcomesAlike Eq (f interior) (g interior')

section Equations

variable (f : GroupReader) (left : Expression) (slice : Slice)

theorem readFactors_eq_loopRound : readFactors f left slice
    = loopRound nextFactor? (readTerm f) .mul (readFactors f) left slice := by
  rw [readFactors_eq, loopRound]
  cases nextFactor? slice with
  | none => rfl
  | some next =>
    dsimp only
    cases readTerm f next <;> rfl

theorem readProduct_eq_readOn :
    readProduct f slice = readOn (readTerm f slice) (readFactors f) := by
  unfold readProduct
  cases readTerm f slice <;> rfl

theorem readSummands_eq_loopRound : readSummands f left slice
    = loopRound nextSummand? (readProduct f) .add (readSummands f) left slice := by
  rw [readSummands_eq, loopRound]
  cases nextSummand? slice with
  | none => rfl
  | some next =>
    dsimp only
    cases readProduct f next <;> rfl

theorem readSum_eq_readOn :
    readSum f slice = readOn (readProduct f slice) (readSummands f) := by
  unfold readSum
  cases readProduct f slice <;> rfl

theorem readWholeSum_eq_readOn :
    readWholeSum f slice = readOn (readSum f slice) (endWith .afterExpression) := by
  unfold readWholeSum
  cases readSum f slice <;> rfl

end Equations

section Expressions

variable {f g : GroupReader} (hgroup : GroupsAlike f g) {slice other : Slice}

include hgroup

theorem alike_readGroup (negative : Bool) (h : slice.Alike other) :
    OutcomesAlike FoundAlike (readGroup f negative slice) (readGroup g negative other) := by
  have hfound := h.group
  unfold readGroup
  generalize slice.group = found, other.group = found' at hfound ⊢
  cases hfound with
  | error hcause => exact .error hcause
  | @ok found found' hfound =>
    have hinside := hgroup found.1 found'.1 hfound.1
    dsimp only
    generalize f found.1 = inside, g found'.1 = inside' at hinside ⊢
    cases hinside with
    | error hcause => exact .error hcause
    | ok heq =>
      subst heq
      exact .ok ⟨hfound.2⟩

theorem alike_readTerm (h : slice.Alike other) :
    OutcomesAlike FoundAlike (readTerm f slice) (readTerm g other) := by
  have hsign := alike_takeSign h
  unfold readTerm
  generalize takeSign slice = found, takeSign other = found' at hsign ⊢
  obtain @⟨negative, body, body', hbody⟩ := hsign
  have hnext := hbody.next?
  dsimp only
  generalize body.next? = next, body'.next? = next' at hnext ⊢
  cases hnext with
  | none => exact .error rfl
  | some hfound =>
    obtain ⟨hrest⟩ := hfound
    dsimp only
    split
    · exact alike_readConstant negative hbody
    · split
      · exact .ok ⟨hrest⟩
      · split
        · exact alike_readGroup hgroup negative hbody
        · exact .error rfl

theorem alike_readFactors (left : Expression) (h : slice.Alike other) :
    OutcomesAlike FoundAlike (readFactors f left slice) (readFactors g left other) :=
  alike_loop (readFactors_eq_loopRound f) (readFactors_eq_loopRound g)
    (fun hnext hterm => Nat.lt_of_lt_of_le (length_rest_of_readTerm hterm)
      (length_nextFactor?_le hnext))
    alike_nextFactor? (alike_readTerm hgroup) left h

theorem alike_readProduct (h : slice.Alike other) :
    OutcomesAlike FoundAlike (readProduct f slice) (readProduct g other) := by
  rw [readProduct_eq_readOn, readProduct_eq_readOn]
  exact alike_readOn (alike_readTerm hgroup h) fun left {_ _} _ => alike_readFactors hgroup left

theorem alike_readSummands (left : Expression) (h : slice.Alike other) :
    OutcomesAlike FoundAlike (readSummands f left slice) (readSummands g left other) :=
  alike_loop (readSummands_eq_loopRound f) (readSummands_eq_loopRound g)
    (fun hnext hproduct => Nat.lt_of_lt_of_le (length_rest_of_readProduct hproduct)
      (length_nextSummand?_le hnext))
    alike_nextSummand? (alike_readProduct hgroup) left h

theorem alike_readSum (h : slice.Alike other) :
    OutcomesAlike FoundAlike (readSum f slice) (readSum g other) := by
  rw [readSum_eq_readOn, readSum_eq_readOn]
  exact alike_readOn (alike_readProduct hgroup h) fun left {_ _} _ => alike_readSummands hgroup left

theorem alike_readWholeSum (h : slice.Alike other) :
    OutcomesAlike Eq (readWholeSum f slice) (readWholeSum g other) := by
  rw [readWholeSum_eq_readOn, readWholeSum_eq_readOn]
  exact alike_readOn (alike_readSum hgroup h) fun tree {_ _} _ =>
    alike_endWith .afterExpression tree

end Expressions

/-- Reading an expression gives the same wherever it stands. -/
theorem Expression.alike_read {slice other : Slice} (h : slice.Alike other) :
    OutcomesAlike Eq (read slice) (read other) := by
  -- Groups are read from shorter slices only.
  induction hlength : slice.chars.length using Nat.strongRecOn generalizing slice other with
  | _ length ih =>
    rw [read, read]
    refine alike_readWholeSum (fun interior interior' hinterior => ?_) h
    rw [show other.chars = slice.chars from h.symm, show interior'.chars = interior.chars from
      hinterior.symm]
    split
    · rename_i hshorter
      exact ih _ (hlength ▸ hshorter) hinterior rfl
    · exact .error rfl

/-! ### Constraints -/

/-- The comparison that is decided by what follows its left side. -/
def compareWith (f : GroupReader) (left : Expression) (rest : Slice) :
    Except Failure (Constraint × Slice) :=
  match rest.skipSpacing.next? with
  | none => .error (rest.skipSpacing.fail (.noComparison none))
  | some (c, operand) =>
    if c = '<' then (readSum f operand).map fun right => (.less left right.1, right.2)
    else if c = '>' then (readSum f operand).map fun right => (.greater left right.1, right.2)
    else .error (rest.skipSpacing.fail (.noComparison (some c)))

/-- The atom that begins with a group is decided by what is inside. -/
def readAtomOfGroup (f : GroupReaders) (slice : Slice) : Except Failure (Constraint × Slice) :=
  match slice.group with
  | .error failure => .error failure
  | .ok (interior, rest) =>
    if interior.compares then (f.constraint interior).map fun constraint => (constraint, rest)
    else readComparison f.expression slice

section Equations

variable (f : GroupReaders) (left : Constraint) (slice : Slice)

theorem readComparison_eq_readOn (f : GroupReader) :
    readComparison f slice = readOn (readSum f slice) (compareWith f) := by
  unfold readComparison
  cases readSum f slice <;> rfl

theorem readAtom_eq :
    readAtom f slice = match slice.skipSpacing.next? with
      | some (c, _) =>
        if c = '(' then readAtomOfGroup f slice.skipSpacing
        else readComparison f.expression slice.skipSpacing
      | none => readComparison f.expression slice.skipSpacing := by
  unfold readAtom
  split
  · rename_i hopening
    rw [hopening]
    rfl
  · rename_i hnot
    split
    · rename_i c rest hnext
      rw [if_neg]
      rintro rfl
      exact hnot rest hnext
    · rfl

theorem readConjuncts_eq_loopRound : readConjuncts f left slice
    = loopRound (fun slice => slice.skipSpacing.afterKeyword? "and") (readAtom f) .and
        (readConjuncts f) left slice := by
  rw [readConjuncts_eq, loopRound]
  cases slice.skipSpacing.afterKeyword? "and" with
  | none => rfl
  | some next =>
    dsimp only
    cases readAtom f next <;> rfl

theorem readConjunction_eq_readOn :
    readConjunction f slice = readOn (readAtom f slice) (readConjuncts f) := by
  unfold readConjunction
  cases readAtom f slice <;> rfl

theorem readDisjuncts_eq_loopRound : readDisjuncts f left slice
    = loopRound (fun slice => slice.skipSpacing.afterKeyword? "or") (readConjunction f) .or
        (readDisjuncts f) left slice := by
  rw [readDisjuncts_eq, loopRound]
  cases slice.skipSpacing.afterKeyword? "or" with
  | none => rfl
  | some next =>
    dsimp only
    cases readConjunction f next <;> rfl

theorem readDisjunction_eq_readOn :
    readDisjunction f slice = readOn (readConjunction f slice) (readDisjuncts f) := by
  unfold readDisjunction
  cases readConjunction f slice <;> rfl

theorem readWholeDisjunction_eq :
    readWholeDisjunction f slice =
      if slice.compares then readOn (readDisjunction f slice) (endWith .afterConstraint)
      else .error (slice.skipSpacing.trimEnd.failWhole .noComparator) := by
  unfold readWholeDisjunction
  cases readDisjunction f slice <;> rfl

end Equations

theorem alike_readComparison {f g : GroupReader} (hgroup : GroupsAlike f g) {slice other : Slice}
    (h : slice.Alike other) :
    OutcomesAlike FoundAlike (readComparison f slice) (readComparison g other) := by
  rw [readComparison_eq_readOn, readComparison_eq_readOn]
  refine alike_readOn (alike_readSum hgroup h) fun left {rest rest'} _ hrest => ?_
  have hright : ∀ (compare : Expression → Constraint) {found found' : Expression × Slice},
      FoundAlike found found' →
      FoundAlike (compare found.1, found.2) (compare found'.1, found'.2) := by
    rintro compare _ _ ⟨h⟩
    exact ⟨h⟩
  have hnext := hrest.skipSpacing.next?
  unfold compareWith
  generalize rest.skipSpacing.next? = found, rest'.skipSpacing.next? = found' at hnext ⊢
  cases hnext with
  | none => exact .error rfl
  | some hfound =>
    obtain ⟨hoperand⟩ := hfound
    dsimp only
    split
    · exact (alike_readSum hgroup hoperand).map (hright (.less left))
    · split
      · exact (alike_readSum hgroup hoperand).map (hright (.greater left))
      · exact .error rfl

section Constraints

variable {f g : GroupReaders} (hexpression : GroupsAlike f.expression g.expression)
  (hconstraint : GroupsAlike f.constraint g.constraint) {slice other : Slice}

include hexpression hconstraint

theorem alike_readAtomOfGroup (h : slice.Alike other) :
    OutcomesAlike FoundAlike (readAtomOfGroup f slice) (readAtomOfGroup g other) := by
  have hcomparison := alike_readComparison hexpression h
  have hfound := h.group
  unfold readAtomOfGroup
  generalize slice.group = found, other.group = found' at hfound ⊢
  cases hfound with
  | error hcause => exact .error hcause
  | @ok found found' hfound =>
    dsimp only
    rw [hfound.1.compares]
    split
    · exact (hconstraint found.1 found'.1 hfound.1).map fun heq => heq ▸ ⟨hfound.2⟩
    · exact hcomparison

theorem alike_readAtom (h : slice.Alike other) :
    OutcomesAlike FoundAlike (readAtom f slice) (readAtom g other) := by
  have hcomparison := alike_readComparison hexpression h.skipSpacing
  have hinside := alike_readAtomOfGroup hexpression hconstraint h.skipSpacing
  have hnext := h.skipSpacing.next?
  rw [readAtom_eq, readAtom_eq]
  generalize slice.skipSpacing.next? = found, other.skipSpacing.next? = found' at hnext ⊢
  cases hnext with
  | none => exact hcomparison
  | some hfound =>
    obtain ⟨-⟩ := hfound
    dsimp only
    split
    · exact hinside
    · exact hcomparison

theorem alike_readConjuncts (left : Constraint) (h : slice.Alike other) :
    OutcomesAlike FoundAlike (readConjuncts f left slice) (readConjuncts g left other) :=
  alike_loop (readConjuncts_eq_loopRound f) (readConjuncts_eq_loopRound g)
    (fun hnext hatom => Nat.lt_of_lt_of_le (length_rest_of_readAtom hatom)
      (Nat.le_trans (Slice.length_of_afterKeyword? hnext)
        (Slice.length_chars_skipSpacing_le _)))
    (fun h => h.skipSpacing.afterKeyword? "and") (alike_readAtom hexpression hconstraint) left h

theorem alike_readConjunction (h : slice.Alike other) :
    OutcomesAlike FoundAlike (readConjunction f slice) (readConjunction g other) := by
  rw [readConjunction_eq_readOn, readConjunction_eq_readOn]
  exact alike_readOn (alike_readAtom hexpression hconstraint h) fun left {_ _} _ =>
    alike_readConjuncts hexpression hconstraint left

theorem alike_readDisjuncts (left : Constraint) (h : slice.Alike other) :
    OutcomesAlike FoundAlike (readDisjuncts f left slice) (readDisjuncts g left other) :=
  alike_loop (readDisjuncts_eq_loopRound f) (readDisjuncts_eq_loopRound g)
    (fun hnext hconjunction => Nat.lt_of_lt_of_le (length_rest_of_readConjunction hconjunction)
      (Nat.le_trans (Slice.length_of_afterKeyword? hnext)
        (Slice.length_chars_skipSpacing_le _)))
    (fun h => h.skipSpacing.afterKeyword? "or") (alike_readConjunction hexpression hconstraint)
    left h

theorem alike_readDisjunction (h : slice.Alike other) :
    OutcomesAlike FoundAlike (readDisjunction f slice) (readDisjunction g other) := by
  rw [readDisjunction_eq_readOn, readDisjunction_eq_readOn]
  exact alike_readOn (alike_readConjunction hexpression hconstraint h) fun left {_ _} _ =>
    alike_readDisjuncts hexpression hconstraint left

theorem alike_readWholeDisjunction (h : slice.Alike other) :
    OutcomesAlike Eq (readWholeDisjunction f slice) (readWholeDisjunction g other) := by
  rw [readWholeDisjunction_eq, readWholeDisjunction_eq, h.compares]
  split
  · exact alike_readOn (alike_readDisjunction hexpression hconstraint h) fun constraint {_ _} _ =>
      alike_endWith .afterConstraint constraint
  · exact .error rfl

end Constraints

/-- Reading a constraint gives the same wherever it stands. -/
theorem Constraint.alike_read {slice other : Slice} (h : slice.Alike other) :
    OutcomesAlike Eq (read slice) (read other) := by
  -- Groups are read from shorter slices only.
  induction hlength : slice.chars.length using Nat.strongRecOn generalizing slice other with
  | _ length ih =>
    rw [read, read]
    refine alike_readWholeDisjunction (fun _ _ => Expression.alike_read)
      (fun interior interior' hinterior => ?_) h
    dsimp only
    rw [show other.chars = slice.chars from h.symm, show interior'.chars = interior.chars from
      hinterior.symm]
    split
    · rename_i hshorter
      exact ih _ (hlength ▸ hshorter) hinterior rfl
    · exact .error rfl

/-! ### Clauses -/

theorem alike_readUnlessBlank {α : Type} {read : Slice → Except Failure α} {slice other : Slice}
    (hread : OutcomesAlike Eq (read slice) (read other)) (h : slice.Alike other) :
    OutcomesAlike Eq (readUnlessBlank read slice) (readUnlessBlank read other) := by
  unfold readUnlessBlank
  rw [h.allBlank]
  split
  · exact .error rfl
  · exact hread

/-- Reading an equation gives the same wherever it stands. -/
theorem Equation.alike_read {slice other : Slice} (h : slice.Alike other) :
    OutcomesAlike Eq (read slice) (read other) := by
  have hsplit := h.splitOutside '='
  unfold read
  generalize slice.splitOutside '=' = sides, other.splitOutside '=' = sides' at hsplit ⊢
  cases hsplit with
  | error hcause => exact .error hcause
  | ok hsides =>
    cases hsides with
    | none => exact .error rfl
    | @some sides sides' hsides =>
      have hfront := Expression.alike_read hsides.1
      have hback := Expression.alike_read hsides.2
      dsimp only
      generalize Expression.read sides.1 = left, Expression.read sides'.1 = left' at hfront ⊢
      cases hfront with
      | error hcause => exact .error hcause
      | ok hleft =>
        dsimp only
        generalize Expression.read sides.2 = right, Expression.read sides'.2 = right' at hback ⊢
        cases hback with
        | error hcause => exact .error hcause
        | ok hright => exact .ok (by rw [hleft, hright])

/-- A clause is accepted or refused, and for the same cause, wherever it stands. -/
theorem Part.alike_check (part : Part) {clause other : Slice} (h : clause.Alike other) :
    OutcomesAlike Eq (part.check clause) (part.check other) := by
  cases part with
  | equations => exact (alike_readUnlessBlank (Equation.alike_read h) h).map fun _ => rfl
  | constraints => exact (alike_readUnlessBlank (Constraint.alike_read h) h).map fun _ => rfl

end Diophantine
