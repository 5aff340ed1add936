import Mathlib.Data.List.TakeWhile
import Diophantine.Proofs.Expression.Grammar

/-!
# What the reader for groups is asked

The readers for terms, products and sums look at one level of parentheses only. What they take from
the beginning of a slice pairs up its parentheses, whatever the reader for groups makes of the
inside of a group, because each group is found as a whole before it is asked.

So the groups that it is asked about all begin somewhere in the slice that is read. They are shorter
than this slice and nest less deeply, and two readers that agree on them are interchangeable. In
particular, `Expression.read` satisfies the equation that it stands for: it reads groups as it reads
whole clauses.

- `Slice.Leaves`, `leaves_of_readTerm`, `leaves_of_readSum`: what is left of a slice, behind text
  that fits;
- `fits_of_readWholeSum`: a clause that is read fits as a whole;
- `Slice.GroupOf`: the insides of the groups of a text, with what bounds them;
- `AgreeInside`, `readTerm_congr`, `readWholeSum_congr`: readers that agree on the groups of a text;
- `AgreeBelow`, `Expression.read_eq`: the equation of `Expression.read`.
-/

namespace Diophantine

/-! ### Spacing and signs -/

theorem Fits.of_neutral {text : List Char} (h : ∀ c ∈ text, Neutral c) : Fits text :=
  .of_plain fun c hc => ⟨(h c hc).1, (h c hc).2.1⟩

theorem Spaced.fits {space : List Char} (h : Spaced space) : Fits space :=
  .of_neutral h.neutral

theorem SignText.fits {negative : Bool} {sign : List Char} (h : SignText negative sign) :
    Fits sign :=
  .of_neutral h.neutral

namespace Slice

/-- Skipping spacing takes nothing but spacing. -/
theorem exists_spaced_skipSpacing (slice : Slice) :
    ∃ space, Spaced space ∧ slice.chars = space ++ slice.skipSpacing.chars :=
  ⟨slice.chars.takeWhile isSpacing, fun _ hc => List.mem_takeWhile_imp hc,
    List.takeWhile_append_dropWhile.symm⟩

/-- A character that is found behind spacing stands behind spacing. -/
theorem exists_spaced_of_next? {slice rest : Slice} {c : Char}
    (h : slice.skipSpacing.next? = some (c, rest)) :
    ∃ space, Spaced space ∧ slice.chars = space ++ c :: rest.chars := by
  obtain ⟨space, hspace, hchars⟩ := slice.exists_spaced_skipSpacing
  rw [(next?_eq_some_iff.mp h).1] at hchars
  exact ⟨space, hspace, hchars⟩

/-- Where no character is found behind spacing, there is only spacing. -/
theorem spaced_of_next?_eq_none {slice : Slice} (h : slice.skipSpacing.next? = none) :
    Spaced slice.chars := by
  obtain ⟨space, hspace, hchars⟩ := slice.exists_spaced_skipSpacing
  have hnil : slice.skipSpacing.chars = [] := by
    unfold next? at h
    split at h
    · assumption
    · cases h
  rw [hchars, hnil, List.append_nil]
  exact hspace

end Slice

/-- What is taken as the sign of a term is one. -/
theorem signText_of_takeSign {slice body : Slice} {negative : Bool}
    (h : takeSign slice = (negative, body)) :
    ∃ sign, SignText negative sign ∧ slice.chars = sign ++ body.chars := by
  unfold takeSign at h
  split at h
  · rename_i rest hnext
    obtain ⟨before, hbefore, hchars⟩ := Slice.exists_spaced_of_next? hnext
    obtain ⟨behind, hbehind, hrest⟩ := rest.exists_spaced_skipSpacing
    cases h
    refine ⟨before ++ '-' :: behind, .minus hbefore hbehind, ?_⟩
    rw [hchars, hrest, List.append_assoc, List.cons_append]
  · obtain ⟨space, hspace, hchars⟩ := slice.exists_spaced_skipSpacing
    cases h
    exact ⟨space, .plain hspace, hchars⟩

/-- The next factor begins behind a star, or right here. -/
theorem cases_of_nextFactor? {slice next : Slice} (h : nextFactor? slice = some next) :
    slice.skipSpacing.next? = some ('*', next)
      ∨ next = slice ∧ ∃ c ∈ slice.chars.head?, c.isDigit = true ∨ c = '(' := by
  unfold nextFactor? at h
  split at h
  · rename_i rest hstar
    cases h
    exact .inl hstar
  · split at h
    · rename_i c rest hnext
      split at h
      · rename_i hfactor
        cases h
        have hhead : c ∈ slice.chars.head? :=
          congrArg List.head? (Slice.next?_eq_some_iff.mp hnext).1
        exact .inr ⟨rfl, c, hhead, by simpa using hfactor⟩
      · cases h
    · cases h

/-- The next summand begins behind a plus, or with a minus. -/
theorem sign_of_nextSummand? {slice next : Slice} (h : nextSummand? slice = some next) :
    ∃ space, Spaced space ∧ (slice.chars = space ++ '+' :: next.chars
      ∨ slice.chars = space ++ next.chars ∧ ∃ back, next.chars = '-' :: back) := by
  unfold nextSummand? at h
  split at h
  · rename_i rest hnext
    obtain ⟨space, hspace, hchars⟩ := Slice.exists_spaced_of_next? hnext
    cases h
    exact ⟨space, hspace, .inl hchars⟩
  · rename_i rest hnext
    obtain ⟨space, hspace, hchars⟩ := slice.exists_spaced_skipSpacing
    cases h
    exact ⟨space, hspace, .inr ⟨hchars, rest.chars, (Slice.next?_eq_some_iff.mp hnext).1⟩⟩
  · cases h

/-! ### What is left of a slice -/

/-- `rest` is what is left of a slice behind text that fits. -/
def Slice.Leaves (slice rest : Slice) : Prop :=
  ∃ taken, slice.chars = taken ++ rest.chars ∧ Fits taken

namespace Slice

variable {slice middle rest : Slice}

theorem Leaves.refl (slice : Slice) : slice.Leaves slice :=
  ⟨[], rfl, .of_plain nofun⟩

theorem Leaves.trans (hfront : slice.Leaves middle) (hback : middle.Leaves rest) :
    slice.Leaves rest := by
  obtain ⟨front, hslice, hfits⟩ := hfront
  obtain ⟨back, hmiddle, hfits'⟩ := hback
  exact ⟨front ++ back, by rw [hslice, hmiddle, List.append_assoc], hfits.append hfits'⟩

theorem Leaves.isSuffix (h : slice.Leaves rest) : rest.chars <:+ slice.chars := by
  obtain ⟨taken, hchars, -⟩ := h
  exact ⟨taken, hchars.symm⟩

theorem leaves_skipSpacing (slice : Slice) : slice.Leaves slice.skipSpacing := by
  obtain ⟨space, hspace, hchars⟩ := slice.exists_spaced_skipSpacing
  exact ⟨space, hchars, hspace.fits⟩

theorem leaves_of_next? {c : Char} (hplain : c ≠ '(' ∧ c ≠ ')')
    (h : slice.next? = some (c, rest)) : slice.Leaves rest :=
  ⟨[c], (next?_eq_some_iff.mp h).1, .of_plain (List.forall_mem_singleton.mpr hplain)⟩

/-- A group fits, since it is not found if it is too deep. -/
theorem leaves_of_group {inside interior : Slice} (hnext : slice.next? = some ('(', inside))
    (hfound : slice.group = .ok (interior, rest)) : slice.Leaves rest := by
  obtain ⟨hbalanced, hroom⟩ := balanced_of_group hfound
  refine ⟨'(' :: (interior.chars ++ [')']), ?_, .group hbalanced hroom⟩
  rw [chars_eq_of_open_group hnext hfound, List.cons_append, List.append_assoc]
  rfl

end Slice

theorem leaves_of_takeSign {slice body : Slice} {negative : Bool}
    (h : takeSign slice = (negative, body)) : slice.Leaves body := by
  obtain ⟨sign, hsign, hchars⟩ := signText_of_takeSign h
  exact ⟨sign, hchars, hsign.fits⟩

theorem leaves_of_nextFactor? {slice next : Slice} (h : nextFactor? slice = some next) :
    slice.Leaves next := by
  rcases cases_of_nextFactor? h with hstar | ⟨rfl, -⟩
  · exact slice.leaves_skipSpacing.trans (Slice.leaves_of_next? (by decide) hstar)
  · exact .refl next

theorem leaves_of_nextSummand? {slice next : Slice} (h : nextSummand? slice = some next) :
    slice.Leaves next := by
  obtain ⟨space, hspace, hplus | ⟨hminus, -⟩⟩ := sign_of_nextSummand? h
  · have hsign : Fits ['+'] := .of_plain (List.forall_mem_singleton.mpr (by decide))
    refine ⟨space ++ ['+'], ?_, hspace.fits.append hsign⟩
    rw [hplus, List.append_assoc]
    rfl
  · exact ⟨space, hminus, hspace.fits⟩

section Leaving

variable {inGroup : GroupReader} {slice rest : Slice} {tree : Expression}

theorem leaves_of_readConstant {negative : Bool}
    (h : readConstant negative slice = .ok (tree, rest)) : slice.Leaves rest := by
  unfold readConstant at h
  split at h
  · cases h
    refine ⟨slice.chars.takeWhile Char.isDigit, List.takeWhile_append_dropWhile.symm, ?_⟩
    exact .of_neutral fun c hc => neutral_of_isDigit (List.mem_takeWhile_imp hc)
  · cases h

theorem leaves_of_readGroup {negative : Bool} {inside : Slice}
    (hnext : slice.next? = some ('(', inside))
    (h : readGroup inGroup negative slice = .ok (tree, rest)) : slice.Leaves rest := by
  unfold readGroup at h
  split at h
  · cases h
  · rename_i interior after hfound
    split at h
    · cases h
    · cases h
      exact Slice.leaves_of_group hnext hfound

theorem leaves_of_readTerm (h : readTerm inGroup slice = .ok (tree, rest)) :
    slice.Leaves rest := by
  unfold readTerm at h
  split at h
  rename_i negative body hsign
  refine (leaves_of_takeSign hsign).trans ?_
  split at h
  · cases h
  · rename_i c after hnext
    split at h
    · exact leaves_of_readConstant h
    · split at h
      · rename_i hletter
        cases h
        exact Slice.leaves_of_next? (not_parenthesis_of_isAlpha hletter) hnext
      · split at h
        · rename_i hopen
          exact leaves_of_readGroup (hopen ▸ hnext) h
        · cases h

theorem leaves_of_readFactors {left : Expression}
    (h : readFactors inGroup left slice = .ok (tree, rest)) : slice.Leaves rest := by
  fun_induction readFactors inGroup left slice with
  | case1 =>
    cases h
    exact .refl _
  | case2 => cases h
  | case3 left slice next hnext right after hterm ih =>
    exact ((leaves_of_nextFactor? hnext).trans (leaves_of_readTerm hterm)).trans (ih h)

theorem leaves_of_readProduct (h : readProduct inGroup slice = .ok (tree, rest)) :
    slice.Leaves rest := by
  unfold readProduct at h
  split at h
  · cases h
  · rename_i hterm
    exact (leaves_of_readTerm hterm).trans (leaves_of_readFactors h)

theorem leaves_of_readSummands {left : Expression}
    (h : readSummands inGroup left slice = .ok (tree, rest)) : slice.Leaves rest := by
  fun_induction readSummands inGroup left slice with
  | case1 =>
    cases h
    exact .refl _
  | case2 => cases h
  | case3 left slice next hnext right after hproduct ih =>
    exact ((leaves_of_nextSummand? hnext).trans (leaves_of_readProduct hproduct)).trans (ih h)

theorem leaves_of_readSum (h : readSum inGroup slice = .ok (tree, rest)) : slice.Leaves rest := by
  unfold readSum at h
  split at h
  · cases h
  · rename_i hproduct
    exact (leaves_of_readProduct hproduct).trans (leaves_of_readSummands h)

/-- A clause of which only spacing is left fits as a whole. -/
theorem Slice.Leaves.fits (h : slice.Leaves rest) (hend : rest.skipSpacing.next? = none) :
    Fits slice.chars := by
  obtain ⟨taken, hchars, hfits⟩ := h
  rw [hchars]
  exact hfits.append (Slice.spaced_of_next?_eq_none hend).fits

/-- A clause that is read pairs up its parentheses, and they are not too deep. -/
theorem fits_of_readWholeSum (h : readWholeSum inGroup slice = .ok tree) : Fits slice.chars := by
  unfold readWholeSum at h
  split at h
  · cases h
  · rename_i hsum
    split at h
    · rename_i hend
      exact (leaves_of_readSum hsum).fits hend
    · split at h <;> cases h

end Leaving

/-! ### The groups of a text -/

/-- The slice is the inside of a group that begins somewhere in a text and is found from there. -/
def Slice.GroupOf (interior : Slice) (text : List Char) : Prop :=
  ∃ opening inside rest : Slice, opening.chars <:+ text ∧ opening.next? = some ('(', inside) ∧
    opening.group = .ok (interior, rest)

namespace Slice.GroupOf

variable {interior : Slice} {part text : List Char}

theorem of_suffix (h : interior.GroupOf part) (hpart : part <:+ text) : interior.GroupOf text := by
  obtain ⟨opening, inside, rest, hopening, hnext, hfound⟩ := h
  exact ⟨opening, inside, rest, hopening.trans hpart, hnext, hfound⟩

theorem length_lt (h : interior.GroupOf text) : interior.chars.length < text.length := by
  obtain ⟨opening, inside, rest, hopening, -, hfound⟩ := h
  exact Nat.lt_of_lt_of_le (length_interior_of_group hfound) hopening.length_le

/-- A group is not found if it leaves no room for itself. -/
theorem nesting_lt_maxNesting (h : interior.GroupOf text) :
    nesting interior.chars < maxNesting := by
  obtain ⟨opening, inside, rest, -, -, hfound⟩ := h
  exact (balanced_of_group hfound).2

/-- The parentheses around a group are one level more. -/
theorem nesting_lt (h : interior.GroupOf text) : nesting interior.chars < nesting text := by
  obtain ⟨opening, inside, rest, hopening, hnext, hfound⟩ := h
  have hpart : '(' :: (interior.chars ++ [')']) <:+: text := by
    refine List.IsInfix.trans ⟨[], rest.chars, ?_⟩ hopening.isInfix
    rw [chars_eq_of_open_group hnext hfound]
    simp
  have hgroup := (balanced_of_group hfound).1.group.2
  have hle := nesting_le_of_infix hpart
  omega

end Slice.GroupOf

/-! ### Readers that agree -/

/-- Two readers for groups agree on the groups of a text. -/
def AgreeInside (text : List Char) (f g : GroupReader) : Prop :=
  ∀ interior : Slice, interior.GroupOf text → f interior = g interior

/-- Two readers for groups agree on all slices with fewer than `bound` characters. -/
def AgreeBelow (bound : Nat) (f g : GroupReader) : Prop :=
  ∀ interior : Slice, interior.chars.length < bound → f interior = g interior

theorem AgreeBelow.inside {text : List Char} {f g : GroupReader}
    (hagree : AgreeBelow text.length f g) : AgreeInside text f g :=
  fun interior hgroup => hagree interior hgroup.length_lt

theorem AgreeInside.of_suffix {text part : List Char} {f g : GroupReader}
    (hagree : AgreeInside text f g) (hpart : part <:+ text) : AgreeInside part f g :=
  fun interior hgroup => hagree interior (hgroup.of_suffix hpart)

theorem AgreeInside.of_leaves {slice rest : Slice} {f g : GroupReader}
    (hagree : AgreeInside slice.chars f g) (h : slice.Leaves rest) : AgreeInside rest.chars f g :=
  hagree.of_suffix h.isSuffix

section Congruence

variable {f g : GroupReader} {slice : Slice}

theorem readGroup_congr {negative : Bool} {inside : Slice}
    (hnext : slice.next? = some ('(', inside)) (hagree : AgreeInside slice.chars f g) :
    readGroup f negative slice = readGroup g negative slice := by
  unfold readGroup
  cases hfound : slice.group with
  | error _ => rfl
  | ok found => simp only [hagree found.1 ⟨slice, inside, found.2, List.suffix_rfl, hnext, hfound⟩]

theorem readTerm_congr (hagree : AgreeInside slice.chars f g) :
    readTerm f slice = readTerm g slice := by
  unfold readTerm
  split
  rename_i negative body hsign
  split
  · rfl
  · rename_i c after hnext
    split
    · rfl
    · split
      · rfl
      · split
        · rename_i hopen
          exact readGroup_congr (hopen ▸ hnext) (hagree.of_leaves (leaves_of_takeSign hsign))
        · rfl

theorem readFactors_congr {left : Expression} (hagree : AgreeInside slice.chars f g) :
    readFactors f left slice = readFactors g left slice := by
  fun_induction readFactors f left slice with
  | case1 left slice hnone => rw [readFactors_eq, hnone]
  | case2 left slice next hnext failure hterm =>
    rw [readTerm_congr (hagree.of_leaves (leaves_of_nextFactor? hnext))] at hterm
    simp only [readFactors_eq g, hnext, hterm]
  | case3 left slice next hnext right rest hterm ih =>
    have hagree' := hagree.of_leaves (leaves_of_nextFactor? hnext)
    rw [ih (hagree'.of_leaves (leaves_of_readTerm hterm)), readFactors_eq g left slice]
    rw [readTerm_congr hagree'] at hterm
    simp only [hnext, hterm]

theorem readProduct_congr (hagree : AgreeInside slice.chars f g) :
    readProduct f slice = readProduct g slice := by
  unfold readProduct
  rw [readTerm_congr hagree]
  cases hterm : readTerm g slice with
  | error _ => rfl
  | ok found => exact readFactors_congr (hagree.of_leaves (leaves_of_readTerm hterm))

theorem readSummands_congr {left : Expression} (hagree : AgreeInside slice.chars f g) :
    readSummands f left slice = readSummands g left slice := by
  fun_induction readSummands f left slice with
  | case1 left slice hnone => rw [readSummands_eq, hnone]
  | case2 left slice next hnext failure hproduct =>
    rw [readProduct_congr (hagree.of_leaves (leaves_of_nextSummand? hnext))] at hproduct
    simp only [readSummands_eq g, hnext, hproduct]
  | case3 left slice next hnext right rest hproduct ih =>
    have hagree' := hagree.of_leaves (leaves_of_nextSummand? hnext)
    rw [ih (hagree'.of_leaves (leaves_of_readProduct hproduct)), readSummands_eq g left slice]
    rw [readProduct_congr hagree'] at hproduct
    simp only [hnext, hproduct]

theorem readSum_congr (hagree : AgreeInside slice.chars f g) :
    readSum f slice = readSum g slice := by
  unfold readSum
  rw [readProduct_congr hagree]
  cases hproduct : readProduct g slice with
  | error _ => rfl
  | ok found => exact readSummands_congr (hagree.of_leaves (leaves_of_readProduct hproduct))

theorem readWholeSum_congr (hagree : AgreeInside slice.chars f g) :
    readWholeSum f slice = readWholeSum g slice := by
  unfold readWholeSum
  rw [readSum_congr hagree]

end Congruence

namespace Expression

/-- Reading a whole clause is reading a sum whose groups are read in the same way. -/
theorem read_eq (slice : Slice) : read slice = readWholeSum read slice := by
  rw [read]
  exact readWholeSum_congr (AgreeBelow.inside fun interior hshorter => if_pos hshorter)

end Expression

end Diophantine
