import Diophantine.Proofs.Constraint.Grammar
import Diophantine.Proofs.Expression.Groups

/-!
# What the readers for groups are asked

As for expressions: what is taken from the beginning of a slice pairs up its parentheses, the groups
that are asked about begin somewhere in the slice, and `Constraint.read` satisfies the equation that
it stands for. A group of operands and a group of constraints are found in the same way, so both
readers are bounded alike.

- `leaves_of_readAtom`, `leaves_of_readDisjunction`: what is left of a slice, behind text that fits;
- `fits_of_readWholeDisjunction`: a clause that is read fits as a whole;
- `GroupReaders.AgreeInside`, `readAtom_congr`, `readWholeDisjunction_congr`: pairs of readers that
  agree on the groups of a text;
- `GroupReaders.AgreeBelow`, `Constraint.read_eq`: the equation of `Constraint.read`.
-/

namespace Diophantine

/-! ### What is left of a slice -/

theorem Slice.leaves_of_afterKeyword? {slice rest : Slice} {word : String}
    (hletters : word.toList.all Char.isAlpha = true) (h : slice.afterKeyword? word = some rest) :
    slice.Leaves rest :=
  ⟨word.toList, (afterKeyword?_eq_some_iff.mp h).1, .of_plain (plain_of_isAlpha hletters)⟩

/-- A connective stands behind spacing. -/
theorem Slice.leaves_of_connective {slice rest : Slice} {word : String}
    (hletters : word.toList.all Char.isAlpha = true)
    (h : slice.skipSpacing.afterKeyword? word = some rest) : slice.Leaves rest :=
  slice.leaves_skipSpacing.trans (leaves_of_afterKeyword? hletters h)

section Leaving

variable {readers : GroupReaders} {slice rest : Slice} {tree : Constraint}

theorem leaves_of_readComparison {inGroup : GroupReader}
    (h : readComparison inGroup slice = .ok (tree, rest)) : slice.Leaves rest := by
  unfold readComparison at h
  split at h
  · cases h
  · rename_i left after hleft
    refine (leaves_of_readSum hleft).trans (after.leaves_skipSpacing.trans ?_)
    split at h
    · cases h
    · rename_i c operand hnext
      split at h
      · rename_i hless
        obtain ⟨found, hright, heq⟩ := map_eq_ok_iff.mp h
        cases heq
        exact (Slice.leaves_of_next? (hless ▸ by decide) hnext).trans (leaves_of_readSum hright)
      · split at h
        · rename_i hgreater
          obtain ⟨found, hright, heq⟩ := map_eq_ok_iff.mp h
          cases heq
          exact (Slice.leaves_of_next? (hgreater ▸ by decide) hnext).trans
            (leaves_of_readSum hright)
        · cases h

theorem leaves_of_readAtom (h : readAtom readers slice = .ok (tree, rest)) :
    slice.Leaves rest := by
  refine slice.leaves_skipSpacing.trans ?_
  unfold readAtom at h
  split at h
  · rename_i inside hnext
    split at h
    · cases h
    · rename_i interior after hfound
      split at h
      · obtain ⟨constraint, -, heq⟩ := map_eq_ok_iff.mp h
        cases heq
        exact Slice.leaves_of_group hnext hfound
      · exact leaves_of_readComparison h
  · exact leaves_of_readComparison h

theorem leaves_of_readConjuncts {left : Constraint}
    (h : readConjuncts readers left slice = .ok (tree, rest)) : slice.Leaves rest := by
  fun_induction readConjuncts readers left slice with
  | case1 =>
    cases h
    exact .refl _
  | case2 => cases h
  | case3 left slice next hword right after hatom ih =>
    exact ((Slice.leaves_of_connective (by decide) hword).trans (leaves_of_readAtom hatom)).trans
      (ih h)

theorem leaves_of_readConjunction (h : readConjunction readers slice = .ok (tree, rest)) :
    slice.Leaves rest := by
  unfold readConjunction at h
  split at h
  · cases h
  · rename_i hatom
    exact (leaves_of_readAtom hatom).trans (leaves_of_readConjuncts h)

theorem leaves_of_readDisjuncts {left : Constraint}
    (h : readDisjuncts readers left slice = .ok (tree, rest)) : slice.Leaves rest := by
  fun_induction readDisjuncts readers left slice with
  | case1 =>
    cases h
    exact .refl _
  | case2 => cases h
  | case3 left slice next hword right after hconjunction ih =>
    exact ((Slice.leaves_of_connective (by decide) hword).trans
      (leaves_of_readConjunction hconjunction)).trans (ih h)

theorem leaves_of_readDisjunction (h : readDisjunction readers slice = .ok (tree, rest)) :
    slice.Leaves rest := by
  unfold readDisjunction at h
  split at h
  · cases h
  · rename_i hconjunction
    exact (leaves_of_readConjunction hconjunction).trans (leaves_of_readDisjuncts h)

/-- A clause that is read pairs up its parentheses, and they are not too deep. -/
theorem fits_of_readWholeDisjunction (h : readWholeDisjunction readers slice = .ok tree) :
    Fits slice.chars := by
  unfold readWholeDisjunction at h
  split at h
  · split at h
    · cases h
    · rename_i hdisjunction
      split at h
      · rename_i hend
        exact (leaves_of_readDisjunction hdisjunction).fits hend
      · split at h <;> cases h
  · cases h

end Leaving

/-! ### Readers that agree -/

/-- Two pairs of readers agree on the groups of a text. -/
structure GroupReaders.AgreeInside (text : List Char) (f g : GroupReaders) : Prop where
  expression : Diophantine.AgreeInside text f.expression g.expression
  constraint : ∀ interior : Slice, interior.GroupOf text →
    f.constraint interior = g.constraint interior

/-- Two pairs of readers for groups agree on all slices with fewer than `bound` characters. -/
structure GroupReaders.AgreeBelow (bound : Nat) (f g : GroupReaders) : Prop where
  expression : Diophantine.AgreeBelow bound f.expression g.expression
  constraint : ∀ interior : Slice,
    interior.chars.length < bound → f.constraint interior = g.constraint interior

namespace GroupReaders

variable {f g : GroupReaders}

theorem AgreeBelow.inside {text : List Char} (hagree : AgreeBelow text.length f g) :
    AgreeInside text f g where
  expression := hagree.expression.inside
  constraint interior hgroup := hagree.constraint interior hgroup.length_lt

theorem AgreeInside.of_leaves {slice rest : Slice} (hagree : AgreeInside slice.chars f g)
    (h : slice.Leaves rest) : AgreeInside rest.chars f g where
  expression := hagree.expression.of_leaves h
  constraint interior hgroup := hagree.constraint interior (hgroup.of_suffix h.isSuffix)

end GroupReaders

theorem readComparison_congr {f g : GroupReader} {slice : Slice}
    (hagree : AgreeInside slice.chars f g) : readComparison f slice = readComparison g slice := by
  unfold readComparison
  rw [readSum_congr hagree]
  split
  · rfl
  · rename_i left rest hleft
    have hagree := (hagree.of_leaves (leaves_of_readSum hleft)).of_leaves rest.leaves_skipSpacing
    split
    · rfl
    · rename_i c operand hnext
      have hpart : operand.chars <:+ rest.skipSpacing.chars :=
        ⟨[c], (Slice.next?_eq_some_iff.mp hnext).1.symm⟩
      rw [readSum_congr (hagree.of_suffix hpart)]

section Congruence

variable {f g : GroupReaders} {slice : Slice}

theorem readAtom_congr (hagree : GroupReaders.AgreeInside slice.chars f g) :
    readAtom f slice = readAtom g slice := by
  have hagree := hagree.of_leaves slice.leaves_skipSpacing
  unfold readAtom
  rw [readComparison_congr hagree.expression]
  split
  · rename_i inside hnext
    cases hfound : slice.skipSpacing.group with
    | error _ => rfl
    | ok found =>
      have hgroup : found.1.GroupOf slice.skipSpacing.chars :=
        ⟨slice.skipSpacing, inside, found.2, List.suffix_rfl, hnext, hfound⟩
      simp only [hagree.constraint found.1 hgroup]
  · rfl

theorem readConjuncts_congr {left : Constraint}
    (hagree : GroupReaders.AgreeInside slice.chars f g) :
    readConjuncts f left slice = readConjuncts g left slice := by
  fun_induction readConjuncts f left slice with
  | case1 left slice hnone => rw [readConjuncts_eq, hnone]
  | case2 left slice next hword failure hatom =>
    rw [readAtom_congr (hagree.of_leaves (Slice.leaves_of_connective (by decide) hword))] at hatom
    simp only [readConjuncts_eq g, hword, hatom]
  | case3 left slice next hword right rest hatom ih =>
    have hagree' := hagree.of_leaves (Slice.leaves_of_connective (by decide) hword)
    rw [ih (hagree'.of_leaves (leaves_of_readAtom hatom)), readConjuncts_eq g left slice]
    rw [readAtom_congr hagree'] at hatom
    simp only [hword, hatom]

theorem readConjunction_congr (hagree : GroupReaders.AgreeInside slice.chars f g) :
    readConjunction f slice = readConjunction g slice := by
  unfold readConjunction
  rw [readAtom_congr hagree]
  cases hatom : readAtom g slice with
  | error _ => rfl
  | ok found => exact readConjuncts_congr (hagree.of_leaves (leaves_of_readAtom hatom))

theorem readDisjuncts_congr {left : Constraint}
    (hagree : GroupReaders.AgreeInside slice.chars f g) :
    readDisjuncts f left slice = readDisjuncts g left slice := by
  fun_induction readDisjuncts f left slice with
  | case1 left slice hnone => rw [readDisjuncts_eq, hnone]
  | case2 left slice next hword failure hconjunction =>
    rw [readConjunction_congr
      (hagree.of_leaves (Slice.leaves_of_connective (by decide) hword))] at hconjunction
    simp only [readDisjuncts_eq g, hword, hconjunction]
  | case3 left slice next hword right rest hconjunction ih =>
    have hagree' := hagree.of_leaves (Slice.leaves_of_connective (by decide) hword)
    rw [ih (hagree'.of_leaves (leaves_of_readConjunction hconjunction)),
      readDisjuncts_eq g left slice]
    rw [readConjunction_congr hagree'] at hconjunction
    simp only [hword, hconjunction]

theorem readWholeDisjunction_congr (hagree : GroupReaders.AgreeInside slice.chars f g) :
    readWholeDisjunction f slice = readWholeDisjunction g slice := by
  unfold readWholeDisjunction readDisjunction
  rw [readConjunction_congr hagree]
  cases hconjunction : readConjunction g slice with
  | error _ => rfl
  | ok found =>
    simp only [readDisjuncts_congr (hagree.of_leaves (leaves_of_readConjunction hconjunction))]

end Congruence

namespace Constraint

/-- Reading a whole clause is reading a disjunction whose groups are read in the same way. -/
theorem read_eq (slice : Slice) :
    read slice =
      readWholeDisjunction { expression := Expression.read, constraint := read } slice := by
  rw [read]
  refine readWholeDisjunction_congr (GroupReaders.AgreeBelow.inside ?_)
  exact { expression := fun _ _ => rfl, constraint := fun _ hshorter => if_pos hshorter }

end Constraint

end Diophantine
