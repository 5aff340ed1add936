import Diophantine.Proofs.Constraint.Groups
import Diophantine.Proofs.Expression.Spelling

/-!
# Which leaves of a constraint can be written

The same as for expressions, one level up: the leaves of a constraint are those of its operands, and
no text makes the reader return one that cannot be written.
-/

namespace Diophantine

namespace Constraint

/-- The constants of a constraint, from left to right. -/
def constants : Constraint → List Value
  | .less left right | .greater left right => left.constants ++ right.constants
  | .and left right | .or left right => left.constants ++ right.constants

/-- Every leaf of a constraint can be written. -/
def Spelled (tree : Constraint) : Prop :=
  Spellable tree.names tree.constants

@[simp] theorem spelled_less_iff {left right : Expression} :
    Spelled (.less left right) ↔ left.Spelled ∧ right.Spelled :=
  Spellable.append_iff

@[simp] theorem spelled_greater_iff {left right : Expression} :
    Spelled (.greater left right) ↔ left.Spelled ∧ right.Spelled :=
  Spellable.append_iff

@[simp] theorem spelled_and_iff {left right : Constraint} :
    Spelled (.and left right) ↔ left.Spelled ∧ right.Spelled :=
  Spellable.append_iff

@[simp] theorem spelled_or_iff {left right : Constraint} :
    Spelled (.or left right) ↔ left.Spelled ∧ right.Spelled :=
  Spellable.append_iff

/-! ### Trees that are read -/

section Reading

variable {readers : GroupReaders}
  (hoperand : ∀ interior tree, readers.expression interior = .ok tree → tree.Spelled)

include hoperand

theorem spelled_of_readComparison {slice rest : Slice} {tree : Constraint}
    (h : readComparison readers.expression slice = .ok (tree, rest)) : tree.Spelled := by
  unfold readComparison at h
  split at h
  · cases h
  · rename_i left after hsum
    have hleft : left.Spelled := Expression.spelled_of_readSum hoperand hsum
    split at h
    · cases h
    · rename_i c operand _
      -- Whichever sign it is, the right operand is read behind it.
      have hbuild : ∀ {build : Expression → Expression → Constraint},
          (readSum readers.expression operand).map
              (fun right => (build left right.1, right.2)) = .ok (tree, rest) →
          ∃ right, tree = build left right ∧ right.Spelled := by
        intro build h
        obtain ⟨found, hread, hfound⟩ := map_eq_ok_iff.mp h
        cases hfound
        exact ⟨found.1, rfl, Expression.spelled_of_readSum hoperand hread⟩
      split at h
      · obtain ⟨right, rfl, hright⟩ := hbuild h
        exact spelled_less_iff.mpr ⟨hleft, hright⟩
      · split at h
        · obtain ⟨right, rfl, hright⟩ := hbuild h
          exact spelled_greater_iff.mpr ⟨hleft, hright⟩
        · cases h

variable (hgroup : ∀ interior tree, readers.constraint interior = .ok tree → tree.Spelled)

include hgroup

theorem spelled_of_readAtom {slice rest : Slice} {tree : Constraint}
    (h : readAtom readers slice = .ok (tree, rest)) : tree.Spelled := by
  unfold readAtom at h
  split at h
  · split at h
    · cases h
    · rename_i interior after _
      split at h
      · obtain ⟨found, hread, hfound⟩ := map_eq_ok_iff.mp h
        cases hfound
        exact hgroup interior _ hread
      · exact spelled_of_readComparison hoperand h
  · exact spelled_of_readComparison hoperand h

theorem spelled_of_readConjuncts {slice rest : Slice} {left tree : Constraint}
    (hleft : left.Spelled) (h : readConjuncts readers left slice = .ok (tree, rest)) :
    tree.Spelled := by
  fun_induction readConjuncts readers left slice with
  | case1 =>
    cases h
    exact hleft
  | case2 => cases h
  | case3 left slice next _ right after hatom ih =>
    exact ih (spelled_and_iff.mpr ⟨hleft, spelled_of_readAtom hoperand hgroup hatom⟩) h

theorem spelled_of_readConjunction {slice rest : Slice} {tree : Constraint}
    (h : readConjunction readers slice = .ok (tree, rest)) : tree.Spelled := by
  unfold readConjunction at h
  split at h
  · cases h
  · rename_i hatom
    exact spelled_of_readConjuncts hoperand hgroup (spelled_of_readAtom hoperand hgroup hatom) h

theorem spelled_of_readDisjuncts {slice rest : Slice} {left tree : Constraint}
    (hleft : left.Spelled) (h : readDisjuncts readers left slice = .ok (tree, rest)) :
    tree.Spelled := by
  fun_induction readDisjuncts readers left slice with
  | case1 =>
    cases h
    exact hleft
  | case2 => cases h
  | case3 left slice next _ right after hconjunction ih =>
    have hright : right.Spelled := spelled_of_readConjunction hoperand hgroup hconjunction
    exact ih (spelled_or_iff.mpr ⟨hleft, hright⟩) h

theorem spelled_of_readWholeDisjunction {slice : Slice} {tree : Constraint}
    (h : readWholeDisjunction readers slice = .ok tree) : tree.Spelled := by
  unfold readWholeDisjunction readDisjunction at h
  split at h
  · split at h
    · cases h
    · rename_i hdisjunction
      split at hdisjunction
      · cases hdisjunction
      · rename_i hconjunction
        split at h
        · cases h
          exact spelled_of_readDisjuncts hoperand hgroup
            (spelled_of_readConjunction hoperand hgroup hconjunction) hdisjunction
        · split at h <;> cases h
  · cases h

end Reading

/-- No text makes the reader return a leaf that cannot be written. -/
theorem spelled_of_read {slice : Slice} {tree : Constraint} (h : read slice = .ok tree) :
    tree.Spelled := by
  -- Groups are read from shorter slices only.
  induction hlen : slice.chars.length using Nat.strongRecOn generalizing slice tree with
  | _ length ih =>
    rw [read] at h
    refine spelled_of_readWholeDisjunction (fun _ _ hread => Expression.spelled_of_read hread)
      (fun interior inner hinner => ?_) h
    change (if interior.chars.length < slice.chars.length then read interior
      else .error (interior.fail .unclosed)) = .ok inner at hinner
    split at hinner
    · rename_i hshorter
      exact ih _ (hlen ▸ hshorter) hinner rfl
    · cases hinner

end Constraint

end Diophantine
