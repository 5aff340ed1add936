import Diophantine.Proofs.Constraint.Groups
import Diophantine.Proofs.Expression.Places

/-!
# Places of failures in constraints

Every failure to read a constraint shows characters of the slice that the constraint was to be read
from, and blames its parentheses only if they do not pair up. That goes for the operands of
comparisons too, and for a slice that compares nothing, of which everything between the blanks on
either side is shown.

- `readsWithin_readComparison`, `readsWithin_readAtom`, `readsWithin_readConjunction`,
  `readsWithin_readDisjunction`: the layers;
- `Constraint.raisedIn_of_read`: whole clauses.
-/

namespace Diophantine

/-! ### Comparisons and atoms -/

theorem readsWithin_readComparison {inGroup : GroupReader}
    (hgroup : ∀ interior failure, inGroup interior = .error failure → failure.RaisedIn interior)
    (slice : Slice) : ReadsWithin slice (readComparison inGroup slice) := by
  have hreads := readsWithin_readSum hgroup slice
  unfold readComparison
  split
  · rename_i hsum
    exact .error (hreads.of_error hsum)
  · rename_i left rest hsum
    refine ReadsWithin.behind ?_ (hreads.of_ok hsum)
    split
    · exact .error (rest.fail_skipSpacing_raisedIn (by simp))
    · rename_i c operand hnext
      have hoperand : c ≠ '(' ∧ c ≠ ')' → operand.RestOf rest := fun hplain =>
        (Slice.restOf_of_next? hplain hnext).trans rest.restOf_skipSpacing
      have hright := readsWithin_readSum hgroup operand
      split
      · rename_i hless
        exact (hright.map _).behind (hoperand (hless ▸ by decide))
      · split
        · rename_i hgreater
          exact (hright.map _).behind (hoperand (hgreater ▸ by decide))
        · exact .error (rest.fail_skipSpacing_raisedIn (by simp))

section Readers

variable {readers : GroupReaders}
  (hoperand : ∀ interior failure, readers.expression interior = .error failure →
    failure.RaisedIn interior)
  (hgroup : ∀ interior failure, readers.constraint interior = .error failure →
    failure.RaisedIn interior)

include hoperand hgroup

theorem readsWithin_readAtom (slice : Slice) : ReadsWithin slice (readAtom readers slice) := by
  have hcomparison : ReadsWithin slice (readComparison readers.expression slice.skipSpacing) :=
    (readsWithin_readComparison hoperand _).behind slice.restOf_skipSpacing
  unfold readAtom
  split
  · rename_i inside hnext
    split
    · rename_i hfail
      exact .error ((Slice.raisedIn_of_group hnext hfail).behind slice.restOf_skipSpacing)
    · rename_i interior rest hfound
      obtain ⟨hinterior, hrest⟩ := Slice.within_of_group hfound
      split
      · cases hconstraint : readers.constraint interior with
        | error failure =>
          have hfailure := (hgroup _ _ hconstraint).inside hfound hinterior
          exact .error (hfailure.behind slice.restOf_skipSpacing)
        | ok constraint =>
          have hbehind : rest.RestOf slice.skipSpacing :=
            ⟨hrest, Slice.leaves_of_group hnext hfound⟩
          exact .ok (hbehind.trans slice.restOf_skipSpacing)
      · exact hcomparison
  · exact hcomparison

/-! ### Conjunctions -/

omit hoperand hgroup in
theorem restOf_of_connective {slice next : Slice} {word : String}
    (hletters : word.toList.all Char.isAlpha = true)
    (h : slice.skipSpacing.afterKeyword? word = some next) : next.RestOf slice :=
  ⟨(Slice.within_of_afterKeyword? h).trans slice.within_skipSpacing,
    Slice.leaves_of_connective hletters h⟩

theorem readsWithin_readConjuncts (left : Constraint) (slice : Slice) :
    ReadsWithin slice (readConjuncts readers left slice) := by
  fun_induction readConjuncts readers left slice with
  | case1 left slice hnone => exact .ok (.refl slice)
  | case2 left slice next hnext failure hatom =>
    have hfailure := (readsWithin_readAtom hoperand hgroup next).of_error hatom
    exact .error (hfailure.behind (restOf_of_connective (by decide) hnext))
  | case3 left slice next hnext right rest hatom ih =>
    have hrest := (readsWithin_readAtom hoperand hgroup next).of_ok hatom
    exact ih.behind (hrest.trans (restOf_of_connective (by decide) hnext))

theorem readsWithin_readConjunction (slice : Slice) :
    ReadsWithin slice (readConjunction readers slice) := by
  have hreads := readsWithin_readAtom hoperand hgroup slice
  unfold readConjunction
  split
  · rename_i hatom
    exact .error (hreads.of_error hatom)
  · rename_i left rest hatom
    exact (readsWithin_readConjuncts hoperand hgroup left rest).behind (hreads.of_ok hatom)

/-! ### Disjunctions -/

theorem readsWithin_readDisjuncts (left : Constraint) (slice : Slice) :
    ReadsWithin slice (readDisjuncts readers left slice) := by
  fun_induction readDisjuncts readers left slice with
  | case1 left slice hnone => exact .ok (.refl slice)
  | case2 left slice next hnext failure hconjunction =>
    have hfailure := (readsWithin_readConjunction hoperand hgroup next).of_error hconjunction
    exact .error (hfailure.behind (restOf_of_connective (by decide) hnext))
  | case3 left slice next hnext right rest hconjunction ih =>
    have hrest := (readsWithin_readConjunction hoperand hgroup next).of_ok hconjunction
    exact ih.behind (hrest.trans (restOf_of_connective (by decide) hnext))

theorem readsWithin_readDisjunction (slice : Slice) :
    ReadsWithin slice (readDisjunction readers slice) := by
  have hreads := readsWithin_readConjunction hoperand hgroup slice
  unfold readDisjunction
  split
  · rename_i hconjunction
    exact .error (hreads.of_error hconjunction)
  · rename_i left rest hconjunction
    exact (readsWithin_readDisjuncts hoperand hgroup left rest).behind (hreads.of_ok hconjunction)

/-! ### Whole clauses -/

theorem raisedIn_of_readWholeDisjunction {slice : Slice} {failure : Failure}
    (h : readWholeDisjunction readers slice = .error failure) : failure.RaisedIn slice := by
  have hreads := readsWithin_readDisjunction hoperand hgroup slice
  unfold readWholeDisjunction at h
  split at h
  · split at h
    · rename_i hdisjunction
      cases h
      exact hreads.of_error hdisjunction
    · rename_i constraint rest hdisjunction
      refine Failure.RaisedIn.behind ?_ (hreads.of_ok hdisjunction)
      split at h
      · cases h
      · rename_i c after hnext
        split at h
        · rename_i hclose
          cases h
          exact Slice.unmatched_raisedIn (hclose ▸ hnext)
        · cases h
          exact rest.fail_skipSpacing_raisedIn (by simp)
  · cases h
    exact slice.failWhole_trimmed_raisedIn (by simp)

end Readers

namespace Constraint

/-- A failure to read a constraint shows characters of the slice, and blames parentheses only if
they do not pair up. -/
theorem raisedIn_of_read {slice : Slice} {failure : Failure} (h : read slice = .error failure) :
    failure.RaisedIn slice := by
  -- Groups are read from shorter slices only.
  induction hlen : slice.chars.length using Nat.strongRecOn generalizing slice failure with
  | _ length ih =>
    -- What the reader for groups does with other slices is of no account.
    have hread : read slice = readWholeDisjunction
        { expression := Expression.read
          constraint := fun interior =>
            if interior.chars.length < slice.chars.length then read interior
            else .ok (.less (.constant 0) (.constant 0)) } slice := by
      rw [read]
      refine readWholeDisjunction_congr (GroupReaders.AgreeBelow.inside
        { expression := fun _ _ => rfl, constraint := fun interior hshorter => ?_ })
      exact (if_pos hshorter).trans (if_pos hshorter).symm
    rw [hread] at h
    refine raisedIn_of_readWholeDisjunction (fun _ _ => Expression.raisedIn_of_read)
      (fun interior inner hinner => ?_) h
    dsimp only at hinner
    split at hinner
    · rename_i hshorter
      exact ih _ (hlen ▸ hshorter) hinner rfl
    · cases hinner

end Constraint

end Diophantine
