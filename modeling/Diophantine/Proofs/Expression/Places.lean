import Diophantine.Proofs.Places

/-!
# Places of failures in expressions

Every failure to read an expression shows characters of the slice that the expression was to be read
from, and blames its parentheses only if they do not pair up, as long as failures inside of groups
are like that.

- `takeSign_restOf`: behind a sign there is no spacing;
- `readsWithin_readTerm`, `readsWithin_readProduct`, `readsWithin_readSum`: the layers;
- `Expression.raisedIn_of_read`: whole clauses.
-/

namespace Diophantine

/-! ### Terms -/

/-- What follows a sign is left of the slice, and it does not begin with a line feed. -/
theorem takeSign_restOf {slice body : Slice} {negative : Bool}
    (h : takeSign slice = (negative, body)) :
    body.RestOf slice ∧ body.chars.head? ≠ some '\n' := by
  have hleaves := leaves_of_takeSign h
  unfold takeSign at h
  split at h
  · rename_i rest hnext
    cases h
    have hrest := (Slice.within_of_next? hnext).trans slice.within_skipSpacing
    exact ⟨⟨rest.within_skipSpacing.trans hrest, hleaves⟩, rest.head?_skipSpacing⟩
  · cases h
    exact ⟨slice.restOf_skipSpacing, slice.head?_skipSpacing⟩

theorem readsWithin_readConstant (negative : Bool) {body : Slice}
    (hhead : body.chars.head? ≠ some '\n') : ReadsWithin body (readConstant negative body) := by
  have hchars : body.chars
      = body.chars.takeWhile Char.isDigit ++ body.chars.dropWhile Char.isDigit :=
    List.takeWhile_append_dropWhile.symm
  unfold readConstant
  split
  · rename_i value hvalue
    have hconstant : readConstant negative body
        = .ok (.constant value, body.dropWhile Char.isDigit) := by
      simp only [readConstant, hvalue]
    exact .ok ⟨body.within_dropWhile Char.isDigit, leaves_of_readConstant hconstant⟩
  · refine .error ⟨.of_start hchars (Slice.span_covers _) hhead, fun hunpaired => ?_⟩
    rcases hunpaired with hcause | hcause <;> cases hcause

section Readers

variable {inGroup : GroupReader}
  (hgroup : ∀ interior failure, inGroup interior = .error failure → failure.RaisedIn interior)

include hgroup

theorem readsWithin_readGroup (negative : Bool) {body inside : Slice}
    (hnext : body.next? = some ('(', inside)) :
    ReadsWithin body (readGroup inGroup negative body) := by
  unfold readGroup
  split
  · rename_i hfail
    exact .error (Slice.raisedIn_of_group hnext hfail)
  · rename_i interior rest hfound
    obtain ⟨hinterior, hrest⟩ := Slice.within_of_group hfound
    split
    · rename_i hfail
      exact .error ((hgroup _ _ hfail).inside hfound hinterior)
    · exact .ok ⟨hrest, Slice.leaves_of_group hnext hfound⟩

theorem readsWithin_readTerm (slice : Slice) : ReadsWithin slice (readTerm inGroup slice) := by
  unfold readTerm
  split
  rename_i negative body hsign
  obtain ⟨hbody, hhead⟩ := takeSign_restOf hsign
  refine ReadsWithin.behind ?_ hbody
  split
  · exact .error (Slice.fail_raisedIn hhead (by simp))
  · rename_i c rest hnext
    split
    · exact readsWithin_readConstant negative hhead
    · split
      · rename_i hletter
        exact .ok (Slice.restOf_of_next? (not_parenthesis_of_isAlpha hletter) hnext)
      · split
        · rename_i hopen
          exact readsWithin_readGroup hgroup negative (hopen ▸ hnext)
        · exact .error (Slice.fail_raisedIn hhead (by simp))

/-! ### Products -/

omit hgroup in
theorem restOf_of_nextFactor? {slice next : Slice} (h : nextFactor? slice = some next) :
    next.RestOf slice := by
  rcases cases_of_nextFactor? h with hstar | ⟨rfl, -⟩
  · exact (Slice.restOf_of_next? (by decide) hstar).trans slice.restOf_skipSpacing
  · exact .refl next

theorem readsWithin_readFactors (left : Expression) (slice : Slice) :
    ReadsWithin slice (readFactors inGroup left slice) := by
  fun_induction readFactors inGroup left slice with
  | case1 left slice hnone => exact .ok (.refl slice)
  | case2 left slice next hnext failure hterm =>
    have hfailure := (readsWithin_readTerm hgroup next).of_error hterm
    exact .error (hfailure.behind (restOf_of_nextFactor? hnext))
  | case3 left slice next hnext right rest hterm ih =>
    have hrest := (readsWithin_readTerm hgroup next).of_ok hterm
    exact ih.behind (hrest.trans (restOf_of_nextFactor? hnext))

theorem readsWithin_readProduct (slice : Slice) :
    ReadsWithin slice (readProduct inGroup slice) := by
  have hreads := readsWithin_readTerm hgroup slice
  unfold readProduct
  split
  · rename_i hterm
    exact .error (hreads.of_error hterm)
  · rename_i left rest hterm
    exact (readsWithin_readFactors hgroup left rest).behind (hreads.of_ok hterm)

/-! ### Sums -/

omit hgroup in
theorem restOf_of_nextSummand? {slice next : Slice} (h : nextSummand? slice = some next) :
    next.RestOf slice := by
  refine ⟨?_, leaves_of_nextSummand? h⟩
  unfold nextSummand? at h
  split at h
  · rename_i hnext
    cases h
    exact (Slice.within_of_next? hnext).trans slice.within_skipSpacing
  · cases h
    exact slice.within_skipSpacing
  · cases h

theorem readsWithin_readSummands (left : Expression) (slice : Slice) :
    ReadsWithin slice (readSummands inGroup left slice) := by
  fun_induction readSummands inGroup left slice with
  | case1 left slice hnone => exact .ok (.refl slice)
  | case2 left slice next hnext failure hproduct =>
    have hfailure := (readsWithin_readProduct hgroup next).of_error hproduct
    exact .error (hfailure.behind (restOf_of_nextSummand? hnext))
  | case3 left slice next hnext right rest hproduct ih =>
    have hrest := (readsWithin_readProduct hgroup next).of_ok hproduct
    exact ih.behind (hrest.trans (restOf_of_nextSummand? hnext))

theorem readsWithin_readSum (slice : Slice) : ReadsWithin slice (readSum inGroup slice) := by
  have hreads := readsWithin_readProduct hgroup slice
  unfold readSum
  split
  · rename_i hproduct
    exact .error (hreads.of_error hproduct)
  · rename_i left rest hproduct
    exact (readsWithin_readSummands hgroup left rest).behind (hreads.of_ok hproduct)

/-! ### Whole clauses -/

theorem raisedIn_of_readWholeSum {slice : Slice} {failure : Failure}
    (h : readWholeSum inGroup slice = .error failure) : failure.RaisedIn slice := by
  have hreads := readsWithin_readSum hgroup slice
  unfold readWholeSum at h
  split at h
  · rename_i hsum
    cases h
    exact hreads.of_error hsum
  · rename_i expression rest hsum
    refine Failure.RaisedIn.behind ?_ (hreads.of_ok hsum)
    split at h
    · cases h
    · rename_i c after hnext
      split at h
      · rename_i hclose
        cases h
        exact Slice.unmatched_raisedIn (hclose ▸ hnext)
      · cases h
        exact rest.fail_skipSpacing_raisedIn (by simp)

end Readers

namespace Expression

/-- A failure to read an expression shows characters of the slice, and blames parentheses only if
they do not pair up. -/
theorem raisedIn_of_read {slice : Slice} {failure : Failure} (h : read slice = .error failure) :
    failure.RaisedIn slice := by
  -- Groups are read from shorter slices only.
  induction hlen : slice.chars.length using Nat.strongRecOn generalizing slice failure with
  | _ length ih =>
    -- What the reader for groups does with other slices is of no account.
    have hread : read slice = readWholeSum
        (fun interior => if interior.chars.length < slice.chars.length then read interior
          else .ok (.constant 0)) slice := by
      rw [read]
      refine readWholeSum_congr (AgreeBelow.inside fun interior hshorter => ?_)
      rw [if_pos hshorter, if_pos hshorter]
    rw [hread] at h
    refine raisedIn_of_readWholeSum (fun interior inner hinner => ?_) h
    split at hinner
    · rename_i hshorter
      exact ih _ (hlen ▸ hshorter) hinner rfl
    · cases hinner

end Expression

end Diophantine
