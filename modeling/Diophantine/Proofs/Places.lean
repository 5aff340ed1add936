import Mathlib.Data.List.DropRight
import Diophantine.Proofs.Expression.Groups
import Diophantine.Reader
import Diophantine.Text.Blank

/-!
# Places of failures

Whatever is read of a slice, what is left of it and the inside of a group are parts of the slice
that know where they begin. A failure shows characters of the slice that it was given, and it blames
parentheses only if those of the slice do not pair up.

There is one place in a text that must not be shown: the one between a carriage return and a line
feed, which belongs to no line. No part of a slice is followed by a line feed, so a reader that has
skipped spacing is never in front of one, whether there is more to read or not.

- `Slice.Within`, `Slice.RestOf`: parts of a slice, and what is left of it;
- `Failure.Within`: failures that show characters of a slice;
- `Failure.RaisedIn`: those that blame parentheses for a reason, too;
- `ReadsWithin`: what this means for a reader that gives a value and what is left;
- `Slice.within_of_group`, `Slice.parts_of_splitOutside`: the scans over parentheses.
-/

namespace Diophantine

/-! ### Parts of a slice -/

theorem head?_cons_ne {c : Char} (hc : c ≠ '\n') (chars : List Char) :
    (c :: chars).head? ≠ some '\n' :=
  fun h => hc (Option.some.inj h)

namespace Slice

/-- A part of a slice, which knows where it begins. What follows it is no line feed. -/
def Within (part slice : Slice) : Prop :=
  ∃ front back, slice.chars = front ++ (part.chars ++ back)
    ∧ part.start = slice.start.past front ∧ back.head? ≠ some '\n'

namespace Within

theorem refl (slice : Slice) : slice.Within slice :=
  ⟨[], [], (List.append_nil _).symm, rfl, nofun⟩

theorem trans {part middle slice : Slice} (h : part.Within middle) (h' : middle.Within slice) :
    part.Within slice := by
  obtain ⟨front, back, hchars, hstart, hback⟩ := h
  obtain ⟨front', back', hchars', hstart', hback'⟩ := h'
  refine ⟨front' ++ front, back ++ back', ?_, ?_, ?_⟩
  · rw [hchars', hchars]
    simp only [List.append_assoc]
  · rw [hstart, hstart', Position.past_append]
  · cases back with
    | nil => exact hback'
    | cons c back => exact hback

/-- What follows the beginning of a slice is a part of it. -/
theorem of_rest {slice rest : Slice} {front : List Char}
    (hchars : slice.chars = front ++ rest.chars)
    (hstart : rest.start = slice.start.past front) : rest.Within slice :=
  ⟨front, [], by rw [List.append_nil, hchars], hstart, nofun⟩

/-- What follows the first character of a slice is a part of it. -/
theorem tail (here : Position) (c : Char) (chars : List Char) :
    Within { start := here.advance c, chars := chars } { start := here, chars := c :: chars } :=
  ⟨[c], [], congrArg (c :: ·) (List.append_nil _).symm, rfl, nofun⟩

/-- The beginning of a slice is a part of it. -/
theorem of_front {slice : Slice} {front back : List Char} (hchars : slice.chars = front ++ back)
    (hback : back.head? ≠ some '\n') : Within { slice with chars := front } slice :=
  ⟨[], back, hchars, rfl, hback⟩

end Within

theorem within_of_next? {slice rest : Slice} {c : Char} (h : slice.next? = some (c, rest)) :
    rest.Within slice := by
  obtain ⟨hchars, hstart⟩ := next?_eq_some_iff.mp h
  have hcons : slice.chars = [c] ++ rest.chars := hchars
  exact .of_rest hcons hstart

theorem within_dropWhile (accept : Char → Bool) (slice : Slice) :
    (slice.dropWhile accept).Within slice :=
  .of_rest List.takeWhile_append_dropWhile.symm rfl

theorem within_skipSpacing (slice : Slice) : slice.skipSpacing.Within slice :=
  within_dropWhile isSpacing slice

theorem within_of_afterKeyword? {slice rest : Slice} {word : String}
    (h : slice.afterKeyword? word = some rest) : rest.Within slice := by
  obtain ⟨hchars, hstart, -⟩ := afterKeyword?_eq_some_iff.mp h
  exact .of_rest hchars hstart

/-- There is no line feed behind spacing. -/
theorem head?_skipSpacing (slice : Slice) : slice.skipSpacing.chars.head? ≠ some '\n' := by
  intro h
  have hnot := List.head?_dropWhile_not isSpacing slice.chars
  rw [show (slice.chars.dropWhile isSpacing).head? = some '\n' from h] at hnot
  exact absurd hnot (by decide)

end Slice

/-- What is left of a slice behind text that fits, and where it begins. -/
structure Slice.RestOf (rest slice : Slice) : Prop where
  within : rest.Within slice
  leaves : slice.Leaves rest

namespace Slice.RestOf

theorem refl (slice : Slice) : slice.RestOf slice :=
  ⟨.refl slice, .refl slice⟩

theorem trans {part middle slice : Slice} (h : part.RestOf middle) (h' : middle.RestOf slice) :
    part.RestOf slice :=
  ⟨h.within.trans h'.within, h'.leaves.trans h.leaves⟩

end Slice.RestOf

namespace Slice

theorem restOf_skipSpacing (slice : Slice) : slice.skipSpacing.RestOf slice :=
  ⟨slice.within_skipSpacing, slice.leaves_skipSpacing⟩

theorem restOf_of_next? {slice rest : Slice} {c : Char} (hplain : c ≠ '(' ∧ c ≠ ')')
    (h : slice.next? = some (c, rest)) : rest.RestOf slice :=
  ⟨within_of_next? h, leaves_of_next? hplain h⟩

/-- What is left behind text that fits pairs up exactly if the slice does. -/
theorem Leaves.balanced_iff {slice rest : Slice} (h : slice.Leaves rest) :
    Balanced slice.chars ↔ Balanced rest.chars := by
  obtain ⟨taken, hchars, hfits⟩ := h
  have hopen : openAfter 0 taken = some 0 := hfits.balanced
  unfold Balanced
  rw [hchars, openAfter_append, hopen]
  rfl

end Slice

/-! ### Places in a slice -/

/-- The span covers the characters `shown`, which stand at the position. -/
structure Span.Covers (span : Span) (shown : List Char) (place : Position) : Prop where
  start_eq : span.start = place.offset
  stop_eq : span.stop = place.offset + byteLength shown
  line_eq : span.line = place.line
  column_eq : span.column = place.column

theorem Slice.point_covers (slice : Slice) : slice.point.Covers (slice.chars.take 1) slice.start :=
  ⟨rfl, rfl, rfl, rfl⟩

theorem Slice.span_covers (slice : Slice) : slice.span.Covers slice.chars slice.start :=
  ⟨rfl, rfl, rfl, rfl⟩

/-- The failure shows characters of the slice. They do not begin between a carriage return and a
line feed, whatever stands around the slice. -/
def Failure.Within (failure : Failure) (slice : Slice) : Prop :=
  ∃ front shown back, slice.chars = front ++ (shown ++ back)
    ∧ failure.span.Covers shown (slice.start.past front)
    ∧ ((shown ++ back).head? = some '\n' → ∃ c ∈ front.getLast?, c ≠ '\r')

namespace Failure.Within

theorem of_start {failure : Failure} {slice : Slice} {shown back : List Char}
    (hchars : slice.chars = shown ++ back) (h : failure.span.Covers shown slice.start)
    (hhead : slice.chars.head? ≠ some '\n') : failure.Within slice :=
  ⟨[], shown, back, hchars, h, fun hfeed => absurd (hchars ▸ hfeed) hhead⟩

theorem trans {failure : Failure} {part slice : Slice} (h : failure.Within part)
    (hpart : part.Within slice) : failure.Within slice := by
  obtain ⟨front, shown, back, hchars, hspan, hplace⟩ := h
  obtain ⟨front', back', hchars', hstart, hback⟩ := hpart
  refine ⟨front' ++ front, shown, back ++ back', ?_, ?_, fun hfeed => ?_⟩
  · rw [hchars', hchars]
    simp only [List.append_assoc]
  · rw [Position.past_append, ← hstart]
    exact hspan
  · rw [← List.append_assoc] at hfeed
    cases hrest : shown ++ back with
    | nil =>
      rw [hrest] at hfeed
      exact absurd hfeed hback
    | cons d rest =>
      rw [hrest] at hfeed hplace
      obtain ⟨c, hc, hne⟩ := hplace hfeed
      exact ⟨c, List.mem_getLast?_append_of_mem_getLast? hc, hne⟩

end Failure.Within

/-- A failure at the first character of a slice. -/
theorem Slice.fail_within {slice : Slice} (hhead : slice.chars.head? ≠ some '\n') (cause : Cause) :
    (slice.fail cause).Within slice :=
  .of_start (List.take_append_drop 1 slice.chars).symm slice.point_covers hhead

/-! ### Blame -/

/-- The failure blames a parenthesis that is not closed, or one that closes nothing. -/
def Failure.Unpaired (failure : Failure) : Prop :=
  failure.cause = .unclosed ∨ failure.cause = .unmatched

/-- The failure shows characters of the slice, and if it blames a parenthesis, those of the slice do
not pair up. -/
structure Failure.RaisedIn (failure : Failure) (slice : Slice) : Prop where
  within : failure.Within slice
  unbalanced : failure.Unpaired → ¬Balanced slice.chars

namespace Failure.RaisedIn

variable {failure : Failure} {slice : Slice}

/-- What is left of a slice pairs up if the slice does. -/
theorem behind {rest : Slice} (h : failure.RaisedIn rest) (hrest : rest.RestOf slice) :
    failure.RaisedIn slice :=
  ⟨h.within.trans hrest.within,
    fun hunpaired hslice => h.unbalanced hunpaired (hrest.leaves.balanced_iff.mp hslice)⟩

/-- The inside of a group always pairs up. -/
theorem inside {opening interior rest : Slice} (h : failure.RaisedIn interior)
    (hfound : opening.group = .ok (interior, rest)) (hinterior : interior.Within opening) :
    failure.RaisedIn opening :=
  ⟨h.within.trans hinterior,
    fun hunpaired => absurd (Slice.balanced_of_group hfound).1 (h.unbalanced hunpaired)⟩

end Failure.RaisedIn

/-- A failure that blames something else. -/
theorem Slice.fail_raisedIn {slice : Slice} (hhead : slice.chars.head? ≠ some '\n') {cause : Cause}
    (hcause : cause ≠ .unclosed ∧ cause ≠ .unmatched) : (slice.fail cause).RaisedIn slice :=
  ⟨slice.fail_within hhead cause, fun hunpaired => (not_or.mpr hcause hunpaired).elim⟩

/-- A failure behind spacing. -/
theorem Slice.fail_skipSpacing_raisedIn (slice : Slice) {cause : Cause}
    (hcause : cause ≠ .unclosed ∧ cause ≠ .unmatched) :
    (slice.skipSpacing.fail cause).RaisedIn slice :=
  (fail_raisedIn slice.head?_skipSpacing hcause).behind slice.restOf_skipSpacing

/-- A failure of all that is not blank. -/
theorem Slice.failWhole_trimmed_raisedIn (slice : Slice) {cause : Cause}
    (hcause : cause ≠ .unclosed ∧ cause ≠ .unmatched) :
    (slice.skipSpacing.trimEnd.failWhole cause).RaisedIn slice := by
  have htrimmed : trimBlankEnd slice.skipSpacing.chars <+: slice.skipSpacing.chars :=
    List.rdropWhile_prefix isBlank slice.skipSpacing.chars
  obtain ⟨back, hchars⟩ := htrimmed
  have hspan := slice.skipSpacing.trimEnd.span_covers
  exact ⟨(Failure.Within.of_start hchars.symm hspan slice.head?_skipSpacing).trans
    slice.within_skipSpacing, fun hunpaired => (not_or.mpr hcause hunpaired).elim⟩

/-- Where a closing parenthesis is left, it closes nothing. -/
theorem Slice.unmatched_raisedIn {slice rest : Slice}
    (hnext : slice.skipSpacing.next? = some (')', rest)) :
    (slice.skipSpacing.fail .unmatched).RaisedIn slice := by
  refine Failure.RaisedIn.behind ⟨fail_within slice.head?_skipSpacing _, fun _ hbalanced => ?_⟩
    slice.restOf_skipSpacing
  rw [(next?_eq_some_iff.mp hnext).1] at hbalanced
  cases hbalanced

/-! ### Readers -/

/-- What is left of a slice stands behind text that fits, or the failure is one of the slice. -/
inductive ReadsWithin {α : Type} (slice : Slice) : Except Failure (α × Slice) → Prop
  | ok {value : α} {rest : Slice} (h : rest.RestOf slice) : ReadsWithin slice (.ok (value, rest))
  | error {failure : Failure} (h : failure.RaisedIn slice) : ReadsWithin slice (.error failure)

namespace ReadsWithin

variable {α β : Type} {part slice rest : Slice} {result : Except Failure (α × Slice)}

theorem behind (h : ReadsWithin part result) (hpart : part.RestOf slice) :
    ReadsWithin slice result := by
  cases h with
  | ok h => exact .ok (h.trans hpart)
  | error h => exact .error (h.behind hpart)

theorem map (h : ReadsWithin slice result) (f : α → β) :
    ReadsWithin slice (result.map fun found => (f found.1, found.2)) := by
  cases h with
  | ok h => exact .ok h
  | error h => exact .error h

theorem of_ok (h : ReadsWithin slice result) {value : α} (hresult : result = .ok (value, rest)) :
    rest.RestOf slice := by
  cases h with
  | ok h =>
    cases hresult
    exact h
  | error => cases hresult

theorem of_error (h : ReadsWithin slice result) {failure : Failure}
    (hresult : result = .error failure) : failure.RaisedIn slice := by
  cases h with
  | ok => cases hresult
  | error h =>
    cases hresult
    exact h

end ReadsWithin

/-! ### Parentheses -/

/-- What comes of looking for the parenthesis that closes a group, behind `inner` others that were
opened in it. -/
inductive ClosesGroup (opening : Slice) (inner : Nat) (here : Position) (chars : List Char) :
    Except Failure (List Char × Slice) → Prop
  | found {interior : List Char} {rest : Slice} (hchars : chars = interior ++ ')' :: rest.chars)
      (hstart : rest.start = here.past (interior ++ [')'])) :
      ClosesGroup opening inner here chars (.ok (interior, rest))
  | unclosed {after : Nat} (hopen : openAfter (inner + 1) chars = some (after + 1)) :
      ClosesGroup opening inner here chars (.error (opening.fail .unclosed))
  | tooDeep {failure : Failure} (h : failure.Within { start := here, chars := chars })
      (hcause : failure.cause = .tooDeep) : ClosesGroup opening inner here chars (.error failure)

theorem ClosesGroup.cons {opening : Slice} {inner next : Nat} {here : Position} {c : Char}
    {chars : List Char} {result : Except Failure (List Char × Slice)}
    (hnext : openAfter (inner + 1) [c] = some (next + 1))
    (h : ClosesGroup opening next (here.advance c) chars result) :
    ClosesGroup opening inner here (c :: chars)
      (result.map fun found => (c :: found.1, found.2)) := by
  cases h with
  | found hchars hstart => exact .found (congrArg (c :: ·) hchars) hstart
  | @unclosed after hopen =>
    have hall : openAfter (inner + 1) (c :: chars) = some (after + 1) := by
      rw [← List.singleton_append, openAfter_append, hnext]
      exact hopen
    exact .unclosed hall
  | tooDeep h hcause => exact .tooDeep (h.trans (.tail here c chars)) hcause

theorem closesGroup (opening : Slice) (inner : Nat) (here : Position) (chars : List Char) :
    ClosesGroup opening inner here chars (closeGroup opening inner here chars) := by
  induction chars generalizing inner here with
  | nil => exact .unclosed rfl
  | cons c chars ih =>
    unfold closeGroup
    split
    · rename_i hc
      subst hc
      split
      · exact (ih _ _).cons rfl
      · exact .tooDeep (Slice.fail_within (head?_cons_ne (by decide) _) _) rfl
    · rename_i hc
      split
      · rename_i hd
        subst hd
        split
        · exact .found rfl rfl
        · exact (ih _ _).cons rfl
      · rename_i hd
        exact (ih _ _).cons (openAfter_singleton hc hd)

/-- What comes of looking for a character outside parentheses, of which `depth` are open. -/
inductive FindsOutside (needle : Char) (depth : Nat) (here : Position) (chars : List Char) :
    Except Failure (Option (List Char × Slice)) → Prop
  | found {front : List Char} {rest : Slice} (hchars : chars = front ++ needle :: rest.chars)
      (hstart : rest.start = here.past (front ++ [needle]))
      (hopen : openAfter depth front = some 0) :
      FindsOutside needle depth here chars (.ok (some (front, rest)))
  | nothing : FindsOutside needle depth here chars (.ok none)
  | unmatched {failure : Failure} (h : failure.Within { start := here, chars := chars })
      (hnone : openAfter depth chars = none) :
      FindsOutside needle depth here chars (.error failure)

theorem FindsOutside.cons {needle : Char} {depth next : Nat} {here : Position} {c : Char}
    {chars : List Char} {result : Except Failure (Option (List Char × Slice))}
    (hnext : openAfter depth [c] = some next)
    (h : FindsOutside needle next (here.advance c) chars result) :
    FindsOutside needle depth here (c :: chars)
      (result.map fun found => found.map fun found => (c :: found.1, found.2)) := by
  have hcons : ∀ text, openAfter depth (c :: text) = openAfter next text := by
    intro text
    rw [← List.singleton_append, openAfter_append, hnext]
    rfl
  cases h with
  | found hchars hstart hopen =>
    exact .found (congrArg (c :: ·) hchars) hstart ((hcons _).trans hopen)
  | nothing => exact .nothing
  | unmatched h hnone => exact .unmatched (h.trans (.tail here c chars)) ((hcons _).trans hnone)

theorem findsOutside (needle : Char) (depth : Nat) (here : Position) (chars : List Char) :
    FindsOutside needle depth here chars (findOutside needle depth here chars) := by
  induction chars generalizing depth here with
  | nil => exact .nothing
  | cons c chars ih =>
    unfold findOutside
    split
    · rename_i hc
      subst hc
      exact (ih _ _).cons rfl
    · rename_i hc
      split
      · rename_i hd
        subst hd
        split
        · exact .unmatched (Slice.fail_within (head?_cons_ne (by decide) _) _) rfl
        · exact (ih _ _).cons rfl
      · rename_i hd
        split
        · rename_i hfound
          obtain ⟨rfl, rfl⟩ := hfound
          exact .found rfl rfl rfl
        · exact (ih _ _).cons (openAfter_singleton hc hd)

namespace Slice

/-- The inside of a group and what follows the group are parts of the slice that it begins. -/
theorem within_of_group {opening interior rest : Slice}
    (h : opening.group = .ok (interior, rest)) :
    interior.Within opening ∧ rest.Within opening := by
  unfold group at h
  split at h
  · cases h
  · rename_i c inside hnext
    have hinside := within_of_next? hnext
    have hcloses := closesGroup opening 0 inside.start inside.chars
    generalize closeGroup opening 0 inside.start inside.chars = result at hcloses h
    cases hcloses with
    | found hchars hstart =>
      cases h
      refine ⟨(Within.of_front hchars (head?_cons_ne (by decide) _)).trans hinside, ?_⟩
      refine Within.trans (Within.of_rest ?_ hstart) hinside
      rw [hchars, List.append_assoc, List.singleton_append]
    | unclosed => cases h
    | tooDeep => cases h

/-- A group that is not closed, or nests too deep, fails within the slice. In the first case the
slice does not pair up. -/
theorem raisedIn_of_group {opening inside : Slice} {failure : Failure}
    (hnext : opening.next? = some ('(', inside)) (h : opening.group = .error failure) :
    failure.RaisedIn opening := by
  have hchars := (next?_eq_some_iff.mp hnext).1
  have hhead : opening.chars.head? ≠ some '\n' := hchars ▸ head?_cons_ne (by decide) _
  unfold group at h
  rw [hnext] at h
  dsimp only at h
  have hcloses := closesGroup opening 0 inside.start inside.chars
  generalize closeGroup opening 0 inside.start inside.chars = result at hcloses h
  cases hcloses with
  | found => cases h
  | unclosed hopen =>
    cases h
    refine ⟨fail_within hhead _, fun _ hbalanced => ?_⟩
    rw [hchars] at hbalanced
    have hnone : openAfter 1 inside.chars = some 0 := hbalanced
    cases hnone.symm.trans hopen
  | tooDeep hfailure hcause =>
    cases h
    refine ⟨hfailure.trans (within_of_next? hnext), fun hunpaired => ?_⟩
    rcases hunpaired with hunclosed | hunmatched
    · cases hcause.symm.trans hunclosed
    · cases hcause.symm.trans hunmatched

/-- A slice that is split at a character has it between the two parts, and the first part pairs up
its parentheses. -/
theorem parts_of_splitOutside {slice front back : Slice} {needle : Char}
    (h : slice.splitOutside needle = .ok (some (front, back))) :
    slice.chars = front.chars ++ needle :: back.chars ∧ front.start = slice.start
      ∧ back.start = slice.start.past (front.chars ++ [needle]) ∧ Balanced front.chars := by
  unfold splitOutside at h
  obtain ⟨found, hfound, heq⟩ := map_eq_ok_iff.mp h
  obtain ⟨parts, rfl, heq⟩ := Option.map_eq_some_iff.mp heq
  cases heq
  have hfinds := findsOutside needle 0 slice.start slice.chars
  rw [hfound] at hfinds
  cases hfinds with
  | found hchars hstart hopen => exact ⟨hchars, rfl, hstart, hopen⟩

/-- What stands before and behind a character outside parentheses are parts of the slice. -/
theorem within_of_splitOutside {slice front back : Slice} {needle : Char} (hneedle : needle ≠ '\n')
    (h : slice.splitOutside needle = .ok (some (front, back))) :
    front.Within slice ∧ back.Within slice := by
  obtain ⟨hchars, hfront, hback, -⟩ := parts_of_splitOutside h
  refine ⟨⟨[], _, hchars, hfront, head?_cons_ne hneedle _⟩, .of_rest ?_ hback⟩
  rw [hchars, List.append_assoc, List.singleton_append]

/-- Both pair up if the slice does. -/
theorem balanced_of_splitOutside {slice front back : Slice} {needle : Char}
    (hplain : needle ≠ '(' ∧ needle ≠ ')')
    (h : slice.splitOutside needle = .ok (some (front, back))) (hslice : Balanced slice.chars) :
    Balanced front.chars ∧ Balanced back.chars := by
  obtain ⟨hchars, -, -, hopen⟩ := parts_of_splitOutside h
  rw [Balanced, hchars, openAfter_append, hopen] at hslice
  exact ⟨hopen, (openAfter_cons hplain.1 hplain.2 _).symm.trans hslice⟩

/-- The search fails only if the slice does not pair up. -/
theorem raisedIn_of_splitOutside {slice : Slice} {needle : Char} {failure : Failure}
    (h : slice.splitOutside needle = .error failure) : failure.RaisedIn slice := by
  unfold splitOutside at h
  have hfinds := findsOutside needle 0 slice.start slice.chars
  generalize findOutside needle 0 slice.start slice.chars = result at hfinds h
  cases hfinds with
  | found => cases h
  | nothing => cases h
  | unmatched hfailure hnone =>
    cases h
    exact ⟨hfailure, fun _ hbalanced => nomatch hnone.symm.trans hbalanced⟩

end Slice

end Diophantine
