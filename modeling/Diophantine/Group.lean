import Diophantine.Failure

/-!
# Parentheses

Looking ahead over parentheses comes before reading what is in them. Both scans of this module walk
over a slice and count the parentheses that are open; neither reads anything else.

* `Slice.group` finds the parenthesis that closes the one at the beginning of a slice. It is also
  what bounds the nesting: a group is refused before anything inside it is read.
* `Slice.splitOutside` splits a slice at the first of some character that stands outside all
  parentheses.
* `Slice.compares` looks for a comparison sign anywhere.
-/

namespace Diophantine

/-- Walks to the parenthesis that closes `opening`, over `inner` others that were opened since and
are open still. Gives what stands before it and the slice after it. -/
def closeGroup (opening : Slice) (inner : Nat) (here : Position) :
    List Char → Except Failure (List Char × Slice)
  | [] => .error (opening.fail .unclosed)
  | c :: chars =>
    if c = '(' then
      -- The group itself and `inner` others are open; this one would be the next.
      if inner + 1 < maxNesting then
        (closeGroup opening (inner + 1) (here.advance c) chars).map fun found =>
          (c :: found.1, found.2)
      else .error (Slice.fail { start := here, chars := c :: chars } .tooDeep)
    else if c = ')' then
      match inner with
      | 0 => .ok ([], { start := here.advance c, chars := chars })
      | inner + 1 =>
        (closeGroup opening inner (here.advance c) chars).map fun found =>
          (c :: found.1, found.2)
    else
      (closeGroup opening inner (here.advance c) chars).map fun found => (c :: found.1, found.2)

/-- Walks to the first `needle` outside parentheses, of which `depth` are open. Gives what stands
before it and the slice after it. -/
def findOutside (needle : Char) (depth : Nat) (here : Position) :
    List Char → Except Failure (Option (List Char × Slice))
  | [] => .ok none
  | c :: chars =>
    if c = '(' then
      (findOutside needle (depth + 1) (here.advance c) chars).map fun found =>
        found.map fun found => (c :: found.1, found.2)
    else if c = ')' then
      match depth with
      | 0 => .error (Slice.fail { start := here, chars := c :: chars } .unmatched)
      | depth + 1 =>
        (findOutside needle depth (here.advance c) chars).map fun found =>
          found.map fun found => (c :: found.1, found.2)
    else if depth = 0 ∧ c = needle then
      -- What follows is not looked at, so a failure further on does not show here.
      .ok (some ([], { start := here.advance c, chars := chars }))
    else
      (findOutside needle depth (here.advance c) chars).map fun found =>
        found.map fun found => (c :: found.1, found.2)

namespace Slice

/-- The inside of the group that a slice begins with, and the slice after the group. -/
def group (opening : Slice) : Except Failure (Slice × Slice) :=
  match opening.next? with
  | none => .error (opening.fail .unclosed)
  | some (_, inside) =>
    (closeGroup opening 0 inside.start inside.chars).map fun found =>
      ({ inside with chars := found.1 }, found.2)

/-- The slices before and after the first `needle` outside parentheses, if there is one. A
parenthesis that closes nothing before it is a failure. -/
def splitOutside (slice : Slice) (needle : Char) : Except Failure (Option (Slice × Slice)) :=
  (findOutside needle 0 slice.start slice.chars).map fun found =>
    found.map fun found => ({ slice with chars := found.1 }, found.2)

/-- Whether a comparison sign stands anywhere in a slice. -/
def compares (slice : Slice) : Bool :=
  slice.chars.any fun c => c == '<' || c == '>'

end Slice

/-- A group that is closed consists of what was found before and after its closing parenthesis. -/
theorem eq_append_of_closeGroup {opening : Slice} {inner : Nat} {here : Position}
    {chars interior : List Char} {rest : Slice}
    (h : closeGroup opening inner here chars = .ok (interior, rest)) :
    chars = interior ++ ')' :: rest.chars := by
  induction chars generalizing inner here interior with
  | nil => simp [closeGroup] at h
  | cons c chars ih =>
    have step : ∀ {inner : Nat} {here : Position},
        (closeGroup opening inner here chars).map (fun found => (c :: found.1, found.2))
          = .ok (interior, rest) → c :: chars = interior ++ ')' :: rest.chars := by
      intro inner here h
      obtain ⟨found, hfound, heq⟩ := map_eq_ok_iff.mp h
      obtain ⟨rfl, rfl⟩ := Prod.mk.inj heq
      simpa using ih hfound
    unfold closeGroup at h
    split at h
    · split at h
      · exact step h
      · cases h
    · split at h
      · split at h
        · cases h
          simp_all
        · exact step h
      · exact step h

/-- A slice begins with a group that consists of its opening parenthesis, its inside and its
closing parenthesis. -/
theorem chars_eq_of_group {opening interior rest : Slice}
    (h : opening.group = .ok (interior, rest)) :
    ∃ c, opening.chars = c :: (interior.chars ++ ')' :: rest.chars) := by
  unfold Slice.group at h
  split at h
  · cases h
  · rename_i c inside next
    obtain ⟨found, hfound, heq⟩ := map_eq_ok_iff.mp h
    obtain ⟨rfl, rfl⟩ := Prod.mk.inj heq
    exact ⟨c, by rw [(Slice.next?_eq_some_iff.mp next).1, eq_append_of_closeGroup hfound]⟩

/-- The inside of a group is shorter than the slice that begins with the group. -/
theorem length_interior_of_group {opening interior rest : Slice}
    (h : opening.group = .ok (interior, rest)) :
    interior.chars.length < opening.chars.length := by
  obtain ⟨c, eq⟩ := chars_eq_of_group h
  simp only [eq, List.length_cons, List.length_append]
  omega

/-- What follows a group is shorter than the slice that begins with the group. -/
theorem length_rest_of_group {opening interior rest : Slice}
    (h : opening.group = .ok (interior, rest)) :
    rest.chars.length < opening.chars.length := by
  obtain ⟨c, eq⟩ := chars_eq_of_group h
  simp only [eq, List.length_cons, List.length_append]
  omega

end Diophantine
