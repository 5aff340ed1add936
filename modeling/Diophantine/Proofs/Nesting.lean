import Mathlib.Order.MinMax
import Diophantine.Group

/-!
# Nesting of parentheses

How many parentheses are open behind a text, and how many at once somewhere in it, said without
any of the scans that count them.

- `openAfter`, `peak`: the two counts, from a number of parentheses open before the text;
- `Balanced`, `nesting`, `Fits`: a text that pairs up by itself, how deep it goes, and that this is
  not too deep;
- `closeGroup_append`, `group_of_balanced`, `splitOutside_of_balanced`: the scans pass over
  balanced text as if it were not there, as long as it is not too deep for them.
-/

namespace Diophantine

/-! ### Counting -/

/-- The number of parentheses open behind a text, if `depth` are open before it. There is none if
one of them closes nothing. -/
def openAfter : Nat → List Char → Option Nat
  | depth, [] => some depth
  | depth, c :: text =>
    if c = '(' then openAfter (depth + 1) text
    else if c = ')' then
      match depth with
      | 0 => none
      | depth + 1 => openAfter depth text
    else openAfter depth text

/-- The largest number of parentheses open at once, if `depth` are open before the text. -/
def peak : Nat → List Char → Nat
  | depth, [] => depth
  | depth, c :: text =>
    if c = '(' then peak (depth + 1) text
    else if c = ')' then max depth (peak (depth - 1) text)
    else peak depth text

theorem le_peak (depth : Nat) (text : List Char) : depth ≤ peak depth text := by
  induction text generalizing depth with
  | nil => exact Nat.le_refl _
  | cons c text ih =>
    unfold peak
    split
    · exact Nat.le_of_succ_le (ih (depth + 1))
    · split
      · exact Nat.le_max_left _ _
      · exact ih depth

theorem openAfter_cons {depth : Nat} {c : Char} (hopen : c ≠ '(') (hclose : c ≠ ')')
    (text : List Char) : openAfter depth (c :: text) = openAfter depth text := by
  cases depth <;> simp only [openAfter, if_neg hopen, if_neg hclose]

theorem openAfter_singleton {depth : Nat} {c : Char} (hopen : c ≠ '(') (hclose : c ≠ ')') :
    openAfter depth [c] = some depth :=
  openAfter_cons hopen hclose []

@[simp] theorem openAfter_append (depth : Nat) (front back : List Char) :
    openAfter depth (front ++ back)
      = (openAfter depth front).bind fun depth => openAfter depth back := by
  induction front generalizing depth with
  | nil => rfl
  | cons c front ih =>
    simp only [List.cons_append, openAfter]
    split
    · exact ih (depth + 1)
    · split
      · cases depth with
        | zero => rfl
        | succ depth => exact ih depth
      · exact ih depth

theorem peak_append {depth after : Nat} {front : List Char}
    (h : openAfter depth front = some after) (back : List Char) :
    peak depth (front ++ back) = max (peak depth front) (peak after back) := by
  induction front generalizing depth with
  | nil =>
    obtain rfl : depth = after := Option.some.inj h
    exact (Nat.max_eq_right (le_peak depth back)).symm
  | cons c front ih =>
    simp only [List.cons_append, openAfter, peak] at h ⊢
    split at h
    · rename_i hc
      rw [if_pos hc, if_pos hc]
      exact ih h
    · rename_i hc
      rw [if_neg hc, if_neg hc]
      split at h
      · rename_i hd
        rw [if_pos hd, if_pos hd]
        cases depth with
        | zero => cases h
        | succ depth =>
          -- Before it closes, the parenthesis has been open at this depth.
          show max (depth + 1) (peak depth (front ++ back)) = _
          rw [ih h, Nat.max_assoc]
          rfl
      · rename_i hd
        rw [if_neg hd, if_neg hd]
        exact ih h

/-- Parentheses that are open around a text and stay so only shift its counts. -/
theorem openAfter_add {depth after : Nat} {text : List Char}
    (h : openAfter depth text = some after) (around : Nat) :
    openAfter (around + depth) text = some (around + after)
      ∧ peak (around + depth) text = around + peak depth text := by
  induction text generalizing depth with
  | nil =>
    obtain rfl : depth = after := Option.some.inj h
    exact ⟨rfl, rfl⟩
  | cons c text ih =>
    simp only [openAfter, peak] at h ⊢
    split at h
    · rename_i hc
      rw [if_pos hc, if_pos hc, if_pos hc]
      exact ih h
    · rename_i hc
      rw [if_neg hc, if_neg hc, if_neg hc]
      split at h
      · rename_i hd
        rw [if_pos hd, if_pos hd, if_pos hd]
        cases depth with
        | zero => cases h
        | succ depth =>
          obtain ⟨hopen, hpeak⟩ := ih h
          refine ⟨hopen, ?_⟩
          show max (around + (depth + 1)) (peak (around + depth) text)
            = around + max (depth + 1) (peak depth text)
          rw [hpeak]
          omega
      · rename_i hd
        rw [if_neg hd, if_neg hd, if_neg hd]
        exact ih h

/-- A text goes deeper if more parentheses are open before it. -/
theorem peak_mono {depth deeper : Nat} (h : depth ≤ deeper) (text : List Char) :
    peak depth text ≤ peak deeper text := by
  induction text generalizing depth deeper with
  | nil => exact h
  | cons c text ih =>
    unfold peak
    split
    · exact ih (Nat.add_le_add_right h 1)
    · split
      · exact max_le_max h (ih (Nat.sub_le_sub_right h 1))
      · exact ih h

theorem peak_le_append (depth : Nat) (front back : List Char) :
    peak depth front ≤ peak depth (front ++ back) := by
  induction front generalizing depth with
  | nil => exact le_peak depth back
  | cons c front ih =>
    simp only [List.cons_append, peak]
    split
    · exact ih (depth + 1)
    · split
      · exact max_le_max (Nat.le_refl depth) (ih (depth - 1))
      · exact ih depth

/-- What precedes a text can only make it go deeper. -/
theorem peak_zero_le_append (depth : Nat) (front back : List Char) :
    peak 0 back ≤ peak depth (front ++ back) := by
  induction front generalizing depth with
  | nil => exact peak_mono (Nat.zero_le depth) back
  | cons c front ih =>
    simp only [List.cons_append, peak]
    split
    · exact ih (depth + 1)
    · split
      · exact Nat.le_trans (ih (depth - 1)) (Nat.le_max_right ..)
      · exact ih depth

/-! ### Balanced text -/

/-- Every parenthesis of the text has its partner within the text. -/
def Balanced (text : List Char) : Prop :=
  openAfter 0 text = some 0

/-- How deep the parentheses of a text nest. -/
def nesting (text : List Char) : Nat :=
  peak 0 text

/-- A part of a text nests no deeper than the text. -/
theorem nesting_le_of_infix {part text : List Char} (h : part <:+: text) :
    nesting part ≤ nesting text := by
  obtain ⟨front, back, rfl⟩ := h
  exact Nat.le_trans (peak_zero_le_append 0 front part) (peak_le_append 0 (front ++ part) back)

namespace Balanced

theorem openAfter_eq {text : List Char} (h : Balanced text) (depth : Nat) :
    openAfter depth text = some depth :=
  (openAfter_add h depth).1

theorem peak_eq {text : List Char} (h : Balanced text) (depth : Nat) :
    peak depth text = depth + nesting text :=
  (openAfter_add h depth).2

theorem append {front back : List Char} (hf : Balanced front) (hb : Balanced back) :
    Balanced (front ++ back) := by
  show openAfter 0 (front ++ back) = some 0
  rw [openAfter_append, hf]
  exact hb

theorem nesting_append {front : List Char} (hf : Balanced front) (back : List Char) :
    nesting (front ++ back) = max (nesting front) (nesting back) :=
  peak_append hf back

/-- A text without parentheses pairs up, and has no depth. -/
theorem of_plain {text : List Char} (h : ∀ c ∈ text, c ≠ '(' ∧ c ≠ ')') :
    Balanced text ∧ nesting text = 0 := by
  induction text with
  | nil => exact ⟨rfl, rfl⟩
  | cons c text ih =>
    obtain ⟨hopen, hclose⟩ := h c (List.mem_cons_self ..)
    obtain ⟨hbal, hnest⟩ := ih fun d hd => h d (List.mem_cons_of_mem _ hd)
    refine ⟨?_, ?_⟩
    · show openAfter 0 (c :: text) = some 0
      rw [openAfter, if_neg hopen, if_neg hclose]
      exact hbal
    · show peak 0 (c :: text) = 0
      rw [peak, if_neg hopen, if_neg hclose]
      exact hnest

/-- A pair of parentheses around balanced text is one level more. -/
theorem group {inner : List Char} (h : Balanced inner) :
    Balanced ('(' :: (inner ++ [')'])) ∧ nesting ('(' :: (inner ++ [')'])) = nesting inner + 1 := by
  have hopen : openAfter 1 inner = some 1 := h.openAfter_eq 1
  refine ⟨?_, ?_⟩
  · show openAfter 1 (inner ++ [')']) = some 0
    rw [openAfter_append, hopen]
    rfl
  · show peak 1 (inner ++ [')']) = nesting inner + 1
    have hle : peak 1 [')'] ≤ peak 1 inner := le_peak 1 inner
    rw [peak_append hopen, Nat.max_eq_left hle, h.peak_eq 1, Nat.add_comm]

end Balanced

/-- The parentheses of the text pair up, and they nest no deeper than is allowed. -/
structure Fits (text : List Char) : Prop where
  balanced : Balanced text
  room : nesting text ≤ maxNesting

namespace Fits

theorem of_plain {text : List Char} (h : ∀ c ∈ text, c ≠ '(' ∧ c ≠ ')') : Fits text := by
  obtain ⟨hbal, hnest⟩ := Balanced.of_plain h
  exact ⟨hbal, hnest ▸ Nat.zero_le _⟩

theorem append {front back : List Char} (hf : Fits front) (hb : Fits back) :
    Fits (front ++ back) := by
  refine ⟨hf.balanced.append hb.balanced, ?_⟩
  rw [hf.balanced.nesting_append]
  exact Nat.max_le.mpr ⟨hf.room, hb.room⟩

theorem group {inner : List Char} (h : Balanced inner) (hroom : nesting inner < maxNesting) :
    Fits ('(' :: (inner ++ [')'])) :=
  ⟨h.group.1, h.group.2 ▸ hroom⟩

end Fits

/-! ### Scans over balanced text -/

/-- The search for a closing parenthesis passes over text that leaves the group open. `inner` others
are open throughout, so the text may go as deep as they leave room for. -/
theorem closeGroup_append {opening : Slice} {inner depth after : Nat} {here : Position}
    {text : List Char} (tail : List Char) (h : openAfter depth text = some after)
    (hroom : inner + peak depth text < maxNesting) :
    closeGroup opening (inner + depth) here (text ++ tail)
      = (closeGroup opening (inner + after) (here.past text) tail).map
          fun found => (text ++ found.1, found.2) := by
  induction text generalizing depth here with
  | nil =>
    obtain rfl : depth = after := Option.some.inj h
    show closeGroup opening (inner + depth) here tail
      = (closeGroup opening (inner + depth) here tail).map fun found => found
    cases closeGroup opening (inner + depth) here tail <;> rfl
  | cons c text ih =>
    -- Every step that goes on puts its character in front of what the rest of the text gives.
    have hcons : ∀ {depth : Nat}, openAfter depth text = some after →
        inner + peak depth text < maxNesting →
        (closeGroup opening (inner + depth) (here.advance c) (text ++ tail)).map
            (fun found => (c :: found.1, found.2))
          = (closeGroup opening (inner + after) ((here.advance c).past text) tail).map
              fun found => (c :: (text ++ found.1), found.2) := by
      intro depth h hroom
      rw [ih h hroom]
      cases closeGroup opening (inner + after) ((here.advance c).past text) tail <;> rfl
    simp only [List.cons_append, closeGroup, openAfter, peak, Position.past_cons] at h hroom ⊢
    split at h
    · rename_i hc
      rw [if_pos hc] at hroom ⊢
      -- The depth behind the parenthesis is part of the peak, so there is room for it.
      have hle := le_peak (depth + 1) text
      rw [if_pos (by omega)]
      exact hcons h hroom
    · rename_i hc
      rw [if_neg hc] at hroom ⊢
      split at h
      · rename_i hd
        rw [if_pos hd] at hroom ⊢
        cases depth with
        | zero => cases h
        | succ depth =>
          have hpeak : depth + 1 - 1 = depth := rfl
          rw [hpeak] at hroom
          exact hcons h (by omega)
      · rename_i hd
        rw [if_neg hd] at hroom ⊢
        exact hcons h hroom

/-- The search for a closing parenthesis fails within text that goes too deep for it. -/
theorem closeGroup_too_deep (opening : Slice) (here : Position) {inner depth after : Nat}
    {text : List Char} (tail : List Char) (h : openAfter depth text = some after)
    (hstart : inner + depth < maxNesting) (hdeep : maxNesting ≤ inner + peak depth text) :
    ∃ failure, closeGroup opening (inner + depth) here (text ++ tail) = .error failure := by
  induction text generalizing depth here with
  -- Without text, the peak is where the search starts, and there is room for that.
  | nil =>
    have hpeak : peak depth [] = depth := rfl
    omega
  | cons c text ih =>
    simp only [List.cons_append, closeGroup, openAfter, peak] at h hdeep ⊢
    split at h
    · rename_i hc
      rw [if_pos hc] at hdeep ⊢
      split
      · obtain ⟨failure, hf⟩ := ih (here.advance c) h (by omega) hdeep
        refine ⟨failure, ?_⟩
        rw [Nat.add_assoc, hf]
        rfl
      · exact ⟨_, rfl⟩
    · rename_i hc
      rw [if_neg hc] at hdeep ⊢
      split at h
      · rename_i hd
        rw [if_pos hd] at hdeep ⊢
        cases depth with
        | zero => cases h
        | succ depth =>
          have hpeak : depth + 1 - 1 = depth := rfl
          rw [hpeak] at hdeep
          obtain ⟨failure, hf⟩ := ih (here.advance c) h (by omega) (by omega)
          refine ⟨failure, ?_⟩
          show (closeGroup opening (inner + depth) (here.advance c) (text ++ tail)).map _ = _
          rw [hf]
          rfl
      · rename_i hd
        rw [if_neg hd] at hdeep ⊢
        obtain ⟨failure, hf⟩ := ih (here.advance c) h hstart hdeep
        refine ⟨failure, ?_⟩
        rw [hf]
        rfl

/-- Where a closing parenthesis is found, what stands before it closes whatever was opened, and goes
only as deep as the search does. -/
theorem openAfter_of_closeGroup {opening : Slice} {inner : Nat} {here : Position}
    {chars interior : List Char} {rest : Slice} (hinner : inner < maxNesting)
    (h : closeGroup opening inner here chars = .ok (interior, rest)) :
    openAfter inner interior = some 0 ∧ peak inner interior < maxNesting := by
  induction chars generalizing inner here interior with
  | nil => cases h
  | cons c chars ih =>
    simp only [closeGroup] at h
    split at h
    · rename_i hopen
      split at h
      · rename_i hroom
        obtain ⟨found, hfound, heq⟩ := map_eq_ok_iff.mp h
        cases heq
        simp only [openAfter, peak, if_pos hopen]
        exact ih hroom hfound
      · cases h
    · rename_i hopen
      split at h
      · rename_i hclose
        cases inner with
        | zero =>
          cases h
          exact ⟨rfl, hinner⟩
        | succ inner =>
          obtain ⟨found, hfound, heq⟩ := map_eq_ok_iff.mp h
          cases heq
          simp only [openAfter, peak, if_neg hopen, if_pos hclose]
          obtain ⟨hafter, hpeak⟩ := ih (Nat.lt_of_succ_lt hinner) hfound
          exact ⟨hafter, Nat.max_lt.mpr ⟨hinner, hpeak⟩⟩
      · rename_i hclose
        obtain ⟨found, hfound, heq⟩ := map_eq_ok_iff.mp h
        cases heq
        simp only [openAfter, peak, if_neg hopen, if_neg hclose]
        exact ih hinner hfound

namespace Slice

/-- A group of balanced text that is not too deep is found whole. -/
theorem group_of_balanced {here : Position} {inner : List Char} (tail : List Char)
    (h : Balanced inner) (hroom : nesting inner < maxNesting) :
    group { start := here, chars := '(' :: (inner ++ ')' :: tail) }
      = .ok ({ start := here.advance '(', chars := inner },
          { start := here.past ('(' :: (inner ++ [')'])), chars := tail }) := by
  show (closeGroup _ (0 + 0) (here.advance '(') (inner ++ ')' :: tail)).map _ = _
  rw [closeGroup_append (')' :: tail) h (by rw [Nat.zero_add]; exact hroom)]
  show Except.ok (Slice.mk (here.advance '(') (inner ++ []),
    Slice.mk (((here.advance '(').past inner).advance ')') tail) = _
  rw [List.append_nil, Position.past_cons, Position.past_append]
  rfl

/-- A group of balanced text that is too deep is not found. -/
theorem group_too_deep (here : Position) {inner : List Char} (tail : List Char)
    (h : Balanced inner) (hdeep : maxNesting ≤ nesting inner) :
    ∃ failure,
      group { start := here, chars := '(' :: (inner ++ ')' :: tail) } = .error failure := by
  have hstart : 0 + 0 < maxNesting := by decide
  obtain ⟨failure, hf⟩ := closeGroup_too_deep
    { start := here, chars := '(' :: (inner ++ ')' :: tail) } (here.advance '(') (')' :: tail) h
    hstart (by rw [Nat.zero_add]; exact hdeep)
  refine ⟨failure, ?_⟩
  show (closeGroup _ (0 + 0) (here.advance '(') (inner ++ ')' :: tail)).map _ = _
  rw [hf]
  rfl

/-- A group that is found behind a parenthesis begins with it. -/
theorem chars_eq_of_open_group {opening inside interior rest : Slice} {c : Char}
    (hnext : opening.next? = some (c, inside)) (hfound : opening.group = .ok (interior, rest)) :
    opening.chars = c :: (interior.chars ++ ')' :: rest.chars) := by
  obtain ⟨d, hchars⟩ := chars_eq_of_group hfound
  have hhead := congrArg List.head? (hchars.symm.trans (next?_eq_some_iff.mp hnext).1)
  obtain rfl : d = c := Option.some.inj hhead
  exact hchars

/-- The inside of a group that is found is balanced, and there is room for it. -/
theorem balanced_of_group {opening interior rest : Slice}
    (hfound : opening.group = .ok (interior, rest)) :
    Balanced interior.chars ∧ nesting interior.chars < maxNesting := by
  unfold group at hfound
  split at hfound
  · cases hfound
  · rename_i c inside hnext
    obtain ⟨found, hclose, heq⟩ := map_eq_ok_iff.mp hfound
    cases heq
    exact openAfter_of_closeGroup (by decide) hclose

end Slice

/-- The search for a sign outside parentheses passes over balanced text without the sign. -/
theorem findOutside_append {needle : Char} {depth after : Nat} {here : Position}
    {text : List Char} (tail : List Char) (h : openAfter depth text = some after)
    (habsent : needle ∉ text) :
    findOutside needle depth here (text ++ tail)
      = (findOutside needle after (here.past text) tail).map fun found =>
          found.map fun found => (text ++ found.1, found.2) := by
  induction text generalizing depth here with
  | nil =>
    obtain rfl : depth = after := Option.some.inj h
    show findOutside needle depth here tail
      = (findOutside needle depth here tail).map fun found => found.map id
    rcases findOutside needle depth here tail with failure | (_ | found) <;> rfl
  | cons c text ih =>
    have hne : needle ≠ c := fun heq => habsent (heq ▸ List.mem_cons_self ..)
    have habsent : needle ∉ text := fun hmem => habsent (List.mem_cons_of_mem _ hmem)
    have hcons : ∀ {depth : Nat}, openAfter depth text = some after →
        (findOutside needle depth (here.advance c) (text ++ tail)).map
            (fun found => found.map fun found => (c :: found.1, found.2))
          = (findOutside needle after ((here.advance c).past text) tail).map fun found =>
              found.map fun found => (c :: (text ++ found.1), found.2) := by
      intro depth h
      rw [ih h habsent]
      rcases findOutside needle after ((here.advance c).past text) tail with
        failure | (_ | found) <;> rfl
    simp only [List.cons_append, findOutside, openAfter, Position.past_cons] at h ⊢
    split at h
    · rename_i hc
      rw [if_pos hc]
      exact hcons h
    · rename_i hc
      rw [if_neg hc]
      split at h
      · rename_i hd
        rw [if_pos hd]
        cases depth with
        | zero => cases h
        | succ depth => exact hcons h
      · rename_i hd
        rw [if_neg hd, if_neg (fun hand => hne hand.2.symm)]
        exact hcons h

/-- A slice is split at the first sign that follows balanced text without it. -/
theorem Slice.splitOutside_of_balanced {needle : Char} {here : Position} {front : List Char}
    (back : List Char) (h : Balanced front) (habsent : needle ∉ front)
    (hopen : needle ≠ '(') (hclose : needle ≠ ')') :
    Slice.splitOutside { start := here, chars := front ++ needle :: back } needle
      = .ok (some ({ start := here, chars := front },
          { start := here.past (front ++ [needle]), chars := back })) := by
  show (findOutside needle 0 here (front ++ needle :: back)).map _ = _
  rw [findOutside_append (needle :: back) h habsent]
  simp only [findOutside, if_neg hopen, if_neg hclose, true_and, if_true]
  show Except.ok (some (Slice.mk here (front ++ []),
    Slice.mk ((here.past front).advance needle) back)) = _
  rw [List.append_nil, Position.past_append]
  rfl

end Diophantine
