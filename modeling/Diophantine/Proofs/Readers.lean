import Diophantine.Proofs.Lines
import Diophantine.Reader

/-!
# Readers stay inside their text

Whatever a reader is made of, it only ever looks at the end of the slice that it was given: what it
leaves is a slice that follows some characters it took. That is one fact for each of the primitive
readers and one for each way to compose them, and the repetition carries it from step to step.

The runs inside a run are those that the interpreter makes: a second alternative starts again where
the first one has failed, a continuation where the first reader stopped, and a repetition where the
last step did. Each of them therefore stands in the same text, and the offsets that `recognize`
subtracts are in order.

- `Slice.Follows`, `Slice.Ends`: a slice behind another one, and at the end of a text;
- `Reader.follows_of_read`: what a reader leaves follows what it takes;
- `Reader.GivesTaken`, `start_and_chars_of_givesTaken`: the readers whose value is what they took;
- `Reader.Runs`, `Reader.follows_of_runs`: the runs inside a run;
- `Reader.stays_inside`: every run inside a run stays inside the text.
-/

namespace Diophantine

/-! ### Slices behind each other -/

/-- A number of bytes holds the characters that take up as many. -/
@[simp] theorem takeBytes_byteLength (front back : List Char) :
    takeBytes (byteLength front) (front ++ back) = front := by
  induction front with
  | nil =>
    cases back with
    | nil => rfl
    | cons c back =>
      have hc : ¬ c.utf8Size ≤ byteLength [] := Nat.not_le.mpr c.utf8Size_pos
      rw [List.nil_append, takeBytes, if_neg hc]
  | cons c front ih =>
    have hroom : c.utf8Size ≤ byteLength (c :: front) := Nat.le_add_right _ _
    have hback : byteLength (c :: front) - c.utf8Size = byteLength front :=
      Nat.add_sub_cancel_left ..
    rw [List.cons_append, takeBytes, if_pos hroom, hback, ih]

namespace Slice

/-- A slice is what is left of another one when some characters are taken from its beginning. -/
structure Follows (rest : Slice) (taken : List Char) (slice : Slice) : Prop where
  chars_eq : slice.chars = taken ++ rest.chars
  start_eq : rest.start = slice.start.past taken

variable {slice middle rest : Slice} {taken front back : List Char}

theorem Follows.refl (slice : Slice) : slice.Follows [] slice :=
  ⟨rfl, rfl⟩

theorem Follows.trans (hfront : middle.Follows front slice) (hback : rest.Follows back middle) :
    rest.Follows (front ++ back) slice where
  chars_eq := by rw [hfront.chars_eq, hback.chars_eq, List.append_assoc]
  start_eq := by rw [hback.start_eq, hfront.start_eq, Position.past_append]

theorem Follows.isSuffix (h : rest.Follows taken slice) : rest.chars <:+ slice.chars :=
  ⟨taken, h.chars_eq.symm⟩

theorem Follows.offset_eq (h : rest.Follows taken slice) :
    rest.start.offset = slice.start.offset + byteLength taken := by
  rw [h.start_eq, Position.offset_past]

/-- The part of a slice in front of what follows it is what was taken. -/
theorem Follows.upTo_eq (h : rest.Follows taken slice) :
    slice.upTo rest.start.offset = { slice with chars := taken } := by
  rw [upTo, h.offset_eq, Nat.add_sub_cancel_left, h.chars_eq, takeBytes_byteLength]

theorem follows_of_next? {slice rest : Slice} {c : Char} (h : slice.next? = some (c, rest)) :
    rest.Follows [c] slice :=
  ⟨(next?_eq_some_iff.mp h).1, (next?_eq_some_iff.mp h).2⟩

/-- A slice is the end of a text: it begins between two characters of the text, and its position
counts the bytes, the lines and the columns in front of it. -/
def Ends (slice : Slice) (text : List Char) : Prop :=
  ∃ before, text = before ++ slice.chars ∧
    slice.start.offset = (String.ofList before).utf8ByteSize ∧
    slice.start.line = 1 + before.count '\n' ∧
    slice.start.column = 1 + (lastLine before).length

theorem ends_past_ofChars (before behind : List Char) :
    ((ofChars (before ++ behind)).past before behind).Ends (before ++ behind) :=
  ⟨before, rfl, Position.offset_past_origin before, Position.line_past before,
    Position.column_past before⟩

/-- What follows the place `before` in a text is the end of this text. -/
theorem Follows.ends {before behind : List Char}
    (h : rest.Follows taken ((ofChars (before ++ behind)).past before behind)) :
    rest.Ends (before ++ behind) := by
  obtain ⟨start, chars⟩ := rest
  obtain rfl : behind = taken ++ chars := h.chars_eq
  obtain rfl : start = Position.origin.past (before ++ taken) :=
    h.start_eq.trans (Position.past_append ..).symm
  rw [← List.append_assoc]
  exact ends_past_ofChars (before ++ taken) chars

end Slice

namespace Reader

/-! ### What a reader leaves -/

/-- The part of the slice that is as long as the text is the text, where the slice begins. -/
theorem of_read_literal {text : List Char} {slice span rest : Slice}
    (h : (literal text).read slice = some (span, rest)) :
    span = { slice with chars := text } ∧ rest.Follows text slice := by
  rw [read] at h
  split at h
  · cases h
  · rename_i hafter
    cases h
    obtain ⟨hchars, hstart⟩ := afterText_eq_some_iff.mp hafter
    have hfollows : rest.Follows text slice := ⟨hchars, hstart⟩
    refine ⟨?_, hfollows⟩
    rw [← hfollows.offset_eq]
    exact hfollows.upTo_eq

/-- A look-ahead takes nothing. -/
theorem eq_of_read_notFollowedBy {reject : Char → Bool} {slice rest : Slice} {value : Unit}
    (h : (notFollowedBy reject).read slice = some (value, rest)) : rest = slice := by
  rw [read] at h
  split at h
  · cases h
    rfl
  · split at h
    · cases h
    · cases h
      rfl

/-- A repetition leaves what follows all of its steps. -/
theorem follows_of_repeatStep {α : Type} {step : Slice → Option (α × Slice)}
    (hstep : ∀ {slice rest value}, step slice = some (value, rest) →
      ∃ taken, rest.Follows taken slice)
    {fuel : Nat} {slice rest : Slice} {values : List α}
    (h : repeatStep step fuel slice = some (values, rest)) : ∃ taken, rest.Follows taken slice := by
  induction fuel generalizing slice values with
  | zero => cases h
  | succ fuel ih =>
    rw [repeatStep] at h
    split at h
    · cases h
      exact ⟨[], Slice.Follows.refl _⟩
    · rename_i value behind hfirst
      obtain ⟨front, hfront⟩ := hstep hfirst
      split at h
      · cases h
      · split at h
        · cases h
        · rename_i more last hmore
          cases h
          obtain ⟨back, hback⟩ := ih hmore
          exact ⟨front ++ back, hfront.trans hback⟩

/-- What a reader leaves follows what it took. -/
theorem follows_of_read {α : Type} {reader : Reader α} {slice rest : Slice} {value : α}
    (h : reader.read slice = some (value, rest)) : ∃ taken, rest.Follows taken slice := by
  induction reader generalizing slice rest with
  | pure =>
    cases h
    exact ⟨[], Slice.Follows.refl slice⟩
  | never => cases h
  | item => exact ⟨_, Slice.follows_of_next? h⟩
  | satisfy accept =>
    rw [read] at h
    split at h
    · cases h
    · rename_i hnext
      split at h
      · cases h
        exact ⟨_, Slice.follows_of_next? hnext⟩
      · cases h
  | literal text => exact ⟨text, (of_read_literal h).2⟩
  | notFollowedBy reject =>
    rw [eq_of_read_notFollowedBy h]
    exact ⟨[], Slice.Follows.refl slice⟩
  | orElse first second ihfirst ihsecond =>
    rw [read] at h
    split at h
    · exact ihsecond h
    · rename_i hfirst
      cases h
      exact ihfirst hfirst
  | bind first next ihfirst ihnext =>
    rw [read] at h
    split at h
    · cases h
    · rename_i selected middle hfirst
      obtain ⟨front, hfront⟩ := ihfirst hfirst
      obtain ⟨back, hback⟩ := ihnext selected h
      exact ⟨front ++ back, hfront.trans hback⟩
  | many body ih => exact follows_of_repeatStep (fun hbody => ih hbody) h
  | recognize body ih =>
    rw [read] at h
    split at h
    · cases h
    · rename_i hbody
      cases h
      exact ih hbody

/-! ### Readers that give what they took -/

/-- The readers whose value is a part of the text. -/
inductive GivesTaken : Reader Slice → Prop
  | literal (text : List Char) : GivesTaken (literal text)
  | keyword (word : List Char) : GivesTaken (keyword word)
  | recognize {α : Type} (body : Reader α) : GivesTaken (recognize body)

theorem of_read_keyword {word : List Char} {slice span rest : Slice}
    (h : (keyword word).read slice = some (span, rest)) :
    span = { slice with chars := word } ∧ rest.Follows word slice := by
  rw [keyword, read] at h
  split at h
  · cases h
  · rename_i matched behind hliteral
    obtain ⟨rfl, hfollows⟩ := of_read_literal hliteral
    rw [map, read] at h
    split at h
    · cases h
    · rename_i hahead
      cases h
      rw [eq_of_read_notFollowedBy hahead]
      exact ⟨rfl, hfollows⟩

/-- What is given begins where the slice does, and what is left comes behind it. -/
theorem start_and_chars_of_givesTaken {reader : Reader Slice} (hgives : reader.GivesTaken)
    {slice span rest : Slice} (h : reader.read slice = some (span, rest)) :
    span.start = slice.start ∧ slice.chars = span.chars ++ rest.chars := by
  cases hgives with
  | literal text =>
    obtain ⟨rfl, hfollows⟩ := of_read_literal h
    exact ⟨rfl, hfollows.chars_eq⟩
  | keyword word =>
    obtain ⟨rfl, hfollows⟩ := of_read_keyword h
    exact ⟨rfl, hfollows.chars_eq⟩
  | recognize body =>
    rw [read] at h
    split at h
    · cases h
    · rename_i hbody
      cases h
      obtain ⟨taken, hfollows⟩ := follows_of_read hbody
      rw [hfollows.upTo_eq]
      exact ⟨rfl, hfollows.chars_eq⟩

/-! ### Runs inside a run -/

/-- The runs that are made while a reader runs on a slice: `outer.Runs slice inner place` says that
`inner` is run on the slice `place`. -/
inductive Runs : {α β : Type} → Reader α → Slice → Reader β → Slice → Prop
  | here {α : Type} (reader : Reader α) (slice : Slice) : Runs reader slice reader slice
  | first {α β : Type} {first second : Reader α} {inner : Reader β} {slice place : Slice}
      (hruns : Runs first slice inner place) : Runs (first.orElse second) slice inner place
  | second {α β : Type} {first second : Reader α} {inner : Reader β} {slice place : Slice}
      (hfirst : first.read slice = none) (hruns : Runs second slice inner place) :
      Runs (first.orElse second) slice inner place
  | front {α β γ : Type} {first : Reader α} {next : α → Reader β} {inner : Reader γ}
      {slice place : Slice} (hruns : Runs first slice inner place) :
      Runs (first.bind next) slice inner place
  | behind {α β γ : Type} {first : Reader α} {next : α → Reader β} {inner : Reader γ}
      {slice rest place : Slice} {value : α} (hfirst : first.read slice = some (value, rest))
      (hruns : Runs (next value) rest inner place) : Runs (first.bind next) slice inner place
  | step {α β : Type} {body : Reader α} {inner : Reader β} {slice place : Slice}
      (hruns : Runs body slice inner place) : Runs body.many slice inner place
  | again {α β : Type} {body : Reader α} {inner : Reader β} {slice rest place : Slice} {value : α}
      (hbody : body.read slice = some (value, rest))
      (hmoved : rest.start.offset ≠ slice.start.offset)
      (hruns : Runs body.many rest inner place) : Runs body.many slice inner place
  | inside {α β : Type} {body : Reader α} {inner : Reader β} {slice place : Slice}
      (hruns : Runs body slice inner place) : Runs body.recognize slice inner place

/-- A run inside a run begins somewhere behind the beginning of the outer one. -/
theorem follows_of_runs {α β : Type} {outer : Reader α} {inner : Reader β} {slice place : Slice}
    (h : outer.Runs slice inner place) : ∃ taken, place.Follows taken slice := by
  induction h with
  | here _ slice => exact ⟨[], Slice.Follows.refl slice⟩
  | first _ ih | second _ _ ih | front _ ih | step _ ih | inside _ ih => exact ih
  | behind hread _ ih | again hread _ _ ih =>
    obtain ⟨front, hfront⟩ := follows_of_read hread
    obtain ⟨back, hback⟩ := ih
    exact ⟨front ++ back, hfront.trans hback⟩

/-- Every run inside a run of a reader stays inside the text: it starts at a place of the text and
leaves the end of this text, which begins no earlier. On whichever slice it is run, a reader whose
value is a part of the text gives exactly what it took. -/
theorem stays_inside {α : Type} (outer : Reader α) (before behind : List Char) :
    (∀ {β : Type} {inner : Reader β} {slice rest : Slice} {value : β},
      outer.Runs ((Slice.ofChars (before ++ behind)).past before behind) inner slice →
      inner.read slice = some (value, rest) →
        slice.Ends (before ++ behind) ∧ rest.Ends (before ++ behind) ∧
          rest.chars <:+ slice.chars ∧ slice.start.offset ≤ rest.start.offset) ∧
    ∀ {inner : Reader Slice} {slice span rest : Slice},
      inner.GivesTaken → inner.read slice = some (span, rest) →
        span.start = slice.start ∧ slice.chars = span.chars ++ rest.chars := by
  constructor
  · intro β inner slice rest value hruns hread
    obtain ⟨front, hfront⟩ := follows_of_runs hruns
    obtain ⟨back, hback⟩ := follows_of_read hread
    have horder : slice.start.offset ≤ rest.start.offset := by
      rw [hback.offset_eq]
      exact Nat.le_add_right _ _
    exact ⟨hfront.ends, (hfront.trans hback).ends, hback.isSuffix, horder⟩
  · intro inner slice span rest hgives hread
    exact start_and_chars_of_givesTaken hgives hread

/-- The digits behind an accented letter, in the second line of a text. -/
theorem digits_stay_inside :
    let digits := recognize (many1 (satisfy Char.isDigit))
    let text := ['a', '\n', 'é', '1', '2', ';']
    let place : Slice :=
      { start := { offset := 4, line := 2, column := 2 }, chars := ['1', '2', ';'] }
    let rest : Slice := { start := { offset := 6, line := 2, column := 4 }, chars := [';'] }
    digits.read place = some ({ place with chars := ['1', '2'] }, rest) ∧
      (place.Ends text ∧ rest.Ends text ∧ rest.chars <:+ place.chars ∧
        place.start.offset ≤ rest.start.offset) ∧
      place.chars = ['1', '2'] ++ rest.chars := by
  intro digits text place rest
  have hliteral : (literal ['é']).read
      ((Slice.ofChars text).past ['a', '\n'] ['é', '1', '2', ';']) =
        some ({ start := { offset := 2, line := 2, column := 1 }, chars := ['é'] }, place) := rfl
  have hread : digits.read place = some ({ place with chars := ['1', '2'] }, rest) := by
    decide +kernel
  have hruns : ((literal ['é']).andThen digits).Runs
      ((Slice.ofChars text).past ['a', '\n'] ['é', '1', '2', ';']) digits place :=
    .behind hliteral (.here digits place)
  have hinside := stays_inside ((literal ['é']).andThen digits) ['a', '\n'] ['é', '1', '2', ';']
  exact ⟨hread, hinside.1 hruns hread, (hinside.2 (.recognize _) hread).2⟩

end Reader

end Diophantine
