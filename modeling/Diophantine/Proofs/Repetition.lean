import Diophantine.Proofs.Readers

/-!
# Repetition

A repetition runs its body again and again, each time where the last run stopped, and ends in one of
two ways: the body fails, or it succeeds without taking anything. In the first case the values of
all runs are given, and in the second case there is nothing, as the runs would go on for ever. One
of the two is reached whatever the body is made of, since every other run takes at least one
character.

So the bound on the number of runs that the interpreter is given has no part in the result: any
bound above the number of characters will do. The loop is then the same as its recursive
description, where the body is followed by the repetition, or nothing is read.

- `Reader.IdlesOn`, `Reader.Advances`: a run that takes nothing, and a series of runs that all do;
- `Reader.repeatCounted`: the repetition, with the number of runs;
- `Reader.exists_advances`, `Reader.exists_runs`: every series of runs comes to an end;
- `Reader.read_many_eq_some_iff`, `Reader.read_many_eq_none_iff`: which end has which result;
- `Reader.repeats_greedily`: what a repetition does on any slice.
-/

namespace Diophantine

theorem Slice.eq_of_follows_nil {slice rest : Slice} (h : rest.Follows [] slice) :
    rest = slice := by
  obtain ⟨start, chars⟩ := rest
  obtain ⟨start', chars'⟩ := slice
  obtain rfl : chars' = chars := h.chars_eq
  obtain rfl : start = start' := h.start_eq
  rfl

namespace Reader

/-! ### Runs that take something -/

variable {α : Type} {body : Reader α} {slice place rest : Slice}

/-- A reader idles on a slice: it succeeds there and takes nothing. -/
def IdlesOn (body : Reader α) (slice : Slice) : Prop :=
  ∃ value, body.read slice = some (value, slice)

/-- A series of runs: each begins where the one before it stopped, and takes something. They begin
on the first slice, read the values and leave the last slice. -/
inductive Advances (body : Reader α) : Slice → List α → Slice → Prop
  | start (slice : Slice) : Advances body slice [] slice
  | run {slice middle rest : Slice} {value : α} {values : List α}
      (hread : body.read slice = some (value, middle)) (hmoved : middle ≠ slice)
      (hmore : Advances body middle values rest) : Advances body slice (value :: values) rest

/-- Comparing offsets tells whether anything was taken. -/
theorem offset_eq_iff_of_read {value : α} (h : body.read slice = some (value, rest)) :
    rest.start.offset = slice.start.offset ↔ rest = slice := by
  constructor
  · intro hoffset
    obtain ⟨taken, hfollows⟩ := follows_of_read h
    rw [hfollows.offset_eq] at hoffset
    cases taken with
    | nil => exact Slice.eq_of_follows_nil hfollows
    | cons c taken =>
      have hpos := c.utf8Size_pos
      rw [byteLength_cons] at hoffset
      omega
  · rintro rfl
    rfl

/-- What is left after something was taken is shorter. -/
theorem length_lt_of_read {value : α} (h : body.read slice = some (value, rest))
    (hmoved : rest ≠ slice) : rest.chars.length < slice.chars.length := by
  obtain ⟨taken, hfollows⟩ := follows_of_read h
  cases taken with
  | nil => exact absurd (Slice.eq_of_follows_nil hfollows) hmoved
  | cons c taken =>
    rw [hfollows.chars_eq, List.length_append, List.length_cons]
    omega

/-- There are no more runs in a series than characters that it takes. -/
theorem Advances.length_le {values : List α} (h : body.Advances slice values place) :
    values.length + place.chars.length ≤ slice.chars.length := by
  induction h with
  | start => simp
  | run hread hmoved _ ih =>
    have hlt := length_lt_of_read hread hmoved
    rw [List.length_cons]
    omega

/-- A series of runs goes on to a place behind its beginning. -/
theorem Advances.follows {values : List α} (h : body.Advances slice values place) :
    ∃ taken, place.Follows taken slice := by
  induction h with
  | start slice => exact ⟨[], Slice.Follows.refl slice⟩
  | run hread _ _ ih =>
    obtain ⟨front, hfront⟩ := follows_of_read hread
    obtain ⟨back, hback⟩ := ih
    exact ⟨front ++ back, hfront.trans hback⟩

/-- Every series of runs can be continued up to a place where the body fails or idles. -/
theorem exists_advances (body : Reader α) (slice : Slice) :
    ∃ values place, body.Advances slice values place
      ∧ (body.read place = none ∨ body.IdlesOn place) := by
  -- On the number of characters that are left, as a run that takes something leaves fewer.
  induction hlength : slice.chars.length using Nat.strong_induction_on generalizing slice with
  | h length ih =>
    cases hread : body.read slice with
    | none => exact ⟨[], slice, .start slice, .inl hread⟩
    | some result =>
      obtain ⟨value, middle⟩ := result
      by_cases hmoved : middle = slice
      · subst hmoved
        exact ⟨[], middle, .start middle, .inr ⟨value, hread⟩⟩
      · have hlt := length_lt_of_read hread hmoved
        obtain ⟨values, place, hmore, hend⟩ := ih _ (hlength ▸ hlt) middle rfl
        exact ⟨value :: values, place, .run hread hmoved hmore, hend⟩

/-! ### Counting the runs -/

/-- Repeats a step as `repeatStep` does, and counts how often the step is taken, the last time
included. -/
def repeatCounted (step : Slice → Option (α × Slice)) :
    Nat → Slice → Nat × Option (List α × Slice)
  | 0, _ => (0, none)
  | fuel + 1, slice =>
    match step slice with
    | none => (1, some ([], slice))
    | some (value, rest) =>
      if rest.start.offset = slice.start.offset then (1, none)
      else
        let (runs, result) := repeatCounted step fuel rest
        (runs + 1, result.map fun (values, rest) => (value :: values, rest))

/-- Counting changes nothing about the result. -/
theorem repeatCounted_snd (step : Slice → Option (α × Slice)) (fuel : Nat) (slice : Slice) :
    (repeatCounted step fuel slice).2 = repeatStep step fuel slice := by
  induction fuel generalizing slice with
  | zero => rfl
  | succ fuel ih =>
    rw [repeatCounted, repeatStep]
    cases step slice with
    | none => rfl
    | some found =>
      obtain ⟨value, rest⟩ := found
      dsimp only
      by_cases hoffset : rest.start.offset = slice.start.offset
      · rw [if_pos hoffset, if_pos hoffset]
      · rw [if_neg hoffset, if_neg hoffset, ← ih rest]
        cases (repeatCounted step fuel rest).2 with
        | none => rfl
        | some result => rfl

/-- A repetition makes the runs of a series, and goes on where they stop. -/
theorem Advances.repeatCounted_eq {values : List α} (h : body.Advances slice values place)
    (fuel : Nat) :
    repeatCounted body.read (values.length + fuel) slice
      = (values.length + (repeatCounted body.read fuel place).1,
        (repeatCounted body.read fuel place).2.map fun result =>
          (values ++ result.1, result.2)) := by
  induction h with
  | start slice =>
    rw [List.length_nil, Nat.zero_add, Nat.zero_add]
    simp
  | @run slice middle place value values hread hmoved _ ih =>
    have hoffset : ¬middle.start.offset = slice.start.offset :=
      fun h => hmoved ((offset_eq_iff_of_read hread).mp h)
    rw [List.length_cons, Nat.add_right_comm values.length 1 fuel, repeatCounted, hread]
    dsimp only
    rw [if_neg hoffset, ih, Nat.add_right_comm values.length 1]
    simp [Function.comp_def]

theorem repeatCounted_of_fails (h : body.read place = none) (fuel : Nat) :
    repeatCounted body.read (fuel + 1) place = (1, some ([], place)) := by
  rw [repeatCounted, h]

theorem repeatCounted_of_idles (h : body.IdlesOn place) (fuel : Nat) :
    repeatCounted body.read (fuel + 1) place = (1, none) := by
  obtain ⟨value, hread⟩ := h
  rw [repeatCounted, hread]
  exact if_pos rfl

/-- Where the body fails, a series of runs is over and its values are given. -/
theorem Advances.repeatCounted_of_fails {values : List α} (h : body.Advances slice values place)
    (hfails : body.read place = none) {fuel : Nat} (hfuel : slice.chars.length < fuel) :
    repeatCounted body.read fuel slice = (values.length + 1, some (values, place)) := by
  have hle := h.length_le
  obtain ⟨left, rfl⟩ : ∃ left, fuel = values.length + (left + 1) :=
    ⟨fuel - values.length - 1, by omega⟩
  rw [h.repeatCounted_eq, Reader.repeatCounted_of_fails hfails]
  simp

/-- Where the body idles, a series of runs is over and there is no result. -/
theorem Advances.repeatCounted_of_idles {values : List α} (h : body.Advances slice values place)
    (hidles : body.IdlesOn place) {fuel : Nat} (hfuel : slice.chars.length < fuel) :
    repeatCounted body.read fuel slice = (values.length + 1, none) := by
  have hle := h.length_le
  obtain ⟨left, rfl⟩ : ∃ left, fuel = values.length + (left + 1) :=
    ⟨fuel - values.length - 1, by omega⟩
  rw [h.repeatCounted_eq, Reader.repeatCounted_of_idles hidles]
  rfl

/-! ### The result of a repetition -/

theorem read_many (body : Reader α) (slice : Slice) :
    body.many.read slice = (repeatCounted body.read (slice.chars.length + 1) slice).2 :=
  (repeatCounted_snd ..).symm

theorem Advances.read_many_of_fails {values : List α} (h : body.Advances slice values place)
    (hfails : body.read place = none) : body.many.read slice = some (values, place) := by
  rw [read_many, h.repeatCounted_of_fails hfails (Nat.lt_succ_self _)]

theorem Advances.read_many_of_idles {values : List α} (h : body.Advances slice values place)
    (hidles : body.IdlesOn place) : body.many.read slice = none := by
  rw [read_many, h.repeatCounted_of_idles hidles (Nat.lt_succ_self _)]

/-- Whatever the bound on the runs is, if only it lies above the number of characters, as many runs
are made, and the result is the same. These are no more runs than one for each character and one. -/
theorem exists_runs (body : Reader α) (slice : Slice) :
    ∃ runs ≤ slice.chars.length + 1, ∀ fuel, slice.chars.length < fuel →
      repeatStep body.read fuel slice = body.many.read slice ∧
        repeatCounted body.read fuel slice = (runs, body.many.read slice) := by
  obtain ⟨values, place, hadvances, hend⟩ := exists_advances body slice
  have hle := hadvances.length_le
  refine ⟨values.length + 1, by omega, fun fuel hfuel => ?_⟩
  have hcounted : repeatCounted body.read fuel slice
      = (values.length + 1, body.many.read slice) := by
    rcases hend with hfails | hidles
    · rw [hadvances.read_many_of_fails hfails]
      exact hadvances.repeatCounted_of_fails hfails hfuel
    · rw [hadvances.read_many_of_idles hidles]
      exact hadvances.repeatCounted_of_idles hidles hfuel
  exact ⟨by rw [← repeatCounted_snd, hcounted], hcounted⟩

/-- A repetition gives the values of a series of runs behind which the body fails. -/
theorem read_many_eq_some_iff {values : List α} :
    body.many.read slice = some (values, rest) ↔
      body.Advances slice values rest ∧ body.read rest = none := by
  constructor
  · intro h
    obtain ⟨found, place, hadvances, hfails | hidles⟩ := exists_advances body slice
    · rw [hadvances.read_many_of_fails hfails] at h
      cases h
      exact ⟨hadvances, hfails⟩
    · rw [hadvances.read_many_of_idles hidles] at h
      cases h
  · rintro ⟨hadvances, hfails⟩
    exact hadvances.read_many_of_fails hfails

/-- A repetition fails if there is a series of runs behind which the body idles. -/
theorem read_many_eq_none_iff :
    body.many.read slice = none ↔
      ∃ values place, body.Advances slice values place ∧ body.IdlesOn place := by
  constructor
  · intro h
    obtain ⟨found, place, hadvances, hfails | hidles⟩ := exists_advances body slice
    · rw [hadvances.read_many_of_fails hfails] at h
      cases h
    · exact ⟨found, place, hadvances, hidles⟩
  · rintro ⟨values, place, hadvances, hidles⟩
    exact hadvances.read_many_of_idles hidles

/-! ### The recursive description -/

/-- Reading at least once is reading once and then as often as it goes. -/
theorem read_many1_eq_some_iff_of_read {values : List α} :
    body.many1.read slice = some (values, rest) ↔
      ∃ value middle more, body.read slice = some (value, middle)
        ∧ body.many.read middle = some (more, rest) ∧ values = value :: more := by
  rw [many1, read]
  constructor
  · intro h
    split at h
    · cases h
    · rename_i value middle hread
      rw [map, read] at h
      split at h
      · cases h
      · rename_i more last hmore
        cases h
        exact ⟨value, middle, more, hread, hmore, rfl⟩
  · rintro ⟨value, middle, more, hread, hmore, rfl⟩
    rw [hread]
    dsimp only
    rw [map, read, hmore]
    rfl

/-- Reading at least once succeeds where a repetition reads something, with the same result. If the
body idles at the beginning then both fail. -/
theorem read_many1_eq_some_iff {values : List α} :
    body.many1.read slice = some (values, rest) ↔
      body.many.read slice = some (values, rest) ∧ values ≠ [] := by
  rw [read_many1_eq_some_iff_of_read]
  constructor
  · rintro ⟨value, middle, more, hread, hmore, rfl⟩
    by_cases hmoved : middle = slice
    · subst hmoved
      rw [(Advances.start middle).read_many_of_idles ⟨value, hread⟩] at hmore
      cases hmore
    · obtain ⟨hadvances, hfails⟩ := read_many_eq_some_iff.mp hmore
      exact ⟨read_many_eq_some_iff.mpr ⟨.run hread hmoved hadvances, hfails⟩, nofun⟩
  · rintro ⟨hmany, hne⟩
    obtain ⟨hadvances, hfails⟩ := read_many_eq_some_iff.mp hmany
    cases hadvances with
    | start => exact absurd rfl hne
    | run hread _ hmore =>
      exact ⟨_, _, _, hread, read_many_eq_some_iff.mpr ⟨hmore, hfails⟩, rfl⟩

/-- Where the body never idles, a repetition is its own recursive description: the body and then the
repetition, or else nothing. -/
theorem read_many_eq_orElse
    (h : ∀ taken place, place.Follows taken slice → ¬body.IdlesOn place) :
    body.many.read slice = (body.many1.orElse (.pure [])).read slice := by
  rw [read]
  cases hread : body.read slice with
  | none =>
    have hmany1 : body.many1.read slice = none := by rw [many1, read, hread]
    rw [(Advances.start slice).read_many_of_fails hread, hmany1]
    rfl
  | some found =>
    obtain ⟨value, middle⟩ := found
    obtain ⟨front, hfront⟩ := follows_of_read hread
    cases hmore : body.many.read middle with
    | none =>
      obtain ⟨values, place, hadvances, hidles⟩ := read_many_eq_none_iff.mp hmore
      obtain ⟨back, hback⟩ := hadvances.follows
      exact absurd hidles (h _ place (hfront.trans hback))
    | some result =>
      obtain ⟨more, rest⟩ := result
      have hmany1 : body.many1.read slice = some (value :: more, rest) :=
        read_many1_eq_some_iff_of_read.mpr ⟨value, middle, more, hread, hmore, rfl⟩
      rw [(read_many1_eq_some_iff.mp hmany1).1, hmany1]

/-- A repetition makes no more runs than one for each character and one, whatever the bound on them
is. It fails if at some point of the successive runs the body idles, and only then. Otherwise it
gives the values of the runs in order, and leaves a place where the body fails. Reading at least
once is the repetition where it reads something. Where the body idles nowhere behind the beginning,
the repetition is the body and then the repetition, or else nothing. -/
theorem repeats_greedily {α : Type} (body : Reader α) (slice : Slice) :
    (∃ runs ≤ slice.chars.length + 1, ∀ fuel, slice.chars.length < fuel →
      repeatStep body.read fuel slice = body.many.read slice ∧
        repeatCounted body.read fuel slice = (runs, body.many.read slice)) ∧
    (body.many.read slice = none ↔
      ∃ values place, body.Advances slice values place ∧ body.IdlesOn place) ∧
    (∀ values rest, body.many.read slice = some (values, rest) ↔
      body.Advances slice values rest ∧ body.read rest = none) ∧
    (∀ values rest, body.many1.read slice = some (values, rest) ↔
      body.many.read slice = some (values, rest) ∧ values ≠ []) ∧
    ((∀ taken place, place.Follows taken slice → ¬body.IdlesOn place) →
      body.many.read slice =
        ((body.bind fun value => body.many.map fun values => value :: values).orElse
          (.pure [])).read slice) :=
  ⟨exists_runs body slice, read_many_eq_none_iff, fun _ _ => read_many_eq_some_iff,
    fun _ _ => read_many1_eq_some_iff, read_many_eq_orElse⟩

/-- A word of two characters, which stands twice at the beginning, and a third time as a part of a
longer word. -/
theorem words_repeat_greedily :
    let body := keyword ['+', 'x']
    let slice := Slice.ofChars ['+', 'x', '+', 'x', '+', 'x', 'y']
    let values := [{ slice with chars := ['+', 'x'] },
      { start := { offset := 2, line := 1, column := 3 }, chars := ['+', 'x'] }]
    let rest : Slice :=
      { start := { offset := 4, line := 1, column := 5 }, chars := ['+', 'x', 'y'] }
    (∀ taken place, place.Follows taken slice → ¬body.IdlesOn place) ∧
      body.many.read slice = some (values, rest) ∧ body.many1.read slice = some (values, rest) ∧
      body.Advances slice values rest ∧ body.read rest = none ∧
      ((body.bind fun value => body.many.map fun values => value :: values).orElse
        (.pure [])).read slice = some (values, rest) := by
  intro body slice values rest
  have hnever : ∀ taken place, place.Follows taken slice → ¬body.IdlesOn place := by
    rintro taken place - ⟨span, hread⟩
    have hlength := congrArg List.length (of_read_keyword hread).2.chars_eq
    rw [List.length_append, List.length_cons] at hlength
    omega
  have hread : body.many.read slice = some (values, rest) := by decide +kernel
  obtain ⟨-, -, hsome, hmany1, hunfold⟩ := repeats_greedily body slice
  have hruns := (hsome values rest).mp hread
  exact ⟨hnever, hread, (hmany1 values rest).mpr ⟨hread, nofun⟩, hruns.1, hruns.2,
    (hunfold hnever).symm.trans hread⟩

/-- A body that takes a plus sign, or else looks ahead, idles in front of a letter and fails in
front of a digit. -/
example :
    let body := ((satisfy (· == '+')).map fun _ => ()).orElse (notFollowedBy Char.isDigit)
    body.many.read (Slice.ofChars ['+', '+', 'x']) = none ∧
      (body.many.read (Slice.ofChars ['+', '+', '1'])).map Prod.fst = some [(), ()] := by
  decide +kernel

end Reader

end Diophantine
