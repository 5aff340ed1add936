import Mathlib.Algebra.Group.Int.Defs
import Mathlib.Algebra.Group.Nat.Defs
import Mathlib.Data.List.Nodup
import Mathlib.Data.List.Sections
import Diophantine.Search.Odometer

/-!
# What an odometer shows

An odometer that starts at zero shows every combination of digits once before it comes round: the
first wheel turns through all its digits for each combination that the other wheels show.

- `shown`: all digits that are shown, from given ones on;
- `shown_eq_sections`: from zero on, these are all ways to choose a digit for each wheel;
- `Turned`: the digits that some number of steps leads to, which never leave their wheels;
- `candidate_injective`, `natAbs_candidate_le_iff`: digits and integers.
-/

namespace Diophantine

/-! ### A whole round -/

/-- The digits that an odometer shows, from the given ones until it comes round. -/
def shown (widths digits : List Nat) : List (List Nat) :=
  match _step : advance widths digits with
  | (next, true) => digits :: shown widths next
  | (_, false) => [digits]
termination_by stepsLeft widths digits
decreasing_by exact stepsLeft_advance_lt _step

theorem shown_of_more {widths digits next : List Nat} (h : advance widths digits = (next, true)) :
    shown widths digits = digits :: shown widths next := by
  rw [shown]
  split
  · rename_i found hfound
    rw [h] at hfound
    cases hfound
    rfl
  · rename_i found hfound
    rw [h] at hfound
    cases hfound

theorem shown_of_done {widths digits next : List Nat} (h : advance widths digits = (next, false)) :
    shown widths digits = [digits] := by
  rw [shown]
  split
  · rename_i found hfound
    rw [h] at hfound
    cases hfound
  · rfl

/-- The first wheel turns to its last digit while the others rest; then the others take a step, if
there is one to take. -/
theorem shown_cons_of_lt {width digit : Nat} {widths digits : List Nat} (h : digit < width) :
    shown (width :: widths) (digit :: digits)
      = (List.range' digit (width - digit)).map (· :: digits)
        ++ match advance widths digits with
          | (next, true) => shown (width :: widths) (0 :: next)
          | (_, false) => [] := by
  induction hleft : width - digit generalizing digit with
  | zero => omega
  | succ left ih =>
    rw [List.range'_succ, List.map_cons, List.cons_append]
    by_cases hlast : digit + 1 < width
    · have hstep : advance (width :: widths) (digit :: digits)
          = ((digit + 1) :: digits, true) := by
        unfold advance
        rw [if_pos hlast]
      rw [shown_of_more hstep, ih hlast (by omega)]
    · -- The wheel comes round, and takes the next one along.
      obtain rfl : left = 0 := by omega
      rw [List.range'_zero, List.map_nil, List.nil_append]
      cases hrest : advance widths digits with
      | mk next more =>
        have hstep : advance (width :: widths) (digit :: digits) = (0 :: next, more) := by
          unfold advance
          rw [if_neg hlast, hrest]
        cases more with
        | true => exact shown_of_more hstep
        | false => exact shown_of_done hstep

/-- For each combination of the other wheels, the first one turns through all its digits. -/
theorem shown_cons {width : Nat} (hpos : 0 < width) (widths digits : List Nat) :
    shown (width :: widths) (0 :: digits)
      = (shown widths digits).flatMap fun tail => (List.range width).map (· :: tail) := by
  fun_induction shown widths digits with
  | case1 digits next hstep ih =>
    rw [shown_cons_of_lt hpos, hstep]
    show List.map _ (List.range' 0 (width - 0)) ++ shown (width :: widths) (0 :: next) = _
    rw [ih, List.flatMap_cons, Nat.sub_zero, List.range_eq_range']
  | case2 digits next hstep =>
    rw [shown_cons_of_lt hpos, hstep]
    show List.map _ (List.range' 0 (width - 0)) ++ [] = _
    rw [List.flatMap_singleton, Nat.sub_zero, List.append_nil, List.range_eq_range']

/-- **A round shows everything once**: from zero on, an odometer shows all ways to choose a digit
for each of its wheels. -/
theorem shown_eq_sections {widths : List Nat} (hpos : ∀ width ∈ widths, 0 < width) :
    shown widths (List.replicate widths.length 0) = (widths.map List.range).sections := by
  induction widths with
  | nil => exact shown_of_done rfl
  | cons width widths ih =>
    obtain ⟨hfirst, hrest⟩ := List.forall_mem_cons.mp hpos
    show shown (width :: widths) (0 :: List.replicate widths.length 0) = _
    rw [shown_cons hfirst, ih hrest]
    rfl

/-- No combination of choices is listed twice if no choice is. -/
theorem nodup_sections {α : Type} {choices : List (List α)} (h : ∀ list ∈ choices, list.Nodup) :
    choices.sections.Nodup := by
  induction choices with
  | nil => exact List.nodup_singleton []
  | cons list choices ih =>
    obtain ⟨hfirst, hrest⟩ := List.forall_mem_cons.mp h
    refine List.nodup_flatMap.mpr ⟨fun tail _ => ?_, ?_⟩
    · exact hfirst.map fun a b heq => (List.cons.inj heq).1
    · refine (ih hrest).imp fun {front back} hne combination hfront hback => hne ?_
      obtain ⟨a, -, rfl⟩ := List.mem_map.mp hfront
      obtain ⟨b, -, heq⟩ := List.mem_map.mp hback
      exact (List.cons.inj heq).2.symm

theorem length_sections {α : Type} (choices : List (List α)) :
    choices.sections.length = (choices.map List.length).prod := by
  induction choices with
  | nil => rfl
  | cons list choices ih =>
    show (choices.sections.flatMap fun tail => list.map (· :: tail)).length = _
    rw [List.length_flatMap]
    simp only [List.length_map, List.map_const', List.sum_replicate_nat, ih, List.map_cons,
      List.prod_cons, Nat.mul_comm]

/-! ### Steps from zero -/

/-- The digits that some number of steps from zero leads to. -/
inductive Turned (widths : List Nat) : List Nat → Prop
  | start : Turned widths (List.replicate widths.length 0)
  | step {digits : List Nat} (h : Turned widths digits) :
      Turned widths (advance widths digits).1

/-- A step keeps every digit on its wheel. -/
theorem forall₂_lt_advance {widths digits : List Nat}
    (h : List.Forall₂ (· < ·) digits widths) :
    List.Forall₂ (· < ·) (advance widths digits).1 widths := by
  induction h with
  | nil => exact .nil
  | @cons digit width digits widths hlt hrest ih =>
    unfold advance
    split
    · rename_i hnext
      exact .cons hnext hrest
    · exact .cons (Nat.zero_lt_of_lt hlt) ih

/-- No digit ever leaves its wheel. -/
theorem Turned.forall₂_lt {widths digits : List Nat} (hpos : ∀ width ∈ widths, 0 < width)
    (h : Turned widths digits) : List.Forall₂ (· < ·) digits widths := by
  induction h with
  | start =>
    induction widths with
    | nil => exact .nil
    | cons width widths ih =>
      obtain ⟨hfirst, hrest⟩ := List.forall_mem_cons.mp hpos
      exact .cons hfirst (ih hrest)
  | step _ ih => exact forall₂_lt_advance ih

/-! ### Candidates -/

@[simp] theorem natAbs_candidate (digit : Nat) : (candidate digit).natAbs = (digit + 1) / 2 := by
  unfold candidate
  split
  · exact Int.natAbs_natCast _
  · rw [Int.natAbs_neg, Int.natAbs_natCast]
    omega

/-- The candidates of the first digits are the integers up to a magnitude. -/
theorem natAbs_candidate_le_iff {digit radius : Nat} :
    (candidate digit).natAbs ≤ radius ↔ digit < 2 * radius + 1 := by
  rw [natAbs_candidate]
  omega

theorem candidate_injective : Function.Injective candidate := by
  intro a b h
  unfold candidate at h
  split at h <;> split at h <;> omega

/-- Every integer is the candidate of some digit. -/
theorem exists_candidate_eq (x : Int) : ∃ digit, candidate digit = x := by
  rcases Int.lt_or_le 0 x with hpos | hneg
  · refine ⟨2 * x.natAbs - 1, ?_⟩
    unfold candidate
    rw [if_pos (by omega)]
    omega
  · refine ⟨2 * x.natAbs, ?_⟩
    unfold candidate
    rw [if_neg (by omega)]
    omega

theorem exists_map_candidate_eq (point : List Int) :
    ∃ digits : List Nat, digits.map candidate = point := by
  induction point with
  | nil => exact ⟨[], rfl⟩
  | cons x point ih =>
    obtain ⟨digit, hdigit⟩ := exists_candidate_eq x
    obtain ⟨digits, hdigits⟩ := ih
    exact ⟨digit :: digits, by rw [List.map_cons, hdigit, hdigits]⟩

end Diophantine
