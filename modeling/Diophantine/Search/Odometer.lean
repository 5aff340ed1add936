/-!
# An odometer

An odometer has a wheel for each digit, and every wheel has a width of its own: the number of digits
on it. It starts with all wheels at zero. A step turns the first wheel; a wheel that comes round to
zero takes the next one along. When the last wheel comes round, everything is back at zero and all
combinations have been seen.

* `advance` takes a step and says whether there was one to take,
* `stepsLeft` counts the steps up to that point, and so bounds the walk,
* `candidate` turns a digit into an integer, the nearest to zero first.
-/

namespace Diophantine

/-- Takes a step from the given digits. Gives the new digits, and `false` if they came round to
zero. -/
def advance : List Nat → List Nat → List Nat × Bool
  | width :: widths, digit :: digits =>
    if digit + 1 < width then ((digit + 1) :: digits, true)
    else
      let (next, more) := advance widths digits
      (0 :: next, more)
  | _, digits => (digits, false)

/-- The number of steps before the digits come round to zero. -/
def stepsLeft : List Nat → List Nat → Nat
  | width :: widths, digit :: digits => width - 1 - digit + max width 1 * stepsLeft widths digits
  | _, _ => 0

/-- A step that does not come round leaves fewer steps. -/
theorem stepsLeft_advance_lt {widths digits next : List Nat}
    (h : advance widths digits = (next, true)) :
    stepsLeft widths next < stepsLeft widths digits := by
  induction widths generalizing digits next with
  | nil => simp [advance] at h
  | cons width widths ih =>
    cases digits with
    | nil => simp [advance] at h
    | cons digit digits =>
      unfold advance at h
      split at h
      · cases h
        simp only [stepsLeft]
        omega
      · cases eq : advance widths digits with
        | mk tail more =>
          simp only [eq, Prod.mk.injEq] at h
          obtain ⟨rfl, rfl⟩ := h
          have fewer := Nat.mul_le_mul_left (max width 1) (Nat.succ_le_of_lt (ih eq))
          rw [Nat.mul_succ] at fewer
          simp only [stepsLeft]
          omega

/-- The integer of a digit: zero, one, minus one, two, minus two, and so on. -/
def candidate (digit : Nat) : Int :=
  if digit % 2 = 1 then ((digit + 1) / 2 : Nat) else -((digit / 2 : Nat) : Int)

end Diophantine
