/-!
# Values

Constants and the values of variables are signed 64-bit integers. Arithmetic on them is either
exact or absent: a sum or product that does not fit gives no value at all, and never a wrong one.

* `Value.ofInt?` is the only way from an integer to a value,
* `Value.add?` and `Value.mul?` compute exactly and then go through it,
* `Value.digits` and `Value.ofDigits?` write and read decimal digits,
* `Value.ofDigits?_eq_some_iff` says which digits are read as which value.
-/

namespace Diophantine

/-- A signed 64-bit integer. -/
abbrev Value := Int64

namespace Value

/-- The value that is the given integer, if there is one: an integer out of range does not come back
from being cut to 64 bits. -/
def ofInt? (exact : Int) : Option Value :=
  let value := Int64.ofInt exact
  if value.toInt = exact then some value else none

/-- The sum, unless it is out of range. -/
def add? (a b : Value) : Option Value :=
  ofInt? (a.toInt + b.toInt)

/-- The product, unless it is out of range. -/
def mul? (a b : Value) : Option Value :=
  ofInt? (a.toInt * b.toInt)

/-- A value is found exactly for the integers in range, and it is that integer. -/
@[simp] theorem ofInt?_eq_some_iff {exact : Int} {v : Value} :
    ofInt? exact = some v ↔ v.toInt = exact := by
  constructor
  · intro h
    simp only [ofInt?] at h
    split at h
    · cases h
      assumption
    · cases h
  · rintro rfl
    simp [ofInt?]

@[simp] theorem add?_eq_some_iff {a b v : Value} :
    add? a b = some v ↔ v.toInt = a.toInt + b.toInt :=
  ofInt?_eq_some_iff

@[simp] theorem mul?_eq_some_iff {a b v : Value} :
    mul? a b = some v ↔ v.toInt = a.toInt * b.toInt :=
  ofInt?_eq_some_iff

/-- The integers in range are those from the least value to the greatest. -/
@[simp] theorem isSome_ofInt?_iff {exact : Int} :
    (ofInt? exact).isSome = true ↔
      Int64.minValue.toInt ≤ exact ∧ exact ≤ Int64.maxValue.toInt := by
  constructor
  · intro h
    obtain ⟨v, found⟩ := Option.isSome_iff_exists.mp h
    rw [← ofInt?_eq_some_iff.mp found]
    exact ⟨Int64.minValue_le_toInt v, Int64.toInt_le v⟩
  · rintro ⟨low, high⟩
    have same := Int64.toInt_ofInt_of_le (Int.le_trans (by decide) low)
      (Int.lt_of_le_of_lt high (by decide))
    rw [ofInt?_eq_some_iff.mpr same]
    rfl

/-- The decimal digits of a value, after a minus sign if it is negative. -/
def digits (v : Value) : List Char :=
  if v.toInt < 0 then '-' :: Nat.toDigits 10 v.toInt.natAbs else Nat.toDigits 10 v.toInt.natAbs

/-- The value of a run of decimal digits, negated on request. Without its sign it has to be in
range already, so the least value cannot be written. -/
def ofDigits? (negative : Bool) (digits : List Char) : Option Value :=
  (ofInt? (Nat.ofDigitChars 10 digits 0)).map fun v => if negative then -v else v

/-- The negation of a value is exact, except for the least one. -/
theorem toInt_neg_of_ne {v : Value} (h : v ≠ Int64.minValue) : (-v).toInt = -v.toInt := by
  refine BitVec.toInt_neg_of_ne_intMin fun heq => h ?_
  exact Int64.toBitVec_inj.mp heq

/-- Digits denote a value exactly if their number is in range, and the value is that number or its
negation then. -/
theorem ofDigits?_eq_some_iff {negative : Bool} {digits : List Char} {v : Value} :
    ofDigits? negative digits = some v ↔
      Nat.ofDigitChars 10 digits 0 ≤ 9223372036854775807
        ∧ v.toInt = if negative then -(Nat.ofDigitChars 10 digits 0 : Int)
            else Nat.ofDigitChars 10 digits 0 := by
  unfold ofDigits?
  generalize Nat.ofDigitChars 10 digits 0 = number
  have hsigned {magnitude : Value} (hexact : magnitude.toInt = number) :
      (if negative then -magnitude else magnitude).toInt
        = if negative then -(number : Int) else number := by
    cases negative with
    | false => exact hexact
    | true =>
      refine (toInt_neg_of_ne ?_).trans (congrArg (- ·) hexact)
      rintro rfl
      exact absurd (hexact ▸ Int.natCast_nonneg number) (by decide)
  constructor
  · intro h
    obtain ⟨magnitude, hmagnitude, rfl⟩ := Option.map_eq_some_iff.mp h
    have hexact := ofInt?_eq_some_iff.mp hmagnitude
    have htop : magnitude.toInt ≤ 9223372036854775807 := Int64.toInt_le magnitude
    exact ⟨by omega, hsigned hexact⟩
  · rintro ⟨hrange, hvalue⟩
    have hleast : (-9223372036854775808 : Int) ≤ number := by omega
    have hgreatest : (number : Int) ≤ 9223372036854775807 := by omega
    obtain ⟨magnitude, hmagnitude⟩ :=
      Option.isSome_iff_exists.mp (isSome_ofInt?_iff.mpr ⟨hleast, hgreatest⟩)
    refine Option.map_eq_some_iff.mpr ⟨magnitude, hmagnitude, Int64.toInt_inj.mp ?_⟩
    rw [hvalue]
    exact hsigned (ofInt?_eq_some_iff.mp hmagnitude)

end Value

end Diophantine
