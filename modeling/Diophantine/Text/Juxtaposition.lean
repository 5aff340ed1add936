/-!
# Implicit products made explicit

People write `2x(x+1)` and mean `2*x*(x+1)`. Before anything is read, a star is written wherever
two factors stand side by side without one. The rule looks at two neighbouring characters only
and the star itself takes part in none of its cases, so a text that has been through it once is
left as it is.

* `juxtaposed` says which neighbours are factors without a sign between them,
* `explicitProducts` writes the stars, `normalize` does so for a `String`.
-/

namespace Diophantine

/-- Whether a product is meant between two neighbouring characters: at a parenthesis that faces a
letter, a digit or another parenthesis, and between a letter and a digit. Two letters are left
alone, as they may belong to a word. -/
def juxtaposed (a b : Char) : Bool :=
  (a.isAlphanum && b == '(') || (a == ')' && b.isAlphanum) || (a == ')' && b == '(')
    || (a.isAlpha && b.isDigit) || (a.isDigit && b.isAlpha)

/-- Writes a star between every two neighbours that stand for a product. -/
def explicitProducts : List Char → List Char
  | [] => []
  | [a] => [a]
  | a :: b :: chars =>
    if juxtaposed a b then a :: '*' :: explicitProducts (b :: chars)
    else a :: explicitProducts (b :: chars)

@[simp] theorem explicitProducts_nil : explicitProducts [] = [] := rfl

@[simp] theorem explicitProducts_of_juxtaposed {a b : Char} (h : juxtaposed a b = true)
    (chars : List Char) :
    explicitProducts (a :: b :: chars) = a :: '*' :: explicitProducts (b :: chars) := by
  rw [explicitProducts, if_pos h]

@[simp] theorem explicitProducts_of_not_juxtaposed {a b : Char} (h : ¬juxtaposed a b = true)
    (chars : List Char) :
    explicitProducts (a :: b :: chars) = a :: explicitProducts (b :: chars) := by
  rw [explicitProducts, if_neg h]

/-- A text with its products made explicit. -/
def normalize (text : String) : String :=
  String.ofList (explicitProducts text.toList)

end Diophantine
