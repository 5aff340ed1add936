import Diophantine.Proofs.Expression.Rendering

/-!
# Expressions as they are written

In a text as people write it, products may be implicit. Such a text is written for a tree if it
derives the tree once its products are made explicit. The texts that a longer one is put together
from are made explicit one by one: between two of them stands a sign, or a product is implicit there
and a star takes its place.

- `explicitProducts_operator`, `Fits.operator`: a sign between two texts;
- `Expression.Written`: texts that are written for a tree, with a lemma for each rule of the
  grammar;
- `Expression.Written.touching`, `Expression.Written.juxtaposed`: the implicit product, for which
  the grammar has no rule.
-/

namespace Diophantine

/-! ### Signs and spacing -/

theorem Spaced.signs {space : List Char} (h : Spaced space) :
    ∀ c ∈ space, c.isAlphanum = false ∧ c ≠ '(' ∧ c ≠ ')' := by
  intro c hc
  obtain ⟨hopen, hclose, hletter⟩ := h.neutral c hc
  refine ⟨?_, hopen, hclose⟩
  rw [Char.isAlphanum, hletter, isDigit_of_isSpacing (h c hc), Bool.or_false]

theorem SignText.signs {negative : Bool} {sign : List Char} (h : SignText negative sign) :
    ∀ c ∈ sign, c.isAlphanum = false ∧ c ≠ '(' ∧ c ≠ ')' := by
  cases h with
  | plain hspace => exact hspace.signs
  | minus hbefore hbehind =>
    intro c hc
    rcases List.mem_append.mp hc with hc | hc
    · exact hbefore.signs c hc
    · rcases List.mem_cons.mp hc with rfl | hc
      · decide
      · exact hbehind.signs c hc

theorem SignText.explicitProducts_append {negative : Bool} {sign : List Char}
    (h : SignText negative sign) (back : List Char) :
    explicitProducts (sign ++ back) = sign ++ explicitProducts back :=
  explicitProducts_signs (fun c hc => ⟨(h.signs c hc).1, (h.signs c hc).2.2⟩) back

/-- Spacing behind a text takes part in no product with it. -/
theorem explicitProducts_append_spaced (text : List Char) {space : List Char}
    (hspace : Spaced space) :
    explicitProducts (text ++ space) = explicitProducts text ++ space := by
  have happart : Apart space := fun c hc =>
    ⟨(hspace.signs c (List.mem_of_head? hc)).1, (hspace.signs c (List.mem_of_head? hc)).2.1⟩
  rw [explicitProducts_append_of_apart text happart,
    explicitProducts_of_signs fun c hc => ⟨(hspace.signs c hc).1, (hspace.signs c hc).2.2⟩]

section Operators

variable {front space back : List Char} (hspace : Spaced space) {op : Char}

include hspace

/-- An operator keeps the products on either side apart. -/
theorem explicitProducts_operator (front back : List Char)
    (hop : op.isAlphanum = false ∧ op ≠ '(' ∧ op ≠ ')') :
    explicitProducts (front ++ (space ++ op :: back))
      = explicitProducts front ++ (space ++ op :: explicitProducts back) := by
  have hsigns : ∀ c ∈ space ++ [op], c.isAlphanum = false ∧ c ≠ '(' ∧ c ≠ ')' :=
    List.forall_mem_append.mpr ⟨hspace.signs, List.forall_mem_singleton.mpr hop⟩
  have hseparate := explicitProducts_separate front back
    (List.append_ne_nil_of_right_ne_nil space (List.cons_ne_nil op [])) hsigns
  simpa only [List.append_assoc, List.singleton_append] using hseparate

theorem Fits.operator (hfront : Fits front) (hback : Fits back) (hop : op ≠ '(' ∧ op ≠ ')') :
    Fits (front ++ (space ++ op :: back)) := by
  have hsigned : Fits ([op] ++ back) :=
    (Fits.of_plain (List.forall_mem_singleton.mpr hop)).append hback
  exact hfront.append (hspace.fits.append hsigned)

end Operators

/-! ### Written texts -/

namespace Expression

/-- With its products made explicit, the text derives the tree, and it does not nest too deep. -/
structure Written (layer : Layer) (text : List Char) (tree : Expression) : Prop where
  derives : Derives layer (explicitProducts text) tree
  fits : Fits text

namespace Written

theorem constant {negative : Bool} {sign digits : List Char} {value : Value}
    (hsign : SignText negative sign) (hne : digits ≠ []) (hdigits : ∀ c ∈ digits, c.isDigit = true)
    (hvalue : Value.ofDigits? negative digits = some value) :
    Written .term (sign ++ digits) (.constant value) where
  derives := by
    rw [hsign.explicitProducts_append, explicitProducts_eq_self (explicit_of_isDigit hdigits)]
    exact .numeral hsign hne hdigits hvalue
  fits := hsign.fits.append (.of_plain fun c hc =>
    ⟨(neutral_of_isDigit (hdigits c hc)).1, (neutral_of_isDigit (hdigits c hc)).2.1⟩)

theorem var {negative : Bool} {sign : List Char} {name : Name} (hsign : SignText negative sign)
    (hname : name.isAlpha = true) :
    Written .term (sign ++ [name]) (signed negative (.var name)) where
  derives := by
    rw [hsign.explicitProducts_append]
    exact .var hsign hname
  fits := hsign.fits.append
    (.of_plain (List.forall_mem_singleton.mpr (not_parenthesis_of_isAlpha hname)))

theorem group {negative : Bool} {sign inner : List Char} {tree : Expression}
    (hsign : SignText negative sign) (hinner : Derives .clause (explicitProducts inner) tree)
    (hroom : nesting inner < maxNesting) :
    Written .term (sign ++ '(' :: (inner ++ [')'])) (signed negative tree) where
  derives := by
    rw [hsign.explicitProducts_append, explicitProducts_cons (by decide),
      explicitProducts_append_of_apart inner (Apart.cons (by decide) [])]
    exact .group hsign hinner
  fits := hsign.fits.append (.group (balanced_explicitProducts.mp hinner.balanced) hroom)

theorem factor {text : List Char} {tree : Expression} (h : Written .term text tree) :
    Written .product text tree :=
  ⟨.factor h.derives, h.fits⟩

theorem summand {text : List Char} {tree : Expression} (h : Written .product text tree) :
    Written .sum text tree :=
  ⟨.summand h.derives, h.fits⟩

section Operators

variable {front space back : List Char} {left right : Expression}

theorem times (hleft : Written .product front left) (hspace : Spaced space)
    (hright : Written .term back right) :
    Written .product (front ++ (space ++ '*' :: back)) (.mul left right) where
  derives := by
    rw [explicitProducts_operator hspace _ _ (by decide)]
    exact .times hleft.derives hspace hright.derives
  fits := Fits.operator hspace hleft.fits hright.fits (by decide)

/-- A factor that follows without a star is one behind the star that takes its place there. -/
theorem touching (hleft : Written .product front left) (hright : Written .term back right)
    {a b : Char} (ha : a ∈ front.getLast?) (hb : b ∈ back.head?)
    (hjuxtaposed : Diophantine.juxtaposed a b = true) :
    Written .product (front ++ back) (.mul left right) where
  derives := by
    rw [explicitProducts_append_juxtaposed ha hb hjuxtaposed]
    exact .times hleft.derives Spaced.nil hright.derives
  fits := hleft.fits.append hright.fits

/-- Behind a factor, a digit or a parenthesis begins a further one. -/
theorem juxtaposed (hleft : Written .product front left) (hright : Written .term back right)
    (hends : EndsFactor front back) {c : Char} (hc : c ∈ back.head?)
    (hfactor : c.isDigit = true ∨ c = '(') :
    Written .product (front ++ back) (.mul left right) := by
  obtain ⟨a, ha, hjuxtaposed⟩ := hends
  exact hleft.touching hright ha hc (hjuxtaposed c hc hfactor)

theorem plus (hleft : Written .sum front left) (hspace : Spaced space)
    (hright : Written .product back right) :
    Written .sum (front ++ (space ++ '+' :: back)) (.add left right) where
  derives := by
    rw [explicitProducts_operator hspace _ _ (by decide)]
    exact .plus hleft.derives hspace hright.derives
  fits := Fits.operator hspace hleft.fits hright.fits (by decide)

theorem minus (hleft : Written .sum front left) (hspace : Spaced space)
    (hright : Written .product ('-' :: back) right) :
    Written .sum (front ++ (space ++ '-' :: back)) (.add left right) where
  derives := by
    have hproduct := hright.derives
    rw [explicitProducts_cons (by decide)] at hproduct
    rw [explicitProducts_operator hspace _ _ (by decide)]
    exact .minus hleft.derives hspace hproduct
  fits := hleft.fits.append (hspace.fits.append hright.fits)

theorem clause (h : Written .sum front left) (hspace : Spaced space) :
    Written .clause (front ++ space) left where
  derives := by
    rw [explicitProducts_append_spaced front hspace]
    exact .clause h.derives hspace
  fits := h.fits.append hspace.fits

end Operators

theorem ne_nil {layer : Layer} {text : List Char} {tree : Expression}
    (h : Written layer text tree) : text ≠ [] := by
  rintro rfl
  exact h.derives.ne_nil rfl

/-- In a text without implicit products, nothing is made explicit. -/
theorem derives_of_explicit {layer : Layer} {text : List Char} {tree : Expression}
    (h : Written layer text tree) (hexplicit : Explicit text) : Derives layer text tree := by
  have hderives := h.derives
  rwa [explicitProducts_eq_self hexplicit] at hderives

end Written

end Expression

end Diophantine
