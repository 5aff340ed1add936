import Diophantine.Proofs.Constraint.Grammar
import Diophantine.Proofs.Words

/-!
# Constraints as they are written

As for expressions, a text is written for a constraint if it derives the constraint once its
products are made explicit. Comparison signs keep products apart as operators do. The words between
constraints do so only where they stand apart from parentheses and digits: the star that is written
otherwise belongs to no product, and the text is lost.

- `explicitProducts_connective`: products on either side of a connective that stands apart;
- `Constraint.Written`: texts that are written for a constraint, with a lemma for each rule of the
  grammar.
-/

namespace Diophantine

/-- Products are made explicit on either side of a connective with spacing in front. -/
theorem explicitProducts_connective {front space back : List Char} {word : String}
    (hword : word ∈ connectives) (hspace : Spaced space)
    (happart : WordsApart connectives (front ++ (space ++ (word.toList ++ back)))) :
    explicitProducts (front ++ (space ++ (word.toList ++ back)))
      = explicitProducts front ++ (space ++ (word.toList ++ explicitProducts back)) := by
  rw [← List.append_assoc] at happart ⊢
  rw [happart.explicitProducts_word hword (isWord_of_mem_connectives word hword),
    explicitProducts_append_spaced front hspace, List.append_assoc]

namespace Constraint

/-- With its products made explicit, the text derives the tree, and it does not nest too deep. -/
structure Written (layer : Layer) (text : List Char) (tree : Constraint) : Prop where
  derives : Derives layer (explicitProducts text) tree
  fits : Fits text

namespace Written

theorem comparison {sign : Char} {build : Expression → Expression → Constraint}
    {front space back : List Char} {left right : Expression} (hsign : ComparisonSign sign build)
    (hleft : Expression.Written .sum front left) (hspace : Spaced space)
    (hright : Expression.Written .sum back right) :
    Written .atom (front ++ (space ++ sign :: back)) (build left right) where
  derives := by
    have hseparate : sign.isAlphanum = false ∧ sign ≠ '(' ∧ sign ≠ ')' := by
      cases hsign <;> decide
    rw [explicitProducts_operator hspace _ _ hseparate]
    exact .comparison hsign hleft.derives hspace hright.derives
  fits := Fits.operator hspace hleft.fits hright.fits ⟨hsign.neutral.1, hsign.neutral.2.1⟩

theorem group {space inner : List Char} {tree : Constraint} (hspace : Spaced space)
    (hinner : Derives .clause (explicitProducts inner) tree) (hroom : nesting inner < maxNesting) :
    Written .atom (space ++ '(' :: (inner ++ [')'])) tree where
  derives := by
    rw [(SignText.plain hspace).explicitProducts_append, explicitProducts_cons (by decide),
      explicitProducts_append_of_apart inner (Apart.cons (by decide) [])]
    exact .group hspace hinner
  fits := hspace.fits.append (.group (balanced_explicitProducts.mp hinner.balanced) hroom)

theorem conjunct {text : List Char} {tree : Constraint} (h : Written .atom text tree) :
    Written .conjunction text tree :=
  ⟨.conjunct h.derives, h.fits⟩

theorem disjunct {text : List Char} {tree : Constraint} (h : Written .conjunction text tree) :
    Written .disjunction text tree :=
  ⟨.disjunct h.derives, h.fits⟩

section Connectives

variable {front space back : List Char} {left right : Constraint}

theorem and (hleft : Written .conjunction front left) (hspace : Spaced space)
    (hright : Written .atom back right) (hends : ∀ c ∈ back.head?, c.isAlphanum = false)
    (happart : WordsApart connectives (front ++ (space ++ ("and".toList ++ back)))) :
    Written .conjunction (front ++ (space ++ ("and".toList ++ back))) (.and left right) where
  derives := by
    rw [explicitProducts_connective (by decide) hspace happart]
    exact .and hleft.derives hspace hright.derives (by rwa [head?_explicitProducts])
  fits := hleft.fits.append (hspace.fits.append
    ((Fits.of_plain (plain_of_isAlpha (by decide))).append hright.fits))

theorem or (hleft : Written .disjunction front left) (hspace : Spaced space)
    (hright : Written .conjunction back right) (hends : ∀ c ∈ back.head?, c.isAlphanum = false)
    (happart : WordsApart connectives (front ++ (space ++ ("or".toList ++ back)))) :
    Written .disjunction (front ++ (space ++ ("or".toList ++ back))) (.or left right) where
  derives := by
    rw [explicitProducts_connective (by decide) hspace happart]
    exact .or hleft.derives hspace hright.derives (by rwa [head?_explicitProducts])
  fits := hleft.fits.append (hspace.fits.append
    ((Fits.of_plain (plain_of_isAlpha (by decide))).append hright.fits))

theorem clause (h : Written .disjunction front left) (hspace : Spaced space) :
    Written .clause (front ++ space) left where
  derives := by
    rw [explicitProducts_append_spaced front hspace]
    exact .clause h.derives hspace
  fits := h.fits.append hspace.fits

end Connectives

theorem ne_nil {layer : Layer} {text : List Char} {tree : Constraint}
    (h : Written layer text tree) : text ≠ [] := by
  rintro rfl
  exact h.derives.ne_nil rfl

end Written

end Constraint

end Diophantine
