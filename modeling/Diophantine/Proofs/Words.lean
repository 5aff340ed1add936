import Mathlib.Data.List.Infix
import Diophantine.Proofs.Expression.Written

/-!
# Words among products

Making products explicit looks at two neighbours at a time and cannot tell a variable from the end
of a word. So a star is written between a word and a parenthesis or a digit that faces it, although
a word is no factor. Words that stand apart from these are left alone.

- `WordsApart`: no word stands directly against what faces it as a factor would;
- `WordsApart.explicitProducts_word`: products are made explicit on either side of a word;
- `WordsApart.of_explicit`: once products are explicit, words do stand apart;
- `WordsApart.of_explicitProducts`: otherwise a star is written next to one of them;
- `connectives`, `keywords`: the words that there are.
-/

namespace Diophantine

/-! ### Letters -/

/-- A digit or an opening parenthesis behind a letter is a factor of a product. -/
theorem juxtaposed_letter_iff {a b : Char} (ha : a.isAlpha = true) :
    juxtaposed a b = true ↔ b.isDigit = true ∨ b = '(' := by
  have hdigit : a.isDigit = false := Bool.eq_false_iff.mpr fun hdigit => by
    rw [(neutral_of_isDigit hdigit).2.2] at ha
    cases ha
  simp [juxtaposed, Char.isAlphanum, ha, hdigit, (not_parenthesis_of_isAlpha ha).2, or_comm]

/-- Another letter is not. -/
theorem juxtaposed_letters {a b : Char} (ha : a.isAlpha = true) (hb : b.isAlpha = true) :
    juxtaposed a b = false := by
  refine Bool.eq_false_iff.mpr fun hjuxtaposed => ?_
  rcases (juxtaposed_letter_iff ha).mp hjuxtaposed with hdigit | rfl
  · rw [(neutral_of_isDigit hdigit).2.2] at hb
    cases hb
  · cases hb

/-- A digit or a closing parenthesis in front of a letter is a factor too. -/
theorem juxtaposed_iff_letter {a b : Char} (hb : b.isAlpha = true) :
    juxtaposed a b = true ↔ a.isDigit = true ∨ a = ')' := by
  have hdigit : b.isDigit = false := Bool.eq_false_iff.mpr fun hdigit => by
    rw [(neutral_of_isDigit hdigit).2.2] at hb
    cases hb
  simp [juxtaposed, Char.isAlphanum, hb, hdigit, (not_parenthesis_of_isAlpha hb).1, or_comm]

/-! ### Words that stand apart -/

/-- None of the words stands directly in front of a digit or an opening parenthesis, or directly
behind a digit or a closing parenthesis. -/
def WordsApart (words : List String) (text : List Char) : Prop :=
  ∀ word ∈ words, ∀ c ∈ text,
    (c.isDigit = true ∨ c = '(' → ¬word.toList ++ [c] <:+: text)
      ∧ (c.isDigit = true ∨ c = ')' → ¬c :: word.toList <:+: text)

-- Written out, as a quantifier over characters may also be decided by trying every character.
instance (words : List String) (text : List Char) : Decidable (WordsApart words text) :=
  @List.decidableBAll String _ (fun _ => List.decidableBAll _ text) words

/-- The word begins and ends with letters, and it holds no implicit product. -/
structure IsWord (word : String) : Prop where
  explicit : Explicit word.toList
  first : ∃ b ∈ word.toList.head?, b.isAlpha = true
  last : ∃ a ∈ word.toList.getLast?, a.isAlpha = true

namespace WordsApart

variable {words : List String} {text : List Char}

theorem infix_of (h : WordsApart words text) {part : List Char} (hpart : part <:+: text) :
    WordsApart words part := by
  intro word hword c hc
  obtain ⟨hbehind, hbefore⟩ := h word hword c (hpart.subset hc)
  exact ⟨fun hfactor hin => hbehind hfactor (hin.trans hpart),
    fun hfactor hin => hbefore hfactor (hin.trans hpart)⟩

theorem mono {more : List String} (h : WordsApart more text) (hsubset : words ⊆ more) :
    WordsApart words text :=
  fun word hword => h word (hsubset hword)

/-- Once products are explicit, a star stands between a word and what faces it. -/
theorem of_explicit (h : Explicit text) (hwords : ∀ word ∈ words, IsWord word) :
    WordsApart words text := by
  refine fun word hword c hc => ⟨fun hfactor hin => ?_, fun hfactor hin => ?_⟩
  · obtain ⟨a, ha, hletter⟩ := (hwords word hword).last
    have hseam : juxtaposed a c = false := (List.isChain_append.mp (h.infix_of hin)).2.2 a ha c rfl
    rw [(juxtaposed_letter_iff hletter).mpr hfactor] at hseam
    cases hseam
  · obtain ⟨b, hb, hletter⟩ := (hwords word hword).first
    have hseam : juxtaposed c b = false := (List.isChain_cons.mp (h.infix_of hin)).1 b hb
    rw [(juxtaposed_iff_letter hletter).mpr hfactor] at hseam
    cases hseam

/-- Products are made explicit on either side of a word, and the word is left alone. -/
theorem explicitProducts_word {front back : List Char} {word : String}
    (h : WordsApart words (front ++ (word.toList ++ back))) (hmem : word ∈ words)
    (hword : IsWord word) :
    explicitProducts (front ++ (word.toList ++ back))
      = explicitProducts front ++ (word.toList ++ explicitProducts back) := by
  obtain ⟨b, hb, hfirst⟩ := hword.first
  obtain ⟨a, ha, hlast⟩ := hword.last
  have hfront : explicitProducts (front ++ (word.toList ++ back))
      = explicitProducts front ++ explicitProducts (word.toList ++ back) := by
    refine explicitProducts_append fun c hc d hd => Bool.eq_false_iff.mpr fun hjuxtaposed => ?_
    rw [List.head?_append, Option.mem_def.mp hb] at hd
    obtain rfl : b = d := Option.some.inj hd
    obtain ⟨front, rfl⟩ := List.getLast?_eq_some_iff.mp hc
    exact (h word hmem c (by simp)).2 ((juxtaposed_iff_letter hfirst).mp hjuxtaposed)
      ⟨front, back, by simp⟩
  have hback : explicitProducts (word.toList ++ back)
      = explicitProducts word.toList ++ explicitProducts back := by
    refine explicitProducts_append fun c hc d hd => Bool.eq_false_iff.mpr fun hjuxtaposed => ?_
    obtain rfl : a = c := Option.some.inj (ha.symm.trans hc)
    obtain ⟨back, rfl⟩ := List.head?_eq_some_iff.mp hd
    exact (h word hmem d (by simp)).1 ((juxtaposed_letter_iff hlast).mp hjuxtaposed)
      ⟨front, back, by simp⟩
  rw [hfront, hback, explicitProducts_eq_self hword.explicit]

/-- Where words do not stand apart, a star is written next to one of them. -/
theorem of_explicitProducts (hwords : ∀ word ∈ words, IsWord word)
    (h : ∀ word ∈ words, ¬word.toList ++ ['*'] <:+: explicitProducts text
      ∧ ¬ '*' :: word.toList <:+: explicitProducts text) : WordsApart words text := by
  intro word hword c _
  have hself := explicitProducts_eq_self (hwords word hword).explicit
  refine ⟨fun hfactor hin => (h word hword).1 ?_, fun hfactor hin => (h word hword).2 ?_⟩
  · obtain ⟨a, ha, hletter⟩ := (hwords word hword).last
    have hstar : explicitProducts (word.toList ++ [c]) = word.toList ++ '*' :: [c] := by
      rw [explicitProducts_append_juxtaposed ha (List.head?_cons ..)
        ((juxtaposed_letter_iff hletter).mpr hfactor), hself]
      rfl
    have hin := explicitProducts_infix hin
    rw [hstar, List.append_cons] at hin
    exact (List.prefix_append _ _).isInfix.trans hin
  · obtain ⟨b, hb, hletter⟩ := (hwords word hword).first
    have hc : c ∈ [c].getLast? := rfl
    have hstar : explicitProducts ([c] ++ word.toList) = [c] ++ '*' :: word.toList := by
      rw [explicitProducts_append_juxtaposed hc hb ((juxtaposed_iff_letter hletter).mpr hfactor),
        hself]
      rfl
    have hin := explicitProducts_infix hin
    rw [← List.singleton_append, hstar] at hin
    exact (List.suffix_append _ _).isInfix.trans hin

end WordsApart

/-! ### The words of constraints and problems -/

/-- The words that join constraints. -/
def connectives : List String :=
  ["and", "or"]

theorem isWord_of_mem_connectives : ∀ word ∈ connectives, IsWord word := by
  have hand : IsWord "and" := ⟨by decide, ⟨'a', rfl, rfl⟩, ⟨'d', rfl, rfl⟩⟩
  have hor : IsWord "or" := ⟨by decide, ⟨'o', rfl, rfl⟩, ⟨'r', rfl, rfl⟩⟩
  exact List.forall_mem_cons.mpr ⟨hand, List.forall_mem_singleton.mpr hor⟩

/-- The words of problems. -/
def keywords : List String :=
  "Solve" :: "such that" :: connectives

theorem connectives_subset_keywords : connectives ⊆ keywords := by
  decide

theorem isWord_of_mem_keywords : ∀ word ∈ keywords, IsWord word := by
  have hsolve : IsWord "Solve" := ⟨by decide, ⟨'S', rfl, rfl⟩, ⟨'e', rfl, rfl⟩⟩
  have hsuchThat : IsWord "such that" := ⟨by decide, ⟨'s', rfl, rfl⟩, ⟨'t', rfl, rfl⟩⟩
  exact List.forall_mem_cons.mpr
    ⟨hsolve, List.forall_mem_cons.mpr ⟨hsuchThat, isWord_of_mem_connectives⟩⟩

end Diophantine
