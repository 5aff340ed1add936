import Diophantine.Proofs.Lines

/-!
# Where stars are inserted

Making products explicit inserts stars and does nothing else. One goes between two neighbours if,
and only if, one of them ends a factor and the other begins one, and this is asked of the text as it
was: a character may have a star on either side. With the stars in their places there is no need for
another one.

Stars are not written next to line breaks, so the lines of a text stay what they are. A character is
moved to the right, by as many columns as there are stars in front of it on its line.

- `EndsBeforeFactor`, `juxtaposed_iff`: the neighbours that stand for a product;
- `starBehind`, `explicitProducts_eq_withStars`: the text with its stars, character by character;
- `Explicit.starBehind_eq_false`: no star is missing afterwards;
- `landing`, `getElem?_landing`: where a character goes;
- `Position.Shifted`, `Starred.shifted_past`: stars shift positions to the right;
- `normalize_inserts_stars`: all of it.
-/

namespace Diophantine

/-! ### Neighbours -/

/-- The letters of ASCII. -/
def AsciiLetter (c : Char) : Prop :=
  'A' ≤ c ∧ c ≤ 'Z' ∨ 'a' ≤ c ∧ c ≤ 'z'

/-- The digits of ASCII. -/
def AsciiDigit (c : Char) : Prop :=
  '0' ≤ c ∧ c ≤ '9'

/-- A factor ends with the first character, and another one begins with the second. -/
inductive EndsBeforeFactor : Char → Char → Prop
  | letterGroup {a : Char} (h : AsciiLetter a ∨ AsciiDigit a) : EndsBeforeFactor a '('
  | groupLetter {b : Char} (h : AsciiLetter b ∨ AsciiDigit b) : EndsBeforeFactor ')' b
  | groups : EndsBeforeFactor ')' '('
  | letterDigit {a b : Char} (ha : AsciiLetter a) (hb : AsciiDigit b) : EndsBeforeFactor a b
  | digitLetter {a b : Char} (ha : AsciiDigit a) (hb : AsciiLetter b) : EndsBeforeFactor a b

theorem isAlpha_iff_asciiLetter {c : Char} : c.isAlpha = true ↔ AsciiLetter c := by
  show (decide ('A' ≤ c ∧ c ≤ 'Z') || decide ('a' ≤ c) && decide (c ≤ 'z')) = true ↔ _
  rw [Bool.or_eq_true_iff, Bool.and_eq_true_iff, decide_eq_true_iff, decide_eq_true_iff,
    decide_eq_true_iff]
  exact Iff.rfl

theorem isDigit_iff_asciiDigit {c : Char} : c.isDigit = true ↔ AsciiDigit c := by
  show (decide ('0' ≤ c) && decide (c ≤ '9')) = true ↔ _
  rw [Bool.and_eq_true_iff, decide_eq_true_iff, decide_eq_true_iff]
  exact Iff.rfl

theorem isAlphanum_iff_ascii {c : Char} :
    c.isAlphanum = true ↔ AsciiLetter c ∨ AsciiDigit c := by
  rw [Char.isAlphanum, Bool.or_eq_true_iff, isAlpha_iff_asciiLetter, isDigit_iff_asciiDigit]

/-- A product is meant where a factor ends and another one begins. -/
theorem juxtaposed_iff {a b : Char} : juxtaposed a b = true ↔ EndsBeforeFactor a b := by
  simp only [juxtaposed, Bool.or_eq_true, Bool.and_eq_true, beq_iff_eq, isAlphanum_iff_ascii,
    isAlpha_iff_asciiLetter, isDigit_iff_asciiDigit]
  constructor
  · rintro ((((⟨ha, rfl⟩ | ⟨rfl, hb⟩) | ⟨rfl, rfl⟩) | ⟨ha, hb⟩) | ⟨ha, hb⟩)
    · exact .letterGroup ha
    · exact .groupLetter hb
    · exact .groups
    · exact .letterDigit ha hb
    · exact .digitLetter ha hb
  · intro h
    cases h with
    | letterGroup ha => exact .inl (.inl (.inl (.inl ⟨ha, rfl⟩)))
    | groupLetter hb => exact .inl (.inl (.inl (.inr ⟨rfl, hb⟩)))
    | groups => exact .inl (.inl (.inr ⟨rfl, rfl⟩))
    | letterDigit ha hb => exact .inl (.inr ⟨ha, hb⟩)
    | digitLetter ha hb => exact .inr ⟨ha, hb⟩

/-! ### Stars -/

/-- Whether a star belongs behind the character with the given number, counted from zero. -/
def starBehind (text : List Char) (i : Nat) : Bool :=
  match text[i]?, text[i + 1]? with
  | some a, some b => juxtaposed a b
  | _, _ => false

theorem starBehind_iff {text : List Char} {i : Nat} :
    starBehind text i = true ↔
      ∃ a b, text[i]? = some a ∧ text[i + 1]? = some b ∧ EndsBeforeFactor a b := by
  unfold starBehind
  constructor
  · intro h
    split at h
    · exact ⟨_, _, by assumption, by assumption, juxtaposed_iff.mp h⟩
    · cases h
  · rintro ⟨a, b, ha, hb, h⟩
    rw [ha, hb]
    exact juxtaposed_iff.mpr h

/-- The characters of a text, each with the star behind it if one belongs there. -/
def withStars (text : List Char) : List Char :=
  text.zipIdx.flatMap fun place => place.1 :: if starBehind text place.2 then ['*'] else []

theorem withStars_cons (a : Char) (text : List Char) :
    withStars (a :: text)
      = a :: ((if starBehind (a :: text) 0 then ['*'] else []) ++ withStars text) := by
  unfold withStars
  rw [List.zipIdx_cons, List.flatMap_cons, List.zipIdx_succ, List.flatMap_map]
  rfl

/-- Making products explicit writes each character, and a star behind it if one belongs there. -/
theorem explicitProducts_eq_withStars (text : List Char) :
    explicitProducts text = withStars text := by
  induction text using explicitProducts.induct with
  | case1 => rfl
  | case2 a => rfl
  | case3 a b text hjuxtaposed ih =>
    have hstar : starBehind (a :: b :: text) 0 = true := hjuxtaposed
    rw [withStars_cons, explicitProducts_of_juxtaposed hjuxtaposed, if_pos hstar, ih]
    rfl
  | case4 a b text hnot ih =>
    have hstar : ¬starBehind (a :: b :: text) 0 = true := hnot
    rw [withStars_cons, explicitProducts_of_not_juxtaposed hnot, if_neg hstar, ih]
    rfl

/-- Of an explicit text, no two neighbours need a star. -/
theorem Explicit.starBehind_eq_false {text : List Char} (h : Explicit text) (i : Nat) :
    starBehind text i = false := by
  refine Bool.eq_false_iff.mpr fun hstar => ?_
  obtain ⟨a, b, ha, hb, hfactors⟩ := starBehind_iff.mp hstar
  obtain ⟨hi, rfl⟩ := List.getElem?_eq_some_iff.mp ha
  obtain ⟨hi', rfl⟩ := List.getElem?_eq_some_iff.mp hb
  have hnot : juxtaposed text[i] text[i + 1] = false := List.isChain_iff_getElem.mp h i hi'
  rw [juxtaposed_iff.mpr hfactors] at hnot
  cases hnot

/-! ### Where characters go -/

/-- The number that a character has once stars are in their places: one more for each star in front
of it. -/
def landing (text : List Char) (i : Nat) : Nat :=
  i + (List.range i).countP (starBehind text)

theorem landing_cons_succ (a : Char) (text : List Char) (i : Nat) :
    landing (a :: text) (i + 1)
      = landing text i + 1 + if starBehind (a :: text) 0 then 1 else 0 := by
  unfold landing
  rw [List.range_succ_eq_map, List.countP_cons, List.countP_map]
  show i + 1 + ((List.range i).countP (starBehind text) + _) = _
  omega

/-- A character is the same where it went, and there is none beyond the end. -/
@[simp] theorem getElem?_landing (text : List Char) (i : Nat) :
    (withStars text)[landing text i]? = text[i]? := by
  induction text generalizing i with
  | nil => rfl
  | cons a text ih =>
    rw [withStars_cons]
    cases i with
    | zero => rfl
    | succ i =>
      rw [landing_cons_succ, List.getElem?_cons_succ, ← ih i]
      split
      · rfl
      · rfl

/-! ### Positions -/

/-- The second text is the first one with stars put in. -/
inductive Starred : List Char → List Char → Prop
  | nil : Starred [] []
  | keep {text starred : List Char} (c : Char) (h : Starred text starred) :
      Starred (c :: text) (c :: starred)
  | star {text starred : List Char} (h : Starred text starred) : Starred text ('*' :: starred)

/-- What went in front of a character is what was in front of it, and stars. -/
theorem starred_take (text : List Char) (i : Nat) :
    Starred (text.take i) ((withStars text).take (landing text i)) := by
  induction text generalizing i with
  | nil =>
    rw [List.take_nil]
    show Starred [] (List.take _ [])
    rw [List.take_nil]
    exact .nil
  | cons a text ih =>
    cases i with
    | zero => exact .nil
    | succ i =>
      rw [withStars_cons, landing_cons_succ]
      split
      · exact .keep a (.star (ih i))
      · exact .keep a (ih i)

namespace Position

/-- The second place is on the same line as the first, and not to the left of it. -/
structure Shifted (here there : Position) : Prop where
  line_eq : there.line = here.line
  column_le : here.column ≤ there.column

namespace Shifted

variable {here there : Position}

theorem refl (here : Position) : here.Shifted here :=
  ⟨rfl, Nat.le_refl _⟩

/-- A line break brings both places back to the first column, and anything else takes both one
further. -/
theorem advance (h : here.Shifted there) (c : Char) :
    (here.advance c).Shifted (there.advance c) := by
  unfold Position.advance
  split
  · exact ⟨congrArg (· + 1) h.line_eq, Nat.le_refl _⟩
  · exact ⟨h.line_eq, Nat.succ_le_succ h.column_le⟩

theorem star (h : here.Shifted there) : here.Shifted (there.advance '*') :=
  ⟨h.line_eq, Nat.le_succ_of_le h.column_le⟩

end Shifted

end Position

/-- Stars move what stands behind them to the right along its line. -/
theorem Starred.shifted_past {text starred : List Char} (h : Starred text starred)
    {here there : Position} (hshifted : here.Shifted there) :
    (here.past text).Shifted (there.past starred) := by
  induction h generalizing here there with
  | nil => exact hshifted
  | keep c _ ih => exact ih (hshifted.advance c)
  | star _ ih => exact ih hshifted.star

/-! ### All of it -/

/-- **Stars are inserted where they are needed, and nothing else is changed.** A text with its
products made explicit is the text with a star behind each character that ends a factor in front of
another one. No star is missing then, so doing it again changes nothing. It can be done line by
line, and each character stays on its line and is not moved to the left. -/
theorem normalize_inserts_stars (text : String) :
    (normalize text).toList = withStars text.toList
      ∧ (∀ i, starBehind text.toList i = true ↔
          ∃ a b, text.toList[i]? = some a ∧ text.toList[i + 1]? = some b ∧ EndsBeforeFactor a b)
      ∧ (∀ i, starBehind (normalize text).toList i = false)
      ∧ normalize (normalize text) = normalize text
      ∧ (lines (normalize text).toList).map String.ofList
        = (lines text.toList).map (fun line => normalize (String.ofList line))
      ∧ (∀ number, String.ofList (lineAt (normalize text).toList number)
        = normalize (String.ofList (lineAt text.toList number)))
      ∧ ∀ i, (normalize text).toList[landing text.toList i]? = text.toList[i]?
        ∧ (Position.origin.past (text.toList.take i)).Shifted
            (Position.origin.past ((normalize text).toList.take (landing text.toList i))) := by
  have hchars : (normalize text).toList = explicitProducts text.toList := String.toList_ofList
  have hstars : (normalize text).toList = withStars text.toList :=
    hchars.trans (explicitProducts_eq_withStars _)
  have hexplicit : Explicit (normalize text).toList := hchars ▸ explicit_explicitProducts _
  have hline : ∀ line, normalize (String.ofList line) = String.ofList (explicitProducts line) := by
    intro line
    rw [normalize, String.toList_ofList]
  refine ⟨hstars, fun i => starBehind_iff, hexplicit.starBehind_eq_false, ?_, ?_, fun number => ?_,
    fun i => ⟨?_, ?_⟩⟩
  · show String.ofList (explicitProducts (normalize text).toList) = _
    rw [explicitProducts_eq_self hexplicit, String.ofList_toList]
  · simp only [hline, hchars, lines_explicitProducts, List.map_map]
    rfl
  · rw [hline, hchars, lineAt_explicitProducts]
  · rw [hstars]
    exact getElem?_landing _ i
  · rw [hstars]
    exact (starred_take _ i).shifted_past (.refl _)

/-- The `x` has a star on either side, and the `y` stays in front of its line break. -/
example : normalize "2x(1)y\r\n3z" = "2*x*(1)*y\r\n3*z" := by decide +kernel

end Diophantine
