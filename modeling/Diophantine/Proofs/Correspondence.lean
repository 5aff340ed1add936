import Diophantine.Proofs.Constraint.Soundness
import Diophantine.Proofs.Splitting

/-!
# The same slices with products made explicit

Reading a text as it stands and reading it with its products made explicit go through the same
steps. Every slice of the one is a slice of the other with its products made explicit, wherever it
begins. For this, no word may stand directly against a parenthesis or a digit, and no clause may
hold what ends one.

- `Normalizes`: two slices that correspond to each other;
- `afterKeyword?_normalizes`, `terminator?_normalizes`: words and terminators are found again;
- `nextPiece_normalizes`, `Sentence.read_normalizes`: so are pieces and sentences.
-/

namespace Diophantine

/-! ### Corresponding slices -/

/-- The other slice holds the text of this one with its products made explicit. -/
def Normalizes (slice other : Slice) : Prop :=
  other.chars = explicitProducts slice.chars

theorem Slice.infix_skipSpacing (slice : Slice) : slice.skipSpacing.chars <:+: slice.chars :=
  (List.dropWhile_suffix isSpacing).isInfix

theorem Slice.infix_of_afterKeyword? {slice rest : Slice} {word : String}
    (h : slice.afterKeyword? word = some rest) : rest.chars <:+: slice.chars := by
  rw [(Slice.afterKeyword?_eq_some_iff.mp h).1]
  exact (List.suffix_append _ _).isInfix

namespace Normalizes

variable {slice other : Slice} (h : Normalizes slice other)

include h

theorem skipSpacing : Normalizes slice.skipSpacing other.skipSpacing := by
  obtain ⟨space, hspace, hchars⟩ := slice.exists_spaced_skipSpacing
  obtain ⟨start, chars⟩ := other
  obtain rfl : chars = explicitProducts slice.chars := h
  have hsolid : ∀ c ∈ (explicitProducts slice.skipSpacing.chars).head?, isSpacing c = false := by
    intro c hc
    rw [head?_explicitProducts] at hc
    have hnot := List.head?_dropWhile_not isSpacing slice.chars
    rw [show (slice.chars.dropWhile isSpacing).head? = some c from hc] at hnot
    simpa using hnot
  show (Slice.skipSpacing { start := start, chars := explicitProducts slice.chars }).chars = _
  rw [hchars, (SignText.plain hspace).explicitProducts_append,
    Slice.skipSpacing_append hspace hsolid]

theorem chars_eq_nil_iff : other.chars = [] ↔ slice.chars = [] := by
  rw [← List.head?_eq_none_iff, ← List.head?_eq_none_iff, show other.chars = _ from h,
    head?_explicitProducts]

end Normalizes

/-! ### Blanks -/

theorem toNat_of_isAlphanum {c : Char} (h : c.isAlphanum = true) :
    48 ≤ c.toNat ∧ c.toNat ≤ 122 := by
  rcases Bool.or_eq_true_iff.mp h with hletter | hdigit
  · rcases Bool.or_eq_true_iff.mp hletter with hupper | hlower
    · obtain ⟨hlow, hhigh⟩ := of_decide_eq_true hupper
      have hlow : 65 ≤ c.toNat := UInt32.le_iff_toNat_le.mp hlow
      have hhigh : c.toNat ≤ 90 := UInt32.le_iff_toNat_le.mp hhigh
      omega
    · obtain ⟨hlow, hhigh⟩ := Bool.and_eq_true_iff.mp hlower
      have hlow : 97 ≤ c.toNat := UInt32.le_iff_toNat_le.mp (of_decide_eq_true hlow)
      have hhigh : c.toNat ≤ 122 := UInt32.le_iff_toNat_le.mp (of_decide_eq_true hhigh)
      omega
  · have hrange : 48 ≤ c.toNat ∧ c.toNat ≤ 57 := Char.isDigit_iff_toNat.mp hdigit
    omega

/-- A blank takes part in no product. -/
theorem apart_of_isBlank {c : Char} (h : isBlank c = true) :
    c.isAlphanum = false ∧ c ≠ '(' ∧ c ≠ ')' := by
  have hcode : c.toNat ≤ 32 ∨ 133 ≤ c.toNat := by
    simp only [isBlank, blankRanges, List.any_cons, List.any_nil, Bool.or_eq_true,
      Bool.and_eq_true, decide_eq_true_eq, Bool.or_false] at h
    omega
  refine ⟨Bool.eq_false_iff.mpr fun halnum => ?_, ?_, ?_⟩
  · obtain ⟨hlow, hhigh⟩ := toNat_of_isAlphanum halnum
    omega
  · rintro rfl
    exact absurd hcode (by decide)
  · rintro rfl
    exact absurd hcode (by decide)

theorem explicitProducts_of_blank {text : List Char} (h : text.all isBlank = true) :
    explicitProducts text = text :=
  explicitProducts_of_signs fun c hc =>
    have hblank := apart_of_isBlank (List.all_eq_true.mp h c hc)
    ⟨hblank.1, hblank.2.2⟩

/-! ### Words -/

/-- Without a star in it, what a text begins with was there before stars were written. -/
theorem exists_of_explicitProducts_eq_append {text front back : List Char} (hstar : '*' ∉ front)
    (h : explicitProducts text = front ++ back) : ∃ rest, text = front ++ rest := by
  induction front generalizing text with
  | nil => exact ⟨text, rfl⟩
  | cons c front ih =>
    have hmore : '*' ∉ front := fun hmem => hstar (List.mem_cons_of_mem c hmem)
    match text with
    | [] => cases h
    | [a] =>
      obtain ⟨rfl, htail⟩ := List.cons.inj h
      obtain ⟨rfl, -⟩ := List.append_eq_nil_iff.mp htail.symm
      exact ⟨[], rfl⟩
    | a :: b :: text =>
      rw [explicitProducts] at h
      split at h
      · obtain ⟨rfl, htail⟩ := List.cons.inj h
        cases front with
        | nil => exact ⟨b :: text, rfl⟩
        | cons d front =>
          obtain rfl : '*' = d := (List.cons.inj htail).1
          exact absurd (List.mem_cons_self ..) hmore
      · obtain ⟨rfl, htail⟩ := List.cons.inj h
        obtain ⟨rest, hrest⟩ := ih hmore htail
        exact ⟨rest, congrArg (a :: ·) hrest⟩

section Words

variable {slice other : Slice} (hnorm : Normalizes slice other)
  (happart : WordsApart keywords slice.chars) {word : String} (hword : word ∈ keywords)

include hnorm happart hword

/-- What stands behind a word at the beginning corresponds too. -/
theorem Normalizes.behind {rest : List Char} (hchars : slice.chars = word.toList ++ rest) :
    other.chars = word.toList ++ explicitProducts rest := by
  rw [hchars] at happart
  have hbehind : explicitProducts ([] ++ (word.toList ++ rest))
      = explicitProducts [] ++ (word.toList ++ explicitProducts rest) :=
    WordsApart.explicitProducts_word happart hword (isWord_of_mem_keywords word hword)
  rw [show other.chars = _ from hnorm, hchars]
  exact hbehind

theorem afterKeyword?_normalizes {rest : Slice} (h : slice.afterKeyword? word = some rest) :
    ∃ found, other.afterKeyword? word = some found ∧ Normalizes rest found := by
  obtain ⟨hchars, -, hends⟩ := Slice.afterKeyword?_eq_some_iff.mp h
  exact ⟨⟨other.start.past word.toList, explicitProducts rest.chars⟩,
    Slice.afterKeyword?_eq_some_iff.mpr
      ⟨hnorm.behind happart hword hchars, rfl, by rwa [head?_explicitProducts]⟩, rfl⟩

theorem afterKeyword?_normalizes_none (h : slice.afterKeyword? word = none) :
    other.afterKeyword? word = none := by
  rw [← Option.not_isSome_iff_eq_none, Slice.isSome_afterKeyword?_iff] at h ⊢
  rintro ⟨found, hfound, hends⟩
  have hstar : ∀ word ∈ keywords, '*' ∉ word.toList := by decide
  rw [show other.chars = _ from hnorm] at hfound
  obtain ⟨rest, hrest⟩ := exists_of_explicitProducts_eq_append (hstar word hword) hfound
  have hbehind := hnorm.behind happart hword hrest
  rw [show other.chars = _ from hnorm, hfound] at hbehind
  refine h ⟨rest, hrest, ?_⟩
  rwa [List.append_cancel_left hbehind, head?_explicitProducts] at hends

end Words

/-! ### Terminators -/

theorem skipSeparator_normalizes {slice other : Slice} (h : Normalizes slice other) :
    Normalizes (skipSeparator slice) (skipSeparator other) := by
  obtain ⟨start, chars⟩ := slice
  obtain ⟨here, chars'⟩ := other
  obtain rfl : chars' = explicitProducts chars := h
  cases chars with
  | nil => rfl
  | cons c chars =>
    by_cases hblank : isBlank c = true
    · have hcons : explicitProducts (c :: chars) = c :: explicitProducts chars :=
        explicitProducts_cons ⟨(apart_of_isBlank hblank).1, (apart_of_isBlank hblank).2.2⟩ chars
      rw [hcons]
      simp only [skipSeparator, Slice.next?, if_pos hblank]
      rfl
    · obtain ⟨chars', hcons⟩ : ∃ chars', explicitProducts (c :: chars) = c :: chars' :=
        List.head?_eq_some_iff.mp (head?_explicitProducts (c :: chars))
      rw [hcons]
      simp only [skipSeparator, Slice.next?, if_neg hblank]
      exact hcons.symm

/-- A terminator that is found behind a text is found behind it still, and so is what it leaves. -/
theorem terminator?_normalizes {active : List Terminator} {inWord : Bool} {here : Position}
    {front tail : List Char} {terminator : Terminator} {rest : Slice}
    (happart : WordsApart keywords (front ++ tail))
    (h : terminator? active inWord { start := here, chars := tail } = some (terminator, rest))
    (there : Position) :
    explicitProducts (front ++ tail) = explicitProducts front ++ explicitProducts tail
      ∧ ∃ found, terminator? active inWord { start := there, chars := explicitProducts tail }
          = some (terminator, found) ∧ Normalizes rest found := by
  have hsign : ∀ {c : Char} (rest : List Char), c.isAlphanum = false ∧ c ≠ '(' ∧ c ≠ ')' →
      tail = c :: rest →
      explicitProducts (front ++ tail) = explicitProducts front ++ explicitProducts tail
        ∧ explicitProducts tail = c :: explicitProducts rest := by
    rintro c rest hc rfl
    exact ⟨explicitProducts_append_of_apart front (Apart.cons ⟨hc.1, hc.2.1⟩ rest),
      explicitProducts_cons ⟨hc.1, hc.2.2⟩ rest⟩
  unfold terminator? at h
  split at h
  · rename_i hnext
    split at h
    · rename_i hactive
      cases h
      obtain ⟨happend, hcons⟩ := hsign rest.chars (by decide) (Slice.next?_eq_some_iff.mp hnext).1
      rw [hcons] at happend ⊢
      exact ⟨happend, _, if_pos hactive, rfl⟩
    · cases h
  · rename_i hnext
    split at h
    · rename_i hactive
      cases h
      obtain ⟨happend, hcons⟩ := hsign rest.chars (by decide) (Slice.next?_eq_some_iff.mp hnext).1
      rw [hcons] at happend ⊢
      exact ⟨happend, _, if_pos hactive, rfl⟩
    · cases h
  · split at h
    · rename_i hactive
      obtain ⟨after, hafter, heq⟩ := Option.map_eq_some_iff.mp h
      cases heq
      obtain ⟨hchars, -, hends⟩ := Slice.afterKeyword?_eq_some_iff.mp hafter
      obtain rfl : tail = "such that".toList ++ after.chars := hchars
      have hword : "such that" ∈ keywords := by decide
      have hnorm : Normalizes { start := here, chars := "such that".toList ++ after.chars }
          { start := there, chars := explicitProducts ("such that".toList ++ after.chars) } := rfl
      have happart' := happart.infix_of (List.suffix_append _ _).isInfix
      obtain ⟨found, hfound, hrest⟩ := afterKeyword?_normalizes hnorm happart' hword hafter
      have hcons := hnorm.behind happart' hword rfl
      dsimp only at hcons
      rw [happart.explicitProducts_word hword (isWord_of_mem_keywords _ hword)]
      rw [hcons] at hfound ⊢
      refine ⟨rfl, _, ?_, skipSeparator_normalizes hrest⟩
      show (if .ending .suchThat ∈ active ∧ inWord = false then
        (Slice.afterKeyword? _ "such that").map _ else _) = _
      rw [if_pos hactive, hfound]
      rfl
    · cases h
  · cases h

/-! ### Pieces and sentences -/

@[simp] theorem wordAfter_explicitProducts (inWord : Bool) (text : List Char) :
    wordAfter inWord (explicitProducts text) = wordAfter inWord text := by
  induction text using explicitProducts.induct generalizing inWord with
  | case1 => rfl
  | case2 a => rfl
  | case3 a b text hjuxtaposed ih =>
    rw [explicitProducts_of_juxtaposed hjuxtaposed]
    exact ih _
  | case4 a b text hnot ih =>
    rw [explicitProducts_of_not_juxtaposed hnot]
    exact ih _

/-- A piece is found again if nothing ends a clause within it once its products are explicit. -/
theorem nextPiece_normalizes {active : List Terminator} {slice other : Slice} {piece : Piece}
    (hnorm : Normalizes slice other) (happart : WordsApart keywords slice.chars)
    (h : nextPiece active [] false slice.start slice.chars = .ok piece)
    (hquiet : Quiet active (explicitProducts piece.chars)) :
    ∃ found, nextPiece active [] false other.start other.chars = .ok found
      ∧ found.chars = explicitProducts piece.chars ∧ found.terminator = piece.terminator
      ∧ Normalizes piece.rest found.rest := by
  obtain ⟨tail, hchars, hopen, -, hstops⟩ := exists_of_nextPiece h
  have hbal : Balanced (explicitProducts piece.chars) := balanced_explicitProducts.mpr hopen
  rw [hchars] at happart
  rw [show other.chars = _ from hnorm, hchars]
  unfold Piece.Stops at hstops
  split at hstops
  · rename_i hnone
    obtain ⟨rfl, hrest⟩ := hstops
    rw [List.append_nil]
    refine ⟨_, nextPiece_of_whole ⟨hbal, hquiet.unbroken (by simp) 0 false⟩ other.start, rfl,
      hnone.symm, ?_⟩
    show [] = explicitProducts piece.rest.chars
    rw [hrest]
    rfl
  · rename_i terminator hsome
    obtain ⟨happend, found, hfound, hremains⟩ := terminator?_normalizes happart hstops
      (other.start.past (explicitProducts piece.chars))
    have hhead : (explicitProducts tail).head? ≠ some 'u'
        ∧ (explicitProducts tail).head? ≠ some '(' ∧ (explicitProducts tail).head? ≠ some ')' := by
      rw [head?_explicitProducts]
      rcases (exists_of_terminator? hstops).2.1.head?_eq with hhead | hhead | hhead <;>
        rw [show tail.head? = _ from hhead] <;> decide
    rw [happend, nextPiece_of_terminator hbal (hquiet.unbroken hhead.1 0 false) hhead.2
      (by rwa [wordAfter_explicitProducts])]
    exact ⟨_, rfl, rfl, hsome.symm, hremains⟩

/-- Nothing ends a clause in text that is blank. -/
theorem quiet_of_blank {active : List Terminator} {text : List Char}
    (h : text.all isBlank = true) : Quiet active (explicitProducts text) := by
  have hblank : ∀ c ∈ text, isBlank c = true := List.all_eq_true.mp h
  rw [explicitProducts_of_blank h]
  refine ⟨fun hmem => absurd (hblank _ hmem) (by decide),
    fun hmem => absurd (hblank _ hmem) (by decide), fun _ => LettersApart.of_neutral fun c hc => ?_⟩
  have halnum := (apart_of_isBlank (hblank c hc)).1
  exact (Bool.or_eq_false_iff.mp halnum).1

/-- Text is blank exactly if it is with its products made explicit. -/
theorem Normalizes.allBlank_eq {slice other : Slice} (h : Normalizes slice other) :
    other.allBlank = slice.allBlank := by
  unfold Slice.allBlank
  rw [show other.chars = _ from h, Bool.eq_iff_iff]
  constructor
  · intro hall
    exact List.all_eq_true.mpr fun c hc =>
      List.all_eq_true.mp hall c ((sublist_explicitProducts _).subset hc)
  · intro hall
    rwa [explicitProducts_of_blank hall]

namespace Sentence

variable {active : List Terminator}

/-- The last clause of a sentence corresponds, whether it is left out or not. -/
theorem last_normalizes {clause other : Slice} (h : Normalizes clause other)
    (remainder found : Slice) (stop : Option Ending) :
    List.Forall₂ Normalizes (last clause remainder stop).clauses
      (last other found stop).clauses := by
  unfold last
  rw [h.allBlank_eq]
  split
  · exact .nil
  · exact .cons h .nil

/-- What holds of blank text and of the clauses of a sentence holds of the last one even if it is
left out. -/
theorem of_last {p : List Char → Prop} (hblank : ∀ text, text.all isBlank = true → p text)
    {clause remainder : Slice} {stop : Option Ending}
    (h : ∀ kept ∈ (last clause remainder stop).clauses, p kept.chars) : p clause.chars := by
  by_cases hclause : clause.allBlank = true
  · exact hblank clause.chars hclause
  · unfold last at h
    rw [if_neg hclause] at h
    exact h clause (List.mem_singleton_self clause)

/-- Even if it is left out, nothing ends a clause within the last one. -/
theorem quiet_of_last {clause remainder : Slice} {stop : Option Ending}
    (h : ∀ kept ∈ (last clause remainder stop).clauses,
      Quiet active (explicitProducts kept.chars)) :
    Quiet active (explicitProducts clause.chars) :=
  of_last (p := fun text => Quiet active (explicitProducts text)) (fun _ => quiet_of_blank) h

/-- A sentence is found again, with the same clauses, if nothing ends a clause within any of them
once its products are explicit. -/
theorem read_normalizes {slice other : Slice} {sentence : Sentence} (hnorm : Normalizes slice other)
    (happart : WordsApart keywords slice.chars)
    (hquiet : ∀ clause ∈ sentence.clauses, Quiet active (explicitProducts clause.chars))
    (h : read active slice = .ok sentence) :
    ∃ found, read active other = .ok found ∧ List.Forall₂ Normalizes sentence.clauses found.clauses
      ∧ Normalizes sentence.remainder found.remainder ∧ found.stop = sentence.stop := by
  fun_induction read active slice generalizing other sentence with
  | case1 => cases h
  | case2 => cases h
  | case3 slice piece hpiece hterminator sentence hread ih =>
    cases h
    obtain ⟨hfirst, hmore⟩ := List.forall_mem_cons.mp hquiet
    obtain ⟨⟨chars, terminator, rest⟩, hfound, hchars, hsame, hrest⟩ :=
      nextPiece_normalizes hnorm happart hpiece hfirst
    obtain rfl : terminator = some .comma := hsame.trans hterminator
    obtain ⟨found, hmatch, hclauses, hremainder, hstop⟩ :=
      ih hrest (happart.infix_of (infix_of_nextPiece hpiece).2) hmore hread
    refine ⟨cons { other with chars := chars } found, ?_, .cons hchars hclauses, hremainder, hstop⟩
    rw [read, hfound]
    dsimp only
    rw [hmatch]
  | case4 slice piece hpiece ending hterminator =>
    cases h
    obtain ⟨⟨chars, terminator, rest⟩, hfound, hchars, hsame, hrest⟩ :=
      nextPiece_normalizes hnorm happart hpiece (quiet_of_last hquiet)
    obtain rfl : terminator = some (.ending ending) := hsame.trans hterminator
    have hlast : Normalizes { slice with chars := piece.chars } { other with chars := chars } :=
      hchars
    refine ⟨last { other with chars := chars } rest (some ending), ?_,
      last_normalizes hlast _ _ _, hrest, rfl⟩
    rw [read, hfound]
  | case5 slice piece hpiece hterminator =>
    cases h
    obtain ⟨⟨chars, terminator, rest⟩, hfound, hchars, hsame, hrest⟩ :=
      nextPiece_normalizes hnorm happart hpiece (quiet_of_last hquiet)
    obtain rfl : terminator = none := hsame.trans hterminator
    have hlast : Normalizes { slice with chars := piece.chars } { other with chars := chars } :=
      hchars
    refine ⟨last { other with chars := chars } rest none, ?_, last_normalizes hlast _ _ _, hrest,
      rfl⟩
    rw [read, hfound]

end Sentence

end Diophantine
