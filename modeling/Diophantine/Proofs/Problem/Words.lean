import Diophantine.Proofs.Constraint.Words
import Diophantine.Proofs.Problem.Written

/-!
# Words in problems

Behind the word `Solve`, the text of a problem is clauses with terminators between them. No clause
has a star next to a word, none ends with a star, and what ends a clause keeps the words `such that`
apart from it. So a text with a star next to one of its words is read as no problem, and a word that
stands directly against a parenthesis or a digit gets one.

- `UnstarredClause`: what is known of a clause that is read;
- `Sentence.unstarred_of_read`: sentences of such clauses;
- `unstarred_of_readConstraints`, `unstarred_of_readEquations`: all sentences;
- `Problem.wordsApart_of_read`: in a problem that is read with its products made explicit, the words
  stand apart.
-/

namespace Diophantine

/-! ### Clauses -/

/-- The text has no star next to a word, and none at its end. -/
structure UnstarredClause (text : List Char) : Prop where
  anywhere : UnstarredAnywhere text
  last : text.getLast? ≠ some '*'

theorem not_star_of_blank {text : List Char} (h : text.all isBlank = true) :
    ∀ c ∈ text, c.isAlpha = false ∧ c ≠ '*' := by
  intro c hc
  have hblank : isBlank c = true := List.all_eq_true.mp h c hc
  refine ⟨(Bool.or_eq_false_iff.mp (apart_of_isBlank hblank).1).1, ?_⟩
  rintro rfl
  cases hblank

theorem unstarredClause_of_blank {text : List Char} (h : text.all isBlank = true) :
    UnstarredClause text where
  anywhere := .of_neutral (not_star_of_blank h)
  last hlast := (not_star_of_blank h '*' (List.mem_of_getLast? hlast)).2 rfl

theorem Equation.Derives.unstarredClause {text : List Char} {equation : Equation}
    (h : Derives text equation) : UnstarredClause text := by
  refine ⟨fun p q _ hhead => .of_lettersApart (h.letters_apart.cons hhead) fun _ _ => ?_, ?_⟩
  · obtain ⟨space, core, rfl, hspace, hopens, -⟩ := h.strip
    exact hopens.head?_ne hspace
  · cases h with
    | @intro front back _ _ _ hright =>
    have hsuffix : back <:+ front ++ '=' :: back := ⟨front ++ ['='], by simp⟩
    exact getLast?_ne_of_suffix hsuffix hright.ne_nil hright.getLast?_ne

theorem Constraint.Derives.unstarredClause {text : List Char} {constraint : Constraint}
    (h : Derives .clause text constraint) : UnstarredClause text :=
  ⟨fun p q _ hhead => h.unstarred p q hhead, h.getLast?_ne⟩

theorem Equation.unstarred_of_readClause {clause : Slice} {equation : Equation}
    (hexplicit : Explicit clause.chars) (h : readClause clause = .ok equation) :
    UnstarredClause clause.chars := by
  have hderives := (derives_of_readClause h).1
  rw [explicitProducts_eq_self hexplicit] at hderives
  exact hderives.unstarredClause

theorem Constraint.unstarred_of_readClause {clause : Slice} {constraint : Constraint}
    (hexplicit : Explicit clause.chars) (h : readClause clause = .ok constraint) :
    UnstarredClause clause.chars := by
  have hderives := (derives_of_readClause (.of_explicit hexplicit isWord_of_mem_connectives) h).1
  rw [explicitProducts_eq_self hexplicit] at hderives
  exact hderives.unstarredClause

/-! ### What ends a clause -/

theorem wordAfter_of_getLast? {text : List Char} {c : Char} (h : c ∈ text.getLast?)
    (inWord : Bool) : wordAfter inWord text = c.isAlphanum := by
  obtain ⟨front, rfl⟩ := List.getLast?_eq_some_iff.mp h
  rw [wordAfter_append]
  rfl

/-- No star stands next to the words `such that` if none stands next to a word in what follows. -/
theorem UnstarredAnywhere.suchThat {rest : List Char} (h : UnstarredAnywhere rest)
    (hends : ∀ c ∈ rest.head?, c.isAlphanum = false) :
    UnstarredAnywhere ("such that".toList ++ rest) := by
  intro p q hq hhead
  have hword : Unstarred p q "such that".toList := by
    refine .of_word hq (by simp) fun _ hletter => ?_
    exact absurd (hhead 's' rfl hletter) (by decide)
  refine hword.append fun r s hs => ?_
  obtain rfl : 't' = s := Option.some.inj hs
  exact h r 't' (by decide) fun c hc _ => (Bool.or_eq_false_iff.mp (hends c hc)).1

theorem Terminator.Takes.unstarred {terminator : Terminator} {inWord : Bool}
    {taken rest : List Char} (h : terminator.Takes taken)
    (hbegins : terminator.Begins inWord (taken ++ rest)) (hrest : UnstarredAnywhere rest) :
    UnstarredAnywhere (taken ++ rest) := by
  rcases terminator with _ | _ | _
  · obtain rfl : taken = [','] := h
    exact hrest.append (by simp)
  · obtain rfl : taken = ['.'] := h
    exact hrest.append (by simp)
  · obtain ⟨gap, -, hblank, rfl⟩ := h
    obtain ⟨-, behind, hbehind, hends⟩ := hbegins
    rw [List.append_assoc] at hbehind ⊢
    rw [← List.append_cancel_left hbehind] at hends
    exact (hrest.append (not_star_of_blank (List.all_eq_true.mpr hblank))).suchThat hends

/-- A terminator does not go on with the letters in front of it. -/
theorem Terminator.Begins.apart {terminator : Terminator} {inWord : Bool} {text : List Char}
    (h : terminator.Begins inWord text) (hword : inWord = true) :
    ∀ c ∈ text.head?, c.isAlpha = false := by
  intro c hc
  rcases terminator with _ | _ | _
  · obtain rfl : ',' = c := Option.some.inj (h.symm.trans hc)
    rfl
  · obtain rfl : '.' = c := Option.some.inj (h.symm.trans hc)
    rfl
  · rw [h.1] at hword
    cases hword

/-- A clause and the rest of the text, with what ends the clause between them. -/
theorem unstarred_of_nextPiece {active : List Terminator} {slice : Slice} {piece : Piece}
    (h : nextPiece active [] false slice.start slice.chars = .ok piece)
    (hpiece : UnstarredClause piece.chars) (hrest : UnstarredAnywhere piece.rest.chars) :
    UnstarredAnywhere slice.chars := by
  obtain ⟨tail, hchars, -, -, hstops⟩ := exists_of_nextPiece h
  rw [hchars]
  intro p q hq hhead
  have hfront : Unstarred p q piece.chars :=
    hpiece.anywhere p q hq fun c hc => hhead c (List.mem_head?_append_of_mem_head? hc)
  refine hfront.append fun r s hs => ?_
  unfold Piece.Stops at hstops
  split at hstops
  · rw [hstops.1]
    trivial
  · obtain ⟨-, hbegins, taken, htakes, htail⟩ := exists_of_terminator? hstops
    dsimp only at hbegins htail
    rw [htail] at hbegins hhead ⊢
    -- What the terminator stands behind is what the clause ends with, if it is not empty.
    have hseam : s ≠ '*' ∧ ∀ c ∈ (taken ++ piece.rest.chars).head?, s.isAlpha = true →
        c.isAlpha = false := by
      cases hempty : piece.chars with
      | nil =>
        rw [hempty] at hs hhead
        obtain rfl : q = s := Option.some.inj hs
        exact ⟨hq, hhead⟩
      | cons c chars =>
        rw [hempty, List.getLast?_cons_cons, ← hempty] at hs
        refine ⟨fun hstar => hpiece.last (hstar ▸ hs), fun c hc hletter => ?_⟩
        refine hbegins.apart ?_ c hc
        rw [wordAfter_of_getLast? hs, Char.isAlphanum, hletter, Bool.true_or]
    exact htakes.unstarred hbegins hrest r s hseam.1 hseam.2

/-! ### Sentence after sentence -/

/-- A sentence of clauses that are read, in front of a text that is read. -/
theorem Sentence.unstarred_of_read {active : List Terminator} {slice : Slice} {sentence : Sentence}
    (h : read active slice = .ok sentence)
    (hclauses : ∀ clause ∈ sentence.clauses, UnstarredClause clause.chars)
    (hremainder : UnstarredAnywhere sentence.remainder.chars) : UnstarredAnywhere slice.chars := by
  fun_induction read active slice generalizing sentence with
  | case1 => cases h
  | case2 => cases h
  | case3 slice piece hpiece _ sentence hread ih =>
    cases h
    obtain ⟨hfirst, hmore⟩ := List.forall_mem_cons.mp hclauses
    exact unstarred_of_nextPiece hpiece hfirst (ih hread hmore hremainder)
  | case4 slice piece hpiece =>
    cases h
    exact unstarred_of_nextPiece hpiece (of_last (fun _ => unstarredClause_of_blank) hclauses)
      hremainder
  | case5 slice piece hpiece =>
    cases h
    exact unstarred_of_nextPiece hpiece (of_last (fun _ => unstarredClause_of_blank) hclauses)
      hremainder

/-- One sentence behind spacing, with all its clauses read, in front of a text that is read. -/
theorem unstarred_of_sentence {α : Type} {active : List Terminator}
    {readClause : Slice → Except Failure α} {slice : Slice} {sentence : Sentence} {items : List α}
    (hclause : ∀ clause item, Explicit clause.chars → readClause clause = .ok item →
      UnstarredClause clause.chars)
    (hexplicit : Explicit slice.chars)
    (hsentence : Sentence.read active slice.skipSpacing = .ok sentence)
    (hitems : readClauses readClause sentence.clauses = .ok items)
    (hremainder : UnstarredAnywhere sentence.remainder.chars) : UnstarredAnywhere slice.chars := by
  obtain ⟨space, hspace, hchars⟩ := slice.exists_spaced_skipSpacing
  have hclauses : ∀ clause ∈ sentence.clauses, UnstarredClause clause.chars := by
    refine forall_mem_of_forall₂ (forall₂_of_readClauses hitems) fun clause hmem item hitem => ?_
    have hpart := ((Sentence.infix_of_read hsentence).1 clause hmem).trans slice.infix_skipSpacing
    exact hclause clause item (hexplicit.infix_of hpart) hitem
  rw [hchars]
  exact (Sentence.unstarred_of_read hsentence hclauses hremainder).append hspace.not_star

theorem unstarred_of_spacing {slice : Slice} (h : slice.skipSpacing.chars = []) :
    UnstarredAnywhere slice.chars := by
  obtain ⟨space, hspace, hchars⟩ := slice.exists_spaced_skipSpacing
  rw [hchars, h, List.append_nil]
  exact .of_neutral hspace.not_star

/-- Sentences of constraints. -/
theorem unstarred_of_readConstraints {slice : Slice} {problem : Problem}
    (hexplicit : Explicit slice.chars) (h : (readConstraints slice).result = .ok problem) :
    UnstarredAnywhere slice.chars := by
  fun_induction readConstraints slice generalizing problem with
  | case1 slice hempty => exact unstarred_of_spacing hempty
  | case2 => cases h
  | case3 => cases h
  | case4 slice hne sentence hsentence constraints hitems more =>
    rename_i ih
    obtain ⟨found, hmore, -⟩ := map_eq_ok_iff.mp h
    have hpart := (Sentence.infix_of_read hsentence).2.trans slice.infix_skipSpacing
    exact unstarred_of_sentence (fun _ _ => Constraint.unstarred_of_readClause) hexplicit hsentence
      hitems (ih (hexplicit.infix_of hpart) hmore)

/-- Sentences of equations, and the constraints after them. -/
theorem unstarred_of_readEquations {slice : Slice} {problem : Problem}
    (hexplicit : Explicit slice.chars) (h : (readEquations slice).result = .ok problem) :
    UnstarredAnywhere slice.chars := by
  fun_induction readEquations slice generalizing problem with
  | case1 slice hempty => exact unstarred_of_spacing hempty
  | case2 slice hne rest hwords =>
    obtain ⟨⟨space, hspace, hchars⟩, hends⟩ := Slice.exists_spaced_of_afterKeyword? hwords
    have hpart := (Slice.infix_of_afterKeyword? hwords).trans slice.infix_skipSpacing
    have hrest := unstarred_of_readConstraints (hexplicit.infix_of hpart) h
    rw [hchars]
    exact (hrest.suchThat hends).append hspace.not_star
  | case3 => cases h
  | case4 => cases h
  | case5 slice hne hwords sentence hsentence equations hitems more =>
    rename_i ih
    obtain ⟨found, hmore, -⟩ := map_eq_ok_iff.mp h
    have hpart := (Sentence.infix_of_read hsentence).2.trans slice.infix_skipSpacing
    have hremainder : UnstarredAnywhere sentence.remainder.chars := by
      simp only [more] at hmore
      split at hmore
      · exact unstarred_of_readConstraints (hexplicit.infix_of hpart) hmore
      · exact ih (hexplicit.infix_of hpart) hmore
    exact unstarred_of_sentence (fun _ _ => Equation.unstarred_of_readClause) hexplicit hsentence
      hitems hremainder

namespace Problem

/-! ### The word in front -/

/-- The text begins with the word `Solve`, and with no longer one. -/
def BeginsIn (text : List Char) : Prop :=
  ∃ rest, text.dropWhile isSpacing = "Solve".toList ++ rest ∧ ∀ c ∈ rest.head?, c.isAlpha = false

/-- What follows the word is left alone, unless it is a factor. -/
theorem explicitProducts_solve {rest : List Char}
    (h : ∀ c ∈ rest.head?, juxtaposed 'e' c = false) :
    explicitProducts ("Solve".toList ++ rest) = "Solve".toList ++ explicitProducts rest := by
  refine explicitProducts_append fun a ha c hc => ?_
  obtain rfl : 'e' = a := Option.some.inj ha
  exact h c hc

/-- With its products made explicit, a text is read as a problem exactly if it begins with the word.
A digit that goes on with the word is a factor then. -/
theorem isSome_afterKeyword?_iff {slice other : Slice} (hnorm : Normalizes slice other) :
    (other.skipSpacing.afterKeyword? "Solve").isSome ↔ BeginsIn slice.chars := by
  rw [Slice.isSome_afterKeyword?_iff, show other.skipSpacing.chars = _ from hnorm.skipSpacing]
  constructor
  · rintro ⟨found, hfound, hends⟩
    obtain ⟨rest, hrest⟩ := exists_of_explicitProducts_eq_append (by decide) hfound
    refine ⟨rest, hrest, fun c hc => Bool.eq_false_iff.mpr fun hletter => ?_⟩
    have hapart : ∀ d ∈ rest.head?, juxtaposed 'e' d = false := by
      intro d hd
      obtain rfl : c = d := Option.some.inj (hc.symm.trans hd)
      exact juxtaposed_letters (by decide) hletter
    rw [hrest, explicitProducts_solve hapart] at hfound
    rw [← List.append_cancel_left hfound, head?_explicitProducts] at hends
    have halnum := hends c hc
    rw [Char.isAlphanum, hletter] at halnum
    cases halnum
  · rintro ⟨rest, hrest, hends⟩
    rw [show slice.skipSpacing.chars = _ from hrest]
    by_cases hfactor : ∃ c ∈ rest.head?, juxtaposed 'e' c = true
    · obtain ⟨c, hc, hjuxtaposed⟩ := hfactor
      have hlast : 'e' ∈ "Solve".toList.getLast? := rfl
      rw [explicitProducts_append_juxtaposed hlast hc hjuxtaposed]
      refine ⟨_, rfl, fun d hd => ?_⟩
      obtain rfl : '*' = d := Option.some.inj hd
      rfl
    · have hapart : ∀ c ∈ rest.head?, juxtaposed 'e' c = false := fun c hc =>
        Bool.eq_false_iff.mpr fun hjuxtaposed => hfactor ⟨c, hc, hjuxtaposed⟩
      refine ⟨_, explicitProducts_solve hapart, fun c hc => Bool.or_eq_false_iff.mpr ?_⟩
      rw [head?_explicitProducts] at hc
      refine ⟨hends c hc, Bool.eq_false_iff.mpr fun hdigit => hfactor ⟨c, hc, ?_⟩⟩
      exact (juxtaposed_letter_iff (by decide)).mpr (.inl hdigit)

theorem beginsIn_of_afterKeyword? {slice : Slice}
    (h : (slice.skipSpacing.afterKeyword? "Solve").isSome) : BeginsIn slice.chars := by
  obtain ⟨rest, hrest, hends⟩ := Slice.isSome_afterKeyword?_iff.mp h
  exact ⟨rest, hrest, fun c hc => (Bool.or_eq_false_iff.mp (hends c hc)).1⟩

/-! ### Whole problems -/

/-- Any text that does not begin with the word is the empty problem, as it stands and with its
products made explicit. -/
theorem read_of_not_beginsIn {slice other : Slice} (hnorm : Normalizes slice other)
    (h : ¬BeginsIn slice.chars) :
    (read slice).result = .ok .empty ∧ (read other).result = .ok .empty := by
  have hempty : ∀ {slice : Slice}, slice.skipSpacing.afterKeyword? "Solve" = none →
      (read slice).result = .ok .empty := by
    intro slice hnone
    rw [read, hnone]
  refine ⟨hempty (Option.not_isSome_iff_eq_none.mp fun hsome => ?_),
    hempty (Option.not_isSome_iff_eq_none.mp fun hsome => ?_)⟩
  · exact h (beginsIn_of_afterKeyword? hsome)
  · exact h ((isSome_afterKeyword?_iff hnorm).mp hsome)

/-- **Words stand apart in problems**: if a text that begins with the word is read as a problem with
its products made explicit, none of its words stands directly against a parenthesis or a digit. -/
theorem wordsApart_of_read {slice other : Slice} {problem : Problem}
    (hnorm : Normalizes slice other) (hbegins : BeginsIn slice.chars)
    (h : (read other).result = .ok problem) : WordsApart keywords slice.chars := by
  obtain ⟨rest, hrest⟩ :=
    Option.isSome_iff_exists.mp ((isSome_afterKeyword?_iff hnorm).mpr hbegins)
  obtain ⟨⟨space, hspace, hchars⟩, hends⟩ := Slice.exists_spaced_of_afterKeyword? hrest
  rw [read, hrest] at h
  dsimp only at h
  cases hbody : (readEquations rest).result with
  | error failure =>
    rw [hbody] at h
    cases h
  | ok found =>
    have hexplicit : Explicit other.chars := by
      rw [show other.chars = _ from hnorm]
      exact explicit_explicitProducts slice.chars
    have hpart := (Slice.infix_of_afterKeyword? hrest).trans other.infix_skipSpacing
    have hunstarred : Unstarred 'v' 'e' rest.chars :=
      unstarred_of_readEquations (hexplicit.infix_of hpart) hbody 'v' 'e' (by decide)
        fun c hc _ => (Bool.or_eq_false_iff.mp (hends c hc)).1
    have hfront : '*' ∉ (space ++ ['S', 'o', 'l']) ++ ['v', 'e'] := by
      simpa using fun hstar => (hspace.not_star '*' hstar).2 rfl
    refine .of_explicitProducts isWord_of_mem_keywords ?_
    have htext : explicitProducts slice.chars
        = (space ++ ['S', 'o', 'l']) ++ 'v' :: 'e' :: rest.chars := by
      rw [← show other.chars = _ from hnorm, hchars, List.append_assoc]
      rfl
    rw [htext]
    exact hunstarred.not_keyword hfront

end Problem

end Diophantine
