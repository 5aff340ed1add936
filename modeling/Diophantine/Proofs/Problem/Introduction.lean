import Diophantine.Proofs.Problem.Composition
import Diophantine.Proofs.Problem.Written

/-!
# Two ways to introduce constraints

The words `such that` end a sentence of equations, or they stand at the beginning of a sentence of
their own, behind a period. Either way the constraints follow, and mostly it makes no difference
which way they were introduced.

The two ways treat what stands directly behind the words differently. Words that end a sentence
take one blank along, whichever it is. Words at the beginning of a sentence take nothing, and only
spacing is skipped after them. So a blank that is no spacing, such as a form feed, is passed over in
the one case and becomes part of the first constraint in the other. No constraint holds such a
character, so the second way fails where the first may not. Behind blanks alone there is nothing it
could become part of.

- `readConstraints_congr`, `result_readConstraints_blank`: what reading constraints depends on;
- `BlankBefore`, `not_readConstraints_of_blankBefore`: a blank in front of constraints that stays;
- `readConstraints_afterSeparator`: whether or not one blank has been taken;
- `Problem.introduce`: the text of a problem whose constraints are introduced;
- `Problem.parse_introduce`: where the two ways agree, and what happens elsewhere.
-/

namespace Diophantine

/-! ### What reading constraints depends on -/

/-- Constraints are read from characters: neither the position nor the spacing in front matters. -/
theorem readConstraints_congr {slice other : Slice} (hexplicit : Explicit slice.skipSpacing.chars)
    (hchars : other.skipSpacing.chars = slice.skipSpacing.chars) (problem : Problem) :
    (readConstraints slice).result = .ok problem
      ↔ (readConstraints other).result = .ok problem := by
  have hself : explicitProducts slice.skipSpacing.chars = slice.skipSpacing.chars :=
    explicitProducts_eq_self hexplicit
  have happart : WordsApart keywords slice.skipSpacing.chars :=
    .of_explicit hexplicit isWord_of_mem_keywords
  constructor
  · exact readConstraints_normalizes (hchars.trans hself.symm) happart
  · refine readConstraints_normalizes ?_ (hchars ▸ happart)
    show slice.skipSpacing.chars = explicitProducts other.skipSpacing.chars
    rw [hchars, hself]

/-- In particular, it does not matter where a slice stands. -/
theorem readConstraints_moved {text : List Char} (hexplicit : Explicit text)
    (here there : Position) (problem : Problem) :
    (readConstraints { start := here, chars := text }).result = .ok problem
      ↔ (readConstraints { start := there, chars := text }).result = .ok problem := by
  refine readConstraints_congr ?_ ?_ problem
  · exact hexplicit.infix_of (Slice.infix_skipSpacing _)
  · rfl

/-- A sentence that is blank holds no constraint. -/
theorem result_readConstraints_last {slice clause remainder : Slice} {stop : Option Ending}
    (hne : slice.skipSpacing.chars ≠ [])
    (h : Sentence.read constraintTerminators slice.skipSpacing
      = .ok (Sentence.last clause remainder stop))
    (hblank : clause.allBlank = true) :
    (readConstraints slice).result = (readConstraints remainder).result := by
  have hclauses : (Sentence.last clause remainder stop).clauses = [] := if_pos hblank
  rw [result_readConstraints_sentence hne h, hclauses]
  show Except.map (Problem.withConstraints []) (readConstraints remainder).result = _
  cases (readConstraints remainder).result <;> rfl

theorem Balanced.of_blank {text : List Char} (h : text.all isBlank = true) : Balanced text :=
  (Balanced.of_plain fun c hc => (apart_of_isBlank (List.all_eq_true.mp h c hc)).2).1

theorem Quiet.of_blank {active : List Terminator} {text : List Char}
    (h : text.all isBlank = true) : Quiet active text := by
  have hquiet : Quiet active (explicitProducts text) := quiet_of_blank h
  rwa [explicitProducts_of_blank h] at hquiet

/-- Blanks alone ask for nothing. -/
theorem result_readConstraints_blank {slice : Slice} (h : slice.chars.all isBlank = true) :
    (readConstraints slice).result = .ok .empty := by
  by_cases hne : slice.skipSpacing.chars = []
  · rw [readConstraints, dif_pos hne]
  · have hblank : slice.skipSpacing.allBlank = true :=
      List.all_eq_true.mpr fun c hc =>
        List.all_eq_true.mp h c ((List.dropWhile_sublist _).subset hc)
    have hwhole : Whole constraintTerminators slice.skipSpacing.chars :=
      ⟨.of_blank hblank, (Quiet.of_blank hblank).unbroken (by simp) 0 false⟩
    rw [result_readConstraints_last hne (Sentence.read_of_whole hwhole _) hblank]
    exact result_readConstraints_empty rfl

/-- Neither do blanks in front of a period. -/
theorem result_readConstraints_blank_period {slice : Slice} {blank rest : List Char}
    (hblank : blank.all isBlank = true) (hchars : slice.chars = blank ++ '.' :: rest) :
    ∃ start : Position, (readConstraints slice).result
      = (readConstraints { start := start, chars := rest }).result := by
  have hskip : slice.skipSpacing.chars = blank.dropWhile isSpacing ++ '.' :: rest := by
    show slice.chars.dropWhile isSpacing = _
    rw [hchars, List.dropWhile_append]
    split
    · rename_i hnil
      rw [List.isEmpty_iff.mp hnil]
      rfl
    · rfl
  have hblank' : (blank.dropWhile isSpacing).all isBlank = true :=
    List.all_eq_true.mpr fun c hc =>
      List.all_eq_true.mp hblank c ((List.dropWhile_sublist _).subset hc)
  have hactive : .ending .period ∈ constraintTerminators := by decide
  obtain ⟨⟨start, chars⟩, hremainder, hperiod⟩ := terminator?_period hactive
    (slice.skipSpacing.start.past (blank.dropWhile isSpacing))
    (wordAfter false (blank.dropWhile isSpacing)) rest
  have hpiece := nextPiece_of_terminator (.of_blank hblank')
    ((Quiet.of_blank hblank').unbroken (by simp) 0 false) (by simp) hperiod
  rw [← hskip] at hpiece
  have hread : Sentence.read constraintTerminators slice.skipSpacing
      = .ok (Sentence.last { slice.skipSpacing with chars := blank.dropWhile isSpacing }
          { start := start, chars := chars } (some .period)) := by
    rw [Sentence.read, hpiece]
  obtain rfl : chars = rest := hremainder
  exact ⟨start, result_readConstraints_last (by simp [hskip]) hread hblank'⟩

/-! ### A blank that stays -/

/-- The text begins with a blank that is no spacing, and behind its blanks stands something other
than a period. -/
def BlankBefore (text : List Char) : Prop :=
  (∃ c ∈ text.head?, isBlank c = true ∧ isSpacing c = false)
    ∧ ∃ c ∈ (text.dropWhile isBlank).head?, c ≠ '.'

/-- A blank that is no spacing is not a character of constraints. -/
theorem not_mem_alphabet_of_blank {c : Char} (hblank : isBlank c = true)
    (hspacing : isSpacing c = false) : inAlphabet c = false ∧ c ≠ '<' ∧ c ≠ '>' := by
  obtain ⟨halnum, hopen, hclose⟩ := apart_of_isBlank hblank
  have hsign : ∀ sign, isBlank sign = false → c ≠ sign := by
    rintro sign hnot rfl
    rw [hblank] at hnot
    cases hnot
  refine ⟨?_, hsign '<' rfl, hsign '>' rfl⟩
  simp [inAlphabet, halnum, hspacing, hopen, hclose, hsign '+' rfl, hsign '-' rfl, hsign '*' rfl]

/-- A clause that is read as a constraint holds only characters of constraints. -/
theorem Constraint.not_mem_of_readClause {clause : Slice} {constraint : Constraint}
    (hexplicit : Explicit clause.chars) (h : readClause clause = .ok constraint) {c : Char}
    (hc : inAlphabet c = false ∧ c ≠ '<' ∧ c ≠ '>') : c ∉ clause.chars := by
  have happart : WordsApart connectives clause.chars :=
    .of_explicit hexplicit fun word hmem =>
      isWord_of_mem_keywords word (connectives_subset_keywords hmem)
  have hderives := (derives_of_readClause happart h).1
  rw [explicitProducts_eq_self hexplicit] at hderives
  exact hderives.not_mem hc

/-- The first character of a sentence is part of a clause, unless only blanks stand in front of its
end. -/
theorem exists_clause_of_blankBefore {slice : Slice} {sentence : Sentence}
    (h : BlankBefore slice.chars)
    (hread : Sentence.read constraintTerminators slice = .ok sentence) :
    ∃ clause ∈ sentence.clauses, ∃ c ∈ clause.chars, isBlank c = true ∧ isSpacing c = false := by
  obtain ⟨⟨c, hc, hblank, hspacing⟩, d, hd, hperiod⟩ := h
  obtain ⟨front, last, closing, hclauses, htext, hcloses, -, hending, -⟩ :=
    Sentence.exists_of_read hread
  have hmem : ∀ text ∈ sentence.clauses.map Slice.chars, c ∈ text →
      ∃ clause ∈ sentence.clauses, ∃ c ∈ clause.chars, isBlank c = true ∧ isSpacing c = false := by
    intro text htext hctext
    obtain ⟨clause, hclause, rfl⟩ := List.mem_map.mp htext
    exact ⟨clause, hclause, c, hctext, hblank, hspacing⟩
  rw [htext] at hc hd
  rw [hclauses] at hmem
  cases front with
  | nil =>
    rw [List.nil_append, List.intercalate_singleton] at hc hd
    by_cases hlast : last.all isBlank = true
    · -- What ends the sentence is the first thing that is not blank.
      rw [List.dropWhile_append_of_pos (List.all_eq_true.mp hlast)] at hd
      exfalso
      cases hstop : sentence.stop with
      | none =>
        rw [hstop] at hcloses
        obtain ⟨rfl, -⟩ := hcloses
        cases hd
      | some ending =>
        rw [hstop] at hcloses hending
        obtain ⟨taken, htaken, rfl⟩ := hcloses
        cases ending with
        | period =>
          obtain rfl : taken = ['.'] := htaken
          obtain rfl : '.' = d := Option.some.inj hd
          exact hperiod rfl
        | suchThat => exact absurd (hending _ rfl) (by decide)
    · have hne : last ≠ [] := fun hnil => hlast (hnil ▸ rfl)
      obtain ⟨e, last, rfl⟩ := List.exists_cons_of_ne_nil hne
      obtain rfl : e = c := Option.some.inj hc
      exact hmem (e :: last) (by simp [hlast]) (List.mem_cons_self ..)
  | cons first front =>
    have hjoin : [','].intercalate (first :: front ++ [last])
        = first ++ [','] ++ [','].intercalate (front ++ [last]) :=
      List.intercalate_cons_of_ne_nil (by simp)
    rw [hjoin] at hc
    cases first with
    | nil =>
      obtain rfl : ',' = c := Option.some.inj hc
      cases hblank
    | cons e first =>
      obtain rfl : e = c := Option.some.inj hc
      exact hmem (e :: first) (List.mem_cons_self ..) (List.mem_cons_self ..)

theorem BlankBefore.skipSpacing_eq {slice : Slice} (h : BlankBefore slice.chars) :
    slice.skipSpacing.chars = slice.chars ∧ slice.chars ≠ [] := by
  obtain ⟨⟨c, hc, -, hspacing⟩, -⟩ := h
  obtain ⟨text, htext⟩ := List.head?_eq_some_iff.mp hc
  constructor
  · show slice.chars.dropWhile isSpacing = slice.chars
    rw [htext, List.dropWhile_cons_of_neg (by simp [hspacing])]
  · rw [htext]
    exact List.cons_ne_nil c text

/-- A blank that is no spacing would be part of the first constraint. -/
theorem not_readConstraints_of_blankBefore {slice : Slice} (hexplicit : Explicit slice.chars)
    (h : BlankBefore slice.chars) (problem : Problem) :
    (readConstraints slice).result ≠ .ok problem := by
  intro hproblem
  obtain ⟨hskip, hne⟩ := h.skipSpacing_eq
  obtain ⟨sentence, constraints, hsentence, hclauses⟩ :=
    exists_of_readConstraints (hskip ▸ hne) hproblem
  rw [← hskip] at h hexplicit
  obtain ⟨clause, hmem, c, hc, hblank, hspacing⟩ := exists_clause_of_blankBefore h hsentence
  have hpart := (Sentence.infix_of_read hsentence).1 clause hmem
  obtain ⟨constraint, hconstraint⟩ := exists_item_of_readClauses hclauses clause hmem
  exact Constraint.not_mem_of_readClause (hexplicit.infix_of hpart) hconstraint
    (not_mem_alphabet_of_blank hblank hspacing) hc

/-! ### Taking one blank -/

/-- What is left of a text once a blank is taken from its beginning, if one stands there. -/
def afterSeparator : List Char → List Char
  | [] => []
  | c :: text => if isBlank c then text else c :: text

theorem chars_skipSeparator (here : Position) (text : List Char) :
    (skipSeparator { start := here, chars := text }).chars = afterSeparator text := by
  cases text with
  | nil => rfl
  | cons c text =>
    by_cases hblank : isBlank c = true
    · simp only [skipSeparator, Slice.next?, afterSeparator, if_pos hblank]
    · simp only [skipSeparator, Slice.next?, afterSeparator, if_neg hblank]

/-- A blank in front of a period, or of nothing, makes no difference. -/
theorem readConstraints_cons_blank {c : Char} {text : List Char} (hblank : isBlank c = true)
    (hexplicit : Explicit text) (hstop : ∀ d ∈ (text.dropWhile isBlank).head?, d = '.')
    (here there : Position) (problem : Problem) :
    (readConstraints { start := here, chars := text }).result = .ok problem
      ↔ (readConstraints { start := there, chars := c :: text }).result = .ok problem := by
  have hsplit : text.takeWhile isBlank ++ text.dropWhile isBlank = text :=
    List.takeWhile_append_dropWhile
  have hall : (text.takeWhile isBlank).all isBlank = true := by simp
  have hall' : (c :: text.takeWhile isBlank).all isBlank = true := by simp [hblank]
  cases hrest : text.dropWhile isBlank with
  | nil =>
    rw [hrest, List.append_nil] at hsplit
    rw [hsplit] at hall hall'
    rw [result_readConstraints_blank hall, result_readConstraints_blank hall']
  | cons d rest =>
    rw [hrest] at hstop hsplit
    obtain rfl : d = '.' := hstop d rfl
    have htext : (Slice.mk here text).chars = text.takeWhile isBlank ++ '.' :: rest := hsplit.symm
    have htext' : (Slice.mk there (c :: text)).chars
        = (c :: text.takeWhile isBlank) ++ '.' :: rest := congrArg (c :: ·) hsplit.symm
    obtain ⟨start, hfirst⟩ := result_readConstraints_blank_period hall htext
    obtain ⟨other, hsecond⟩ := result_readConstraints_blank_period hall' htext'
    rw [hfirst, hsecond]
    have hpart : rest <:+ text :=
      hsplit ▸ (List.suffix_cons '.' rest).trans (List.suffix_append _ _)
    exact readConstraints_moved (hexplicit.infix_of hpart.isInfix) start other problem

/-- Whether or not a blank is taken from the beginning, the same constraints are read, unless it is
a blank that would stay. -/
theorem readConstraints_afterSeparator {text : List Char} (hexplicit : Explicit text)
    (h : ¬BlankBefore text) (here there : Position) (problem : Problem) :
    (readConstraints { start := here, chars := afterSeparator text }).result = .ok problem
      ↔ (readConstraints { start := there, chars := text }).result = .ok problem := by
  cases text with
  | nil => exact readConstraints_moved hexplicit here there problem
  | cons c text =>
    have hpart : text <:+: c :: text := (List.suffix_cons c text).isInfix
    by_cases hblank : isBlank c = true
    · rw [afterSeparator, if_pos hblank]
      by_cases hspacing : isSpacing c = true
      · refine readConstraints_congr (hexplicit.infix_of ?_) ?_ problem
        · exact (Slice.infix_skipSpacing _).trans hpart
        · exact List.dropWhile_cons_of_pos hspacing
      · -- The blank stays, and so it must stand in front of a period or of nothing.
        refine readConstraints_cons_blank hblank (hexplicit.infix_of hpart) ?_ here there problem
        intro d hd
        refine by_contra fun hne => h ⟨⟨c, rfl, hblank, Bool.eq_false_iff.mpr hspacing⟩, d, ?_, hne⟩
        rw [List.dropWhile_cons_of_pos hblank]
        exact hd
    · rw [afterSeparator, if_neg hblank]
      exact readConstraints_moved hexplicit here there problem

/-! ### Words that go on -/

/-- A letter or digit behind the words makes a longer word of them. -/
theorem not_ends_of_longer {tail rest : List Char}
    (hlonger : ∃ c ∈ tail.head?, c.isAlphanum = true)
    (hrest : "such that".toList ++ tail = "such that".toList ++ rest) :
    ¬ ∀ c ∈ rest.head?, c.isAlphanum = false := by
  obtain ⟨c, hc, halnum⟩ := hlonger
  obtain rfl : tail = rest := List.append_cancel_left hrest
  intro hends
  rw [hends c hc] at halnum
  cases halnum

/-- The words `such that` with a letter or digit behind them do not end a sentence. -/
theorem unbroken_longer {tail : List Char} (hlonger : ∃ c ∈ tail.head?, c.isAlphanum = true)
    (inWord : Bool) :
    Unbroken equationTerminators 0 inWord ['s', 'u'] ("ch that".toList ++ tail) := by
  refine .cons rfl (fun _ terminator _ hbegins => ?_)
    (.cons rfl (fun _ terminator _ hbegins => ?_) .nil)
  · rcases terminator with _ | _ | _
    · cases hbegins
    · cases hbegins
    · obtain ⟨-, rest, hrest, hends⟩ := hbegins
      exact not_ends_of_longer hlonger hrest hends
  · rcases hbegins.head?_eq with hhead | hhead | hhead <;> cases hhead

/-- No equation holds two letters side by side. -/
theorem Equation.not_infix_of_readClause {clause : Slice} {equation : Equation}
    (h : readClause clause = .ok equation) : ¬ ['s', 'u'] <:+: clause.chars := by
  intro hinfix
  have hpart : ['s', 'u'] <:+: explicitProducts clause.chars := explicitProducts_infix hinfix
  have hletters : LettersApart ['s', 'u'] :=
    List.IsChain.infix (derives_of_readClause h).1.letters_apart hpart
  exact absurd ((List.isChain_cons_cons.mp hletters).1 (by decide)) (by decide)

/-- A sentence of equations holds no two letters side by side. -/
theorem not_readEquations_of_clause {slice : Slice} {problem : Problem}
    (hne : slice.skipSpacing.chars ≠ [])
    (hwords : slice.skipSpacing.afterKeyword? "such that" = none)
    (hclause : ∀ sentence, Sentence.read equationTerminators slice.skipSpacing = .ok sentence →
      ∃ clause ∈ sentence.clauses, ['s', 'u'] <:+: clause.chars) :
    (readEquations slice).result ≠ .ok problem := by
  intro hproblem
  obtain ⟨sentence, equations, hsentence, hclauses⟩ :=
    exists_of_readEquations hne hwords hproblem
  obtain ⟨clause, hmem, hinfix⟩ := hclause sentence hsentence
  obtain ⟨equation, hequation⟩ := exists_item_of_readClauses hclauses clause hmem
  exact Equation.not_infix_of_readClause hequation hinfix

section Longer

variable {space tail : List Char} (hspace : Spaced space)
  (hlonger : ∃ c ∈ tail.head?, c.isAlphanum = true) {slice : Slice} (problem : Problem)

include hspace hlonger

/-- A longer word at the beginning of a sentence is part of an equation, and so is refused. -/
theorem not_readEquations_longer
    (hchars : slice.chars = space ++ ("such that".toList ++ tail)) :
    (readEquations slice).result ≠ .ok problem := by
  have hskip : slice.skipSpacing
      = { start := slice.start.past space, chars := "such that".toList ++ tail } := by
    obtain ⟨start, chars⟩ := slice
    obtain rfl := hchars
    exact Slice.skipSpacing_append hspace (by simp; decide)
  have hwords : slice.skipSpacing.afterKeyword? "such that" = none := by
    rw [← Option.not_isSome_iff_eq_none, hskip, Slice.isSome_afterKeyword?_iff]
    rintro ⟨rest, hrest, hends⟩
    exact not_ends_of_longer hlonger hrest hends
  refine not_readEquations_of_clause (by rw [hskip]; simp) hwords fun sentence hsentence => ?_
  rw [hskip] at hsentence
  have hbalanced : Balanced ['s', 'u'] := rfl
  obtain ⟨clause, hmem, hstarts⟩ := Sentence.exists_clause_of_read hbalanced
    (unbroken_longer hlonger false) ⟨'s', by simp, rfl⟩ hsentence
  exact ⟨clause, hmem, hstarts.isInfix⟩

/-- A longer word behind equations is part of the last one, and so is refused. -/
theorem not_readEquations_longer_behind {texts : List (List Char)} {equations : List Equation}
    (hne : texts ≠ []) (hderives : List.Forall₂ Equation.Derives texts equations)
    (hchars : slice.chars
      = space ++ ([',', ' '].intercalate texts ++ ' ' :: ("such that".toList ++ tail))) :
    (readEquations slice).result ≠ .ok problem := by
  obtain ⟨front, core, more, hjoin, hfront, hopens, hcores, -⟩ :=
    exists_strip_head hne hderives fun _ _ h => h.strip
  rw [hjoin, List.append_assoc, ← List.append_assoc] at hchars
  obtain ⟨hsolid, hskip⟩ := skipSpacing_intercalate (hspace.append hfront) hopens hchars
  have htexts := forall_clauseText (hcores.imp fun _ _ h => h.clauseOf)
  have hwords : slice.skipSpacing.afterKeyword? "such that" = none := by
    rw [hskip, List.nil_append]
    exact afterKeyword?_intercalate (htexts core (List.mem_cons_self ..)).quiet hopens (by simp) _
  refine not_readEquations_of_clause hsolid hwords fun sentence hsentence => ?_
  rw [hskip] at hsentence
  have hunbroken : ∀ inWord, Unbroken equationTerminators 0 inWord [' ', 's', 'u']
      ("ch that".toList ++ tail) := by
    refine fun inWord => .cons rfl (fun _ terminator _ hbegins => ?_) (unbroken_longer hlonger _)
    rcases hbegins.head?_eq with hhead | hhead | hhead <;> cases hhead
  have hbalanced : Balanced [' ', 's', 'u'] := rfl
  obtain ⟨clause, hmem, hinfix⟩ := Sentence.exists_clause_of_read_intercalate
    (List.cons_ne_nil core more) htexts (by decide) Spaced.nil hbalanced hunbroken (by simp)
    hsentence
  exact ⟨clause, hmem, (List.suffix_cons ' ' ['s', 'u']).isInfix.trans hinfix⟩

end Longer

namespace Problem

/-! ### The text of a problem -/

/-- The text of a problem whose equations end with `stop`, in front of the words `such that` and the
rest. -/
def introduce (sides : List (String × String)) (stop rest : String) : String :=
  "Solve " ++ ", ".intercalate (sides.map fun sides => sides.1 ++ " = " ++ sides.2) ++ stop
    ++ " such that" ++ rest

/-- Making products explicit writes no star among blanks, or behind them. -/
@[simp] theorem blankBefore_explicitProducts (text : List Char) :
    BlankBefore (explicitProducts text) ↔ BlankBefore text := by
  have hblank : ∀ c ∈ text.takeWhile isBlank, isBlank c = true := fun c hc =>
    List.mem_takeWhile_imp hc
  have hproducts : explicitProducts text
      = text.takeWhile isBlank ++ explicitProducts (text.dropWhile isBlank) := by
    rw [← explicitProducts_signs fun c hc =>
      ⟨(apart_of_isBlank (hblank c hc)).1, (apart_of_isBlank (hblank c hc)).2.2⟩,
      List.takeWhile_append_dropWhile]
  have hsolid : ((explicitProducts text).dropWhile isBlank).head?
      = (text.dropWhile isBlank).head? := by
    rw [hproducts, List.dropWhile_append_of_pos hblank]
    cases hrest : text.dropWhile isBlank with
    | nil => rfl
    | cons d rest =>
      have hnot := List.head?_dropWhile_not isBlank text
      rw [hrest] at hnot
      obtain ⟨more, hmore⟩ := List.head?_eq_some_iff.mp (head?_explicitProducts (d :: rest))
      rw [hmore, List.dropWhile_cons_of_neg (by simpa using hnot)]
      rfl
  rw [BlankBefore, BlankBefore, head?_explicitProducts, hsolid]

/-- What stands behind the words once products are explicit: a factor has a star in front of it, and
everything else is there as it would be without the words. -/
theorem exists_explicitProducts_suchThat (text : List Char) :
    ∃ behind, explicitProducts ("such that".toList ++ text) = "such that".toList ++ behind
      ∧ Explicit behind ∧ (BlankBefore behind ↔ BlankBefore text) := by
  have hlast : 't' ∈ "such that".toList.getLast? := rfl
  have hexplicit : ∀ behind,
      explicitProducts ("such that".toList ++ text) = "such that".toList ++ behind →
      Explicit behind := by
    intro behind hbehind
    have hwhole := explicit_explicitProducts ("such that".toList ++ text)
    rw [hbehind] at hwhole
    exact hwhole.infix_of (List.suffix_append _ _).isInfix
  by_cases hseam : ∀ c ∈ text.head?, juxtaposed 't' c = false
  · have hbehind : explicitProducts ("such that".toList ++ text)
        = "such that".toList ++ explicitProducts text := by
      refine explicitProducts_append fun a ha c hc => ?_
      obtain rfl : 't' = a := Option.some.inj ha
      exact hseam c hc
    exact ⟨_, hbehind, hexplicit _ hbehind, blankBefore_explicitProducts text⟩
  · simp only [not_forall, Bool.not_eq_false] at hseam
    obtain ⟨c, hc, hjuxtaposed⟩ := hseam
    have hbehind := explicitProducts_append_juxtaposed hlast hc hjuxtaposed
    refine ⟨_, hbehind, hexplicit _ hbehind, iff_of_false ?_ ?_⟩
    · rintro ⟨⟨d, hd, hblank, -⟩, -⟩
      obtain rfl : '*' = d := Option.some.inj hd
      cases hblank
    · rintro ⟨⟨d, hd, hblank, -⟩, -⟩
      obtain rfl : c = d := Option.some.inj (hc.symm.trans hd)
      obtain ⟨halnum, hopen, -⟩ := apart_of_isBlank hblank
      rw [juxtaposed_eq_false_of_right halnum hopen] at hjuxtaposed
      cases hjuxtaposed

/-- The text of a problem whose constraints are introduced, with products made explicit. -/
theorem explicitProducts_introduce (sides : List (String × String)) {stop rest : String}
    {behind : List Char} (hstop : ∀ c ∈ stop.toList, c.isAlphanum = false ∧ c ≠ '(' ∧ c ≠ ')')
    (hbehind : explicitProducts ("such that".toList ++ rest.toList)
      = "such that".toList ++ behind) :
    explicitProducts (introduce sides stop rest).toList
      = "Solve".toList ++ ' ' :: ([',', ' '].intercalate (sides.map sidesText)
          ++ (stop.toList ++ ' ' :: ("such that".toList ++ behind))) := by
  have htext : (introduce sides stop rest).toList
      = "Solve".toList ++ ([' '] ++ ([',', ' '].intercalate
          (sides.map fun sides => sides.1.toList ++ ([' ', '=', ' '] ++ sides.2.toList))
        ++ ((stop.toList ++ [' ']) ++ ("such that".toList ++ rest.toList)))) := by
    rw [← toList_intercalate_sides]
    simp only [introduce, String.toList_append, List.append_assoc]
    rfl
  have hsigns : ∀ c ∈ stop.toList ++ [' '], c.isAlphanum = false ∧ c ≠ '(' ∧ c ≠ ')' := by
    intro c hc
    rcases List.mem_append.mp hc with hc | hc
    · exact hstop c hc
    · rw [List.mem_singleton.mp hc]
      decide
  rw [htext, explicitProducts_separate _ _ (by simp) (by simp),
    explicitProducts_separate _ _ (by simp) hsigns, explicitProducts_sides, hbehind,
    List.append_assoc]
  rfl

/-- The text is read from behind the word `Solve`. -/
theorem parse_introduce_eq_ok_iff (sides : List (String × String)) (stop : String) {rest : String}
    {behind : List Char} (hstop : ∀ c ∈ stop.toList, c.isAlphanum = false ∧ c ≠ '(' ∧ c ≠ ')')
    (hbehind : explicitProducts ("such that".toList ++ rest.toList)
      = "such that".toList ++ behind) (problem : Problem) :
    parse (introduce sides stop rest) = .ok problem
      ↔ (readEquations
          { start := Position.origin.past "Solve".toList
            chars := ' ' :: ([',', ' '].intercalate (sides.map sidesText)
              ++ (stop.toList ++ ' ' :: ("such that".toList ++ behind))) }).result
          = .ok problem := by
  rw [parse, parseFrom, mapError_eq_ok_iff, explicitProducts_introduce sides hstop hbehind,
    read_solve_eq_ok_iff]

/-! ### The two ways -/

section Ways

variable {texts : List (List Char)} {equations : List Equation} (hne : texts ≠ [])
  (hderives : List.Forall₂ Equation.Derives texts equations)
  (hroom : ∀ text ∈ texts, nesting text ≤ maxNesting) {behind : List Char} (here : Position)

include hne hderives hroom

/-- Words that end the sentence of equations take one blank along. -/
theorem readEquations_suchThat_iff (hends : ∀ c ∈ behind.head?, c.isAlphanum = false) :
    ∃ there : Position, ∀ problem,
      (readEquations
          { start := here
            chars := [' '] ++ ([',', ' '].intercalate texts
              ++ ([' '] ++ ("such that".toList ++ behind))) }).result = .ok problem
        ↔ ∃ found, (readConstraints { start := there, chars := afterSeparator behind }).result
            = .ok found ∧ found.withEquations equations = problem := by
  have hstop : ∀ here inWord, ([' '] ≠ [] → inWord = false) →
      ∃ remainder : Slice, remainder.chars = afterSeparator behind ∧
        terminator? equationTerminators inWord
            { start := here, chars := "such that".toList ++ behind }
          = some (.ending .suchThat, remainder) := by
    intro here inWord hword
    rw [hword (List.cons_ne_nil _ _)]
    exact ⟨_, chars_skipSeparator _ _, terminator?_suchThat (by decide) here hends⟩
  obtain ⟨⟨there, chars⟩, hremainder, hread⟩ := result_readEquations hne hderives Spaced.single
    Spaced.single (by simp) hstop (Slice.mk here _) rfl
  obtain rfl : chars = afterSeparator behind := hremainder
  refine ⟨there, fun problem => ?_⟩
  rw [Yields.eq_ok_iff .empty hread problem, if_pos rfl]
  exact and_iff_right hroom

/-- Behind a period, reading goes on with a sentence of its own. -/
theorem readEquations_period_iff (rest : List Char) :
    ∃ there : Position, ∀ problem,
      (readEquations
          { start := here
            chars := [' '] ++ ([',', ' '].intercalate texts ++ ([] ++ '.' :: rest)) }).result
          = .ok problem
        ↔ ∃ found, (readEquations { start := there, chars := rest }).result = .ok found
            ∧ found.withEquations equations = problem := by
  obtain ⟨⟨there, chars⟩, hremainder, hread⟩ := result_readEquations hne hderives Spaced.single
    Spaced.nil (by simp) (fun here inWord _ => terminator?_period (by decide) here inWord rest)
    (Slice.mk here _) rfl
  obtain rfl : chars = rest := hremainder
  refine ⟨there, fun problem => ?_⟩
  rw [Yields.eq_ok_iff .empty hread problem, if_neg (by decide)]
  exact and_iff_right hroom

/-- Words at the beginning of a sentence take nothing along. -/
theorem readEquations_period_suchThat_iff (hends : ∀ c ∈ behind.head?, c.isAlphanum = false) :
    ∃ there : Position, ∀ problem,
      (readEquations
          { start := here
            chars := [' '] ++ ([',', ' '].intercalate texts
              ++ ([] ++ '.' :: ' ' :: ("such that".toList ++ behind))) }).result = .ok problem
        ↔ ∃ found, (readConstraints { start := there, chars := behind }).result
            = .ok found ∧ found.withEquations equations = problem := by
  obtain ⟨start, hread⟩ := readEquations_period_iff hne hderives hroom here
    (' ' :: ("such that".toList ++ behind))
  have hskip : Slice.skipSpacing { start := start, chars := ' ' :: ("such that".toList ++ behind) }
      = { start := start.past [' '], chars := "such that".toList ++ behind } :=
    Slice.skipSpacing_append Spaced.single (by simp; decide)
  have hwords : (readEquations
      { start := start, chars := ' ' :: ("such that".toList ++ behind) }).result = _ :=
    result_readEquations_suchThat (by rw [hskip]; simp)
      (by rw [hskip]; exact afterKeyword?_append hends)
  rw [hwords] at hread
  exact ⟨_, hread⟩

end Ways

/-- **The two ways to introduce constraints agree, but for a blank that stays**: behind equations
whose sides are parsed, the words `such that` lead to the same problem with and without a period in
front of them. Where a blank that is no spacing stands directly behind the words, with something
other than a period behind the blanks, no problem is parsed with the period. -/
theorem parse_introduce {sides : List (String × String)} {equations : List Equation}
    (hne : sides ≠ [])
    (hequations : List.Forall₂ (fun (sides : String × String) (equation : Equation) =>
      Expression.parse sides.1 = .ok equation.left
        ∧ Expression.parse sides.2 = .ok equation.right) sides equations) (rest : String) :
    (¬BlankBefore rest.toList → ∀ problem,
        parse (introduce sides "" rest) = .ok problem
          ↔ parse (introduce sides "." rest) = .ok problem)
      ∧ (BlankBefore rest.toList → ∀ problem,
        parse (introduce sides "." rest) ≠ .ok problem) := by
  have hsides : List.Forall₂ (fun text equation => nesting text ≤ maxNesting
      ∧ Equation.Derives text equation) (sides.map sidesText) equations :=
    List.forall₂_map_left_iff.mpr (hequations.imp fun _ _ h => derives_sidesText h.1 h.2)
  obtain ⟨hroom, hderives⟩ := (List.forall₂_and_left _ _).mp hsides
  have hmap : sides.map sidesText ≠ [] := fun hnil => hne (List.map_eq_nil_iff.mp hnil)
  obtain ⟨behind, hbehind, hexplicit, hblank⟩ := exists_explicitProducts_suchThat rest.toList
  rw [← hblank]
  -- Both texts are read from behind the word `Solve`.
  have hplain := parse_introduce_eq_ok_iff sides "" (by simp) hbehind
  have hperiod := parse_introduce_eq_ok_iff sides "." (by simp) hbehind
  by_cases hends : ∀ c ∈ behind.head?, c.isAlphanum = false
  · obtain ⟨here, hfirst⟩ := readEquations_suchThat_iff hmap hderives hroom _ hends
    obtain ⟨there, hsecond⟩ := readEquations_period_suchThat_iff hmap hderives hroom _ hends
    refine ⟨fun hstays problem => ?_, fun hstays problem hproblem => ?_⟩
    · refine (hplain problem).trans ((hfirst problem).trans ?_)
      refine Iff.trans ?_ ((hperiod problem).trans (hsecond problem)).symm
      exact exists_congr fun found => and_congr_left fun _ =>
        readConstraints_afterSeparator hexplicit hstays here there found
    · obtain ⟨found, hfound, -⟩ := (hsecond problem).mp ((hperiod problem).mp hproblem)
      exact not_readConstraints_of_blankBefore hexplicit hstays found hfound
  · -- With a letter behind them, the words are part of an equation.
    have hlonger : ∃ c ∈ behind.head?, c.isAlphanum = true := by simpa using hends
    have hneither : ∀ problem, parse (introduce sides "." rest) ≠ .ok problem := by
      intro problem hproblem
      obtain ⟨there, hsecond⟩ := readEquations_period_iff hmap hderives hroom _ _
      obtain ⟨found, hfound, -⟩ := (hsecond problem).mp ((hperiod problem).mp hproblem)
      exact not_readEquations_longer Spaced.single hlonger found rfl hfound
    refine ⟨fun _ problem => iff_of_false (fun hproblem => ?_) (hneither problem),
      fun _ => hneither⟩
    exact not_readEquations_longer_behind Spaced.single hlonger problem hmap hderives rfl
      ((hplain problem).mp hproblem)

/-- Two equations with implicit products, behind which the constraints are read either way, and a
form feed that the period keeps. -/
theorem parse_introduce_pair :
    introduce [("2x", "(y+1)"), ("y", "1")] "." " x > 0."
        = "Solve 2x = (y+1), y = 1. such that x > 0."
      ∧ (∀ problem, parse (introduce [("2x", "(y+1)"), ("y", "1")] "" " x > 0.") = .ok problem
        ↔ parse (introduce [("2x", "(y+1)"), ("y", "1")] "." " x > 0.") = .ok problem)
      ∧ BlankBefore "\x0cx > 0.".toList
      ∧ ∀ problem,
        parse (introduce [("2x", "(y+1)"), ("y", "1")] "." "\x0cx > 0.") ≠ .ok problem := by
  have hequations : List.Forall₂ (fun (sides : String × String) (equation : Equation) =>
      Expression.parse sides.1 = .ok equation.left ∧ Expression.parse sides.2 = .ok equation.right)
      [("2x", "(y+1)"), ("y", "1")]
      [{ left := .mul (.constant 2) (.var 'x'), right := .add (.var 'y') (.constant 1) },
        { left := .var 'y', right := .constant 1 }] :=
    .cons ⟨by decide +kernel, by decide +kernel⟩
      (.cons ⟨by decide +kernel, by decide +kernel⟩ .nil)
  have hspace : ¬BlankBefore " x > 0.".toList := by
    rintro ⟨⟨c, hc, -, hspacing⟩, -⟩
    obtain rfl : ' ' = c := Option.some.inj hc
    cases hspacing
  have hfeed : BlankBefore "\x0cx > 0.".toList :=
    ⟨⟨'\x0c', rfl, by decide, by decide⟩, 'x', rfl, by decide⟩
  exact ⟨by decide +kernel, (parse_introduce (by simp) hequations " x > 0.").1 hspace, hfeed,
    (parse_introduce (by simp) hequations "\x0cx > 0.").2 hfeed⟩

/-- Behind the words, a form feed is passed over where they end a sentence, and it is not where they
begin one. -/
theorem introduced_form_feed_lost :
    Expression.parse "x" = .ok (.var 'x') ∧ Expression.parse "1" = .ok (.constant 1)
      ∧ introduce [("x", "1")] "" "\x0cx > 0." = "Solve x = 1 such that\x0cx > 0."
      ∧ parse "Solve x = 1 such that\x0cx > 0."
        = .ok { equations := [{ left := .var 'x', right := .constant 1 }]
                constraints := [.greater (.var 'x') (.constant 0)] }
      ∧ introduce [("x", "1")] "." "\x0cx > 0." = "Solve x = 1. such that\x0cx > 0."
      ∧ parse "Solve x = 1. such that\x0cx > 0."
        ≠ .ok { equations := [{ left := .var 'x', right := .constant 1 }]
                constraints := [.greater (.var 'x') (.constant 0)] } := by
  decide +kernel

end Problem

end Diophantine
