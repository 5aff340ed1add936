import Diophantine.Proofs.Constraint.Soundness

/-!
# Letters of constraints

The letters of a constraint are its variables and the words that join its parts. A word ends where
no letter or digit follows, but nothing is asked of what stands in front of it. Spacing, a digit and
a parenthesis do keep it apart, the last two because a star is written behind them. A variable does
not: in `x < yand z > 1` the word is found right behind `y`.

- `LetterRun`: letters that stand together, as many as there are;
- `LetterRun.of_append`: where they stand in a text that is put together;
- `Constraint.Derives.letterRun`: variables, words, and a variable in front of a word;
- `Constraint.letterRun_of_parse`: the same for texts, and that a space between the two changes
  nothing.
-/

namespace Diophantine

/-! ### Runs of letters -/

/-- The letters `run` stand between `front` and `back`, and no further letter touches them. -/
structure LetterRun (front run back : List Char) : Prop where
  ne_nil : run ≠ []
  letters : ∀ c ∈ run, c.isAlpha = true
  behind_front : ∀ c ∈ front.getLast?, c.isAlpha = false
  before_back : ∀ c ∈ back.head?, c.isAlpha = false

namespace LetterRun

variable {front run back left right : List Char}

/-- A run in a text that is put together stands in one of the parts, or the end of the one and the
beginning of the other make it up. -/
theorem of_append (h : LetterRun front run back) (heq : left ++ right = front ++ (run ++ back)) :
    (∃ behind, left = front ++ (run ++ behind) ∧ back = behind ++ right
        ∧ LetterRun front run behind)
      ∨ (∃ before, right = before ++ (run ++ back) ∧ front = left ++ before
        ∧ LetterRun before run back)
      ∨ ∃ last first, run = last ++ first ∧ left = front ++ last ∧ right = first ++ back
        ∧ LetterRun front last [] ∧ LetterRun [] first back := by
  obtain ⟨hne, hletters, hfront, hback⟩ := h
  rcases List.append_eq_append_iff.mp heq with ⟨before, rfl, rfl⟩ | ⟨more, rfl, hmore⟩
  · refine .inr (.inl ⟨before, rfl, rfl, hne, hletters, fun c hc => hfront c ?_, hback⟩)
    exact List.mem_getLast?_append_of_mem_getLast? hc
  rcases List.append_eq_append_iff.mp hmore with ⟨behind, rfl, rfl⟩ | ⟨first, rfl, rfl⟩
  · refine .inl ⟨behind, rfl, rfl, hne, hletters, hfront, fun c hc => hback c ?_⟩
    rw [List.head?_append, Option.mem_def.mp hc]
    rfl
  by_cases hlast : more = []
  · subst hlast
    exact .inr (.inl ⟨[], rfl, by simp, hne, hletters, nofun, hback⟩)
  by_cases hfirst : first = []
  · subst hfirst
    rw [List.append_nil] at hletters ⊢
    exact .inl ⟨[], by rw [List.append_nil], rfl, hlast, hletters, hfront, nofun⟩
  · refine .inr (.inr ⟨more, first, rfl, rfl, rfl, ⟨hlast, ?_, hfront, nofun⟩,
      ⟨hfirst, ?_, nofun, hback⟩⟩)
    · exact fun c hc => hletters c (List.mem_append_left first hc)
    · exact fun c hc => hletters c (List.mem_append_right more hc)

/-- Text without letters in front is no part of a run. -/
theorem of_plain_append (h : LetterRun front run back)
    (hplain : ∀ c ∈ left, c.isAlpha = false) (heq : left ++ right = front ++ (run ++ back)) :
    ∃ before, right = before ++ (run ++ back) ∧ front = left ++ before
      ∧ LetterRun before run back := by
  have hnot : ∀ {front part back : List Char}, LetterRun front part back → ¬part ⊆ left := by
    intro front part back hpart hsubset
    obtain ⟨c, hc⟩ := List.exists_mem_of_ne_nil part hpart.ne_nil
    have hletter := hpart.letters c hc
    rw [hplain c (hsubset hc)] at hletter
    cases hletter
  rcases h.of_append heq with ⟨behind, rfl, -, -⟩ | hright | ⟨last, first, -, rfl, -, hlast, -⟩
  · exact absurd (fun c hc => by simp [hc]) (hnot h)
  · exact hright
  · exact absurd (List.subset_append_right front last) (hnot hlast)

/-- Neither is text without letters behind. -/
theorem of_append_plain (h : LetterRun front run back)
    (hplain : ∀ c ∈ right, c.isAlpha = false) (heq : left ++ right = front ++ (run ++ back)) :
    ∃ behind, left = front ++ (run ++ behind) ∧ back = behind ++ right
      ∧ LetterRun front run behind := by
  have hnot : ∀ {front part back : List Char}, LetterRun front part back → ¬part ⊆ right := by
    intro front part back hpart hsubset
    obtain ⟨c, hc⟩ := List.exists_mem_of_ne_nil part hpart.ne_nil
    have hletter := hpart.letters c hc
    rw [hplain c (hsubset hc)] at hletter
    cases hletter
  rcases h.of_append heq with hleft | ⟨before, rfl, -, -⟩ | ⟨last, first, -, -, rfl, -, hfirst⟩
  · exact hleft
  · exact absurd (fun c hc => by simp [hc]) (hnot h)
  · exact absurd (List.subset_append_left first back) (hnot hfirst)

/-- Letters alone are a single run. -/
theorem eq_nil_of_letters (h : LetterRun front run back)
    (hletters : ∀ c ∈ front ++ (run ++ back), c.isAlpha = true) : front = [] ∧ back = [] := by
  constructor
  · refine List.getLast?_eq_none_iff.mp (Option.eq_none_iff_forall_not_mem.mpr fun c hc => ?_)
    have hletter := hletters c (List.mem_append_left _ (List.mem_of_getLast? hc))
    rw [h.behind_front c hc] at hletter
    cases hletter
  · refine List.head?_eq_none_iff.mp (Option.eq_none_iff_forall_not_mem.mpr fun c hc => ?_)
    have hmem : c ∈ run ++ back := List.mem_append_right run (List.mem_of_head? hc)
    have hletter := hletters c (List.mem_append_right front hmem)
    rw [h.before_back c hc] at hletter
    cases hletter

/-- Where letters are apart, they are alone. -/
theorem eq_singleton_of_lettersApart (h : LetterRun front run back)
    (hapart : LettersApart (front ++ (run ++ back))) : ∃ c, run = [c] := by
  match run, h with
  | [], h => exact absurd rfl h.ne_nil
  | [c], _ => exact ⟨c, rfl⟩
  | a :: b :: more, h =>
    have hpair : [a, b] <:+: front ++ (a :: b :: more ++ back) := ⟨front, more ++ back, by simp⟩
    have hchain : LettersApart [a, b] := hapart.infix hpair
    have hletter := h.letters b (by simp)
    rw [(List.isChain_cons_cons.mp hchain).1 (h.letters a (by simp))] at hletter
    cases hletter

section Connective

variable {word : List Char} (hne : word ≠ []) (hword : ∀ c ∈ word, c.isAlpha = true)
  (hends : ∀ c ∈ right.head?, c.isAlphanum = false)

include hword hends

/-- The first letters of a word and of what follows it are the word. -/
theorem eq_word_of_append (h : LetterRun front run back)
    (heq : word ++ right = front ++ (run ++ back)) :
    (front = [] ∧ run = word ∧ back = right)
      ∨ ∃ before, right = before ++ (run ++ back) ∧ front = word ++ before
        ∧ LetterRun before run back := by
  rcases h.of_append heq with
    ⟨behind, rfl, rfl, hrun⟩ | hright | ⟨last, first, -, -, rfl, -, hfirst⟩
  · obtain ⟨rfl, rfl⟩ := hrun.eq_nil_of_letters hword
    exact .inl ⟨rfl, by simp, rfl⟩
  · exact .inr hright
  · -- No letter follows the word.
    obtain ⟨c, first, rfl⟩ := List.exists_cons_of_ne_nil hfirst.ne_nil
    have hletter := hfirst.letters c (List.mem_cons_self ..)
    rw [(Bool.or_eq_false_iff.mp (hends c rfl)).1] at hletter
    cases hletter

include hne in
/-- Where a word joins two texts, letters stand in one of them, or they are the word, or else they
are the last letters in front of the word and the word. -/
theorem of_connective {space : List Char} (hspace : Spaced space) (h : LetterRun front run back)
    (heq : left ++ (space ++ (word ++ right)) = front ++ (run ++ back)) :
    (∃ behind, left = front ++ (run ++ behind) ∧ back = behind ++ (space ++ (word ++ right))
        ∧ LetterRun front run behind)
      ∨ (run = word ∧ back = right)
      ∨ (∃ last, run = last ++ word ∧ left = front ++ last ∧ back = right
        ∧ LetterRun front last [])
      ∨ ∃ before, right = before ++ (run ++ back) ∧ front = left ++ (space ++ (word ++ before))
        ∧ LetterRun before run back := by
  have hplain : ∀ c ∈ space, c.isAlpha = false := fun c hc => (hspace.neutral c hc).2.2
  rcases h.of_append heq with hleft | ⟨before, hbefore, rfl, hrun⟩ |
    ⟨last, first, rfl, rfl, hfirst, hlast, hrun⟩
  · exact .inl hleft
  · obtain ⟨behind, hbehind, hsplit, hrest⟩ := hrun.of_plain_append hplain hbefore
    rcases hrest.eq_word_of_append hword hends hbehind with
      ⟨-, hrun, hback⟩ | ⟨before, hbefore, rfl, hrun⟩
    · exact .inr (.inl ⟨hrun, hback⟩)
    · exact .inr (.inr (.inr ⟨before, hbefore, by rw [hsplit], hrun⟩))
  · -- The last letters are in front of the word only if there is no space in between.
    obtain ⟨behind, hbehind, hsplit, hrest⟩ :=
      hrun.of_plain_append hplain (hfirst.trans (List.nil_append _).symm)
    obtain ⟨-, rfl⟩ := List.append_eq_nil_iff.mp hsplit.symm
    rcases hrest.eq_word_of_append hword hends hbehind with
      ⟨-, rfl, hback⟩ | ⟨before, -, hnil, -⟩
    · exact .inr (.inr (.inl ⟨last, rfl, rfl, hback, hlast⟩))
    · exact absurd (List.append_eq_nil_iff.mp hnil.symm).1 hne

end Connective

end LetterRun

/-! ### Derivations -/

/-- The run is a variable, or a word, or a variable and a word behind it. In the last case the text
with a space between the two is accepted. -/
def VariableOrWord (accepts : List Char → Prop) (front run back : List Char) : Prop :=
  (∃ c, run = [c]) ∨ (∃ word ∈ connectives, run = word.toList)
    ∨ ∃ c, ∃ word ∈ connectives, run = c :: word.toList
      ∧ accepts (front ++ c :: ' ' :: (word.toList ++ back))

/-- Around another text, what is accepted may be another one. It begins as the run does. -/
theorem VariableOrWord.imp {accepts accepts' : List Char → Prop}
    {front front' run back back' : List Char} (h : VariableOrWord accepts front run back)
    (himp : ∀ c rest, c ∈ run.head? → accepts (front ++ c :: (rest ++ back)) →
      accepts' (front' ++ c :: (rest ++ back'))) :
    VariableOrWord accepts' front' run back' := by
  rcases h with hsingle | hword | ⟨c, word, hmem, rfl, haccepts⟩
  · exact .inl hsingle
  · exact .inr (.inl hword)
  · exact .inr (.inr ⟨c, word, hmem, rfl, himp c (' ' :: word.toList) rfl haccepts⟩)

namespace Constraint

/-- A constraint ends with no more than one letter. -/
theorem Derives.last_letter {layer : Layer} {text : List Char} {tree : Constraint}
    (h : Derives layer text tree) {front run : List Char} (heq : text = front ++ run)
    (hrun : LetterRun front run []) : ∃ c, run = [c] := by
  have hnil := List.append_nil run
  induction h generalizing front run with
  | comparison hsign hleft hspace hright =>
    refine hrun.eq_singleton_of_lettersApart ?_
    rw [hnil, ← heq]
    exact hleft.letters_apart.operator hspace hsign.neutral.2.2 hright.letters_apart
  | @group space inner _ _ _ _ =>
    have hclose : ∀ c ∈ [')'], c.isAlpha = false := List.forall_mem_singleton.mpr rfl
    have htext : space ++ '(' :: inner ++ [')'] = front ++ (run ++ []) := by simp [← heq]
    obtain ⟨behind, -, hend, -⟩ := hrun.of_append_plain hclose htext
    cases List.append_eq_nil_iff.mp hend.symm |>.2
  | conjunct _ ih | disjunct _ ih => exact ih heq hrun hnil
  | and _ hspace hright hends _ ih | or _ hspace hright hends _ ih =>
    rw [← hnil] at heq
    rcases hrun.of_connective (by decide) (List.all_eq_true.mp rfl) hends hspace heq with
      ⟨_, -, hend, -⟩ | ⟨-, hend⟩ | ⟨_, -, -, hend, -⟩ | ⟨before, hbefore, -, hlast⟩
    · simp at hend
    · exact absurd hend.symm hright.ne_nil
    · exact absurd hend.symm hright.ne_nil
    · rw [hnil] at hbefore
      exact ih hbefore hlast hnil
  | clause _ hspace ih =>
    rw [← hnil] at heq
    have hplain := fun c hc => (hspace.neutral c hc).2.2
    obtain ⟨behind, hbehind, hend, hlast⟩ := hrun.of_append_plain hplain heq
    obtain ⟨rfl, -⟩ := List.append_eq_nil_iff.mp hend.symm
    rw [hnil] at hbehind
    exact ih hbehind hlast hnil

/-- A word ends in front of a text whatever follows the first character of the text. -/
theorem ends_of_head? {before run back rest : List Char} {c : Char}
    (hends : ∀ d ∈ (before ++ (run ++ back)).head?, d.isAlphanum = false) (hc : c ∈ run.head?) :
    ∀ d ∈ (before ++ c :: (rest ++ back)).head?, d.isAlphanum = false := by
  obtain ⟨more, rfl⟩ := List.head?_eq_some_iff.mp hc
  cases before with
  | nil => exact hends
  | cons d before => exact hends

/-- Letters that stand together in the text of a constraint are a variable, or a word, or a variable
and a word behind it. In the last case a space between the two changes nothing. -/
theorem Derives.letterRun {layer : Layer} {text : List Char} {tree : Constraint}
    (h : Derives layer text tree) {front run back : List Char}
    (heq : text = front ++ (run ++ back)) (hrun : LetterRun front run back) :
    VariableOrWord (Derives layer · tree) front run back := by
  induction h generalizing front run back with
  | comparison hsign hleft hspace hright =>
    refine .inl (hrun.eq_singleton_of_lettersApart ?_)
    rw [← heq]
    exact hleft.letters_apart.operator hspace hsign.neutral.2.2 hright.letters_apart
  | @group space inner tree hspace _ ih =>
    have hopen : ∀ c ∈ space ++ ['('], c.isAlpha = false := by
      intro c hc
      rcases List.mem_append.mp hc with hc | hc
      · exact (hspace.neutral c hc).2.2
      · rw [List.mem_singleton.mp hc]
        rfl
    have hclose : ∀ c ∈ [')'], c.isAlpha = false := List.forall_mem_singleton.mpr rfl
    rw [List.append_cons] at heq
    obtain ⟨before, hbefore, rfl, hrest⟩ := hrun.of_plain_append hopen heq
    obtain ⟨behind, hbehind, rfl, hinner⟩ := hrest.of_append_plain hclose hbefore
    refine (ih hbehind hinner).imp fun c rest _ hderives => ?_
    simpa using Derives.group hspace hderives
  | conjunct _ ih => exact (ih heq hrun).imp fun _ _ _ => .conjunct
  | disjunct _ ih => exact (ih heq hrun).imp fun _ _ _ => .disjunct
  | and hleft hspace hright hends ihl ihr =>
    rcases hrun.of_connective (by decide) (List.all_eq_true.mp rfl) hends hspace heq with
      ⟨behind, hbehind, rfl, hfront⟩ | ⟨rfl, rfl⟩ | ⟨last, rfl, rfl, rfl, hlast⟩ |
      ⟨before, rfl, rfl, hback⟩
    · refine (ihl hbehind hfront).imp fun c rest _ hderives => ?_
      simpa using Derives.and hderives hspace hright hends
    · exact .inr (.inl ⟨"and", by decide, rfl⟩)
    · obtain ⟨c, rfl⟩ := hleft.last_letter rfl hlast
      refine .inr (.inr ⟨c, "and", by decide, rfl, ?_⟩)
      simpa using Derives.and hleft Spaced.single hright hends
    · refine (ihr rfl hback).imp fun c rest hc hderives => ?_
      simpa using Derives.and hleft hspace hderives (ends_of_head? hends hc)
  | or hleft hspace hright hends ihl ihr =>
    rcases hrun.of_connective (by decide) (List.all_eq_true.mp rfl) hends hspace heq with
      ⟨behind, hbehind, rfl, hfront⟩ | ⟨rfl, rfl⟩ | ⟨last, rfl, rfl, rfl, hlast⟩ |
      ⟨before, rfl, rfl, hback⟩
    · refine (ihl hbehind hfront).imp fun c rest _ hderives => ?_
      simpa using Derives.or hderives hspace hright hends
    · exact .inr (.inl ⟨"or", by decide, rfl⟩)
    · obtain ⟨c, rfl⟩ := hleft.last_letter rfl hlast
      refine .inr (.inr ⟨c, "or", by decide, rfl, ?_⟩)
      simpa using Derives.or hleft Spaced.single hright hends
    · refine (ihr rfl hback).imp fun c rest hc hderives => ?_
      simpa using Derives.or hleft hspace hderives (ends_of_head? hends hc)
  | clause hdisjunction hspace ih =>
    have hplain := fun c hc => (hspace.neutral c hc).2.2
    obtain ⟨behind, hbehind, rfl, hrest⟩ := hrun.of_append_plain hplain heq
    refine (ih hbehind hrest).imp fun c rest _ hderives => ?_
    simpa using Derives.clause hderives hspace

/-! ### Texts -/

/-- A space changes nothing about parentheses. -/
theorem peak_insert_space (depth : Nat) (front back : List Char) :
    peak depth (front ++ ' ' :: back) = peak depth (front ++ back) := by
  induction front generalizing depth with
  | nil => rfl
  | cons c front ih => simp only [List.cons_append, peak, ih]

/-- Neither does it bring products about. -/
theorem explicit_insert_space {front back : List Char} (h : Explicit (front ++ back)) :
    Explicit (front ++ ' ' :: back) :=
  (h.infix_of (List.prefix_append front back).isInfix).append
    (h.infix_of (List.suffix_append front back).isInfix).space (Apart.cons (by decide) back)

/-- **Words and variables**: in the text of a constraint, with its products made explicit, letters
that stand together are a variable, or one of the words `and` and `or`, or a variable with one of
the words directly behind it. In the last case the text with a space in between is parsed as
well, and to the same tree. -/
theorem letterRun_of_parse {text : String} {tree : Constraint} (h : parse text = .ok tree)
    {front run back : List Char} (hsplit : (normalize text).toList = front ++ (run ++ back))
    (hrun : LetterRun front run back) :
    (∃ c, run = [c]) ∨ (∃ word ∈ connectives, run = word.toList)
      ∨ ∃ c, ∃ word ∈ connectives, run = c :: word.toList
        ∧ parse (String.ofList (front ++ c :: ' ' :: (word.toList ++ back))) = .ok tree := by
  rw [normalize, String.toList_ofList] at hsplit
  have hexplicit := explicit_explicitProducts text.toList
  obtain ⟨hderives, hroom⟩ := parse_eq_ok_iff_derives.mp h
  rw [hsplit] at hexplicit hderives hroom
  refine (hderives.letterRun rfl hrun).imp_right (.imp_right ?_)
  rintro ⟨c, word, hmem, rfl, hspaced⟩
  refine ⟨c, word, hmem, rfl, parse_eq_ok_iff_derives.mpr ?_⟩
  have hjoin : ∀ rest, front ++ c :: rest = (front ++ [c]) ++ rest := List.append_cons front c
  rw [List.cons_append, hjoin] at hexplicit hroom
  have hself := explicitProducts_eq_self (explicit_insert_space hexplicit)
  rw [String.toList_ofList, hjoin, hself, ← hjoin]
  refine ⟨hspaced, ?_⟩
  rw [hjoin, nesting, peak_insert_space]
  exact hroom

theorem letterRun_yand : LetterRun "x<".toList "yand".toList " x<z".toList where
  ne_nil := by decide
  letters := List.all_eq_true.mp rfl
  behind_front := by
    rintro c ⟨⟩
    rfl
  before_back := by
    rintro c ⟨⟩
    rfl

/-- In `x<yand x<z` the word is behind the variable `y`. -/
theorem letterRun_of_parse_behind_variable :
    parse "x<yand x<z"
        = .ok (.and (.less (.var 'x') (.var 'y')) (.less (.var 'x') (.var 'z')))
      ∧ (normalize "x<yand x<z").toList = "x<".toList ++ ("yand".toList ++ " x<z".toList)
      ∧ LetterRun "x<".toList "yand".toList " x<z".toList
      ∧ ((∃ c, "yand".toList = [c]) ∨ (∃ word ∈ connectives, "yand".toList = word.toList)
        ∨ ∃ c, ∃ word ∈ connectives, "yand".toList = c :: word.toList
          ∧ parse (String.ofList ("x<".toList ++ c :: ' ' :: (word.toList ++ " x<z".toList)))
            = .ok (.and (.less (.var 'x') (.var 'y')) (.less (.var 'x') (.var 'z')))) := by
  have hparse : parse "x<yand x<z"
      = .ok (.and (.less (.var 'x') (.var 'y')) (.less (.var 'x') (.var 'z'))) := by
    decide +kernel
  have hsplit : (normalize "x<yand x<z").toList
      = "x<".toList ++ ("yand".toList ++ " x<z".toList) := by
    decide +kernel
  exact ⟨hparse, hsplit, letterRun_yand, letterRun_of_parse hparse hsplit letterRun_yand⟩

/-- So a word is found that is no whole word of the text. -/
theorem word_behind_variable_found :
    ¬∀ (text : String) (tree : Constraint), parse text = .ok tree →
      ∀ front run back : List Char, (normalize text).toList = front ++ (run ++ back) →
        LetterRun front run back →
        (∃ c, run = [c]) ∨ run = "and".toList ∨ run = "or".toList := by
  intro hwhole
  rcases hwhole "x<yand x<z"
      (.and (.less (.var 'x') (.var 'y')) (.less (.var 'x') (.var 'z'))) (by decide +kernel)
      "x<".toList "yand".toList " x<z".toList (by decide +kernel) letterRun_yand with
    ⟨c, hsingle⟩ | hand | hor
  · simp at hsingle
  · simp at hand
  · simp at hor

end Constraint

end Diophantine
