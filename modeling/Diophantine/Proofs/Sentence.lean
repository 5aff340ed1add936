import Diophantine.Problem.Basic
import Diophantine.Proofs.Constraint.Completeness
import Diophantine.Sentence

/-!
# Sentences that are put together

Clauses are put together with commas between them, and splitting the sentence finds the clauses
again, each with some spacing around it. For this no clause may hold anything that ends one.

- `Terminator.Begins`, `Unbroken`: a text outside whose parentheses no terminator begins;
- `Quiet`: a text that does not even hold the characters for it;
- `nextPiece_append`: walking to the next terminator passes text in which there is none;
- `Framed`, `Sentence.read_intercalate`: the clauses of a sentence, one by one;
- `Sentence.exists_clause_of_read`: what no terminator breaks is part of one clause;
- `renderList_eq_intercalate`: what is rendered as a list is such a sentence.
-/

namespace Diophantine

/-! ### Where clauses end -/

/-- Whether an ASCII letter or digit stands at the end of a text, or before it if it is empty. -/
def wordAfter (inWord : Bool) (text : List Char) : Bool :=
  text.foldl (fun _ c => c.isAlphanum) inWord

@[simp] theorem wordAfter_append (inWord : Bool) (front back : List Char) :
    wordAfter inWord (front ++ back) = wordAfter (wordAfter inWord front) back :=
  List.foldl_append ..

@[simp] theorem wordAfter_nil (inWord : Bool) : wordAfter inWord [] = inWord := rfl

@[simp] theorem wordAfter_cons (inWord : Bool) (c : Char) (text : List Char) :
    wordAfter inWord (c :: text) = wordAfter c.isAlphanum text := rfl

/-- No word goes on behind spacing. -/
theorem wordAfter_spaced {inWord : Bool} {space : List Char} (hspace : Spaced space)
    (hne : space ≠ []) : wordAfter inWord space = false := by
  induction space generalizing inWord with
  | nil => exact absurd rfl hne
  | cons c space ih =>
    have hc : isSpacing c = true := hspace c (List.mem_cons_self ..)
    have hword : c.isAlphanum = false := by
      rw [Char.isAlphanum, (neutral_of_isSpacing hc).2.2, isDigit_of_isSpacing hc, Bool.or_false]
    rw [wordAfter_cons, hword]
    by_cases hmore : space = []
    · simp [hmore]
    · exact ih (fun d hd => hspace d (List.mem_cons_of_mem c hd)) hmore

/-- A terminator stands at the beginning of a text. -/
def Terminator.Begins (inWord : Bool) (text : List Char) : Terminator → Prop
  | .comma => text.head? = some ','
  | .ending .period => text.head? = some '.'
  | .ending .suchThat => inWord = false ∧ ∃ rest, text = "such that".toList ++ rest
      ∧ ∀ c ∈ rest.head?, c.isAlphanum = false

/-- What a terminator begins with. -/
theorem Terminator.Begins.head?_eq {inWord : Bool} {text : List Char} {terminator : Terminator}
    (h : terminator.Begins inWord text) :
    text.head? = some ',' ∨ text.head? = some '.' ∨ text.head? = some 's' := by
  rcases terminator with _ | _ | _
  · exact .inl h
  · exact .inr (.inl h)
  · obtain ⟨-, rest, rfl, -⟩ := h
    exact .inr (.inr rfl)

/-- A keyword stands at the beginning exactly if no longer word does. -/
theorem Slice.isSome_afterKeyword?_iff {slice : Slice} {word : String} :
    (slice.afterKeyword? word).isSome ↔
      ∃ rest, slice.chars = word.toList ++ rest ∧ ∀ c ∈ rest.head?, c.isAlphanum = false := by
  rw [Option.isSome_iff_exists]
  constructor
  · rintro ⟨rest, hrest⟩
    obtain ⟨hchars, -, hhead⟩ := Slice.afterKeyword?_eq_some_iff.mp hrest
    exact ⟨rest.chars, hchars, hhead⟩
  · rintro ⟨rest, hchars, hhead⟩
    exact ⟨⟨slice.start.past word.toList, rest⟩,
      Slice.afterKeyword?_eq_some_iff.mpr ⟨hchars, rfl, hhead⟩⟩

theorem isSome_terminator?_iff {active : List Terminator} {inWord : Bool} {here : Position}
    {text : List Char} :
    (terminator? active inWord { start := here, chars := text }).isSome ↔
      ∃ terminator ∈ active, terminator.Begins inWord text := by
  constructor
  · intro h
    unfold terminator? at h
    split at h
    · rename_i rest hnext
      split at h
      · rename_i hactive
        exact ⟨_, hactive, congrArg List.head? (Slice.next?_eq_some_iff.mp hnext).1⟩
      · cases h
    · rename_i rest hnext
      split at h
      · rename_i hactive
        exact ⟨_, hactive, congrArg List.head? (Slice.next?_eq_some_iff.mp hnext).1⟩
      · cases h
    · split at h
      · rename_i hactive
        rw [Option.isSome_map] at h
        exact ⟨_, hactive.1, hactive.2, Slice.isSome_afterKeyword?_iff.mp h⟩
      · cases h
    · cases h
  · rintro ⟨terminator, hactive, hbegins⟩
    cases text with
    | nil =>
      rcases terminator with _ | _ | _
      · cases hbegins
      · cases hbegins
      · obtain ⟨-, rest, heq, -⟩ := hbegins
        cases heq
    | cons c text =>
      rcases terminator with _ | _ | _
      · obtain rfl : c = ',' := Option.some.inj hbegins
        simp only [terminator?, Slice.next?, if_pos hactive, Option.isSome_some]
      · obtain rfl : c = '.' := Option.some.inj hbegins
        simp only [terminator?, Slice.next?, if_pos hactive, Option.isSome_some]
      · obtain ⟨hword, rest, heq, hhead⟩ := hbegins
        obtain rfl : c = 's' := (List.cons.inj heq).1
        simp only [terminator?, Slice.next?, if_pos (And.intro hactive hword), Option.isSome_map]
        exact Slice.isSome_afterKeyword?_iff.mpr ⟨rest, heq, hhead⟩

theorem terminator?_eq_none_iff {active : List Terminator} {inWord : Bool} {here : Position}
    {text : List Char} :
    terminator? active inWord { start := here, chars := text } = none ↔
      ∀ terminator ∈ active, ¬terminator.Begins inWord text := by
  rw [← Option.not_isSome_iff_eq_none, isSome_terminator?_iff]
  exact ⟨fun h terminator hactive hbegins => h ⟨terminator, hactive, hbegins⟩,
    fun h ⟨terminator, hactive, hbegins⟩ => h terminator hactive hbegins⟩

/-- No active terminator begins in a text outside parentheses, of which `depth` are open before it.
The words `such that` may be cut short by the end of the text, so it matters what follows. -/
def Unbroken (active : List Terminator) (depth : Nat) (inWord : Bool) (text tail : List Char) :
    Prop :=
  ∀ front back, text = front ++ back → back ≠ [] → openAfter depth front = some 0 →
    ∀ terminator ∈ active, ¬terminator.Begins (wordAfter inWord front) (back ++ tail)

namespace Unbroken

variable {active : List Terminator} {depth : Nat} {inWord : Bool} {c : Char} {text tail : List Char}

theorem nil : Unbroken active depth inWord [] tail :=
  fun _ _ heq hne _ => absurd (List.append_eq_nil_iff.mp heq.symm).2 hne

theorem cons {after : Nat} (hopen : openAfter depth [c] = some after)
    (hfirst : depth = 0 → ∀ terminator ∈ active, ¬terminator.Begins inWord (c :: (text ++ tail)))
    (h : Unbroken active after c.isAlphanum text tail) :
    Unbroken active depth inWord (c :: text) tail := by
  intro front back heq hne hfront
  cases front with
  | nil =>
    obtain rfl : c :: text = back := heq
    exact hfirst (Option.some.inj hfront)
  | cons d front =>
    obtain ⟨rfl, htext⟩ := List.cons.inj heq
    refine h front back htext hne ?_
    rw [← List.singleton_append, openAfter_append, hopen] at hfront
    exact hfront

theorem of_cons {after : Nat} (hopen : openAfter depth [c] = some after)
    (h : Unbroken active depth inWord (c :: text) tail) :
    Unbroken active after c.isAlphanum text tail := by
  intro front back heq hne hfront
  refine h (c :: front) back (congrArg (c :: ·) heq) hne ?_
  rw [← List.singleton_append, openAfter_append, hopen]
  exact hfront

/-- Two texts in which no terminator begins may stand side by side. -/
theorem append {front back : List Char} {after : Nat} (hopen : openAfter depth front = some after)
    (hfront : Unbroken active depth inWord front (back ++ tail))
    (hback : Unbroken active after (wordAfter inWord front) back tail) :
    Unbroken active depth inWord (front ++ back) tail := by
  intro before behind heq hne hbefore
  rcases List.append_eq_append_iff.mp heq with ⟨more, rfl, rfl⟩ | ⟨more, rfl, rfl⟩
  · rw [openAfter_append, hopen] at hbefore
    rw [wordAfter_append]
    exact hback more behind rfl hne hbefore
  · by_cases hmore : more = []
    · subst hmore
      rw [List.append_nil] at hopen
      rw [List.nil_append, ← List.append_nil before]
      obtain rfl : after = 0 := Option.some.inj (hopen.symm.trans hbefore)
      exact hback [] back rfl hne rfl
    · rw [List.append_assoc]
      exact hfront before more rfl hmore hbefore

theorem terminator?_eq_none (h : Unbroken active 0 inWord (c :: text) tail) (here : Position) :
    terminator? active inWord { start := here, chars := c :: (text ++ tail) } = none :=
  terminator?_eq_none_iff.mpr (h [] (c :: text) rfl (List.cons_ne_nil c text) rfl)

end Unbroken

/-! ### Quiet text -/

/-- Nothing in the text ends a clause: there is no comma and no period, and where the words count,
no two letters stand side by side. -/
structure Quiet (active : List Terminator) (text : List Char) : Prop where
  comma : ',' ∉ text
  period : '.' ∉ text
  words : .ending .suchThat ∈ active → LettersApart text

/-- The words `such that` do not begin where no two letters stand side by side. -/
theorem LettersApart.afterKeyword?_eq_none {text tail : List Char} (h : LettersApart text)
    (hne : text ≠ []) (htail : tail.head? ≠ some 'u') (here : Position) :
    Slice.afterKeyword? { start := here, chars := text ++ tail } "such that" = none := by
  refine Option.eq_none_iff_forall_ne_some.mpr fun rest hrest => ?_
  obtain ⟨c, text, rfl⟩ := List.exists_cons_of_ne_nil hne
  obtain ⟨hfirst, hback⟩ := List.cons.inj (Slice.afterKeyword?_eq_some_iff.mp hrest).1
  subst hfirst
  have hsecond : (text ++ tail).head? = some 'u' := congrArg List.head? hback
  cases text with
  | nil => exact htail hsecond
  | cons d text =>
    obtain rfl : d = 'u' := Option.some.inj hsecond
    exact absurd ((List.isChain_cons_cons.mp h).1 (by decide)) (by decide)

namespace Quiet

variable {active : List Terminator}

theorem suffix {front text : List Char} (h : Quiet active (front ++ text)) : Quiet active text where
  comma hmem := h.comma (List.mem_append_right front hmem)
  period hmem := h.period (List.mem_append_right front hmem)
  words hactive := (h.words hactive).right_of_append

/-- No terminator begins within quiet text. The words `such that` could only go on behind it. -/
theorem terminator?_eq_none {c : Char} {text tail : List Char} (h : Quiet active (c :: text))
    (htail : tail.head? ≠ some 'u') (inWord : Bool) (here : Position) :
    terminator? active inWord { start := here, chars := c :: (text ++ tail) } = none := by
  unfold terminator?
  split
  · rename_i rest hnext
    cases hnext
    exact absurd (List.mem_cons_self ..) h.comma
  · rename_i rest hnext
    cases hnext
    exact absurd (List.mem_cons_self ..) h.period
  · rename_i rest hnext
    cases hnext
    split
    · rename_i hactive
      have happart : LettersApart ('s' :: text) := h.words hactive.1
      exact Option.map_eq_none_iff.mpr (happart.afterKeyword?_eq_none (by simp) htail here)
    · rfl
  · rfl

theorem unbroken {text tail : List Char} (h : Quiet active text) (htail : tail.head? ≠ some 'u')
    (depth : Nat) (inWord : Bool) : Unbroken active depth inWord text tail := by
  intro front back heq hne _
  obtain ⟨c, back, rfl⟩ := List.exists_cons_of_ne_nil hne
  have hback : Quiet active (c :: back) := suffix (heq ▸ h)
  exact terminator?_eq_none_iff.mp (hback.terminator?_eq_none htail _ Position.origin)

/-- Spacing in front and behind keeps a text quiet. -/
theorem framed {before text behind : List Char} (h : Quiet active text) (hbefore : Spaced before)
    (hbehind : Spaced behind) : Quiet active (before ++ (text ++ behind)) where
  comma hmem := by
    rcases List.mem_append.mp hmem with hmem | hmem
    · exact absurd (hbefore _ hmem) (by decide)
    · rcases List.mem_append.mp hmem with hmem | hmem
      · exact h.comma hmem
      · exact absurd (hbehind _ hmem) (by decide)
  period hmem := by
    rcases List.mem_append.mp hmem with hmem | hmem
    · exact absurd (hbefore _ hmem) (by decide)
    · rcases List.mem_append.mp hmem with hmem | hmem
      · exact h.period hmem
      · exact absurd (hbehind _ hmem) (by decide)
  words hactive := by
    have hback : LettersApart (text ++ behind) := by
      refine (h.words hactive).append_of_head ?_ fun c hc => ?_
      · exact LettersApart.of_neutral fun c hc => (hbehind.neutral c hc).2.2
      · exact (hbehind.neutral c (List.mem_of_head? hc)).2.2
    exact LettersApart.append_of_front (fun c hc => (hbefore.neutral c hc).2.2) hback

end Quiet

/-! ### Pieces -/

/-- A piece with more characters in front. -/
def Piece.prepend (text : List Char) (piece : Piece) : Piece :=
  { piece with chars := text ++ piece.chars }

theorem Piece.map_cons_map_prepend (c : Char) (text : List Char) (found : Except Failure Piece) :
    (found.map (prepend text)).map (cons c) = found.map (prepend (c :: text)) := by
  cases found <;> rfl

/-- Walking to the next terminator passes text in which there is none, whose parentheses only change
how many slices are kept as opened. -/
theorem nextPiece_append {active : List Terminator} {opened : List Slice} (inWord : Bool)
    (here : Position) {text tail : List Char} {after : Nat}
    (h : openAfter opened.length text = some after)
    (hunbroken : Unbroken active opened.length inWord text tail) :
    ∃ stack : List Slice, stack.length = after ∧
      nextPiece active opened inWord here (text ++ tail)
        = (nextPiece active stack (wordAfter inWord text) (here.past text) tail).map
            (Piece.prepend text) := by
  induction text generalizing opened inWord here with
  | nil =>
    refine ⟨opened, Option.some.inj h, ?_⟩
    show nextPiece active opened inWord here tail
      = (nextPiece active opened inWord here tail).map (Piece.prepend [])
    cases nextPiece active opened inWord here tail <;> rfl
  | cons c text ih =>
    -- Every step that goes on puts its character in front of what the rest of the text gives.
    have hcons : ∀ {next : List Slice}, openAfter opened.length [c] = some next.length →
        openAfter next.length text = some after →
        ∃ stack : List Slice, stack.length = after ∧
          (nextPiece active next c.isAlphanum (here.advance c) (text ++ tail)).map (Piece.cons c)
            = (nextPiece active stack (wordAfter inWord (c :: text)) (here.past (c :: text))
                tail).map (Piece.prepend (c :: text)) := by
      intro next hnext hopen
      obtain ⟨stack, hlen, heq⟩ :=
        ih c.isAlphanum (here.advance c) hopen (hunbroken.of_cons hnext)
      refine ⟨stack, hlen, ?_⟩
      rw [heq, Piece.map_cons_map_prepend]
      rfl
    simp only [List.cons_append, nextPiece, openAfter] at h ⊢
    split at h
    · rename_i hc
      subst hc
      exact hcons rfl h
    · rename_i hc
      rw [if_neg hc]
      split at h
      · rename_i hd
        subst hd
        cases opened with
        | nil => cases h
        | cons opening opened => exact hcons rfl h
      · rename_i hd
        rw [if_neg hd]
        have hsame : openAfter opened.length [c] = some opened.length := openAfter_singleton hc hd
        cases opened with
        | nil =>
          rw [hunbroken.terminator?_eq_none here]
          exact hcons hsame h
        | cons opening opened => exact hcons hsame h

/-- A balanced text in which there is no terminator is a piece if there is one behind it. -/
theorem nextPiece_of_terminator {active : List Terminator} {here : Position}
    {text stop : List Char} {terminator : Terminator} {rest : Slice} (hbal : Balanced text)
    (hunbroken : Unbroken active 0 false text stop)
    (hstop : stop.head? ≠ some '(' ∧ stop.head? ≠ some ')')
    (hterminator : terminator? active (wordAfter false text)
      { start := here.past text, chars := stop } = some (terminator, rest)) :
    nextPiece active [] false here (text ++ stop)
      = .ok { chars := text, terminator := some terminator, rest := rest } := by
  have hopened : openAfter ([] : List Slice).length text = some 0 := hbal
  obtain ⟨stack, hlen, heq⟩ :=
    nextPiece_append false here hopened hunbroken
  obtain rfl : stack = [] := List.length_eq_zero_iff.mp hlen
  rw [heq]
  cases stop with
  | nil => cases hterminator
  | cons c stop =>
    have hopen : c ≠ '(' := fun heq => hstop.1 (heq ▸ rfl)
    have hclose : c ≠ ')' := fun heq => hstop.2 (heq ▸ rfl)
    rw [nextPiece, if_neg hopen, if_neg hclose, hterminator]
    show Except.ok (Piece.mk (text ++ []) (some terminator) rest) = _
    rw [List.append_nil]

/-! ### Clauses of a sentence -/

/-- The clause is the text with spacing around it. -/
def Framed (clause : Slice) (text : List Char) : Prop :=
  ∃ before behind, Spaced before ∧ Spaced behind ∧ clause.chars = before ++ (text ++ behind)

/-- What splitting asks of the text of an item: it pairs up its parentheses, nothing in it ends a
clause, and it is not blank. -/
structure ClauseText (active : List Terminator) (text : List Char) : Prop where
  balanced : Balanced text
  quiet : Quiet active text
  solid : ∃ c ∈ text, isBlank c = false

theorem Balanced.framed {before text behind : List Char} (h : Balanced text)
    (hbefore : Spaced before) (hbehind : Spaced behind) :
    Balanced (before ++ (text ++ behind)) :=
  (Balanced.of_neutral hbefore.neutral).1.append (h.append (Balanced.of_neutral hbehind.neutral).1)

/-- A clause with a character that is not blank is not blank. -/
theorem Framed.allBlank_eq_false {clause : Slice} {text : List Char} (h : Framed clause text)
    (hsolid : ∃ c ∈ text, isBlank c = false) : clause.allBlank = false := by
  obtain ⟨before, behind, -, -, hchars⟩ := h
  obtain ⟨c, hc, hnot⟩ := hsolid
  refine Bool.eq_false_iff.mpr fun hall => ?_
  have hmem : c ∈ clause.chars := by
    rw [hchars]
    exact List.mem_append_right _ (List.mem_append_left _ hc)
  have hblank : isBlank c = true := List.all_eq_true.mp hall c hmem
  rw [hnot] at hblank
  cases hblank

namespace Sentence

variable {active : List Terminator}

/-- A clause before a comma is followed by the clauses behind it. -/
theorem read_comma {before text : List Char} (htext : ClauseText active text)
    (hcomma : .comma ∈ active) (hbefore : Spaced before) (here : Position) (rest : List Char) :
    read active { start := here, chars := before ++ text ++ ',' :: rest }
      = (read active { start := (here.past (before ++ text)).advance ',', chars := rest }).map
          (cons { start := here, chars := before ++ text }) := by
  have hterminator : terminator? active (wordAfter false (before ++ text))
      { start := here.past (before ++ text), chars := ',' :: rest }
        = some (.comma, { start := (here.past (before ++ text)).advance ',', chars := rest }) :=
    if_pos hcomma
  have hbal := htext.balanced.framed hbefore Spaced.nil
  have hquiet := htext.quiet.framed hbefore Spaced.nil
  rw [List.append_nil] at hbal hquiet
  rw [read, nextPiece_of_terminator hbal (hquiet.unbroken (by simp) 0 false) (by simp) hterminator]
  dsimp only
  cases read active { start := (here.past (before ++ text)).advance ',', chars := rest } <;> rfl

/-- A clause before the end of the sentence is its last one, with the spacing behind it. -/
theorem read_ending {before text behind stop : List Char} (htext : ClauseText active text)
    (hbefore : Spaced before) (hbehind : Spaced behind)
    (hhead : stop.head? ≠ some 'u' ∧ stop.head? ≠ some '(' ∧ stop.head? ≠ some ')')
    {here : Position} {ending : Ending} {remainder : Slice}
    (hterminator : terminator? active (wordAfter false (before ++ (text ++ behind)))
      { start := here.past (before ++ (text ++ behind)), chars := stop }
        = some (.ending ending, remainder)) :
    read active { start := here, chars := before ++ (text ++ behind) ++ stop }
      = .ok { clauses := [{ start := here, chars := before ++ (text ++ behind) }]
              remainder := remainder
              stop := some ending } := by
  have hsolid : (Slice.mk here (before ++ (text ++ behind))).allBlank = false :=
    Framed.allBlank_eq_false ⟨before, behind, hbefore, hbehind, rfl⟩ htext.solid
  have hunbroken := (htext.quiet.framed hbefore hbehind).unbroken hhead.1 0 false
  rw [read, nextPiece_of_terminator (htext.balanced.framed hbefore hbehind) hunbroken hhead.2
    hterminator]
  show Except.ok (Sentence.mk (if Slice.allBlank _ = true then [] else [_]) _ _) = _
  rw [if_neg (Bool.eq_false_iff.mp hsolid)]

/-- A sentence that is put together from clauses has these clauses, with spacing around them. `stop`
is what ends the sentence, behind some spacing. -/
theorem read_intercalate {texts : List (List Char)} (hne : texts ≠ [])
    (htexts : ∀ text ∈ texts, ClauseText active text) (hcomma : .comma ∈ active)
    {before behind stop : List Char} (hbefore : Spaced before) (hbehind : Spaced behind)
    {ending : Ending} {rest : List Char}
    (hhead : stop.head? ≠ some 'u' ∧ stop.head? ≠ some '(' ∧ stop.head? ≠ some ')')
    (hstop : ∀ here inWord, (behind ≠ [] → inWord = false) →
      ∃ remainder : Slice, remainder.chars = rest ∧
        terminator? active inWord { start := here, chars := stop }
          = some (.ending ending, remainder))
    (here : Position) :
    ∃ sentence,
      read active { start := here
                    chars := before ++ ([',', ' '].intercalate texts ++ (behind ++ stop)) }
        = .ok sentence
      ∧ List.Forall₂ Framed sentence.clauses texts
      ∧ sentence.remainder.chars = rest ∧ sentence.stop = some ending := by
  induction texts generalizing before here with
  | nil => exact absurd rfl hne
  | cons text texts ih =>
    have htext := htexts text (List.mem_cons_self ..)
    by_cases hmore : texts = []
    · -- The last clause ends with the sentence, and spacing behind it is part of it.
      subst hmore
      have hword : behind ≠ [] → wordAfter false (before ++ (text ++ behind)) = false := by
        intro hne
        rw [wordAfter_append, wordAfter_append, wordAfter_spaced hbehind hne]
      obtain ⟨remainder, hrest, hterminator⟩ :=
        hstop (here.past (before ++ (text ++ behind))) _ hword
      have hsplit : before ++ ([',', ' '].intercalate [text] ++ (behind ++ stop))
          = before ++ (text ++ behind) ++ stop := by
        rw [List.intercalate_singleton]
        simp only [List.append_assoc]
      rw [hsplit]
      exact ⟨_, read_ending htext hbefore hbehind hhead hterminator,
        .cons ⟨before, behind, hbefore, hbehind, rfl⟩ .nil, hrest, rfl⟩
    · -- The space behind the comma is in front of the next clause, which is part of that one.
      have hsplit : before ++ ([',', ' '].intercalate (text :: texts) ++ (behind ++ stop))
          = before ++ text
            ++ ',' :: ([' '] ++ ([',', ' '].intercalate texts ++ (behind ++ stop))) := by
        rw [List.intercalate_cons_of_ne_nil hmore]
        simp only [List.append_assoc, List.cons_append, List.nil_append]
      obtain ⟨sentence, hread, hclauses, hremainder, hending⟩ :=
        ih hmore (fun text hmem => htexts text (List.mem_cons_of_mem _ hmem))
          Spaced.single ((here.past (before ++ text)).advance ',')
      rw [hsplit, read_comma htext hcomma hbefore, hread]
      refine ⟨_, rfl, ?_, hremainder, hending⟩
      exact .cons ⟨before, [], hbefore, Spaced.nil, by rw [List.append_nil]⟩ hclauses

/-- Text in which there is no terminator stays together: some clause begins with it. -/
theorem exists_clause_of_read {front back : List Char} {here : Position} {sentence : Sentence}
    (hbal : Balanced front) (hunbroken : Unbroken active 0 false front back)
    (hsolid : ∃ c ∈ front, isBlank c = false)
    (h : read active { start := here, chars := front ++ back } = .ok sentence) :
    ∃ clause ∈ sentence.clauses, front <+: clause.chars := by
  have hopened : openAfter ([] : List Slice).length front = some 0 := hbal
  obtain ⟨stack, -, heq⟩ := nextPiece_append false here hopened hunbroken
  -- The clause is kept even if the sentence ends with it, since it is not blank.
  have hlast : ∀ (remainder : Slice) (stop : Option Ending) (more : List Char),
      ∃ clause ∈ (last { start := here, chars := front ++ more } remainder stop).clauses,
        front <+: clause.chars := by
    intro remainder stop more
    have hkept : (Slice.mk here (front ++ more)).allBlank = false := by
      obtain ⟨c, hc, hnot⟩ := hsolid
      refine List.all_eq_false.mpr ⟨c, List.mem_append_left more hc, ?_⟩
      rw [hnot]
      decide
    refine ⟨{ start := here, chars := front ++ more }, ?_, List.prefix_append front more⟩
    rw [last, if_neg (Bool.eq_false_iff.mp hkept)]
    exact List.mem_singleton_self _
  rw [read] at h
  split at h
  · cases h
  · rename_i piece hpiece
    obtain ⟨found, -, rfl⟩ := map_eq_ok_iff.mp (heq.symm.trans hpiece)
    split at h
    · split at h
      · cases h
      · cases h
        exact ⟨_, List.mem_cons_self .., List.prefix_append front found.chars⟩
    · cases h
      exact hlast found.rest _ _
    · cases h
      exact hlast found.rest _ _

/-- Behind texts that are put together, too, text in which there is no terminator stays together. -/
theorem exists_clause_of_read_intercalate {texts : List (List Char)} (hne : texts ≠ [])
    (htexts : ∀ text ∈ texts, ClauseText active text) (hcomma : .comma ∈ active)
    {before front back : List Char} (hbefore : Spaced before) (hbal : Balanced front)
    (hunbroken : ∀ inWord, Unbroken active 0 inWord front back)
    (hhead : (front ++ back).head? ≠ some 'u') {here : Position} {sentence : Sentence}
    (h : read active { start := here
                       chars := before ++ ([',', ' '].intercalate texts ++ (front ++ back)) }
      = .ok sentence) : ∃ clause ∈ sentence.clauses, front <:+: clause.chars := by
  induction texts generalizing before here sentence with
  | nil => exact absurd rfl hne
  | cons text texts ih =>
    have htext := htexts text (List.mem_cons_self ..)
    by_cases hmore : texts = []
    · subst hmore
      have hbalanced := htext.balanced.framed hbefore Spaced.nil
      have hquiet := htext.quiet.framed hbefore Spaced.nil
      have hsplit : before ++ ([',', ' '].intercalate [text] ++ (front ++ back))
          = before ++ (text ++ []) ++ front ++ back := by
        rw [List.intercalate_singleton]
        simp only [List.append_assoc, List.append_nil]
      rw [hsplit] at h
      obtain ⟨clause, hmem, hprefix⟩ := exists_clause_of_read (hbalanced.append hbal)
        (.append hbalanced (hquiet.unbroken hhead 0 false) (hunbroken _))
        (htext.solid.imp fun c hc => ⟨by simp [hc.1], hc.2⟩) h
      exact ⟨clause, hmem, (List.suffix_append _ front).isInfix.trans hprefix.isInfix⟩
    · have hsplit : before ++ ([',', ' '].intercalate (text :: texts) ++ (front ++ back))
          = before ++ text
            ++ ',' :: ([' '] ++ ([',', ' '].intercalate texts ++ (front ++ back))) := by
        rw [List.intercalate_cons_of_ne_nil hmore]
        simp only [List.append_assoc, List.cons_append, List.nil_append]
      rw [hsplit, read_comma htext hcomma hbefore] at h
      obtain ⟨rest, hrest, rfl⟩ := map_eq_ok_iff.mp h
      obtain ⟨clause, hmem, hinfix⟩ :=
        ih hmore (fun text hmem => htexts text (List.mem_cons_of_mem _ hmem)) Spaced.single hrest
      exact ⟨clause, List.mem_cons_of_mem _ hmem, hinfix⟩

end Sentence

/-- A list is rendered as a sentence, except for what ends it. -/
theorem renderList_eq_intercalate {α : Type} {render : α → List Char → List Char}
    (hrender : ∀ item rest, render item rest = render item [] ++ rest) (items : List α)
    (rest : List Char) :
    renderList render items rest
      = [',', ' '].intercalate (items.map fun item => render item []) ++ rest := by
  induction items with
  | nil => rfl
  | cons item items ih =>
    cases items with
    | nil =>
      rw [List.map_singleton, List.intercalate_singleton]
      exact hrender item rest
    | cons next items =>
      show render item (',' :: ' ' :: renderList render (next :: items) rest) = _
      rw [hrender item (',' :: _), ih, List.map_cons (l := next :: items),
        List.intercalate_cons_of_ne_nil (by simp)]
      simp only [List.append_assoc, List.cons_append, List.nil_append]

end Diophantine
