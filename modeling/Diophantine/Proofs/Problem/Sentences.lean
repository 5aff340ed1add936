import Diophantine.Proofs.Problem.Clauses

/-!
# Problems that are put together

A problem is put together from the texts of its equations and constraints, as one sentence, or as
two halves of one around the words `such that`. It is read as the trees that the texts derive, in
their order. Both readers of sentences are followed from the word `Solve` to the end of the text.

- `terminator?_period`, `terminator?_suchThat`: what ends a sentence;
- `result_readConstraints`, `result_readEquations`: the halves of a problem;
- `Problem.readEquations_period`, `Problem.readEquations_suchThat`, `Problem.readEquations_both`:
  what stands behind the word `Solve`;
- `Problem.read_solve`: whole problems.
-/

namespace Diophantine

/-! ### What ends a sentence -/

/-- A period ends a sentence wherever it stands. -/
theorem terminator?_period {active : List Terminator} (hactive : .ending .period ∈ active)
    (here : Position) (inWord : Bool) (rest : List Char) :
    ∃ remainder : Slice, remainder.chars = rest ∧
      terminator? active inWord { start := here, chars := '.' :: rest }
        = some (.ending .period, remainder) :=
  ⟨{ start := here.advance '.', chars := rest }, rfl, if_pos hactive⟩

/-- The words `such that` end a sentence outside of longer words, and take a blank behind them
along. -/
theorem terminator?_suchThat {active : List Terminator} (hactive : .ending .suchThat ∈ active)
    (here : Position) {rest : List Char} (hends : ∀ c ∈ rest.head?, c.isAlphanum = false) :
    terminator? active false { start := here, chars := "such that".toList ++ rest }
      = some (.ending .suchThat,
          skipSeparator { start := here.past "such that".toList, chars := rest }) := by
  show (if .ending .suchThat ∈ active ∧ false = false then
    (Slice.afterKeyword? { start := here, chars := "such that".toList ++ rest }
      "such that").map _ else _) = _
  rw [if_pos ⟨hactive, rfl⟩, afterKeyword?_append hends]
  rfl

/-! ### One sentence -/

theorem result_readConstraints_empty {slice : Slice} (h : slice.chars = []) :
    (readConstraints slice).result = .ok .empty := by
  obtain ⟨start, chars⟩ := slice
  subst h
  have hempty : (Slice.skipSpacing { start := start, chars := [] }).chars = [] := rfl
  rw [readConstraints, dif_pos hempty]

theorem result_readEquations_empty {slice : Slice} (h : slice.chars = []) :
    (readEquations slice).result = .ok .empty := by
  obtain ⟨start, chars⟩ := slice
  subst h
  have hempty : (Slice.skipSpacing { start := start, chars := [] }).chars = [] := rfl
  rw [readEquations, dif_pos hempty]

theorem result_readConstraints_sentence {slice : Slice} {sentence : Sentence}
    (hne : slice.skipSpacing.chars ≠ [])
    (h : Sentence.read constraintTerminators slice.skipSpacing = .ok sentence) :
    (readConstraints slice).result
      = (readClauses Constraint.readClause sentence.clauses).bind fun constraints =>
          (readConstraints sentence.remainder).result.map
            (Problem.withConstraints constraints) := by
  rw [readConstraints, dif_neg hne]
  split
  · rename_i hfailed
    rw [h] at hfailed
    cases hfailed
  · rename_i found hfound
    rw [h] at hfound
    cases hfound
    cases readClauses Constraint.readClause sentence.clauses <;> rfl

theorem result_readEquations_sentence {slice : Slice} {sentence : Sentence}
    (hne : slice.skipSpacing.chars ≠ [])
    (hwords : slice.skipSpacing.afterKeyword? "such that" = none)
    (h : Sentence.read equationTerminators slice.skipSpacing = .ok sentence) :
    (readEquations slice).result
      = (readClauses Equation.readClause sentence.clauses).bind fun equations =>
          (if sentence.stop = some .suchThat then (readConstraints sentence.remainder).result
            else (readEquations sentence.remainder).result).map
              (Problem.withEquations equations) := by
  rw [readEquations, dif_neg hne, hwords]
  dsimp only
  split
  · rename_i hfailed
    rw [h] at hfailed
    cases hfailed
  · rename_i found hfound
    rw [h] at hfound
    cases hfound
    cases readClauses Equation.readClause sentence.clauses with
    | error failure => rfl
    | ok equations =>
      -- Either reader of the remainder is asked for its result only.
      show Except.map _ (Logged.result (if _ then _ else _)) = Except.map _ (if _ then _ else _)
      split
      · rfl
      · rfl

theorem result_readEquations_suchThat {slice rest : Slice} (hne : slice.skipSpacing.chars ≠ [])
    (hwords : slice.skipSpacing.afterKeyword? "such that" = some rest) :
    (readEquations slice).result = (readConstraints rest).result := by
  rw [readEquations, dif_neg hne, hwords]
  rfl

/-- Where constraints are read, there is a sentence of them. -/
theorem exists_of_readConstraints {slice : Slice} {problem : Problem}
    (hne : slice.skipSpacing.chars ≠ []) (h : (readConstraints slice).result = .ok problem) :
    ∃ sentence constraints, Sentence.read constraintTerminators slice.skipSpacing = .ok sentence
      ∧ readClauses Constraint.readClause sentence.clauses = .ok constraints := by
  rw [readConstraints, dif_neg hne] at h
  split at h
  · cases h
  · rename_i sentence hsentence
    split at h
    · cases h
    · rename_i constraints hclauses
      exact ⟨sentence, constraints, hsentence, hclauses⟩

/-- Where equations are read, there is a sentence of them, unless constraints begin. -/
theorem exists_of_readEquations {slice : Slice} {problem : Problem}
    (hne : slice.skipSpacing.chars ≠ [])
    (hwords : slice.skipSpacing.afterKeyword? "such that" = none)
    (h : (readEquations slice).result = .ok problem) :
    ∃ sentence equations, Sentence.read equationTerminators slice.skipSpacing = .ok sentence
      ∧ readClauses Equation.readClause sentence.clauses = .ok equations := by
  rw [readEquations, dif_neg hne, hwords] at h
  dsimp only at h
  split at h
  · cases h
  · rename_i sentence hsentence
    split at h
    · cases h
    · rename_i equations hclauses
      exact ⟨sentence, equations, hsentence, hclauses⟩

/-! ### The halves of a problem -/

@[simp] theorem Problem.withEquations_of_nil (equations : List Equation)
    (constraints : List Constraint) :
    (Problem.mk [] constraints).withEquations equations = Problem.mk equations constraints := by
  show Problem.mk (equations ++ []) constraints = _
  rw [List.append_nil]

@[simp] theorem Problem.withConstraints_empty (constraints : List Constraint) :
    Problem.empty.withConstraints constraints = Problem.mk [] constraints := by
  show Problem.mk [] (constraints ++ []) = _
  rw [List.append_nil]

/-- What texts are put together to begins with the first of them, and with a comma behind it if
there are more. -/
theorem exists_intercalate_cons (text : List Char) (texts : List (List Char)) (rest : List Char) :
    ∃ tail, [',', ' '].intercalate (text :: texts) ++ rest = text ++ tail
      ∧ (tail = rest ∨ tail.head? = some ',') := by
  by_cases hmore : texts = []
  · subst hmore
    exact ⟨rest, by rw [List.intercalate_singleton], .inl rfl⟩
  · refine ⟨[',', ' '] ++ ([',', ' '].intercalate texts ++ rest), ?_, .inr rfl⟩
    rw [List.intercalate_cons_of_ne_nil hmore]
    simp only [List.append_assoc]

/-- Spacing in front of the first text is spacing in front of all of them. -/
theorem intercalate_cons_append (space core : List Char) (texts : List (List Char)) :
    [',', ' '].intercalate ((space ++ core) :: texts)
      = space ++ [',', ' '].intercalate (core :: texts) := by
  by_cases hmore : texts = []
  · subst hmore
    rw [List.intercalate_singleton, List.intercalate_singleton]
  · rw [List.intercalate_cons_of_ne_nil hmore, List.intercalate_cons_of_ne_nil hmore]
    simp only [List.append_assoc]

/-- Spacing in front of texts can be taken off the first of them, and it does not nest. -/
theorem exists_strip_head {α : Type} {Derives : List Char → α → Prop}
    {texts : List (List Char)} {items : List α} (hne : texts ≠ [])
    (h : List.Forall₂ Derives texts items)
    (hstrip : ∀ text item, Derives text item →
      ∃ space core, text = space ++ core ∧ Spaced space ∧ Opens core ∧ Derives core item) :
    ∃ space core more, [',', ' '].intercalate texts = space ++ [',', ' '].intercalate (core :: more)
      ∧ Spaced space ∧ Opens core ∧ List.Forall₂ Derives (core :: more) items
      ∧ ((∀ text ∈ core :: more, nesting text ≤ maxNesting)
        ↔ ∀ text ∈ texts, nesting text ≤ maxNesting) := by
  cases h with
  | nil => exact absurd rfl hne
  | @cons text item texts items hfirst hmore =>
    obtain ⟨space, core, rfl, hspace, hopens, hcore⟩ := hstrip text item hfirst
    obtain ⟨hbal, hnest⟩ := Balanced.of_neutral hspace.neutral
    refine ⟨space, core, texts, intercalate_cons_append .., hspace, hopens, .cons hcore hmore, ?_⟩
    rw [List.forall_mem_cons, List.forall_mem_cons, hbal.nesting_append, hnest, Nat.zero_max]

/-- What is skipped in front of texts is the spacing there. -/
theorem skipSpacing_intercalate {slice : Slice} {space core rest : List Char}
    {more : List (List Char)} (hspace : Spaced space) (hopens : Opens core)
    (hchars : slice.chars = space ++ ([',', ' '].intercalate (core :: more) ++ rest)) :
    slice.skipSpacing.chars ≠ [] ∧ slice.skipSpacing
      = { start := slice.start.past space
          chars := [] ++ ([',', ' '].intercalate (core :: more) ++ rest) } := by
  obtain ⟨start, chars⟩ := slice
  obtain rfl := hchars
  obtain ⟨tail, htail, -⟩ := exists_intercalate_cons core more rest
  have hbegins : Opens ([',', ' '].intercalate (core :: more) ++ rest) := by
    rw [htail]
    exact hopens.append tail
  have hskip : Slice.skipSpacing
      { start := start, chars := space ++ ([',', ' '].intercalate (core :: more) ++ rest) } = _ :=
    Slice.skipSpacing_append hspace hbegins.not_spacing
  refine ⟨?_, hskip⟩
  rw [hskip]
  exact hbegins.ne_nil

/-- The words `such that` do not stand at the beginning of texts that hold no two letters side by
side. -/
theorem afterKeyword?_intercalate {core rest : List Char} {more : List (List Char)}
    (hquiet : Quiet equationTerminators core) (hopens : Opens core)
    (hrest : rest.head? ≠ some 'u') (here : Position) :
    Slice.afterKeyword? { start := here, chars := [',', ' '].intercalate (core :: more) ++ rest }
      "such that" = none := by
  obtain ⟨tail, htail, hcases⟩ := exists_intercalate_cons core more rest
  rw [htail]
  refine (hquiet.words (by decide)).afterKeyword?_eq_none hopens.ne_nil ?_ _
  -- What follows does not go on with the second letter of the words.
  rcases hcases with rfl | hcomma
  · exact hrest
  · rw [hcomma]
    decide

section Constraints

variable {texts : List (List Char)} {constraints : List Constraint} (hne : texts ≠ [])
  (hderives : List.Forall₂ (Constraint.Derives .clause) texts constraints)

include hne hderives

/-- A sentence of constraints gives them back. -/
theorem result_readConstraints {slice : Slice} {space : List Char} (hspace : Spaced space)
    (hchars : slice.chars = space ++ ([',', ' '].intercalate texts ++ ['.'])) :
    Yields (readConstraints slice).result { equations := [], constraints := constraints }
      (∀ text ∈ texts, nesting text ≤ maxNesting) := by
  obtain ⟨front, core, more, hjoin, hfront, hopens, hcores, hnest⟩ :=
    exists_strip_head hne hderives fun _ _ h => h.strip
  rw [hjoin, List.append_assoc, ← List.append_assoc] at hchars
  obtain ⟨hsolid, hskip⟩ := skipSpacing_intercalate (hspace.append hfront) hopens hchars
  have hclauses := hcores.imp fun _ _ h => h.clauseOf
  obtain ⟨sentence, hread, hframed, hremainder, -⟩ := Sentence.read_intercalate
    (List.cons_ne_nil core more) (forall_clauseText hclauses) (by decide) Spaced.nil Spaced.nil
    (by decide) (fun here inWord _ => terminator?_period (by decide) here inWord [])
    (slice.start.past (space ++ front))
  rw [result_readConstraints_sentence hsolid
    ((congrArg (Sentence.read constraintTerminators) hskip).trans hread),
    result_readConstraints_empty hremainder]
  have hempty := (Yields.ok Problem.empty).map (ε := Failure) (Problem.withConstraints constraints)
  rw [Problem.withConstraints_empty] at hempty
  exact ((readClauses_framed hclauses hframed).bind hempty).congr
    ((and_iff_left trivial).trans hnest)

end Constraints

section Equations

variable {texts : List (List Char)} {equations : List Equation} (hne : texts ≠ [])
  (hderives : List.Forall₂ Equation.Derives texts equations)

include hne hderives

/-- A sentence of equations gives them back, in front of whatever is read from what follows. -/
theorem result_readEquations {space behind stop rest : List Char} {ending : Ending}
    (hspace : Spaced space) (hbehind : Spaced behind)
    (hhead : stop.head? ≠ some 'u' ∧ stop.head? ≠ some '(' ∧ stop.head? ≠ some ')')
    (hstop : ∀ here inWord, (behind ≠ [] → inWord = false) →
      ∃ remainder : Slice, remainder.chars = rest ∧
        terminator? equationTerminators inWord { start := here, chars := stop }
          = some (.ending ending, remainder))
    (slice : Slice)
    (hchars : slice.chars = space ++ ([',', ' '].intercalate texts ++ (behind ++ stop))) :
    ∃ remainder : Slice, remainder.chars = rest ∧ ∀ problem condition,
      Yields (if ending = .suchThat then (readConstraints remainder).result
        else (readEquations remainder).result) problem condition →
      Yields (readEquations slice).result (problem.withEquations equations)
        ((∀ text ∈ texts, nesting text ≤ maxNesting) ∧ condition) := by
  obtain ⟨front, core, more, hjoin, hfront, hopens, hcores, hnest⟩ :=
    exists_strip_head hne hderives fun _ _ h => h.strip
  rw [hjoin, List.append_assoc, ← List.append_assoc] at hchars
  obtain ⟨hsolid, hskip⟩ := skipSpacing_intercalate (hspace.append hfront) hopens hchars
  have hclauses := hcores.imp fun _ _ h => h.clauseOf
  obtain ⟨sentence, hread, hframed, hremainder, hending⟩ := Sentence.read_intercalate
    (List.cons_ne_nil core more) (forall_clauseText hclauses) (by decide) Spaced.nil hbehind hhead
    hstop (slice.start.past (space ++ front))
  have hwords : slice.skipSpacing.afterKeyword? "such that" = none := by
    have hquiet := (forall_clauseText hclauses core (List.mem_cons_self ..)).quiet
    rw [hskip, List.nil_append]
    refine afterKeyword?_intercalate hquiet hopens ?_ _
    cases behind with
    | nil => exact hhead.1
    | cons c behind =>
      intro hc
      obtain rfl : c = 'u' := Option.some.inj hc
      exact absurd (hbehind 'u' (List.mem_cons_self ..)) (by decide)
  refine ⟨sentence.remainder, hremainder, fun problem condition hproblem => ?_⟩
  rw [result_readEquations_sentence hsolid hwords
    ((congrArg (Sentence.read equationTerminators) hskip).trans hread)]
  -- How the sentence ends decides who reads on.
  have hwhich : (sentence.stop = some .suchThat) = (ending = .suchThat) := by
    rw [hending, Option.some.injEq]
  simp only [hwhich]
  exact ((readClauses_framed hclauses hframed).bind
    (hproblem.map (Problem.withEquations equations))).congr (and_congr_left fun _ => hnest)

end Equations

/-! ### Whole problems -/

namespace Problem

/-- Behind the word `Solve`, equations are read. -/
theorem read_solve_eq_ok_iff {text : List Char} {problem : Problem} :
    (read (Slice.ofChars ("Solve".toList ++ ' ' :: text))).result = .ok problem
      ↔ (readEquations { start := Position.origin.past "Solve".toList
                         chars := ' ' :: text }).result = .ok problem := by
  have hkeyword : (Slice.ofChars ("Solve".toList ++ ' ' :: text)).skipSpacing.afterKeyword? "Solve"
      = some { start := Position.origin.past "Solve".toList, chars := ' ' :: text } := by
    have hskip : Slice.skipSpacing
        { start := Position.origin, chars := [] ++ ("Solve".toList ++ ' ' :: text) } = _ :=
      Slice.skipSpacing_append Spaced.nil (by simp; decide)
    refine (congrArg (Slice.afterKeyword? · "Solve") hskip).trans ?_
    refine afterKeyword?_append fun c hc => ?_
    obtain rfl : ' ' = c := Option.some.inj hc
    rfl
  unfold read
  rw [hkeyword]
  dsimp only
  cases (readEquations { start := Position.origin.past "Solve".toList,
                         chars := ' ' :: text }).result with
  | error failure => exact ⟨nofun, nofun⟩
  | ok found => exact Iff.rfl

theorem read_solve {text : List Char} {problem : Problem} {condition : Prop}
    (h : Yields (readEquations { start := Position.origin.past "Solve".toList,
                                 chars := ' ' :: text }).result problem condition) :
    Yields (read (Slice.ofChars ("Solve".toList ++ ' ' :: text))).result problem condition :=
  fun other => read_solve_eq_ok_iff.trans (h other)

section Halves

variable {texts : List (List Char)} {equations : List Equation} {words : List (List Char)}
  {constraints : List Constraint} (hequations : List.Forall₂ Equation.Derives texts equations)
  (hconstraints : List.Forall₂ (Constraint.Derives .clause) words constraints)
  {space : List Char} (hspace : Spaced space)

include hequations hspace in
/-- Equations without constraints are one sentence. -/
theorem readEquations_period (hne : texts ≠ []) (here : Position) :
    Yields (readEquations { start := here
                            chars := space ++ ([',', ' '].intercalate texts ++ ['.']) }).result
      (Problem.mk equations []) (∀ text ∈ texts, nesting text ≤ maxNesting) := by
  obtain ⟨remainder, hremainder, hread⟩ := result_readEquations hne hequations hspace Spaced.nil
    (by decide) (fun here inWord _ => terminator?_period (by decide) here inWord [])
    { start := here, chars := space ++ ([',', ' '].intercalate texts ++ ['.']) } rfl
  have hrest : (readEquations remainder).result = .ok .empty :=
    result_readEquations_empty hremainder
  have hwhole := hread Problem.empty True (by rw [if_neg (by decide), hrest]; exact Yields.ok _)
  rw [Problem.empty, withEquations_of_nil] at hwhole
  exact hwhole.congr (and_iff_left trivial)

include hconstraints hspace in
/-- The words `such that` alone introduce constraints. -/
theorem readEquations_suchThat (hne : words ≠ []) (here : Position) :
    Yields (readEquations
        { start := here
          chars := space ++ ("such that".toList
            ++ ' ' :: ([',', ' '].intercalate words ++ ['.'])) }).result
      (Problem.mk [] constraints) (∀ text ∈ words, nesting text ≤ maxNesting) := by
  have hkeyword : ∀ start : Position, Slice.afterKeyword?
      { start := start
        chars := "such that".toList ++ ' ' :: ([',', ' '].intercalate words ++ ['.']) } "such that"
      = some { start := start.past "such that".toList
               chars := ' ' :: ([',', ' '].intercalate words ++ ['.']) } := by
    intro start
    refine afterKeyword?_append fun c hc => ?_
    obtain rfl : ' ' = c := Option.some.inj hc
    rfl
  have hskip : Slice.skipSpacing
      { start := here
        chars := space ++ ("such that".toList
          ++ ' ' :: ([',', ' '].intercalate words ++ ['.'])) } = _ :=
    Slice.skipSpacing_append hspace (by simp; decide)
  rw [result_readEquations_suchThat (by rw [hskip]; simp) (by rw [hskip]; exact hkeyword _)]
  exact result_readConstraints hne hconstraints Spaced.single rfl

include hequations hconstraints hspace in
/-- Equations and constraints are two halves of a sentence. The space in front of the words belongs
to the last equation. -/
theorem readEquations_both (hne : texts ≠ []) (hne' : words ≠ []) (here : Position) :
    Yields (readEquations
        { start := here
          chars := space ++ ([',', ' '].intercalate texts ++ ([' '] ++ ("such that".toList
            ++ ' ' :: ([',', ' '].intercalate words ++ ['.'])))) }).result
      (Problem.mk equations constraints) ((∀ text ∈ texts, nesting text ≤ maxNesting)
        ∧ ∀ text ∈ words, nesting text ≤ maxNesting) := by
  have hstop : ∀ here inWord, ([' '] ≠ [] → inWord = false) →
      ∃ remainder : Slice, remainder.chars = [',', ' '].intercalate words ++ ['.'] ∧
        terminator? equationTerminators inWord
            { start := here
              chars := "such that".toList ++ ' ' :: ([',', ' '].intercalate words ++ ['.']) }
          = some (.ending .suchThat, remainder) := by
    intro here inWord hword
    rw [hword (List.cons_ne_nil _ _)]
    exact ⟨_, rfl, terminator?_suchThat (by decide) here (by simp)⟩
  have hhead : ∀ rest : List Char, ("such that".toList ++ rest).head? = some 's' := fun _ => rfl
  obtain ⟨remainder, hremainder, hread⟩ := result_readEquations hne hequations hspace
    Spaced.single (by simp only [hhead]; decide) hstop (Slice.mk here _) rfl
  -- The space behind the words was taken together with them.
  have hrest := result_readConstraints hne' hconstraints Spaced.nil
    (show remainder.chars = [] ++ _ from hremainder)
  have hwhole := hread _ _ (by rw [if_pos rfl]; exact hrest)
  rwa [withEquations_of_nil] at hwhole

end Halves

/-- A period alone asks for nothing. -/
theorem readEquations_nothing (here : Position) :
    (readEquations { start := here, chars := [' ', '.'] }).result = .ok .empty := by
  have hskip : Slice.skipSpacing { start := here, chars := [' ', '.'] }
      = { start := here.past [' '], chars := ['.'] } := rfl
  have hread : Sentence.read equationTerminators { start := here.past [' '], chars := ['.'] }
      = .ok { clauses := [], remainder := { start := here.past [' ', '.'], chars := [] }
              stop := some .period } := by
    rw [Sentence.read]
    rfl
  rw [result_readEquations_sentence (by rw [hskip]; simp) (by rw [hskip]; rfl)
    (by rw [hskip]; exact hread)]
  show Except.map _ (readEquations _).result = _
  rw [result_readEquations_empty rfl]
  rfl

end Problem

end Diophantine
