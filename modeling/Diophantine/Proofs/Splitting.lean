import Diophantine.Proofs.Sentence

/-!
# Splitting loses nothing

Splitting cuts a text at the terminators that it finds and leaves the parts as they stand: put
together again, with the terminators between them and what follows behind, they are the text. No
part can be split any further.

- `Terminator.Takes`: what a terminator takes away;
- `StepsOver.openAfter_eq`, `StepsOver.not_begins`: what it means to step over a
  character;
- `exists_of_nextPiece`: what a piece and what follows it have to do with the text;
- `Unbroken.alone`: where no terminator begins, none begins once the text ends there;
- `Sentence.exists_of_read`, `Sentence.read_of_whole`: the clauses of a sentence, and of a clause of
  its own;
- `Sentence.infix_of_read`: clauses are parts of the text;
- `splitClauses_reassembles`: both for texts.
-/

namespace Diophantine

/-! ### Terminators -/

/-- What a terminator takes away from a text. -/
def Terminator.Takes (taken : List Char) : Terminator → Prop
  | .comma => taken = [',']
  | .ending .period => taken = ['.']
  | .ending .suchThat => ∃ gap, gap.length ≤ 1 ∧ (∀ c ∈ gap, isBlank c = true)
      ∧ taken = "such that".toList ++ gap

/-- At most one blank is skipped. -/
theorem exists_of_skipSeparator (slice : Slice) :
    ∃ gap, gap.length ≤ 1 ∧ (∀ c ∈ gap, isBlank c = true)
      ∧ slice.chars = gap ++ (skipSeparator slice).chars := by
  have hnone : ∃ gap : List Char, gap.length ≤ 1 ∧ (∀ c ∈ gap, isBlank c = true)
      ∧ slice.chars = gap ++ slice.chars :=
    ⟨[], Nat.zero_le 1, nofun, rfl⟩
  unfold skipSeparator
  split
  · rename_i c rest hnext
    split
    · rename_i hblank
      refine ⟨[c], Nat.le_refl 1, ?_, (Slice.next?_eq_some_iff.mp hnext).1⟩
      exact List.forall_mem_singleton.mpr hblank
    · exact hnone
  · exact hnone

/-- A terminator that is found is active, and it is followed by what is left. -/
theorem exists_of_terminator? {active : List Terminator} {inWord : Bool} {slice rest : Slice}
    {terminator : Terminator} (h : terminator? active inWord slice = some (terminator, rest)) :
    terminator ∈ active ∧ terminator.Begins inWord slice.chars
      ∧ ∃ taken, terminator.Takes taken ∧ slice.chars = taken ++ rest.chars := by
  unfold terminator? at h
  split at h
  · rename_i hnext
    split at h
    · rename_i hactive
      cases h
      have hchars := (Slice.next?_eq_some_iff.mp hnext).1
      exact ⟨hactive, congrArg List.head? hchars, _, rfl, hchars⟩
    · cases h
  · rename_i hnext
    split at h
    · rename_i hactive
      cases h
      have hchars := (Slice.next?_eq_some_iff.mp hnext).1
      exact ⟨hactive, congrArg List.head? hchars, _, rfl, hchars⟩
    · cases h
  · split at h
    · rename_i hactive
      obtain ⟨after, hafter, heq⟩ := Option.map_eq_some_iff.mp h
      cases heq
      obtain ⟨hchars, -, hhead⟩ := Slice.afterKeyword?_eq_some_iff.mp hafter
      obtain ⟨gap, hlen, hblank, hgap⟩ := exists_of_skipSeparator after
      refine ⟨hactive.1, ⟨hactive.2, after.chars, hchars, hhead⟩, _, ⟨gap, hlen, hblank, rfl⟩, ?_⟩
      rw [hchars, hgap, List.append_assoc]
    · cases h
  · cases h

/-! ### Pieces -/

/-- What follows a piece: nothing at the end of the text, or else a terminator and what is left. -/
def Piece.Stops (active : List Terminator) (inWord : Bool) (here : Position) (tail : List Char)
    (piece : Piece) : Prop :=
  match piece.terminator with
  | none => tail = [] ∧ piece.rest.chars = []
  | some terminator =>
    terminator? active inWord { start := here, chars := tail } = some (terminator, piece.rest)

namespace StepsOver

variable {active : List Terminator} {inWord : Bool} {here : Position} {c : Char}
  {chars : List Char} {opened next : List Slice}

/-- Stepping over a character opens or closes as many parentheses as the character does. -/
theorem openAfter_eq (h : StepsOver active inWord here chars c opened next) :
    openAfter opened.length [c] = some next.length := by
  cases h with
  | opening => rfl
  | closing => rfl
  | other hopen hclose _ => exact openAfter_singleton hopen hclose

/-- No terminator begins with a character that is stepped over outside parentheses. -/
theorem not_begins (h : StepsOver active inWord here chars c opened next)
    (hlen : opened.length = 0) :
    ∀ terminator ∈ active, ¬terminator.Begins inWord (c :: chars) := by
  cases h with
  | opening =>
    intro terminator _ hbegins
    rcases hbegins.head?_eq with heq | heq | heq <;> cases heq
  | closing => cases hlen
  | other _ _ hnone => exact terminator?_eq_none_iff.mp (hnone (List.eq_nil_of_length_eq_zero hlen))

end StepsOver

/-- A piece closes what is open, no terminator begins in it, and it goes as far as that. -/
theorem exists_of_nextPiece {active : List Terminator} {opened : List Slice} {inWord : Bool}
    {here : Position} {chars : List Char} {piece : Piece}
    (h : nextPiece active opened inWord here chars = .ok piece) :
    ∃ tail, chars = piece.chars ++ tail ∧ openAfter opened.length piece.chars = some 0
      ∧ Unbroken active opened.length inWord piece.chars tail
      ∧ piece.Stops active (wordAfter inWord piece.chars) (here.past piece.chars) tail := by
  induction chars generalizing opened inWord here piece with
  | nil =>
    unfold nextPiece at h
    split at h
    · cases h
      exact ⟨[], rfl, rfl, .nil, rfl, rfl⟩
    · cases h
  | cons c chars ih =>
    rcases nextPiece_cons active opened inWord here c chars with
      ⟨-, -, heq⟩ | ⟨terminator, rest, rfl, hfound, heq⟩ | ⟨next, hsteps, heq⟩
    · rw [heq] at h
      cases h
    · rw [heq] at h
      cases h
      exact ⟨c :: chars, rfl, rfl, .nil, hfound⟩
    · obtain ⟨inner, hinner, rfl⟩ := map_eq_ok_iff.mp (heq.symm.trans h)
      obtain ⟨tail, rfl, hopen, hunbroken, hstops⟩ := ih hinner
      refine ⟨tail, rfl, ?_, .cons hsteps.openAfter_eq hsteps.not_begins hunbroken, hstops⟩
      show openAfter opened.length ([c] ++ inner.chars) = some 0
      rw [openAfter_append, hsteps.openAfter_eq]
      exact hopen

/-- A piece and what follows it are parts of the text. -/
theorem infix_of_nextPiece {active : List Terminator} {slice : Slice} {piece : Piece}
    (h : nextPiece active [] false slice.start slice.chars = .ok piece) :
    piece.chars <:+: slice.chars ∧ piece.rest.chars <:+: slice.chars := by
  obtain ⟨tail, hchars, -, -, hstops⟩ := exists_of_nextPiece h
  rw [hchars]
  refine ⟨(List.prefix_append _ _).isInfix, ?_⟩
  have htail : piece.rest.chars <:+ tail := by
    unfold Piece.Stops at hstops
    split at hstops
    · rw [hstops.2]
      exact List.nil_suffix
    · obtain ⟨-, -, taken, -, hrest⟩ := exists_of_terminator? hstops
      exact ⟨taken, hrest.symm⟩
  exact (htail.trans (List.suffix_append _ _)).isInfix

/-- What ends a piece does not go on with a word that the piece ends with. So a piece of its own has
no terminator either. -/
theorem Unbroken.alone {active : List Terminator} {depth : Nat} {inWord : Bool}
    {text tail : List Char} (h : Unbroken active depth inWord text tail)
    (htail : tail = [] ∨
      ∃ terminator : Terminator, terminator.Begins (wordAfter inWord text) tail) :
    Unbroken active depth inWord text [] := by
  rintro front back rfl hne hfront terminator hactive hbegins
  obtain ⟨c, back, rfl⟩ := List.exists_cons_of_ne_nil hne
  refine h front (c :: back) rfl hne hfront terminator hactive ?_
  rcases terminator with _ | _ | _
  · exact hbegins
  · exact hbegins
  · obtain ⟨hword, rest, heq, hhead⟩ := hbegins
    rw [List.append_nil] at heq
    refine ⟨hword, rest ++ tail, by rw [heq, List.append_assoc], fun d hd => ?_⟩
    cases rest with
    | cons e rest => exact hhead d hd
    | nil =>
      rcases htail with rfl | ⟨terminator, hbegins⟩
      · cases hd
      · rcases terminator with _ | _ | _
        · obtain rfl : ',' = d := Option.some.inj (hbegins.symm.trans hd)
          rfl
        · obtain rfl : '.' = d := Option.some.inj (hbegins.symm.trans hd)
          rfl
        · -- The words cannot begin again right behind their last letter.
          rw [heq, wordAfter_append] at hbegins
          cases hbegins.1

theorem Piece.Stops.begins {active : List Terminator} {inWord : Bool} {here : Position}
    {tail : List Char} {piece : Piece} (h : piece.Stops active inWord here tail) :
    tail = [] ∨ ∃ terminator : Terminator, terminator.Begins inWord tail := by
  unfold Stops at h
  split at h
  · exact .inl h.1
  · rename_i terminator _
    exact .inr ⟨terminator, (exists_of_terminator? h).2.1⟩

/-! ### Sentences -/

/-- Text that pairs up its parentheses and has no terminator outside them. -/
structure Whole (active : List Terminator) (text : List Char) : Prop where
  balanced : Balanced text
  unbroken : Unbroken active 0 false text []

theorem Terminator.Begins.ne_nil {inWord : Bool} {text : List Char} {terminator : Terminator}
    (h : terminator.Begins inWord text) : text ≠ [] := by
  rintro rfl
  rcases h.head?_eq with h | h | h <;> cases h

/-- Outside parentheses, no terminator begins anywhere in a whole text. -/
theorem Whole.not_begins {active : List Terminator} {before behind : List Char}
    (h : Whole active (before ++ behind)) (hopen : openAfter 0 before = some 0)
    {terminator : Terminator} (hactive : terminator ∈ active) :
    ¬terminator.Begins (wordAfter false before) behind := by
  intro hbegins
  refine h.unbroken before behind rfl hbegins.ne_nil hopen terminator hactive ?_
  rwa [List.append_nil]

/-- A piece is whole. -/
theorem whole_of_nextPiece {active : List Terminator} {here : Position} {chars : List Char}
    {piece : Piece} (h : nextPiece active [] false here chars = .ok piece) :
    Whole active piece.chars := by
  obtain ⟨tail, -, hopen, hunbroken, hstops⟩ := exists_of_nextPiece h
  exact ⟨hopen, hunbroken.alone hstops.begins⟩

/-- A whole text is a piece of its own. -/
theorem nextPiece_of_whole {active : List Terminator} {text : List Char} (h : Whole active text)
    (here : Position) :
    nextPiece active [] false here text
      = .ok { chars := text, terminator := none,
              rest := { start := here.past text, chars := [] } } := by
  have hopened : openAfter ([] : List Slice).length text = some 0 := h.balanced
  obtain ⟨stack, hlen, heq⟩ := nextPiece_append false here hopened h.unbroken
  obtain rfl : stack = [] := List.length_eq_zero_iff.mp hlen
  rw [List.append_nil] at heq
  rw [heq]
  show Except.ok (Piece.mk (text ++ []) none _) = _
  rw [List.append_nil]

/-- What closes a sentence: the end of the text, or else a terminator and the remainder. -/
def Closes (closing remainder : List Char) : Option Ending → Prop
  | none => closing = [] ∧ remainder = []
  | some ending =>
    ∃ taken, (Terminator.ending ending).Takes taken ∧ closing = taken ++ remainder

namespace Sentence

/-- The clauses of a sentence and one more part that is left out if it is blank are whole. Put
together with commas, they are the text before the end of the sentence. -/
theorem exists_of_read {active : List Terminator} {slice : Slice} {sentence : Sentence}
    (h : read active slice = .ok sentence) :
    ∃ front last closing,
      sentence.clauses.map Slice.chars = front ++ (if last.all isBlank then [] else [last])
      ∧ slice.chars = [','].intercalate (front ++ [last]) ++ closing
      ∧ Closes closing sentence.remainder.chars sentence.stop
      ∧ (front ≠ [] → .comma ∈ active) ∧ (∀ ending ∈ sentence.stop, .ending ending ∈ active)
      ∧ ∀ text ∈ front ++ [last], Whole active text := by
  fun_induction read active slice generalizing sentence with
  | case1 => cases h
  | case2 => cases h
  | case3 slice piece hpiece hterminator sentence hread ih =>
    cases h
    obtain ⟨front, last, closing, hclauses, htext, hcloses, -, hending, hwhole⟩ := ih hread
    obtain ⟨tail, hchars, -, -, hstops⟩ := exists_of_nextPiece hpiece
    rw [Piece.Stops, hterminator] at hstops
    obtain ⟨hactive, -, taken, htaken, htail⟩ := exists_of_terminator? hstops
    refine ⟨piece.chars :: front, last, closing, congrArg (piece.chars :: ·) hclauses, ?_, hcloses,
      fun _ => hactive, hending, ?_⟩
    · have hmore : front ++ [last] ≠ [] :=
        List.append_ne_nil_of_right_ne_nil _ (List.cons_ne_nil _ _)
      obtain rfl : taken = [','] := htaken
      have hjoin : [','].intercalate (piece.chars :: front ++ [last])
          = piece.chars ++ [','] ++ [','].intercalate (front ++ [last]) :=
        List.intercalate_cons_of_ne_nil hmore
      dsimp only at htail
      rw [hchars, htail, htext, hjoin]
      simp only [List.append_assoc]
    · exact List.forall_mem_cons.mpr ⟨whole_of_nextPiece hpiece, hwhole⟩
  | case4 slice piece hpiece ending hterminator =>
    cases h
    obtain ⟨tail, hchars, -, -, hstops⟩ := exists_of_nextPiece hpiece
    rw [Piece.Stops, hterminator] at hstops
    obtain ⟨hactive, -, taken, htaken, htail⟩ := exists_of_terminator? hstops
    refine ⟨[], piece.chars, tail, ?_, ?_, ⟨taken, htaken, htail⟩,
      fun hne => absurd rfl hne, ?_, ?_⟩
    · unfold last Slice.allBlank
      split <;> rfl
    · rw [hchars, List.nil_append, List.intercalate_singleton]
    · intro other hother
      obtain rfl : ending = other := Option.some.inj hother
      exact hactive
    · exact List.forall_mem_singleton.mpr (whole_of_nextPiece hpiece)
  | case5 slice piece hpiece hterminator =>
    cases h
    obtain ⟨tail, hchars, -, -, hstops⟩ := exists_of_nextPiece hpiece
    rw [Piece.Stops, hterminator] at hstops
    refine ⟨[], piece.chars, tail, ?_, ?_, hstops, fun hne => absurd rfl hne,
      fun _ hnone => absurd hnone (Option.not_mem_none _), ?_⟩
    · unfold last Slice.allBlank
      split <;> rfl
    · rw [hchars, List.nil_append, List.intercalate_singleton]
    · exact List.forall_mem_singleton.mpr (whole_of_nextPiece hpiece)

/-- The clauses of a sentence and what follows it are parts of the text. -/
theorem infix_of_read {slice : Slice} {sentence : Sentence} (h : read active slice = .ok sentence) :
    (∀ clause ∈ sentence.clauses, clause.chars <:+: slice.chars)
      ∧ sentence.remainder.chars <:+: slice.chars := by
  have hlast : ∀ {slice : Slice} {piece : Piece} {ending : Option Ending},
      nextPiece active [] false slice.start slice.chars = .ok piece →
      (∀ clause ∈ (last { slice with chars := piece.chars } piece.rest ending).clauses,
        clause.chars <:+: slice.chars) ∧ piece.rest.chars <:+: slice.chars := by
    intro slice piece ending hpiece
    obtain ⟨hchars, hrest⟩ := infix_of_nextPiece hpiece
    refine ⟨fun clause hmem => ?_, hrest⟩
    simp only [last] at hmem
    split at hmem
    · cases hmem
    · rw [List.mem_singleton.mp hmem]
      exact hchars
  fun_induction read active slice generalizing sentence with
  | case1 => cases h
  | case2 => cases h
  | case3 slice piece hpiece _ sentence hread ih =>
    cases h
    obtain ⟨hchars, hrest⟩ := infix_of_nextPiece hpiece
    obtain ⟨hclauses, hremainder⟩ := ih hread
    exact ⟨List.forall_mem_cons.mpr ⟨hchars, fun clause hmem => (hclauses clause hmem).trans hrest⟩,
      hremainder.trans hrest⟩
  | case4 slice piece hpiece =>
    cases h
    exact hlast hpiece
  | case5 slice piece hpiece =>
    cases h
    exact hlast hpiece

/-- A whole text is the only clause of its sentence, unless it is blank. -/
theorem read_of_whole {active : List Terminator} {text : List Char} (h : Whole active text)
    (here : Position) :
    read active { start := here, chars := text }
      = .ok (last { start := here, chars := text } { start := here.past text, chars := [] }
          none) := by
  rw [read, nextPiece_of_whole h]

end Sentence

/-! ### Texts -/

/-- A whole text splits into itself, unless it is blank. -/
theorem splitClauses_of_whole {active : List Terminator} {clause : String}
    (h : Whole active clause.toList) :
    splitClauses clause active
      = .ok { clauses := if clause.toList.all isBlank then [] else [clause]
              remainder := ""
              stop := none } := by
  have hread : Sentence.read active (Slice.ofString clause) = _ :=
    Sentence.read_of_whole h Position.origin
  have htext : (Slice.ofString clause).text = clause := String.ofList_toList
  rw [splitClauses, hread]
  show Except.ok (ClauseSplit.mk (List.map Slice.text
    (if clause.toList.all isBlank then [] else [Slice.ofString clause])) "" none) = _
  split
  · rfl
  · rw [List.map_singleton, htext]

/-- Whatever is split can be put together again, and no clause can be split any further. The clauses
with commas between them, and with one more part if it was left out for being blank, are followed by
nothing at the end of the text, and else by the terminator that ended the sentence and the
remainder. Every part pairs up its parentheses, has no active terminator outside them, and splits
into itself. -/
theorem splitClauses_reassembles {text : String} {active : List Terminator} {split : ClauseSplit}
    (h : splitClauses text active = .ok split) :
    ∃ (front : List String) (last closing : String),
      split.clauses = front ++ (if last.toList.all isBlank then [] else [last])
      ∧ text = ",".intercalate (front ++ [last]) ++ closing
      ∧ (match split.stop with
        | none => closing = "" ∧ split.remainder = ""
        | some .period => closing = "." ++ split.remainder
        | some .suchThat => ∃ gap : String, gap.length ≤ 1 ∧ gap.toList.all isBlank = true
            ∧ closing = "such that" ++ gap ++ split.remainder)
      ∧ (front ≠ [] → .comma ∈ active) ∧ (∀ ending ∈ split.stop, .ending ending ∈ active)
      ∧ ∀ clause ∈ front ++ [last],
          openAfter 0 clause.toList = some 0
          ∧ (∀ before behind, clause.toList = before ++ behind → openAfter 0 before = some 0 →
              ∀ terminator ∈ active, ¬terminator.Begins (wordAfter false before) behind)
          ∧ splitClauses clause active
              = .ok { clauses := if clause.toList.all isBlank then [] else [clause]
                      remainder := ""
                      stop := none } := by
  unfold splitClauses at h
  split at h
  · cases h
  rename_i sentence hread
  obtain rfl := Except.ok.inj h
  obtain ⟨front, last, closing, hclauses, htext, hcloses, hcomma, hending, hwhole⟩ :=
    Sentence.exists_of_read hread
  have hofList : (front ++ [last]).map String.ofList
      = front.map String.ofList ++ [String.ofList last] := List.map_append
  refine ⟨front.map String.ofList, String.ofList last, String.ofList closing, ?_, ?_, ?_, ?_,
    hending, ?_⟩
  · show sentence.clauses.map (String.ofList ∘ Slice.chars) = _
    rw [← List.map_map, hclauses, List.map_append, String.toList_ofList]
    split <;> rfl
  · refine String.toList_inj.mp ?_
    have hid : String.toList ∘ String.ofList = id := funext fun _ => String.toList_ofList
    have hclosing : (String.ofList closing).toList = closing := String.toList_ofList
    rw [← hofList, String.toList_append, String.toList_intercalate, List.map_map, hid, List.map_id,
      hclosing]
    exact htext
  · dsimp only
    cases hstop : sentence.stop with
    | none =>
      rw [hstop] at hcloses
      obtain ⟨rfl, hremainder⟩ := hcloses
      exact ⟨rfl, congrArg String.ofList hremainder⟩
    | some ending =>
      rw [hstop] at hcloses
      obtain ⟨taken, htaken, rfl⟩ := hcloses
      cases ending with
      | period =>
        obtain rfl : taken = ['.'] := htaken
        exact String.ofList_append
      | suchThat =>
        obtain ⟨gap, hlen, hblank, rfl⟩ := htaken
        refine ⟨String.ofList gap, by rwa [String.length_ofList], ?_, ?_⟩
        · rw [String.toList_ofList]
          exact List.all_eq_true.mpr hblank
        · rw [String.ofList_append, String.ofList_append]
          rfl
  · exact fun hne => hcomma (fun heq => hne (by rw [heq]; rfl))
  · rw [← hofList, List.forall_mem_map]
    intro text hmem
    have htext : Whole active (String.ofList text).toList := by
      rw [String.toList_ofList]
      exact hwhole text hmem
    refine ⟨htext.balanced, fun before behind heq hopen terminator hactive => ?_,
      splitClauses_of_whole htext⟩
    exact Whole.not_begins (heq ▸ htext) hopen hactive

/-- The comma within parentheses stays, and so does everything behind the period. -/
theorem splitClauses_reassembles_pair :
    let text := "x,(y, z) . w"
    let active := [.comma, .ending .period]
    splitClauses text active
        = .ok { clauses := ["x", "(y, z) "], remainder := " w", stop := some .period }
      ∧ ∃ (front : List String) (last closing : String),
          ["x", "(y, z) "] = front ++ (if last.toList.all isBlank then [] else [last])
            ∧ text = ",".intercalate (front ++ [last]) ++ closing ∧ closing = "." ++ " w" := by
  have hsplit : splitClauses "x,(y, z) . w" [.comma, .ending .period]
      = .ok { clauses := ["x", "(y, z) "], remainder := " w", stop := some .period } := by
    decide +kernel
  obtain ⟨front, last, closing, hclauses, htext, hclosing, -⟩ := splitClauses_reassembles hsplit
  exact ⟨hsplit, front, last, closing, hclauses, htext, hclosing⟩

end Diophantine
