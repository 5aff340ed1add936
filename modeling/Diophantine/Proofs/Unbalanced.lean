import Mathlib.Data.Nat.Find
import Diophantine.Proofs.Lines
import Diophantine.Proofs.Pairing
import Diophantine.Proofs.Problem.Places

/-!
# Sentences that cannot be split

Splitting fails for the parentheses of a sentence and for nothing else. It takes the sentence to go
as far as the first ending that is active and stands outside parentheses, and it pairs up
parentheses only so far: one that closes nothing counts if it comes before that ending, and one that
is left open counts if there is no ending at all.

- `Mispaired`: where pairing up the parentheses of a slice fails;
- `StepsOver.leavesOuter`: what one character does to the parentheses that are left open;
- `mispaired_of_nextPiece`, `Sentence.mispaired_of_read`: why pieces and sentences fail;
- `Sentence.exists_told_of_read`: what a sentence that is read consists of;
- `FirstSentence`: the sentence at the beginning of a text, said without the scan that finds it;
- `splitClauses_error_iff`: which texts are not split, and what is shown of them.
-/

namespace Diophantine

/-! ### Failures -/

/-- How the parentheses of a slice fail to pair up, if `depth` are open before it: there is one that
closes nothing, before any terminator begins, or else no terminator begins at all, and the failure
shows the last one that is left open. -/
inductive Mispaired (active : List Terminator) (depth : Nat) (inWord : Bool) (slice : Slice) :
    Failure → Prop
  | unmatched (before after : List Char) (hchars : slice.chars = before ++ ')' :: after)
      (hopen : openAfter depth before = some 0)
      (hunbroken : Unbroken active depth inWord before (')' :: after)) :
      Mispaired active depth inWord slice
        (Slice.fail { start := slice.start.past before, chars := ')' :: after } .unmatched)
  | unclosed (before after : List Char) (hchars : slice.chars = before ++ '(' :: after)
      (hafter : Balanced after) (hopen : ∃ inside, openAfter depth slice.chars = some inside)
      (hunbroken : Unbroken active depth inWord slice.chars []) :
      Mispaired active depth inWord slice
        (Slice.fail { start := slice.start.past before, chars := '(' :: after } .unclosed)

theorem Unbroken.mono {active fewer : List Terminator} {depth : Nat} {inWord : Bool}
    {text tail : List Char} (h : Unbroken active depth inWord text tail) (hsub : fewer ⊆ active) :
    Unbroken fewer depth inWord text tail :=
  fun front back heq hne hfront terminator hmem =>
    h front back heq hne hfront terminator (hsub hmem)

namespace Mispaired

variable {active : List Terminator} {depth : Nat} {inWord : Bool} {slice : Slice}
  {failure : Failure}

/-- What fails behind a text in which no terminator begins. -/
theorem append (front : List Char) {rest : Slice} {after : Nat}
    (h : Mispaired active after (wordAfter inWord front) rest failure)
    (hchars : slice.chars = front ++ rest.chars) (hstart : rest.start = slice.start.past front)
    (hopen : openAfter depth front = some after)
    (hfront : Unbroken active depth inWord front rest.chars) :
    Mispaired active depth inWord slice failure := by
  cases h with
  | unmatched before behind hrest hbefore hunbroken =>
    rw [hstart, ← Position.past_append]
    rw [hrest] at hchars hfront
    refine .unmatched _ _ ?_ ?_ (hfront.append hopen hunbroken)
    · rw [hchars, List.append_assoc]
    · rw [openAfter_append, hopen]
      exact hbefore
  | unclosed before behind hrest hbehind hall hunbroken =>
    rw [hstart, ← Position.past_append]
    obtain ⟨inside, hinside⟩ := hall
    refine .unclosed _ _ ?_ hbehind ⟨inside, ?_⟩ ?_
    · rw [hchars, hrest, List.append_assoc]
    · rw [hchars, openAfter_append, hopen]
      exact hinside
    · rw [hchars]
      rw [← List.append_nil rest.chars] at hfront
      exact hfront.append hopen hunbroken

theorem mono {fewer : List Terminator} (h : Mispaired active depth inWord slice failure)
    (hsub : fewer ⊆ active) : Mispaired fewer depth inWord slice failure := by
  cases h with
  | unmatched _ _ hchars hopen hunbroken =>
    exact .unmatched _ _ hchars hopen (hunbroken.mono hsub)
  | unclosed _ _ hchars hafter hopen hunbroken =>
    exact .unclosed _ _ hchars hafter hopen (hunbroken.mono hsub)

/-- Splitting blames a parenthesis, and nothing else. -/
theorem unpaired (h : Mispaired active depth inWord slice failure) : failure.Unpaired := by
  cases h with
  | unmatched => exact .inr rfl
  | unclosed => exact .inl rfl

end Mispaired

/-! ### Pieces -/

/-- The failure shows a parenthesis that was open before a text and is left open by it: all that
were opened after it are closed, and those before it do not matter. -/
def LeavesOuter (opened : List Slice) (text : List Char) (failure : Failure) : Prop :=
  ∃ closed opening others, opened = closed ++ opening :: others
    ∧ openAfter closed.length text = some 0 ∧ failure = opening.fail .unclosed

/-- What is left open behind a character was open before it, or it is that character, and the text
behind it pairs up its own parentheses. -/
theorem StepsOver.leavesOuter {active : List Terminator} {inWord : Bool} {here : Position}
    {c : Char} {chars : List Char} {opened next : List Slice} {failure : Failure}
    (h : StepsOver active inWord here chars c opened next)
    (hleaves : LeavesOuter next chars failure) :
    LeavesOuter opened (c :: chars) failure
      ∨ c = '(' ∧ Balanced chars
        ∧ failure = Slice.fail { start := here, chars := '(' :: chars } .unclosed := by
  obtain ⟨closed, opening, others, heq, hclosed, rfl⟩ := hleaves
  cases h with
  | opening =>
    rcases List.cons_eq_append_iff.mp heq with ⟨rfl, hopening⟩ | ⟨closed, rfl, rfl⟩
    · -- It is the parenthesis that was just opened.
      obtain ⟨rfl, -⟩ := List.cons.inj hopening
      exact .inr ⟨rfl, hclosed, rfl⟩
    · exact .inl ⟨closed, opening, others, rfl, hclosed, rfl⟩
  | closing first =>
    subst heq
    exact .inl ⟨first :: closed, opening, others, rfl, hclosed, rfl⟩
  | other hopen hclose _ =>
    have hwider := (openAfter_cons hopen hclose chars).trans hclosed
    exact .inl ⟨closed, opening, others, heq, hwider, rfl⟩

/-- A piece fails for its own parentheses, or it leaves one open that was open before it. -/
theorem mispaired_of_nextPiece {active : List Terminator} {opened : List Slice} {inWord : Bool}
    {here : Position} {chars : List Char} {failure : Failure}
    (h : nextPiece active opened inWord here chars = .error failure) :
    Mispaired active opened.length inWord { start := here, chars := chars } failure
      ∨ Unbroken active opened.length inWord chars [] ∧ LeavesOuter opened chars failure := by
  induction chars generalizing opened inWord here with
  | nil =>
    unfold nextPiece at h
    split at h
    · cases h
    · rename_i opening others
      cases h
      exact .inr ⟨.nil, [], opening, others, rfl, rfl, rfl⟩
  | cons c chars ih =>
    rcases nextPiece_cons active opened inWord here c chars with
      ⟨rfl, rfl, heq⟩ | ⟨_, _, -, -, heq⟩ | ⟨next, hsteps, heq⟩
    · rw [heq] at h
      cases h
      exact .inl (.unmatched [] chars rfl rfl .nil)
    · rw [heq] at h
      cases h
    · have hopen := hsteps.openAfter_eq
      rcases ih (map_eq_error_iff.mp (heq.symm.trans h)) with hinner | ⟨hunbroken, hleaves⟩
      · exact .inl (hinner.append [c] rfl rfl hopen (.cons hopen hsteps.not_begins .nil))
      · have hwhole : Unbroken active opened.length inWord (c :: chars) [] := by
          refine .cons hopen (fun hlen => ?_) hunbroken
          rw [List.append_nil]
          exact hsteps.not_begins hlen
        rcases hsteps.leavesOuter hleaves with houter | ⟨rfl, hbalanced, rfl⟩
        · exact .inr ⟨hwhole, houter⟩
        · have hinside : openAfter opened.length ('(' :: chars) = some (opened.length + 1) :=
            Balanced.openAfter_eq hbalanced (opened.length + 1)
          exact .inl (.unclosed [] chars rfl hbalanced ⟨_, hinside⟩ hwhole)

/-! ### Sentences -/

/-- The terminators that end a sentence. -/
def endings (active : List Terminator) : List Terminator :=
  active.filter (· ≠ .comma)

theorem endings_subset (active : List Terminator) : endings active ⊆ active :=
  List.filter_subset_self active

theorem ending_mem_endings {active : List Terminator} {ending : Ending}
    (h : .ending ending ∈ active) : .ending ending ∈ endings active :=
  List.mem_filter.mpr ⟨h, decide_eq_true nofun⟩

/-- A piece that ends with a comma, and the comma, pair up their parentheses, and nothing in them
ends the sentence. -/
theorem unbroken_of_comma {active : List Terminator} {slice : Slice} {piece : Piece}
    (h : nextPiece active [] false slice.start slice.chars = .ok piece)
    (hcomma : piece.terminator = some .comma) :
    Balanced (piece.chars ++ [','])
      ∧ Unbroken (endings active) 0 false (piece.chars ++ [',']) piece.rest.chars := by
  obtain ⟨tail, hchars, hopen, hunbroken, -⟩ := exists_of_nextPiece h
  obtain ⟨hrest, -⟩ := rest_of_nextPiece_comma h hcomma
  obtain rfl : tail = [','] ++ piece.rest.chars :=
    List.append_cancel_left (hchars.symm.trans (hrest.trans (List.append_assoc ..)))
  refine ⟨Balanced.append hopen rfl, ?_⟩
  refine Unbroken.append hopen (hunbroken.mono (endings_subset active)) ?_
  refine Unbroken.cons rfl (fun _ terminator hmem hbegins => ?_) .nil
  have hne : terminator ≠ .comma := of_decide_eq_true (List.mem_filter.mp hmem).2
  rcases terminator with _ | _ | _
  · exact hne rfl
  · cases hbegins
  · obtain ⟨-, rest, heq, -⟩ := hbegins
    cases heq

/-- The end of a word does not reach beyond a comma. -/
theorem wordAfter_comma (inWord : Bool) (text : List Char) :
    wordAfter inWord (text ++ [',']) = false := by
  rw [wordAfter_append]
  rfl

namespace Sentence

/-- Sentences fail for their parentheses, whatever commas they have. -/
theorem mispaired_of_read {active : List Terminator} {slice : Slice} {failure : Failure}
    (h : read active slice = .error failure) :
    Mispaired (endings active) 0 false slice failure := by
  fun_induction read active slice with
  | case1 slice inner hpiece =>
    cases h
    rcases mispaired_of_nextPiece hpiece with hinner | ⟨-, closed, opening, others, heq, -⟩
    · exact hinner.mono (endings_subset active)
    · exact absurd heq.symm (List.append_ne_nil_of_right_ne_nil closed (List.cons_ne_nil _ _))
  | case2 slice piece hpiece hcomma inner hread ih =>
    cases h
    obtain ⟨hbalanced, hunbroken⟩ := unbroken_of_comma hpiece hcomma
    obtain ⟨hchars, hstart⟩ := rest_of_nextPiece_comma hpiece hcomma
    have hinner := ih hread
    rw [← wordAfter_comma false piece.chars] at hinner
    exact hinner.append _ hchars hstart hbalanced hunbroken
  | case3 => cases h
  | case4 => cases h
  | case5 => cases h

/-- A sentence that is read pairs up its parentheses. Nothing in it ends it, and it goes as far as
the text does, or as the first ending. -/
theorem exists_told_of_read {active : List Terminator} {slice : Slice} {sentence : Sentence}
    (h : read active slice = .ok sentence) :
    ∃ told behind, slice.chars = told ++ behind ∧ Balanced told
      ∧ Unbroken (endings active) 0 false told behind
      ∧ (behind = [] ∨ ∃ ending, .ending ending ∈ active
        ∧ (Terminator.ending ending).Begins (wordAfter false told) behind) := by
  fun_induction read active slice generalizing sentence with
  | case1 => cases h
  | case2 => cases h
  | case3 slice piece hpiece hcomma inner hread ih =>
    obtain ⟨told, behind, hrest, hbalanced, hunbroken, hends⟩ := ih hread
    obtain ⟨hfront, hbefore⟩ := unbroken_of_comma hpiece hcomma
    rw [hrest] at hbefore
    rw [← wordAfter_comma false piece.chars] at hunbroken hends
    refine ⟨(piece.chars ++ [',']) ++ told, behind, ?_, hfront.append hbalanced,
      hbefore.append hfront hunbroken, ?_⟩
    · rw [(rest_of_nextPiece_comma hpiece hcomma).1, hrest, List.append_assoc _ told]
    · rw [wordAfter_append false (piece.chars ++ [','])]
      exact hends
  | case4 slice piece hpiece ending hending =>
    obtain ⟨tail, hchars, hopen, hunbroken, hstops⟩ := exists_of_nextPiece hpiece
    rw [Piece.Stops, hending] at hstops
    obtain ⟨hactive, hbegins, -⟩ := exists_of_terminator? hstops
    exact ⟨piece.chars, tail, hchars, hopen, hunbroken.mono (endings_subset active),
      .inr ⟨ending, hactive, hbegins⟩⟩
  | case5 slice piece hpiece hnone =>
    obtain ⟨tail, hchars, hopen, hunbroken, hstops⟩ := exists_of_nextPiece hpiece
    rw [Piece.Stops, hnone] at hstops
    exact ⟨piece.chars, tail, hchars, hopen, hunbroken.mono (endings_subset active),
      .inl hstops.1⟩

end Sentence

/-! ### The first sentence -/

/-- An ending that is active stands between two parts of a text, outside parentheses: none is left
open in front of it. -/
def EndsAt (active : List Terminator) (front back : List Char) : Prop :=
  ¬LeavesOpen front ∧ ∃ ending, .ending ending ∈ active
    ∧ (Terminator.ending ending).Begins (wordAfter false front) back

/-- A text up to its first active ending outside parentheses, or the whole text if there is none. -/
structure FirstSentence (active : List Terminator) (text sentence behind : List Char) : Prop where
  text_eq : text = sentence ++ behind
  first : ∀ front back, text = front ++ back → EndsAt active front back →
    sentence.length ≤ front.length
  ends : behind = [] ∨ EndsAt active sentence behind

/-- Nothing ends a sentence before the end of a text in which no ending begins. -/
theorem Unbroken.length_le {active : List Terminator} {told behind front back : List Char}
    (h : Unbroken (endings active) 0 false told behind) (hclosed : ¬Overclosed told)
    (heq : told ++ behind = front ++ back) (hends : EndsAt active front back) :
    told.length ≤ front.length := by
  obtain ⟨hopen, ending, hactive, hbegins⟩ := hends
  rcases List.append_eq_append_iff.mp heq with ⟨more, rfl, -⟩ | ⟨more, rfl, rfl⟩
  · rw [List.length_append]
    exact Nat.le_add_right _ _
  by_cases hmore : more = []
  · rw [hmore, List.append_nil]
  · -- Otherwise the ending begins within the text.
    have hfront : Balanced front :=
      balanced_iff.mpr ⟨fun hover => hclosed (hover.append more), hopen⟩
    exact absurd hbegins (h front more rfl hmore hfront _ (ending_mem_endings hactive))

namespace FirstSentence

variable {active : List Terminator} {text sentence behind : List Char}

/-- Every text has a first sentence. -/
theorem exists_firstSentence (active : List Terminator) (text : List Char) :
    ∃ sentence behind, FirstSentence active text sentence behind := by
  classical
  by_cases hends : ∃ length front back, text = front ++ back ∧ EndsAt active front back
      ∧ front.length = length
  · obtain ⟨front, back, htext, hfront, hlen⟩ := Nat.find_spec hends
    refine ⟨front, back, htext, fun other rest hother hrest => ?_, .inr hfront⟩
    rw [hlen]
    exact Nat.find_min' hends ⟨other, rest, hother, hrest, rfl⟩
  · refine ⟨text, [], (List.append_nil text).symm, fun front back htext hfront => ?_, .inl rfl⟩
    exact absurd ⟨front.length, front, back, htext, hfront, rfl⟩ hends

theorem length_le {other rest : List Char} (h : FirstSentence active text sentence behind)
    (h' : FirstSentence active text other rest) : sentence.length ≤ other.length := by
  rcases h'.ends with rfl | hends
  · have hlen := congrArg List.length (h.text_eq.symm.trans h'.text_eq)
    simp only [List.length_append, List.append_nil] at hlen
    omega
  · exact h.first other rest h'.text_eq hends

/-- It has no more than one. -/
theorem unique {other rest : List Char} (h : FirstSentence active text sentence behind)
    (h' : FirstSentence active text other rest) : sentence = other ∧ behind = rest :=
  List.append_inj (h.text_eq.symm.trans h'.text_eq)
    (Nat.le_antisymm (h.length_le h') (h'.length_le h))

/-- A text in which nothing ends the sentence belongs to it. -/
theorem prefix_of_unbroken {told rest : List Char}
    (h : FirstSentence active text sentence behind) (htext : text = told ++ rest)
    (hclosed : ¬Overclosed told) (hunbroken : Unbroken (endings active) 0 false told rest) :
    told <+: sentence := by
  have htold : told <+: text := htext ▸ List.prefix_append told rest
  rcases h.ends with rfl | hends
  · rwa [h.text_eq, List.append_nil] at htold
  · refine List.prefix_of_prefix_length_le htold (h.text_eq ▸ List.prefix_append ..) ?_
    exact hunbroken.length_le hclosed (htext.symm.trans h.text_eq) hends

/-- So does the parenthesis behind it that closes nothing. -/
theorem exists_of_unmatched {before after : List Char}
    (h : FirstSentence active text sentence behind) (htext : text = before ++ ')' :: after)
    (hclosed : ¬Overclosed before)
    (hunbroken : Unbroken (endings active) 0 false before (')' :: after)) :
    ∃ more, sentence = before ++ ')' :: more := by
  obtain ⟨more, rfl⟩ := h.prefix_of_unbroken htext hclosed hunbroken
  have hmore : ')' :: after = more ++ behind :=
    List.append_cancel_left (htext.symm.trans (h.text_eq.trans (List.append_assoc ..)))
  cases more with
  | cons c more =>
    obtain ⟨rfl, -⟩ := List.cons.inj hmore
    exact ⟨more, rfl⟩
  | nil =>
    -- No ending begins with a parenthesis.
    rcases h.ends with rfl | ⟨-, ending, -, hbegins⟩
    · cases hmore
    · rw [← show ')' :: after = behind from hmore] at hbegins
      rcases hbegins.head?_eq with heq | heq | heq <;> cases heq

/-- A text in which nothing ends the sentence is the sentence. -/
theorem eq_of_unbroken (h : FirstSentence active text sentence behind) (hclosed : ¬Overclosed text)
    (hunbroken : Unbroken (endings active) 0 false text []) : sentence = text ∧ behind = [] := by
  obtain ⟨more, hmore⟩ := h.prefix_of_unbroken (List.append_nil text).symm hclosed hunbroken
  have hlen := congrArg List.length h.text_eq
  rw [← hmore, List.length_append, List.length_append] at hlen
  obtain rfl : behind = [] := List.length_eq_zero_iff.mp (by omega)
  exact ⟨(h.text_eq.trans (List.append_nil sentence)).symm, rfl⟩

end FirstSentence

/-- **Splitting fails exactly for unbalanced sentences.** A text is not split if a parenthesis of
its first sentence closes nothing, or if no ending is there and one is left open, and in no other
case. The failure is one of structure, and it shows the first parenthesis that closes nothing, or
else the last one that is never closed. -/
theorem splitClauses_error_iff (text : String) (active : List Terminator) :
    (∃ sentence behind, FirstSentence active text.toList sentence behind)
    ∧ ∀ sentence behind, FirstSentence active text.toList sentence behind →
      ((∃ diagnostic, splitClauses text active = .error diagnostic) ↔
        Overclosed sentence ∨ behind = [] ∧ LeavesOpen sentence)
      ∧ ∀ diagnostic, splitClauses text active = .error diagnostic →
        diagnostic.kind = .structural
        ∧ (Overclosed sentence → ∃ before after, sentence = before ++ ')' :: after
          ∧ ¬Overclosed before ∧ Overclosed (before ++ [')'])
          ∧ diagnostic.offset = (String.ofList before).utf8ByteSize
          ∧ diagnostic.message = "unmatched ')'")
        ∧ (¬Overclosed sentence → ∃ before after, sentence = before ++ '(' :: after
          ∧ ¬Overclosed after ∧ ¬LeavesOpen after
          ∧ diagnostic.offset = (String.ofList before).utf8ByteSize
          ∧ diagnostic.message = "unclosed '('") := by
  refine ⟨FirstSentence.exists_firstSentence active text.toList, fun sentence behind hfirst => ?_⟩
  unfold splitClauses
  cases hread : Sentence.read active (Slice.ofString text) with
  | ok found =>
    obtain ⟨told, rest, htext, hbalanced, hunbroken, hends⟩ :=
      Sentence.exists_told_of_read hread
    obtain ⟨hclosed, hopen⟩ := balanced_iff.mp hbalanced
    have htold : FirstSentence active text.toList told rest :=
      ⟨htext, fun front back heq => hunbroken.length_le hclosed (htext.symm.trans heq),
        hends.imp_right fun hending => ⟨hopen, hending⟩⟩
    obtain ⟨rfl, rfl⟩ := hfirst.unique htold
    refine ⟨⟨nofun, ?_⟩, nofun⟩
    rintro (hover | ⟨-, hleft⟩)
    · exact absurd hover hclosed
    · exact absurd hleft hopen
  | error failure =>
    cases Sentence.mispaired_of_read hread with
    | unmatched before after hchars hbefore hunbroken =>
      have hclosed : ¬Overclosed before := not_overclosed_iff.mpr ⟨0, hbefore⟩
      have hover : Overclosed (before ++ [')']) := by
        rw [overclosed_iff, openAfter_append, hbefore]
        rfl
      obtain ⟨more, rfl⟩ := hfirst.exists_of_unmatched hchars hclosed hunbroken
      have hsentence : Overclosed (before ++ ')' :: more) := by
        rw [List.append_cons]
        exact hover.append more
      refine ⟨⟨fun _ => .inl hsentence, fun _ => ⟨_, rfl⟩⟩, fun diagnostic hdiagnostic => ?_⟩
      cases hdiagnostic
      exact ⟨rfl, fun _ => ⟨before, more, rfl, hclosed, hover,
        Position.offset_past_origin before, rfl⟩, fun hnot => absurd hsentence hnot⟩
    | unclosed before after hchars hafter hopen hunbroken =>
      have hclosed : ¬Overclosed text.toList := not_overclosed_iff.mpr hopen
      obtain ⟨hback, hleft⟩ := balanced_iff.mp hafter
      obtain ⟨rfl, rfl⟩ := hfirst.eq_of_unbroken hclosed hunbroken
      have hsentence : LeavesOpen text.toList := ⟨before, after, hchars, hback⟩
      refine ⟨⟨fun _ => .inr ⟨rfl, hsentence⟩, fun _ => ⟨_, rfl⟩⟩,
        fun diagnostic hdiagnostic => ?_⟩
      cases hdiagnostic
      exact ⟨rfl, fun hover => absurd hover hclosed, fun _ => ⟨before, after, hchars, hback, hleft,
        Position.offset_past_origin before, rfl⟩⟩

/-- The period ends the sentence, so the parenthesis behind it does not count, and the one in front
of it is shown. -/
theorem splitClauses_error_iff_period :
    let active := [.comma, .ending .period]
    FirstSentence active "x) . (y".toList "x) ".toList ". (y".toList
      ∧ ∃ diagnostic, splitClauses "x) . (y" active = .error diagnostic
        ∧ diagnostic.kind = .structural
        ∧ ∃ before after, "x) ".toList = before ++ ')' :: after
          ∧ ¬Overclosed before ∧ Overclosed (before ++ [')'])
          ∧ diagnostic.offset = (String.ofList before).utf8ByteSize
          ∧ diagnostic.message = "unmatched ')'" := by
  intro active
  have hover : Overclosed "x) ".toList := overclosed_iff.mpr (by decide)
  have hfirst : FirstSentence active "x) . (y".toList "x) ".toList ". (y".toList := by
    refine ⟨by decide, fun front back htext ⟨_, ending, hactive, hbegins⟩ => ?_, .inr ⟨?_, ?_⟩⟩
    · obtain rfl : ending = .period := by simpa [active] using hactive
      have hback : back = "x) . (y".toList.drop front.length := by rw [htext, List.drop_left]
      have hnone : ∀ n < 3, ("x) . (y".toList.drop n).head? ≠ some '.' := by decide
      refine Nat.le_of_not_lt fun hlt => hnone front.length hlt ?_
      rw [← hback]
      exact hbegins
    · rintro ⟨before, after, heq, -⟩
      have hmem : '(' ∈ "x) ".toList := heq ▸ List.mem_append_right before (List.mem_cons_self ..)
      exact absurd hmem (by decide)
    · exact ⟨.period, by decide, rfl⟩
  obtain ⟨hiff, hshown⟩ := (splitClauses_error_iff "x) . (y" active).2 _ _ hfirst
  obtain ⟨diagnostic, hdiagnostic⟩ := hiff.mpr (.inl hover)
  obtain ⟨hkind, hunmatched, -⟩ := hshown diagnostic hdiagnostic
  exact ⟨hfirst, diagnostic, hdiagnostic, hkind, hunmatched hover⟩

end Diophantine
