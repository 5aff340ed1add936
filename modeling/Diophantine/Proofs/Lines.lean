import Mathlib.Data.List.DropRight
import Diophantine.Proofs.Juxtaposition
import Diophantine.Text.Position

/-!
# Lines and columns

A position counts line feeds and the characters behind the last one. The line with that number is
found by cutting the text at line feeds, and the column is a place in it: what stands behind the
last line feed before a position is the beginning of its line. That would fail in one place only,
between a carriage return and a line feed, where the carriage return is not part of the line any
more.

Making products explicit keeps lines apart, since no star is written next to a line break.

- `utf8ByteSize_ofList`, `lastLine`, `Position.line_past`, `Position.column_past`: what positions
  count;
- `lineAt_one_begins`: the first line of a text;
- `lines_append`, `length_lines`: cutting a text behind a line feed;
- `lineAt_append`: the line of a position;
- `lineAt_explicitProducts`: the lines of a text with its products made explicit.
-/

namespace Diophantine

/-! ### Positions -/

/-- Bytes are counted as they are for texts. -/
@[simp] theorem utf8ByteSize_ofList (chars : List Char) :
    (String.ofList chars).utf8ByteSize = byteLength chars := by
  induction chars with
  | nil => rfl
  | cons c chars ih =>
    rw [String.ofList_cons, String.utf8ByteSize_append, String.utf8ByteSize_singleton, ih]
    rfl

/-- What stands behind the last line feed of a text. -/
def lastLine (text : List Char) : List Char :=
  text.rtakeWhile (· != '\n')

namespace Position

theorem offset_past_origin (text : List Char) :
    (origin.past text).offset = (String.ofList text).utf8ByteSize := by
  rw [utf8ByteSize_ofList, offset_past]
  exact Nat.zero_add _

/-- Every line feed begins a new line. -/
theorem line_past_eq (here : Position) (chars : List Char) :
    (here.past chars).line = here.line + chars.count '\n' := by
  induction chars generalizing here with
  | nil => rfl
  | cons c chars ih =>
    rw [past_cons, ih, advance, List.count_cons]
    split
    · rename_i hc
      rw [if_pos (beq_iff_eq.mpr hc)]
      exact Nat.add_right_comm ..
    · rename_i hc
      rw [if_neg (mt beq_iff_eq.mp hc)]
      rfl

/-- Without a line feed, columns are counted on. -/
theorem column_past_eq (here : Position) {chars : List Char} (h : chars.count '\n' = 0) :
    (here.past chars).column = here.column + chars.length := by
  induction chars generalizing here with
  | nil => rfl
  | cons c chars ih =>
    have hc : c ≠ '\n' := by
      rintro rfl
      rw [List.count_cons_self] at h
      cases h
    rw [List.count_cons_of_ne hc] at h
    rw [past_cons, ih _ h, advance, if_neg hc, List.length_cons]
    exact Nat.add_right_comm ..

@[simp] theorem line_past (text : List Char) : (origin.past text).line = 1 + text.count '\n' :=
  line_past_eq origin text

@[simp] theorem column_past (text : List Char) :
    (origin.past text).column = 1 + (lastLine text).length := by
  induction text using List.reverseRecOn with
  | nil => rfl
  | append_singleton text c ih =>
    rw [past_append, past_cons, past_nil, advance, lastLine]
    split
    · rename_i hc
      rw [List.rtakeWhile_concat_neg _ _ _ (by simp [hc]), List.length_nil]
    · rename_i hc
      rw [List.rtakeWhile_concat_pos _ _ _ (by simpa using hc), List.length_append,
        List.length_singleton, ← Nat.add_assoc]
      exact congrArg (· + 1) ih

end Position

/-! ### Lines -/

/-- A character that ends no line goes in front of the first one. -/
theorem lines_cons {c : Char} {text : List Char} (hc : c ≠ '\n')
    (hreturn : c = '\r' → text.head? ≠ some '\n') :
    lines (c :: text) = (c :: (lines text).head?.getD []) :: (lines text).tail := by
  rw [lines]
  · cases lines text <;> rfl
  · exact hc
  · rintro chars rfl rfl
    exact hreturn rfl rfl

theorem lines_ne_nil {text : List Char} (h : text ≠ []) : lines text ≠ [] := by
  unfold lines
  split
  · exact absurd rfl h
  · exact List.cons_ne_nil _ _
  · exact List.cons_ne_nil _ _
  · split <;> exact List.cons_ne_nil _ _

/-- The first line of a text is its beginning, up to a line feed. -/
theorem lineAt_one_begins (text : List Char) :
    lineAt text 1 <+: text ∧ (lineAt text 1).count '\n' = 0 := by
  have hhead : lineAt text 1 = (lines text).head?.getD [] := by
    unfold lineAt
    rw [← List.head?_eq_getElem?]
  rw [hhead]
  clear hhead
  fun_induction lines text with
  | case1 => exact ⟨List.nil_prefix, rfl⟩
  | case2 chars => exact ⟨List.nil_prefix, rfl⟩
  | case3 chars => exact ⟨List.nil_prefix, rfl⟩
  | case4 c chars hc hreturn hnil ih =>
    exact ⟨List.prefix_append [c] chars, List.count_cons_of_ne hc⟩
  | case5 c chars hc hreturn line more hlines ih =>
    rw [hlines] at ih
    obtain ⟨hbegins, hcount⟩ := ih
    exact ⟨List.cons_prefix_cons.mpr ⟨rfl, hbegins⟩, (List.count_cons_of_ne hc).trans hcount⟩

/-- A text that ends with a line feed, or is empty, ends no line halfway. -/
def EndsLine (text : List Char) : Prop :=
  ∀ c ∈ text.getLast?, c = '\n'

theorem EndsLine.of_cons {c : Char} {text : List Char} (h : EndsLine (c :: text)) :
    EndsLine text := by
  intro d hd
  refine h d ?_
  cases text with
  | nil => cases hd
  | cons e text => exact hd

/-- The lines of what follows an ended line are lines of their own. -/
theorem lines_append {front : List Char} (h : EndsLine front) (back : List Char) :
    lines (front ++ back) = lines front ++ lines back := by
  fun_induction lines front with
  | case1 => rfl
  | case2 chars ih =>
    simp only [List.cons_append, lines_feed, ih h.of_cons]
  | case3 chars ih =>
    simp only [List.cons_append, lines_return_feed, ih h.of_cons.of_cons]
  | case4 c chars hc hreturn hnil ih =>
    obtain rfl : chars = [] := by_contra fun hne => lines_ne_nil hne hnil
    exact absurd (h c rfl) hc
  | case5 c chars hc hreturn line more hlines ih =>
    have hhead : c = '\r' → (chars ++ back).head? ≠ some '\n' := by
      cases chars with
      | nil => cases hlines
      | cons d chars =>
        rintro rfl hd
        exact hreturn chars rfl (congrArg (· :: chars) (Option.some.inj hd))
    rw [List.cons_append, lines_cons hc hhead, ih h.of_cons, hlines]
    rfl

/-- Every line feed ends a line. -/
theorem length_lines {text : List Char} (h : EndsLine text) :
    (lines text).length = text.count '\n' := by
  fun_induction lines text with
  | case1 => rfl
  | case2 chars ih => rw [List.length_cons, ih h.of_cons, List.count_cons_self]
  | case3 chars ih =>
    rw [List.length_cons, ih h.of_cons.of_cons, List.count_cons_of_ne (by decide),
      List.count_cons_self]
  | case4 c chars hc hreturn hnil ih =>
    obtain rfl : chars = [] := by_contra fun hne => lines_ne_nil hne hnil
    exact absurd (h c rfl) hc
  | case5 c chars hc hreturn line more hlines ih =>
    rw [List.count_cons_of_ne hc, ← ih h.of_cons, hlines]
    rfl

/-! ### The line of a position -/

/-- A place in a text that is not between a carriage return and a line feed. -/
def Unsplit (front back : List Char) : Prop :=
  front.getLast? = some '\r' → back.head? ≠ some '\n'

theorem Unsplit.of_append {ahead front back : List Char} (h : Unsplit (ahead ++ front) back) :
    Unsplit front back :=
  fun hlast => h (List.mem_getLast?_append_of_mem_getLast? hlast)

/-- A text is made of ended lines and what stands behind them. -/
theorem exists_append_lastLine (text : List Char) :
    ∃ ended, text = ended ++ lastLine text ∧ EndsLine ended ∧ ∀ c ∈ lastLine text, c ≠ '\n' := by
  refine ⟨text.rdropWhile (· != '\n'), List.rdropWhile_append_rtakeWhile.symm, ?_, ?_⟩
  · intro c hc
    have hne : text.rdropWhile (· != '\n') ≠ [] := List.ne_nil_of_mem (List.mem_of_getLast? hc)
    have hlast := List.rdropWhile_last_not (· != '\n') text hne
    rw [List.getLast?_eq_some_getLast hne] at hc
    rw [Option.some.inj hc] at hlast
    simpa using hlast
  · intro c hc
    simpa using List.mem_rtakeWhile_imp hc

/-- What stands in front of a place in the first line is the beginning of this line. -/
theorem lineAt_one_append {front back : List Char} (h : ∀ c ∈ front, c ≠ '\n')
    (hplace : Unsplit front back) : lineAt (front ++ back) 1 = front ++ lineAt back 1 := by
  induction front with
  | nil => rfl
  | cons c front ih =>
    obtain ⟨hc, hfront⟩ := List.forall_mem_cons.mp h
    have hhead : c = '\r' → (front ++ back).head? ≠ some '\n' := by
      rintro rfl
      cases front with
      | nil => exact hplace rfl
      | cons d front => exact fun hd => hfront d (List.mem_cons_self ..) (Option.some.inj hd)
    have hrest : Unsplit front back := by
      have hplace : Unsplit ([c] ++ front) back := hplace
      exact hplace.of_append
    have hline : lineAt (c :: (front ++ back)) 1 = c :: lineAt (front ++ back) 1 := by
      unfold lineAt
      rw [lines_cons hc hhead, ← List.head?_eq_getElem?, ← List.head?_eq_getElem?]
      rfl
    rw [List.cons_append, hline, ih hfront hrest]
    rfl

/-- The line of a place begins with what stands behind the last line feed in front of it. -/
theorem lineAt_append {front back : List Char} (h : Unsplit front back) :
    lineAt (front ++ back) (1 + front.count '\n') = lastLine front ++ lineAt back 1 := by
  obtain ⟨ended, hfront, hended, hlast⟩ := exists_append_lastLine front
  generalize lastLine front = last at hfront hlast ⊢
  subst hfront
  have hcount : (ended ++ last).count '\n' = (lines ended).length := by
    have hnone : last.count '\n' = 0 := List.count_eq_zero.mpr fun hmem => hlast _ hmem rfl
    rw [length_lines hended, List.count_append, hnone, Nat.add_zero]
  rw [← lineAt_one_append hlast h.of_append]
  unfold lineAt
  rw [List.append_assoc, lines_append hended, hcount, Nat.add_sub_cancel_left,
    List.getElem?_append_right (Nat.le_refl _), Nat.sub_self]

/-! ### Lines with products made explicit -/

/-- A line begins as the text does, unless it is empty. -/
theorem head?_of_lines {text line : List Char} {more : List (List Char)}
    (h : lines text = line :: more) : line = [] ∨ line.head? = text.head? := by
  unfold lines at h
  split at h
  · cases h
  · exact .inl (List.cons.inj h).1.symm
  · exact .inl (List.cons.inj h).1.symm
  · split at h
    · rw [← (List.cons.inj h).1]
      exact .inr rfl
    · rw [← (List.cons.inj h).1]
      exact .inr rfl

/-- A factor begins a line that is not empty. -/
theorem mem_head?_of_lines {c d : Char} {text line : List Char} {more : List (List Char)}
    (hjuxtaposed : juxtaposed c d = true) (h : lines (d :: text) = line :: more) :
    d ∈ line.head? := by
  have hfeed : d ≠ '\n' := by
    rintro rfl
    rw [juxtaposed_eq_false_of_right (by decide) (by decide)] at hjuxtaposed
    cases hjuxtaposed
  have hreturn : d ≠ '\r' := by
    rintro rfl
    rw [juxtaposed_eq_false_of_right (by decide) (by decide)] at hjuxtaposed
    cases hjuxtaposed
  rw [lines_cons hfeed fun hd => absurd hd hreturn] at h
  rw [← (List.cons.inj h).1]
  rfl

/-- What follows a line break takes part in no product with it, so stars stay within lines. -/
@[simp] theorem lines_explicitProducts (text : List Char) :
    lines (explicitProducts text) = (lines text).map explicitProducts := by
  fun_induction lines text with
  | case1 => rfl
  | case2 chars ih =>
    rw [explicitProducts_cons (by decide), lines_feed, ih, List.map_cons, explicitProducts_nil]
  | case3 chars ih =>
    rw [explicitProducts_cons (by decide), explicitProducts_cons (by decide), lines_return_feed, ih,
      List.map_cons, explicitProducts_nil]
  | case4 c chars hc hreturn hnil ih =>
    obtain rfl : chars = [] := by_contra fun hne => lines_ne_nil hne hnil
    exact lines_cons hc nofun
  | case5 c chars hc hreturn line more hlines ih =>
    obtain ⟨d, chars, rfl⟩ : ∃ d rest, chars = d :: rest :=
      List.exists_cons_of_ne_nil (by rintro rfl; cases hlines)
    rw [hlines] at ih
    by_cases hjuxtaposed : juxtaposed c d = true
    · have hline : explicitProducts ([c] ++ line) = [c] ++ '*' :: explicitProducts line :=
        explicitProducts_append_juxtaposed rfl (mem_head?_of_lines hjuxtaposed hlines) hjuxtaposed
      have hbreak : c = '\r' → ('*' :: explicitProducts (d :: chars)).head? ≠ some '\n' :=
        fun _ hhead => absurd (Option.some.inj hhead) (by decide)
      have hstar : '*' = '\r' → (explicitProducts (d :: chars)).head? ≠ some '\n' :=
        fun heq => absurd heq (by decide)
      rw [explicitProducts_of_juxtaposed hjuxtaposed, lines_cons hc hbreak,
        lines_cons (by decide) hstar, ih]
      exact congrArg (· :: more.map explicitProducts) hline.symm
    · have hline : explicitProducts ([c] ++ line) = [c] ++ explicitProducts line := by
        refine explicitProducts_append fun a ha b hb => ?_
        obtain rfl : c = a := Option.some.inj ha
        rcases head?_of_lines hlines with rfl | hhead
        · cases hb
        · obtain rfl : d = b := Option.some.inj (hhead.symm.trans hb)
          exact Bool.eq_false_iff.mpr hjuxtaposed
      have hbreak : c = '\r' → (explicitProducts (d :: chars)).head? ≠ some '\n' := by
        rw [head?_explicitProducts]
        rintro rfl hd
        exact hreturn chars rfl (congrArg (· :: chars) (Option.some.inj hd))
      rw [explicitProducts_of_not_juxtaposed hjuxtaposed, lines_cons hc hbreak, ih]
      exact congrArg (· :: more.map explicitProducts) hline.symm

/-- Making products explicit keeps lines apart. -/
@[simp] theorem lineAt_explicitProducts (text : List Char) (number : Nat) :
    lineAt (explicitProducts text) number = explicitProducts (lineAt text number) := by
  unfold lineAt
  rw [lines_explicitProducts, List.getElem?_map]
  cases (lines text)[number - 1]? <;> rfl

end Diophantine
