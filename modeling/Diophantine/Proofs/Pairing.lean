import Mathlib.Data.List.Induction
import Diophantine.Proofs.Nesting

/-!
# Parentheses without a partner

What it means that parentheses do not pair up, said by counting them and without the depth of any
scan. One closes nothing if by then more are closed than were opened. One is left open if what
follows it never closes more than it opens.

- `Overclosed`, `LeavesOpen`: the two ways not to pair up;
- `overclosed_iff`, `leavesOpen_iff`: what they have to do with the number of open parentheses;
- `balanced_iff`: there is no other way.
-/

namespace Diophantine

/-- Somewhere in the text, more parentheses are closed than opened. -/
def Overclosed (text : List Char) : Prop :=
  ∃ front, front <+: text ∧ front.count '(' < front.count ')'

/-- A parenthesis is opened in the text and never closed. -/
def LeavesOpen (text : List Char) : Prop :=
  ∃ before after, text = before ++ '(' :: after ∧ ¬Overclosed after

theorem Overclosed.append {front : List Char} (h : Overclosed front) (back : List Char) :
    Overclosed (front ++ back) := by
  obtain ⟨part, hpart, hcount⟩ := h
  exact ⟨part, hpart.trans (List.prefix_append front back), hcount⟩

/-- There is no number of open parentheses behind a text exactly if somewhere in it more are closed
than were open or opened. -/
theorem openAfter_eq_none_iff {depth : Nat} {text : List Char} :
    openAfter depth text = none ↔
      ∃ front, front <+: text ∧ depth + front.count '(' < front.count ')' := by
  induction text generalizing depth with
  | nil =>
    refine ⟨nofun, ?_⟩
    rintro ⟨front, hfront, hcount⟩
    rw [List.prefix_nil.mp hfront] at hcount
    exact absurd hcount (Nat.not_lt_zero _)
  | cons c text ih =>
    -- Only the count of the first character differs.
    have hcons : (∃ front, front <+: c :: text ∧ depth + front.count '(' < front.count ')') ↔
        ∃ front, front <+: text ∧ depth + (c :: front).count '(' < (c :: front).count ')' := by
      constructor
      · rintro ⟨front, hfront, hcount⟩
        cases front with
        | nil => exact absurd hcount (Nat.not_lt_zero _)
        | cons d front =>
          obtain ⟨rfl, hmore⟩ := List.cons_prefix_cons.mp hfront
          exact ⟨front, hmore, hcount⟩
      · rintro ⟨front, hfront, hcount⟩
        exact ⟨c :: front, List.cons_prefix_cons.mpr ⟨rfl, hfront⟩, hcount⟩
    rw [hcons]
    unfold openAfter
    split
    · rename_i hc
      subst hc
      rw [ih]
      refine exists_congr fun front => and_congr_right fun _ => ?_
      rw [List.count_cons_self, List.count_cons_of_ne (by decide)]
      omega
    · rename_i hc
      split
      · rename_i hd
        subst hd
        cases depth with
        | zero => exact ⟨fun _ => ⟨[], List.nil_prefix, by decide⟩, fun _ => rfl⟩
        | succ depth =>
          refine ih.trans (exists_congr fun front => and_congr_right fun _ => ?_)
          rw [List.count_cons_self, List.count_cons_of_ne (by decide)]
          omega
      · rename_i hd
        rw [ih]
        refine exists_congr fun front => and_congr_right fun _ => ?_
        rw [List.count_cons_of_ne hc, List.count_cons_of_ne hd]

theorem overclosed_iff {text : List Char} : Overclosed text ↔ openAfter 0 text = none := by
  rw [openAfter_eq_none_iff, Overclosed]
  simp only [Nat.zero_add]

theorem not_overclosed_iff {text : List Char} :
    ¬Overclosed text ↔ ∃ after, openAfter 0 text = some after := by
  rw [overclosed_iff, ← Option.ne_none_iff_exists']

/-- Of the parentheses that are open behind a text, each one was opened at some place, and behind
that place the further ones were. -/
theorem exists_open_of_openAfter {text : List Char} {around inside : Nat}
    (h : openAfter 0 text = some (around + 1 + inside)) :
    ∃ before after, text = before ++ '(' :: after ∧ openAfter 0 before = some around
      ∧ openAfter 0 after = some inside := by
  induction text using List.reverseRecOn generalizing inside with
  | nil =>
    have hzero : 0 = around + 1 + inside := Option.some.inj h
    omega
  | append_singleton text c ih =>
    rw [openAfter_append] at h
    obtain ⟨depth, hdepth, hlast⟩ := Option.bind_eq_some_iff.mp h
    -- One more character changes what is open behind the place only.
    have hgrow : ∀ further : Nat, depth = around + 1 + further →
        openAfter further [c] = some inside →
        ∃ before after, text ++ [c] = before ++ '(' :: after ∧ openAfter 0 before = some around
          ∧ openAfter 0 after = some inside := by
      rintro further rfl hc
      obtain ⟨before, after, rfl, hbefore, hafter⟩ := ih hdepth
      refine ⟨before, after ++ [c], by simp, hbefore, ?_⟩
      rw [openAfter_append, hafter]
      exact hc
    by_cases hopen : c = '('
    · subst hopen
      have hsucc : depth + 1 = around + 1 + inside := Option.some.inj hlast
      cases inside with
      | zero =>
        obtain rfl : depth = around := Nat.succ.inj hsucc
        exact ⟨text, [], rfl, hdepth, rfl⟩
      | succ inside => exact hgrow inside (by omega) rfl
    by_cases hclose : c = ')'
    · subst hclose
      cases depth with
      | zero => cases hlast
      | succ depth =>
        have hpred : depth = around + 1 + inside := Option.some.inj hlast
        exact hgrow (inside + 1) (by omega) rfl
    · rw [openAfter_singleton hopen hclose] at hlast
      exact hgrow inside (Option.some.inj hlast) (openAfter_singleton hopen hclose)

/-- A parenthesis is left open exactly if some are open in the end. -/
theorem leavesOpen_iff {text : List Char} {depth : Nat} (h : openAfter 0 text = some depth) :
    LeavesOpen text ↔ depth ≠ 0 := by
  constructor
  · rintro ⟨before, after, rfl, hafter⟩
    obtain ⟨inside, hinside⟩ := not_overclosed_iff.mp hafter
    rw [openAfter_append] at h
    obtain ⟨around, -, hback⟩ := Option.bind_eq_some_iff.mp h
    have hopen : openAfter (around + 1) after = some depth := hback
    obtain rfl : around + 1 + inside = depth :=
      Option.some.inj ((openAfter_add hinside (around + 1)).1.symm.trans hopen)
    omega
  · intro hne
    obtain ⟨inside, rfl⟩ := Nat.exists_eq_add_of_le (Nat.one_le_iff_ne_zero.mpr hne)
    rw [← Nat.zero_add (1 + inside), ← Nat.add_assoc] at h
    obtain ⟨before, after, htext, -, hafter⟩ := exists_open_of_openAfter h
    exact ⟨before, after, htext, not_overclosed_iff.mpr ⟨inside, hafter⟩⟩

/-- A text pairs up exactly if none of its parentheses closes nothing and none is left open. -/
theorem balanced_iff {text : List Char} :
    Balanced text ↔ ¬Overclosed text ∧ ¬LeavesOpen text := by
  constructor
  · intro h
    exact ⟨not_overclosed_iff.mpr ⟨0, h⟩, fun hopen => (leavesOpen_iff h).mp hopen rfl⟩
  · rintro ⟨hclosed, hopen⟩
    obtain ⟨depth, hdepth⟩ := not_overclosed_iff.mp hclosed
    rw [leavesOpen_iff hdepth, ne_eq, not_not] at hopen
    rw [Balanced, hdepth, hopen]

end Diophantine
