import Diophantine.Proofs.Constraint.Grammar
import Diophantine.Proofs.Stars

/-!
# Words in constraints

In the text of a constraint, no star stands next to a connective or to any other word. So a text in
which one of them stands directly against a parenthesis or a digit is the text of no constraint:
with its products made explicit, it has a star there.

- `Expression.Derives.getLast?_ne`, `Constraint.Derives.getLast?_ne`: no text ends with a star;
- `Constraint.Derives.unstarred`: no star stands next to a word;
- `Constraint.Derives.wordsApart`: in a text that derives a constraint, the words stand apart.
-/

namespace Diophantine

theorem Spaced.not_star {space : List Char} (h : Spaced space) :
    ∀ c ∈ space, c.isAlpha = false ∧ c ≠ '*' := by
  intro c hc
  refine ⟨(h.neutral c hc).2.2, ?_⟩
  rintro rfl
  exact absurd (h '*' hc) (by decide)

/-- What an expression begins with behind spacing is no star. -/
theorem Opens.head?_ne {space core : List Char} (h : Opens core) (hspace : Spaced space) :
    (space ++ core).head? ≠ some '*' := by
  intro hhead
  cases space with
  | nil =>
    cases h with
    | minus | group => cases hhead
    | alphanum hc =>
      obtain rfl := Option.some.inj hhead
      cases hc
  | cons c space =>
    obtain rfl : c = '*' := Option.some.inj hhead
    exact (hspace.not_star '*' (List.mem_cons_self ..)).2 rfl

/-- What a text ends with is what its last part ends with. -/
theorem getLast?_ne_of_suffix {text back : List Char} {c : Char} (hback : back <:+ text)
    (hne : back ≠ []) (h : back.getLast? ≠ some c) : text.getLast? ≠ some c := by
  obtain ⟨front, rfl⟩ := hback
  rwa [List.getLast?_append_of_ne_nil _ hne]

theorem getLast?_append_spaced_ne {text space : List Char} (h : text.getLast? ≠ some '*')
    (hspace : Spaced space) : (text ++ space).getLast? ≠ some '*' := by
  by_cases hne : space = []
  · rwa [hne, List.append_nil]
  · refine getLast?_ne_of_suffix (List.suffix_append _ _) hne fun hlast => ?_
    exact (hspace.not_star '*' (List.mem_of_getLast? hlast)).2 rfl

/-- No expression ends with a star. -/
theorem Expression.Derives.getLast?_ne {layer : Layer} {text : List Char} {tree : Expression}
    (h : Derives layer text tree) : text.getLast? ≠ some '*' := by
  induction h with
  | constant _ hne hdigits _ =>
    refine getLast?_ne_of_suffix (List.suffix_append _ _) hne fun hlast => ?_
    exact absurd (hdigits '*' (List.mem_of_getLast? hlast)) (by decide)
  | @var _ sign name _ hname =>
    have hname' : [name].getLast? ≠ some '*' := fun hlast => by
      obtain rfl : name = '*' := Option.some.inj hlast
      cases hname
    exact getLast?_ne_of_suffix (List.suffix_append sign [name]) (List.cons_ne_nil _ _) hname'
  | @group _ sign inner _ _ _ _ =>
    have hclose : [')'] <:+ sign ++ '(' :: (inner ++ [')']) := ⟨sign ++ '(' :: inner, by simp⟩
    exact getLast?_ne_of_suffix hclose (by decide) (by decide)
  | factor _ ih | summand _ ih => exact ih
  | @times front space back _ _ _ _ hright _ ih =>
    exact getLast?_ne_of_suffix ⟨front ++ (space ++ ['*']), by simp⟩ hright.ne_nil ih
  | @plus front space back _ _ _ _ hright _ ih =>
    exact getLast?_ne_of_suffix ⟨front ++ (space ++ ['+']), by simp⟩ hright.ne_nil ih
  | @minus front space back _ _ _ _ hright _ ih =>
    exact getLast?_ne_of_suffix ⟨front ++ space, by simp⟩ hright.ne_nil ih
  | clause _ hspace ih => exact getLast?_append_spaced_ne ih hspace

/-- A connective may stand behind anything but a star. -/
theorem Unstarred.connective {p q : Char} {word : String} (hword : word ∈ connectives)
    (hq : q ≠ '*') : Unstarred p q word.toList := by
  have hcases : ∀ word ∈ connectives, word = "and" ∨ word = "or" := by decide
  rcases hcases word hword with rfl | rfl
  · exact of_word hq (by simp) fun _ _ c hc => .inl (Option.some.inj hc).symm
  · exact of_word hq (by simp) fun _ _ c hc => .inr (Option.some.inj hc).symm

namespace Constraint

/-- No constraint ends with a star. -/
theorem Derives.getLast?_ne {layer : Layer} {text : List Char} {tree : Constraint}
    (h : Derives layer text tree) : text.getLast? ≠ some '*' := by
  induction h with
  | @comparison sign _ front space back _ _ _ _ _ hright =>
    exact getLast?_ne_of_suffix ⟨front ++ (space ++ [sign]), by simp⟩ hright.ne_nil
      hright.getLast?_ne
  | @group space inner _ _ _ _ =>
    have hclose : [')'] <:+ space ++ '(' :: (inner ++ [')']) := ⟨space ++ '(' :: inner, by simp⟩
    exact getLast?_ne_of_suffix hclose (by decide) (by decide)
  | conjunct _ ih | disjunct _ ih => exact ih
  | @and front space back _ _ _ _ hright _ _ ih =>
    exact getLast?_ne_of_suffix ⟨front ++ (space ++ "and".toList), by simp⟩ hright.ne_nil ih
  | @or front space back _ _ _ _ hright _ _ ih =>
    exact getLast?_ne_of_suffix ⟨front ++ (space ++ "or".toList), by simp⟩ hright.ne_nil ih
  | clause _ hspace ih => exact getLast?_append_spaced_ne ih hspace

/-- No constraint begins with a star. -/
theorem Derives.head?_ne {layer : Layer} {text : List Char} {tree : Constraint}
    (h : Derives layer text tree) : text.head? ≠ some '*' := by
  obtain ⟨space, core, rfl, hspace, hopens, -⟩ := h.strip
  exact hopens.head?_ne hspace

/-- Two constraints with a connective between them. -/
theorem Derives.unstarred_connective {layer : Layer} {front space back : List Char}
    {left : Constraint} {word : String} {p q : Char} (hleft : Derives layer front left)
    (hspace : Spaced space) (hword : word ∈ connectives) (hfront : Unstarred p q front)
    (hback : ∀ r s, Unstarred r s back) :
    Unstarred p q (front ++ (space ++ (word.toList ++ back))) := by
  refine hfront.append fun r s hs => ?_
  refine (Unstarred.of_neutral hspace.not_star).append fun r' s' hs' => ?_
  refine (Unstarred.connective hword ?_).append fun r s _ => hback r s
  rintro rfl
  -- The word stands behind spacing, or else right behind the left constraint.
  rcases List.mem_cons.mp (List.mem_of_getLast? hs') with rfl | hmem
  · rw [← List.singleton_append, List.getLast?_append_of_ne_nil _ hleft.ne_nil] at hs
    exact hleft.getLast?_ne hs
  · exact (hspace.not_star '*' hmem).2 rfl

/-- **Words and stars**: no star stands next to a word in the text of a constraint, whatever stands
in front of it, as long as no word goes on with the text. -/
theorem Derives.unstarred {layer : Layer} {text : List Char} {tree : Constraint}
    (h : Derives layer text tree) (p q : Char)
    (hhead : ∀ c ∈ text.head?, q.isAlpha = true → c.isAlpha = false) : Unstarred p q text := by
  induction h generalizing p q with
  | comparison hsign hleft hspace hright =>
    have hletters := hleft.letters_apart.operator hspace hsign.neutral.2.2 hright.letters_apart
    exact .of_lettersApart (hletters.cons hhead) fun _ _ =>
      (Derives.comparison hsign hleft hspace hright).head?_ne
  | group hspace _ ih =>
    have hopen : '('.isAlpha = false := rfl
    refine (Unstarred.of_neutral hspace.not_star).append fun r s _ => ⟨fun _ _ => by decide,
      fun _ _ hletter => absurd hletter (by decide), fun _ => by decide, ?_⟩
    refine (ih s '(' fun _ _ hletter => absurd hletter (by decide)).append fun _ _ _ => ?_
    exact .of_neutral (List.forall_mem_singleton.mpr (by decide))
  | conjunct _ ih | disjunct _ ih => exact ih p q hhead
  | and hleft hspace _ hends ihl ihr =>
    rw [List.head?_append_of_ne_nil _ hleft.ne_nil] at hhead
    exact hleft.unstarred_connective hspace (by decide) (ihl p q hhead) fun r s =>
      ihr r s fun c hc _ => (Bool.or_eq_false_iff.mp (hends c hc)).1
  | or hleft hspace _ hends ihl ihr =>
    rw [List.head?_append_of_ne_nil _ hleft.ne_nil] at hhead
    exact hleft.unstarred_connective hspace (by decide) (ihl p q hhead) fun r s =>
      ihr r s fun c hc _ => (Bool.or_eq_false_iff.mp (hends c hc)).1
  | clause hdisjunction hspace ih =>
    rw [List.head?_append_of_ne_nil _ hdisjunction.ne_nil] at hhead
    exact (ih p q hhead).append fun _ _ _ => .of_neutral hspace.not_star

/-- In a text that derives a constraint once its products are explicit, the connectives stand
apart. -/
theorem Derives.wordsApart {layer : Layer} {text : List Char} {tree : Constraint}
    (h : Derives layer (explicitProducts text) tree) : WordsApart connectives text := by
  have hunstarred : Unstarred ' ' ' ' (explicitProducts text) :=
    h.unstarred ' ' ' ' fun _ _ hletter => absurd hletter (by decide)
  have hsuffix : explicitProducts text <:+: [] ++ ' ' :: ' ' :: explicitProducts text :=
    (List.suffix_append [' ', ' '] _).isInfix
  refine .of_explicitProducts isWord_of_mem_connectives fun word hword => ?_
  have hspaces : '*' ∉ ([] : List Char) ++ [' ', ' '] := by decide
  obtain ⟨hbehind, hinfront⟩ :=
    hunstarred.not_keyword hspaces word (connectives_subset_keywords hword)
  exact ⟨fun hin => hbehind (hin.trans hsuffix), fun hin => hinfront (hin.trans hsuffix)⟩

end Constraint

end Diophantine
