import Diophantine.Proofs.Words

/-!
# Stars next to words

A star belongs between two factors. So in a text that is read, none stands next to one of the words:
what is in front of a word ends with a factor, and what is behind it begins with one. Letters side
by side make a word, so this can be said of three neighbours at a time: no star stands behind two
letters, and behind a star and a letter no word goes on.

- `Unstarred`: the condition on neighbours, and `Unstarred.append` for texts that are put together;
- `Unstarred.of_lettersApart`, `Unstarred.of_word`: the parts they are put together from;
- `Unstarred.not_keyword`: no star stands next to a word.
-/

namespace Diophantine

/-- Going on behind `p` and `q`, the text puts no star behind two letters. Behind a star and a
letter it goes on with no letter but the first one of `and` or `or`. No `l` stands behind an `o`, as
it does in `Solve`. -/
def Unstarred (p q : Char) : List Char → Prop
  | [] => True
  | c :: text =>
    (p.isAlpha = true → q.isAlpha = true → c ≠ '*')
      ∧ (p = '*' → q.isAlpha = true → c.isAlpha = true → c = 'a' ∨ c = 'o')
      ∧ (q = 'o' → c ≠ 'l') ∧ Unstarred q c text

namespace Unstarred

variable {p q : Char}

/-! ### Texts that are put together -/

/-- Of what stands in front, only the two last characters count. -/
theorem append {front back : List Char} (hfront : Unstarred p q front)
    (hback : ∀ r s, s ∈ (q :: front).getLast? → Unstarred r s back) :
    Unstarred p q (front ++ back) := by
  induction front generalizing p q with
  | nil => exact hback p q rfl
  | cons c front ih =>
    obtain ⟨hstar, hword, hsolve, hmore⟩ := hfront
    exact ⟨hstar, hword, hsolve, ih hmore fun r s hs => hback r s hs⟩

theorem of_append {front back : List Char} (h : Unstarred p q (front ++ back)) :
    ∃ init r s, p :: q :: front = init ++ [r, s] ∧ Unstarred r s back := by
  induction front generalizing p q with
  | nil => exact ⟨[], p, q, rfl, h⟩
  | cons c front ih =>
    obtain ⟨init, r, s, hfront, hback⟩ := ih h.2.2.2
    exact ⟨p :: init, r, s, congrArg (p :: ·) hfront, hback⟩

/-- Where no two letters stand side by side, only the beginning matters. -/
theorem of_lettersApart {text : List Char} (h : LettersApart (q :: text))
    (hhead : p.isAlpha = true → q.isAlpha = true → text.head? ≠ some '*') :
    Unstarred p q text := by
  induction text generalizing p q with
  | nil => trivial
  | cons c text ih =>
    obtain ⟨hpair, hmore⟩ := List.isChain_cons_cons.mp h
    refine ⟨fun hp hq heq => hhead hp hq (congrArg some heq), fun _ hq hc => ?_, fun hq hc => ?_,
      ih hmore fun hq hc => ?_⟩
    · rw [hpair hq] at hc
      cases hc
    · subst hq hc
      exact absurd (hpair rfl) (by decide)
    · rw [hpair hq] at hc
      cases hc

/-- Text without letters and stars may stand anywhere. -/
theorem of_neutral {text : List Char} (h : ∀ c ∈ text, c.isAlpha = false ∧ c ≠ '*') :
    Unstarred p q text := by
  refine of_lettersApart ?_ fun _ _ hhead => (h '*' (List.mem_of_head? hhead)).2 rfl
  exact List.IsChain.cons (LettersApart.of_neutral fun c hc => (h c hc).1)
    fun c hc _ => (h c (List.mem_of_head? hc)).1

/-- A word that is not `Solve` may stand behind anything but a star. -/
theorem of_word {word : List Char} (hq : q ≠ '*') (hword : ∀ c ∈ word, c ≠ '*' ∧ c ≠ 'l')
    (hhead : p = '*' → q.isAlpha = true → ∀ c ∈ word.head?, c = 'a' ∨ c = 'o') :
    Unstarred p q word := by
  induction word generalizing p q with
  | nil => trivial
  | cons c word ih =>
    obtain ⟨hc, hmore⟩ := List.forall_mem_cons.mp hword
    exact ⟨fun _ _ => hc.1, fun hp hq _ => hhead hp hq c rfl, fun _ => hc.2,
      ih hc.1 hmore fun hstar => absurd hstar hq⟩

/-! ### No star next to a word -/

/-- A star stands in the text and not in front of it. -/
theorem exists_of_star {before text front back : List Char} (hbefore : '*' ∉ before)
    (h : front ++ '*' :: back = before ++ text) :
    ∃ middle, front = before ++ middle ∧ text = middle ++ '*' :: back := by
  rcases List.append_eq_append_iff.mp h with ⟨more, hmore, htext⟩ | ⟨middle, hfront, htext⟩
  · cases more with
    | nil => exact ⟨[], by rw [hmore, List.append_nil, List.append_nil], htext.symm⟩
    | cons c more =>
      obtain rfl : '*' = c := (List.cons.inj htext).1
      exact absurd (hmore ▸ List.mem_append_right _ (List.mem_cons_self ..)) hbefore
  · exact ⟨middle, hfront, htext⟩

section Keywords

variable {before text : List Char} (h : Unstarred p q text) (hbefore : '*' ∉ before ++ [p, q])

include h hbefore

/-- No star stands behind two letters. -/
theorem not_behind {word : List Char} {x y : Char} (hx : x.isAlpha = true)
    (hy : y.isAlpha = true) : ¬(word ++ [x, y]) ++ ['*'] <:+: before ++ p :: q :: text := by
  rintro ⟨front, back, heq⟩
  have hsplit : (front ++ (word ++ [x, y])) ++ '*' :: back = (before ++ [p, q]) ++ text := by
    simpa using heq
  obtain ⟨middle, hmiddle, rfl⟩ := exists_of_star hbefore hsplit
  obtain ⟨init, r, s, hlast, hstar, -⟩ := h.of_append
  -- The two letters are the last characters in front of the star.
  have hletters : (front ++ word) ++ [x, y] = (before ++ init) ++ [r, s] := by
    rw [List.append_assoc, hmiddle, List.append_assoc before init, ← hlast, List.append_assoc]
    rfl
  obtain ⟨rfl, rfl⟩ : x = r ∧ y = s := by simpa using List.append_inj_right' hletters rfl
  exact hstar hx hy rfl

/-- A star stands in front of what the text itself holds. -/
theorem exists_of_in_front {word : List Char}
    (hin : '*' :: word <:+: before ++ p :: q :: text) :
    ∃ r back, Unstarred r '*' (word ++ back) := by
  obtain ⟨front, back, heq⟩ := hin
  have hsplit : front ++ '*' :: (word ++ back) = (before ++ [p, q]) ++ text := by
    simpa using heq
  obtain ⟨middle, -, rfl⟩ := exists_of_star hbefore hsplit
  obtain ⟨init, r, s, -, -, -, -, hmore⟩ := h.of_append
  exact ⟨s, back, hmore⟩

/-- **Words and stars**: no star stands next to a word. -/
theorem not_keyword :
    ∀ word ∈ keywords, ¬word.toList ++ ['*'] <:+: before ++ p :: q :: text
      ∧ ¬ '*' :: word.toList <:+: before ++ p :: q :: text := by
  have hbehind : ∀ word ∈ keywords, ∃ init x y, word.toList = init ++ [x, y]
      ∧ x.isAlpha = true ∧ y.isAlpha = true := by
    refine List.forall_mem_cons.mpr ⟨⟨['S', 'o', 'l'], 'v', 'e', rfl, rfl, rfl⟩, ?_⟩
    refine List.forall_mem_cons.mpr ⟨⟨"such th".toList, 'a', 't', rfl, rfl, rfl⟩, ?_⟩
    refine List.forall_mem_cons.mpr ⟨⟨['a'], 'n', 'd', rfl, rfl, rfl⟩, ?_⟩
    exact List.forall_mem_singleton.mpr ⟨[], 'o', 'r', rfl, rfl, rfl⟩
  have hinfront : ∀ word ∈ keywords, ∀ r back, ¬Unstarred r '*' (word.toList ++ back) := by
    refine List.forall_mem_cons.mpr ⟨?_, List.forall_mem_cons.mpr ⟨?_, List.forall_mem_cons.mpr
      ⟨?_, List.forall_mem_singleton.mpr ?_⟩⟩⟩
    · rintro r back ⟨-, -, -, -, -, -, -, -, hsolve, -⟩
      exact hsolve rfl rfl
    all_goals
      rintro r back ⟨-, -, -, -, hword, -⟩
      exact absurd (hword rfl rfl rfl) (by decide)
  intro word hword
  obtain ⟨init, x, y, hlast, hx, hy⟩ := hbehind word hword
  refine ⟨hlast ▸ h.not_behind hbefore hx hy, fun hin => ?_⟩
  obtain ⟨r, back, hback⟩ := h.exists_of_in_front hbefore hin
  exact hinfront word hword r back hback

end Keywords

end Unstarred

/-! ### Texts for any place -/

/-- No star stands next to a word in the text, whatever stands in front of it, unless that is a star
or a letter that goes on with it. -/
def UnstarredAnywhere (text : List Char) : Prop :=
  ∀ p q, q ≠ '*' → (∀ c ∈ text.head?, q.isAlpha = true → c.isAlpha = false) → Unstarred p q text

namespace UnstarredAnywhere

theorem of_neutral {text : List Char} (h : ∀ c ∈ text, c.isAlpha = false ∧ c ≠ '*') :
    UnstarredAnywhere text :=
  fun _ _ _ _ => .of_neutral h

/-- What has neither letters nor stars may stand in front. -/
theorem append {front text : List Char} (h : UnstarredAnywhere text)
    (hfront : ∀ c ∈ front, c.isAlpha = false ∧ c ≠ '*') : UnstarredAnywhere (front ++ text) := by
  intro p q hq hhead
  refine (Unstarred.of_neutral hfront).append fun r s hs => ?_
  cases front with
  | nil =>
    obtain rfl : q = s := Option.some.inj hs
    exact h r q hq hhead
  | cons c front =>
    rw [List.getLast?_cons_cons] at hs
    obtain ⟨hletter, hstar⟩ := hfront s (List.mem_of_getLast? hs)
    exact h r s hstar fun _ _ hs => absurd hs (by rw [hletter]; decide)

end UnstarredAnywhere

end Diophantine
