import Mathlib.Data.List.Chain
import Diophantine.Proofs.Nesting
import Diophantine.Text.Juxtaposition

/-!
# Texts without implicit products

A text in which no two neighbours stand for a product is left alone when products are made
explicit. Whether it is one depends on neighbours only, so it is enough to look at the seams.

- `Explicit`: no product is implicit in a text;
- `explicitProducts_eq_self`, `explicit_explicitProducts`: such texts are left alone, and they are
  what making products explicit gives;
- `explicitProducts_append`, `explicitProducts_separate`: making products explicit part by part;
- `Detached`: what stands behind a factor of such a text.
-/

namespace Diophantine

theorem juxtaposed_eq_false_of_left {a b : Char} (halnum : a.isAlphanum = false)
    (hclose : a ≠ ')') : juxtaposed a b = false := by
  simp only [Char.isAlphanum, Bool.or_eq_false_iff] at halnum
  simp [juxtaposed, Char.isAlphanum, halnum.1, halnum.2, hclose]

theorem juxtaposed_eq_false_of_right {a b : Char} (halnum : b.isAlphanum = false)
    (hopen : b ≠ '(') : juxtaposed a b = false := by
  simp only [Char.isAlphanum, Bool.or_eq_false_iff] at halnum
  simp [juxtaposed, Char.isAlphanum, halnum.1, halnum.2, hopen]

/-- No two neighbours of the text stand for a product. -/
def Explicit (text : List Char) : Prop :=
  text.IsChain fun a b => juxtaposed a b = false

instance (text : List Char) : Decidable (Explicit text) :=
  inferInstanceAs (Decidable (text.IsChain fun a b => juxtaposed a b = false))

theorem explicitProducts_eq_self {text : List Char} (h : Explicit text) :
    explicitProducts text = text := by
  induction text using explicitProducts.induct with
  | case1 => rfl
  | case2 a => rfl
  | case3 a b text hjuxtaposed ih =>
    obtain ⟨hnot, -⟩ := List.isChain_cons_cons.mp h
    rw [hjuxtaposed] at hnot
    cases hnot
  | case4 a b text hnot ih =>
    obtain ⟨-, htail⟩ := List.isChain_cons_cons.mp h
    rw [explicitProducts_of_not_juxtaposed hnot, ih htail]

/-- What may follow any character: nothing, or a character that begins no factor. -/
def Apart (text : List Char) : Prop :=
  ∀ c ∈ text.head?, c.isAlphanum = false ∧ c ≠ '('

theorem Apart.cons {c : Char} (hc : c.isAlphanum = false ∧ c ≠ '(') (text : List Char) :
    Apart (c :: text) := by
  intro d hd
  obtain rfl : c = d := Option.some.inj hd
  exact hc

namespace Explicit

/-- Of an explicit text, every part is explicit. -/
theorem infix_of {text part : List Char} (h : Explicit text) (hpart : part <:+: text) :
    Explicit part :=
  List.IsChain.infix h hpart

/-- A sign or spacing takes part in no product with what follows it. -/
theorem cons {c : Char} {text : List Char} (h : Explicit text)
    (hc : c.isAlphanum = false ∧ c ≠ ')') : Explicit (c :: text) :=
  List.IsChain.cons h fun _ _ => juxtaposed_eq_false_of_left hc.1 hc.2

theorem space {text : List Char} (h : Explicit text) : Explicit (' ' :: text) :=
  h.cons (by decide)

/-- An operator between two spaces takes part in no product. -/
theorem operator {text : List Char} (h : Explicit text) (op : Char)
    (hop : op.isAlphanum = false ∧ op ≠ ')') : Explicit (' ' :: op :: ' ' :: text) :=
  (h.space.cons hop).space

/-- Whatever stands in front of a text that begins no factor, it takes part in no product with
it. -/
theorem cons_of_apart {c : Char} {text : List Char} (h : Explicit text) (hapart : Apart text) :
    Explicit (c :: text) :=
  List.IsChain.cons h fun d hd => juxtaposed_eq_false_of_right (hapart d hd).1 (hapart d hd).2

/-- Two explicit texts may stand side by side if the second begins no factor. -/
theorem append {front back : List Char} (hf : Explicit front) (hb : Explicit back)
    (hapart : Apart back) : Explicit (front ++ back) :=
  List.isChain_append.mpr ⟨hf, hb, fun _ _ d hd =>
    juxtaposed_eq_false_of_right (hapart d hd).1 (hapart d hd).2⟩

/-- A word between two spaces takes part in no product. -/
theorem word {text : List Char} (h : Explicit text) (word : List Char) (hword : Explicit word) :
    Explicit (' ' :: (word ++ ' ' :: text)) :=
  (hword.append h.space (Apart.cons (by decide) text)).space

end Explicit

/-! ### Making products explicit -/

/-- A star is never written in front of a text. -/
@[simp] theorem head?_explicitProducts (text : List Char) :
    (explicitProducts text).head? = text.head? := by
  induction text using explicitProducts.induct with
  | case1 => rfl
  | case2 a => rfl
  | case3 a b text hjuxtaposed _ =>
    rw [explicitProducts_of_juxtaposed hjuxtaposed]
    rfl
  | case4 a b text hnot _ =>
    rw [explicitProducts_of_not_juxtaposed hnot]
    rfl

/-- Once products are made explicit, none is implicit: a star keeps its neighbours apart. -/
theorem explicit_explicitProducts (text : List Char) : Explicit (explicitProducts text) := by
  induction text using explicitProducts.induct with
  | case1 => exact List.isChain_nil
  | case2 a => exact List.isChain_singleton a
  | case3 a b text hjuxtaposed ih =>
    rw [explicitProducts_of_juxtaposed hjuxtaposed]
    have hstar : Explicit ('*' :: explicitProducts (b :: text)) := ih.cons (by decide)
    exact hstar.cons_of_apart (Apart.cons (by decide) _)
  | case4 a b text hnot ih =>
    rw [explicitProducts_of_not_juxtaposed hnot]
    refine List.IsChain.cons ih fun c hc => ?_
    rw [head?_explicitProducts] at hc
    obtain rfl : b = c := Option.some.inj hc
    exact Bool.eq_false_iff.mpr hnot

/-- Products are made explicit part by part where the parts do not touch. -/
theorem explicitProducts_append {front back : List Char}
    (hseam : ∀ a ∈ front.getLast?, ∀ b ∈ back.head?, juxtaposed a b = false) :
    explicitProducts (front ++ back) = explicitProducts front ++ explicitProducts back := by
  induction front using explicitProducts.induct with
  | case1 => rfl
  | case2 a =>
    cases back with
    | nil => rfl
    | cons b back =>
      have hnot : juxtaposed a b = false := hseam a rfl b rfl
      exact explicitProducts_of_not_juxtaposed (Bool.eq_false_iff.mp hnot) back
  | case3 a b text hjuxtaposed ih =>
    simp only [List.cons_append, explicitProducts_of_juxtaposed hjuxtaposed]
    exact congrArg (a :: '*' :: ·) (ih hseam)
  | case4 a b text hnot ih =>
    simp only [List.cons_append, explicitProducts_of_not_juxtaposed hnot]
    exact congrArg (a :: ·) (ih hseam)

/-- Where two parts stand for a product, a star is written between them. -/
theorem explicitProducts_append_juxtaposed {front back : List Char} {a b : Char}
    (ha : a ∈ front.getLast?) (hb : b ∈ back.head?) (hjuxtaposed : juxtaposed a b = true) :
    explicitProducts (front ++ back) = explicitProducts front ++ '*' :: explicitProducts back := by
  induction front using explicitProducts.induct with
  | case1 => cases ha
  | case2 c =>
    obtain rfl : c = a := Option.some.inj ha
    cases back with
    | nil => cases hb
    | cons d back =>
      obtain rfl : d = b := Option.some.inj hb
      exact explicitProducts_of_juxtaposed hjuxtaposed back
  | case3 c d text hstar ih =>
    simp only [List.cons_append, explicitProducts_of_juxtaposed hstar]
    exact congrArg (c :: '*' :: ·) (ih ha)
  | case4 c d text hnot ih =>
    simp only [List.cons_append, explicitProducts_of_not_juxtaposed hnot]
    exact congrArg (c :: ·) (ih ha)

/-- Wherever a text is cut in two, at most one star goes between the parts. -/
theorem exists_explicitProducts_append (front back : List Char) :
    ∃ star, explicitProducts (front ++ back)
      = explicitProducts front ++ (star ++ explicitProducts back) := by
  by_cases hseam : ∀ a ∈ front.getLast?, ∀ b ∈ back.head?, juxtaposed a b = false
  · exact ⟨[], explicitProducts_append hseam⟩
  · simp only [not_forall, Bool.not_eq_false] at hseam
    obtain ⟨a, ha, b, hb, hjuxtaposed⟩ := hseam
    exact ⟨['*'], explicitProducts_append_juxtaposed ha hb hjuxtaposed⟩

/-- Of a part of a text, products are made explicit as within the text. -/
theorem explicitProducts_infix {part text : List Char} (h : part <:+: text) :
    explicitProducts part <:+: explicitProducts text := by
  obtain ⟨before, behind, rfl⟩ := h
  obtain ⟨star, hback⟩ := exists_explicitProducts_append (before ++ part) behind
  obtain ⟨star', hfront⟩ := exists_explicitProducts_append before part
  rw [hback, hfront]
  exact ⟨explicitProducts before ++ star', star ++ explicitProducts behind, by simp⟩

theorem explicitProducts_append_of_apart (front : List Char) {back : List Char} (h : Apart back) :
    explicitProducts (front ++ back) = explicitProducts front ++ explicitProducts back :=
  explicitProducts_append fun _ _ b hb => juxtaposed_eq_false_of_right (h b hb).1 (h b hb).2

theorem explicitProducts_cons {c : Char} (hc : c.isAlphanum = false ∧ c ≠ ')')
    (text : List Char) : explicitProducts (c :: text) = c :: explicitProducts text := by
  have happend :
      explicitProducts ([c] ++ text) = explicitProducts [c] ++ explicitProducts text := by
    refine explicitProducts_append fun a ha _ _ => ?_
    obtain rfl : c = a := Option.some.inj ha
    exact juxtaposed_eq_false_of_left hc.1 hc.2
  exact happend

/-- Signs and spacing stay as they are in front of a text. -/
theorem explicitProducts_signs {signs : List Char}
    (hsigns : ∀ c ∈ signs, c.isAlphanum = false ∧ c ≠ ')') (back : List Char) :
    explicitProducts (signs ++ back) = signs ++ explicitProducts back := by
  induction signs with
  | nil => rfl
  | cons c signs ih =>
    obtain ⟨hc, hmore⟩ := List.forall_mem_cons.mp hsigns
    rw [List.cons_append, explicitProducts_cons hc, ih hmore]
    rfl

theorem explicitProducts_of_signs {signs : List Char}
    (hsigns : ∀ c ∈ signs, c.isAlphanum = false ∧ c ≠ ')') : explicitProducts signs = signs := by
  have hself := explicitProducts_signs hsigns []
  rwa [List.append_nil, explicitProducts_nil, List.append_nil] at hself

/-- Signs and spacing keep the products on either side apart. -/
theorem explicitProducts_separate (front back : List Char) {signs : List Char} (hne : signs ≠ [])
    (hsigns : ∀ c ∈ signs, c.isAlphanum = false ∧ c ≠ '(' ∧ c ≠ ')') :
    explicitProducts (front ++ (signs ++ back))
      = explicitProducts front ++ (signs ++ explicitProducts back) := by
  have hapart : Apart (signs ++ back) := by
    obtain ⟨c, signs, rfl⟩ := List.exists_cons_of_ne_nil hne
    have hc := hsigns c (List.mem_cons_self ..)
    exact Apart.cons ⟨hc.1, hc.2.1⟩ _
  rw [explicitProducts_append_of_apart front hapart,
    explicitProducts_signs fun c hc => ⟨(hsigns c hc).1, (hsigns c hc).2.2⟩]

/-- Making products explicit takes nothing away. -/
theorem sublist_explicitProducts (text : List Char) : text.Sublist (explicitProducts text) := by
  induction text using explicitProducts.induct with
  | case1 => exact List.Sublist.refl _
  | case2 a => exact List.Sublist.refl _
  | case3 a b text hjuxtaposed ih =>
    rw [explicitProducts_of_juxtaposed hjuxtaposed]
    exact (ih.cons '*').cons_cons a
  | case4 a b text hnot ih =>
    rw [explicitProducts_of_not_juxtaposed hnot]
    exact ih.cons_cons a

/-- Stars change nothing about parentheses. -/
@[simp] theorem openAfter_explicitProducts (depth : Nat) (text : List Char) :
    openAfter depth (explicitProducts text) = openAfter depth text := by
  have hcons : ∀ {c : Char} {text other : List Char} {depth : Nat},
      (∀ depth, openAfter depth text = openAfter depth other) →
      openAfter depth (c :: text) = openAfter depth (c :: other) := by
    intro c text other depth h
    cases depth <;> simp only [openAfter, h]
  induction text using explicitProducts.induct generalizing depth with
  | case1 => rfl
  | case2 a => rfl
  | case3 a b text hjuxtaposed ih =>
    rw [explicitProducts_of_juxtaposed hjuxtaposed]
    exact hcons fun depth => (openAfter_cons (by decide) (by decide) _).trans (ih depth)
  | case4 a b text hnot ih =>
    rw [explicitProducts_of_not_juxtaposed hnot]
    exact hcons ih

@[simp] theorem peak_explicitProducts (depth : Nat) (text : List Char) :
    peak depth (explicitProducts text) = peak depth text := by
  have hcons : ∀ {c : Char} {text other : List Char} {depth : Nat},
      (∀ depth, peak depth text = peak depth other) →
      peak depth (c :: text) = peak depth (c :: other) := by
    intro c text other depth h
    simp only [peak, h]
  induction text using explicitProducts.induct generalizing depth with
  | case1 => rfl
  | case2 a => rfl
  | case3 a b text hjuxtaposed ih =>
    rw [explicitProducts_of_juxtaposed hjuxtaposed]
    exact hcons fun depth => ih depth
  | case4 a b text hnot ih =>
    rw [explicitProducts_of_not_juxtaposed hnot]
    exact hcons ih

@[simp] theorem balanced_explicitProducts {text : List Char} :
    Balanced (explicitProducts text) ↔ Balanced text := by
  unfold Balanced
  rw [openAfter_explicitProducts]

@[simp] theorem nesting_explicitProducts (text : List Char) :
    nesting (explicitProducts text) = nesting text :=
  peak_explicitProducts 0 text

/-! ### Behind a factor -/

/-- What stands behind a factor if a further one needs a star: neither a digit nor a
parenthesis. -/
def Detached (text : List Char) : Prop :=
  ∀ c ∈ text.head?, c.isDigit = false ∧ c ≠ '('

/-- The text ends with a factor: a digit or a parenthesis behind it would be a further one. A run of
digits ends where no digit follows. -/
def EndsFactor (text tail : List Char) : Prop :=
  ∃ a ∈ text.getLast?, ∀ c ∈ tail.head?, c.isDigit = true ∨ c = '(' → juxtaposed a c = true

theorem EndsFactor.append_left {text tail : List Char} (h : EndsFactor text tail)
    (front : List Char) : EndsFactor (front ++ text) tail := by
  obtain ⟨a, ha, hfactor⟩ := h
  exact ⟨a, List.mem_getLast?_append_of_mem_getLast? ha, hfactor⟩

theorem endsFactor_of_isAlpha {a : Char} (ha : a.isAlpha = true) (front tail : List Char) :
    EndsFactor (front ++ [a]) tail := by
  refine ⟨a, by simp, fun c _ hc => ?_⟩
  rcases hc with hdigit | rfl
  · simp [juxtaposed, ha, hdigit]
  · simp [juxtaposed, Char.isAlphanum, ha]

theorem endsFactor_of_close (front tail : List Char) : EndsFactor (front ++ [')']) tail := by
  refine ⟨')', by simp, fun c _ hc => ?_⟩
  rcases hc with hdigit | rfl
  · simp [juxtaposed, Char.isAlphanum, hdigit]
  · rfl

theorem endsFactor_of_digits {front digits tail : List Char} (hne : digits ≠ [])
    (hdigits : ∀ c ∈ digits, c.isDigit = true) (hend : ∀ c ∈ tail.head?, c.isDigit = false) :
    EndsFactor (front ++ digits) tail := by
  obtain ⟨digits, a, rfl⟩ := List.eq_nil_or_concat' digits |>.resolve_left hne
  have ha : a.isDigit = true := hdigits a (by simp)
  refine ⟨a, by simp, fun c hc hfactor => ?_⟩
  rcases hfactor with hdigit | rfl
  · rw [hend c hc] at hdigit
    cases hdigit
  · simp [juxtaposed, Char.isAlphanum, ha]

/-- In an explicit text, a factor behind another one needs a star. -/
theorem Explicit.detached {text tail : List Char} (h : Explicit (text ++ tail))
    (hends : EndsFactor text tail) : Detached tail := by
  obtain ⟨a, ha, hfactor⟩ := hends
  intro c hc
  have hnot : ¬(c.isDigit = true ∨ c = '(') := fun hnext => by
    have hseam : juxtaposed a c = false := (List.isChain_append.mp h).2.2 a ha c hc
    rw [hfactor c hc hnext] at hseam
    cases hseam
  exact ⟨Bool.eq_false_iff.mpr fun hdigit => hnot (.inl hdigit), fun hopen => hnot (.inr hopen)⟩

end Diophantine
