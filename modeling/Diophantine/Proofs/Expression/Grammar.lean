import Mathlib.Data.List.Chain
import Diophantine.Expression.Parser
import Diophantine.Proofs.Nesting

/-!
# The grammar of expressions

Which texts are expressions, and of which trees, said without a reader. Spacing may stand in front
of every term and every sign, and behind a clause.

- `SignText`, `Expression.Derives`: the grammar, one layer for each level of precedence;
- `Expression.Derives.balanced`: whatever is derived pairs up its parentheses;
- `Expression.Derives.mem_alphabet`, `Expression.Derives.letters_apart`: which characters may
  occur, and that letters never touch;
- `Expression.Derives.strip`, `Expression.Derives.opens`: what a derived text begins with.

The limit on nesting is not part of the grammar: it concerns a text as a whole, and `nesting`
measures it.
-/

namespace Diophantine

/-- A text that holds nothing but spacing. -/
def Spaced (text : List Char) : Prop :=
  ∀ c ∈ text, isSpacing c = true

namespace Spaced

theorem nil : Spaced [] := nofun

/-- A single space, as it is rendered around signs. -/
theorem single : Spaced [' '] := by
  intro c hc
  rw [List.mem_singleton.mp hc]
  rfl

theorem append {front back : List Char} (hf : Spaced front) (hb : Spaced back) :
    Spaced (front ++ back) :=
  fun c hc => (List.mem_append.mp hc).elim (hf c) (hb c)

end Spaced

/-- The text in front of a term: spacing, and a minus sign if the term is negative. -/
inductive SignText : Bool → List Char → Prop
  | plain {space : List Char} (hspace : Spaced space) : SignText false space
  | minus {before behind : List Char} (hbefore : Spaced before) (hbehind : Spaced behind) :
      SignText true (before ++ '-' :: behind)

namespace Expression

/-- The layers of the grammar, from the tightest. -/
inductive Layer
  | term
  | product
  | sum
  | clause

/-- The text derives the tree on a layer of the grammar. -/
inductive Derives : Layer → List Char → Expression → Prop
  /-- Digits and their sign are one constant. The digits have to be in range without their sign. -/
  | constant {negative : Bool} {sign digits : List Char} {value : Value}
      (hsign : SignText negative sign) (hne : digits ≠ [])
      (hdigits : ∀ c ∈ digits, c.isDigit = true)
      (hrange : Nat.ofDigitChars 10 digits 0 ≤ 9223372036854775807)
      (hvalue : value.toInt = if negative then -(Nat.ofDigitChars 10 digits 0 : Int)
        else Nat.ofDigitChars 10 digits 0) :
      Derives .term (sign ++ digits) (.constant value)
  /-- A letter is a variable, and behind a sign it is multiplied by minus one. -/
  | var {negative : Bool} {sign : List Char} {name : Name}
      (hsign : SignText negative sign) (hname : name.isAlpha = true) :
      Derives .term (sign ++ [name])
        (if negative then .mul (.constant (-1)) (.var name) else .var name)
  /-- A clause in parentheses is a term, and behind a sign it is multiplied by minus one. -/
  | group {negative : Bool} {sign inner : List Char} {tree : Expression}
      (hsign : SignText negative sign) (hinner : Derives .clause inner tree) :
      Derives .term (sign ++ '(' :: (inner ++ [')']))
        (if negative then .mul (.constant (-1)) tree else tree)
  | factor {text : List Char} {tree : Expression} (hterm : Derives .term text tree) :
      Derives .product text tree
  | times {front space back : List Char} {left right : Expression}
      (hleft : Derives .product front left) (hspace : Spaced space)
      (hright : Derives .term back right) :
      Derives .product (front ++ (space ++ '*' :: back)) (.mul left right)
  | summand {text : List Char} {tree : Expression} (hproduct : Derives .product text tree) :
      Derives .sum text tree
  | plus {front space back : List Char} {left right : Expression}
      (hleft : Derives .sum front left) (hspace : Spaced space)
      (hright : Derives .product back right) :
      Derives .sum (front ++ (space ++ '+' :: back)) (.add left right)
  /-- A minus sign between two products belongs to the second one. -/
  | minus {front space back : List Char} {left right : Expression}
      (hleft : Derives .sum front left) (hspace : Spaced space)
      (hright : Derives .product ('-' :: back) right) :
      Derives .sum (front ++ (space ++ '-' :: back)) (.add left right)
  | clause {text space : List Char} {tree : Expression}
      (hsum : Derives .sum text tree) (hspace : Spaced space) :
      Derives .clause (text ++ space) tree

/-- Digits that are taken for a value derive its constant. -/
theorem Derives.numeral {negative : Bool} {sign digits : List Char} {value : Value}
    (hsign : SignText negative sign) (hne : digits ≠ [])
    (hdigits : ∀ c ∈ digits, c.isDigit = true)
    (hdenotes : Value.ofDigits? negative digits = some value) :
    Derives .term (sign ++ digits) (.constant value) :=
  have ⟨hrange, hvalue⟩ := Value.ofDigits?_eq_some_iff.mp hdenotes
  .constant hsign hne hdigits hrange hvalue

end Expression

/-! ### Characters -/

/-- A character without a role of its own around terms: it neither stands for a parenthesis nor is
it a letter. -/
def Neutral (c : Char) : Prop :=
  c ≠ '(' ∧ c ≠ ')' ∧ c.isAlpha = false

instance : DecidablePred Neutral :=
  fun c => inferInstanceAs (Decidable (c ≠ '(' ∧ c ≠ ')' ∧ c.isAlpha = false))

theorem neutral_of_isSpacing {c : Char} (h : isSpacing c = true) : Neutral c := by
  simp only [isSpacing, Bool.or_eq_true, beq_iff_eq] at h
  rcases h with ((rfl | rfl) | rfl) | rfl <;> decide

theorem neutral_of_isDigit {c : Char} (h : c.isDigit = true) : Neutral c := by
  refine ⟨?_, ?_, ?_⟩
  · rintro rfl
    exact absurd h (by decide)
  · rintro rfl
    exact absurd h (by decide)
  · have htop : c.toNat ≤ 57 := (Char.isDigit_iff_toNat.mp h).2
    refine Bool.eq_false_iff.mpr fun hletter => ?_
    rcases Bool.or_eq_true_iff.mp hletter with hupper | hlower
    · have hlow : 65 ≤ c.toNat := UInt32.le_iff_toNat_le.mp (of_decide_eq_true hupper).1
      omega
    · have hlow : 97 ≤ c.toNat :=
        UInt32.le_iff_toNat_le.mp (of_decide_eq_true (Bool.and_eq_true_iff.mp hlower).1)
      omega

theorem not_parenthesis_of_isAlpha {c : Char} (h : c.isAlpha = true) : c ≠ '(' ∧ c ≠ ')' := by
  constructor
  · rintro rfl
    exact absurd h (by decide)
  · rintro rfl
    exact absurd h (by decide)

theorem Spaced.neutral {text : List Char} (h : Spaced text) : ∀ c ∈ text, Neutral c :=
  fun c hc => neutral_of_isSpacing (h c hc)

theorem SignText.neutral {negative : Bool} {sign : List Char} (h : SignText negative sign) :
    ∀ c ∈ sign, Neutral c := by
  cases h with
  | plain hspace => exact hspace.neutral
  | minus hbefore hbehind =>
    intro c hc
    rcases List.mem_append.mp hc with hc | hc
    · exact hbefore.neutral c hc
    · rcases List.mem_cons.mp hc with rfl | hc
      · decide
      · exact hbehind.neutral c hc

/-! ### Parentheses -/

theorem Balanced.of_neutral {text : List Char} (h : ∀ c ∈ text, Neutral c) :
    Balanced text ∧ nesting text = 0 :=
  Balanced.of_plain fun c hc => ⟨(h c hc).1, (h c hc).2.1⟩

/-- An operator with spacing in front changes nothing about the parentheses around it. -/
theorem Balanced.operator {front space back : List Char} {op : Char} (hf : Balanced front)
    (hspace : Spaced space) (hop : Neutral op) (hb : Balanced back) :
    Balanced (front ++ (space ++ op :: back))
      ∧ nesting (front ++ (space ++ op :: back)) = max (nesting front) (nesting back) := by
  have hneutral : ∀ c ∈ space ++ [op], Neutral c := by
    intro c hc
    rcases List.mem_append.mp hc with hc | hc
    · exact hspace.neutral c hc
    · rw [List.mem_singleton.mp hc]
      exact hop
  obtain ⟨hbal, hnest⟩ := Balanced.of_neutral hneutral
  have hmiddle : space ++ op :: back = (space ++ [op]) ++ back := by simp
  rw [hmiddle]
  refine ⟨hf.append (hbal.append hb), ?_⟩
  rw [hf.nesting_append, hbal.nesting_append, hnest, Nat.zero_max]

namespace Expression

theorem Derives.balanced {layer : Layer} {text : List Char} {tree : Expression}
    (h : Derives layer text tree) : Balanced text := by
  induction h with
  | constant hsign _ hdigits =>
    exact (Balanced.of_neutral hsign.neutral).1.append
      (Balanced.of_neutral fun c hc => neutral_of_isDigit (hdigits c hc)).1
  | var hsign hname =>
    refine (Balanced.of_neutral hsign.neutral).1.append (Balanced.of_plain fun c hc => ?_).1
    rw [List.mem_singleton.mp hc]
    exact not_parenthesis_of_isAlpha hname
  | group hsign _ ih => exact (Balanced.of_neutral hsign.neutral).1.append ih.group.1
  | factor _ ih => exact ih
  | times _ hspace _ ihl ihr =>
    exact (ihl.operator hspace (by decide) ihr).1
  | summand _ ih => exact ih
  | plus _ hspace _ ihl ihr =>
    exact (ihl.operator hspace (by decide) ihr).1
  | minus _ hspace _ ihl ihr =>
    exact ihl.append ((Balanced.of_neutral hspace.neutral).1.append ihr)
  | clause _ hspace ih => exact ih.append (Balanced.of_neutral hspace.neutral).1

end Expression

/-! ### The alphabet -/

/-- The characters that expressions are written with. -/
def inAlphabet (c : Char) : Bool :=
  isSpacing c || c.isAlphanum || c == '+' || c == '-' || c == '*' || c == '(' || c == ')'

theorem Spaced.inAlphabet {text : List Char} (h : Spaced text) :
    ∀ c ∈ text, inAlphabet c = true := by
  intro c hc
  simp [Diophantine.inAlphabet, h c hc]

theorem SignText.inAlphabet {negative : Bool} {sign : List Char} (h : SignText negative sign) :
    ∀ c ∈ sign, inAlphabet c = true := by
  cases h with
  | plain hspace => exact hspace.inAlphabet
  | minus hbefore hbehind =>
    intro c hc
    rcases List.mem_append.mp hc with hc | hc
    · exact hbefore.inAlphabet c hc
    · rcases List.mem_cons.mp hc with rfl | hc
      · rfl
      · exact hbehind.inAlphabet c hc

namespace Expression

theorem Derives.mem_alphabet {layer : Layer} {text : List Char} {tree : Expression}
    (h : Derives layer text tree) : ∀ c ∈ text, inAlphabet c = true := by
  induction h with
  | constant hsign _ hdigits =>
    intro c hc
    rcases List.mem_append.mp hc with hc | hc
    · exact hsign.inAlphabet c hc
    · simp [inAlphabet, Char.isAlphanum, hdigits c hc]
  | var hsign hname =>
    intro c hc
    rcases List.mem_append.mp hc with hc | hc
    · exact hsign.inAlphabet c hc
    · rw [List.mem_singleton.mp hc]
      simp [inAlphabet, Char.isAlphanum, hname]
  | group hsign _ ih =>
    intro c hc
    simp only [List.mem_append, List.mem_cons, List.not_mem_nil, or_false] at hc
    rcases hc with hc | rfl | hc | rfl
    · exact hsign.inAlphabet c hc
    · rfl
    · exact ih c hc
    · rfl
  | factor _ ih => exact ih
  | times _ hspace _ ihl ihr | plus _ hspace _ ihl ihr =>
    intro c hc
    simp only [List.mem_append, List.mem_cons] at hc
    rcases hc with hc | hc | rfl | hc
    · exact ihl c hc
    · exact hspace.inAlphabet c hc
    · rfl
    · exact ihr c hc
  | summand _ ih => exact ih
  | minus _ hspace _ ihl ihr =>
    intro c hc
    rcases List.mem_append.mp hc with hc | hc
    · exact ihl c hc
    · rcases List.mem_append.mp hc with hc | hc
      · exact hspace.inAlphabet c hc
      · exact ihr c hc
  | clause _ hspace ih =>
    intro c hc
    rcases List.mem_append.mp hc with hc | hc
    · exact ih c hc
    · exact hspace.inAlphabet c hc

/-- A character outside the alphabet does not occur. -/
theorem Derives.not_mem {layer : Layer} {text : List Char} {tree : Expression}
    (h : Derives layer text tree) {c : Char} (hc : inAlphabet c = false) : c ∉ text := by
  intro hmem
  rw [h.mem_alphabet c hmem] at hc
  cases hc

end Expression

/-! ### Letters -/

/-- No two letters of a text stand side by side. -/
def LettersApart (text : List Char) : Prop :=
  text.IsChain fun a b => a.isAlpha = true → b.isAlpha = false

namespace LettersApart

theorem of_neutral {text : List Char} (h : ∀ c ∈ text, c.isAlpha = false) :
    LettersApart text := by
  induction text with
  | nil => exact List.isChain_nil
  | cons c text ih =>
    refine (ih fun d hd => h d (List.mem_cons_of_mem _ hd)).cons fun d _ hc => ?_
    rw [h c (List.mem_cons_self ..)] at hc
    cases hc

/-- Behind text without letters, anything may follow. -/
theorem append_of_front {front back : List Char} (hf : ∀ c ∈ front, c.isAlpha = false)
    (hb : LettersApart back) : LettersApart (front ++ back) := by
  refine List.isChain_append.mpr ⟨of_neutral hf, hb, fun c hc _ _ hletter => ?_⟩
  rw [hf c (List.mem_of_getLast? hc)] at hletter
  cases hletter

/-- Text that begins with no letter may follow anything. -/
theorem append_of_head {front back : List Char} (hf : LettersApart front)
    (hb : LettersApart back) (hhead : ∀ c ∈ back.head?, c.isAlpha = false) :
    LettersApart (front ++ back) :=
  List.isChain_append.mpr ⟨hf, hb, fun _ _ c hc _ => hhead c hc⟩

/-- An operator with spacing in front keeps letters apart. -/
theorem operator {front space back : List Char} {op : Char} (hf : LettersApart front)
    (hspace : Spaced space) (hop : op.isAlpha = false) (hb : LettersApart back) :
    LettersApart (front ++ (space ++ op :: back)) := by
  have hmiddle : ∀ c ∈ space ++ [op], c.isAlpha = false := by
    intro c hc
    rcases List.mem_append.mp hc with hc | hc
    · exact (hspace.neutral c hc).2.2
    · rw [List.mem_singleton.mp hc]
      exact hop
  have hsplit : space ++ op :: back = (space ++ [op]) ++ back := by simp
  rw [hsplit]
  refine hf.append_of_head (append_of_front hmiddle hb) fun c hc => hmiddle c ?_
  cases space with
  | nil =>
    obtain rfl : op = c := Option.some.inj hc
    exact List.mem_cons_self ..
  | cons d space =>
    obtain rfl : d = c := Option.some.inj hc
    exact List.mem_cons_self ..

end LettersApart

namespace Expression

theorem Derives.letters_apart {layer : Layer} {text : List Char} {tree : Expression}
    (h : Derives layer text tree) : LettersApart text := by
  induction h with
  | constant hsign _ hdigits =>
    refine LettersApart.of_neutral fun c hc => ?_
    rcases List.mem_append.mp hc with hc | hc
    · exact (hsign.neutral c hc).2.2
    · exact (neutral_of_isDigit (hdigits c hc)).2.2
  | var hsign _ =>
    exact LettersApart.append_of_front (fun c hc => (hsign.neutral c hc).2.2)
      (List.isChain_singleton _)
  | group hsign _ ih =>
    refine LettersApart.append_of_front (fun c hc => (hsign.neutral c hc).2.2) ?_
    have hopen : ∀ c ∈ ['('], c.isAlpha = false := List.forall_mem_singleton.mpr rfl
    refine LettersApart.append_of_front hopen ?_
    refine ih.append_of_head (List.isChain_singleton _) fun c hc => ?_
    obtain rfl : ')' = c := Option.some.inj hc
    rfl
  | factor _ ih => exact ih
  | times _ hspace _ ihl ihr => exact ihl.operator hspace (by decide) ihr
  | summand _ ih => exact ih
  | plus _ hspace _ ihl ihr => exact ihl.operator hspace (by decide) ihr
  | minus _ hspace _ ihl ihr => exact ihl.operator hspace (by decide) ihr.tail
  | clause _ hspace ih =>
    refine ih.append_of_head ?_ fun c hc => ?_
    · exact LettersApart.of_neutral fun c hc => (hspace.neutral c hc).2.2
    · exact (hspace.neutral c (List.mem_of_head? hc)).2.2

end Expression

/-! ### Beginnings -/

/-- What an expression begins with, behind spacing. A parenthesis there belongs to a group that is
part of the expression. -/
inductive Opens : List Char → Prop
  | minus {rest : List Char} : Opens ('-' :: rest)
  | alphanum {c : Char} {rest : List Char} (hc : c.isAlphanum = true) : Opens (c :: rest)
  | group {inner rest : List Char} (hinner : Balanced inner) :
      Opens ('(' :: (inner ++ ')' :: rest))

theorem Opens.append {front : List Char} (h : Opens front) (back : List Char) :
    Opens (front ++ back) := by
  cases h with
  | minus => exact .minus
  | alphanum hc => exact .alphanum hc
  | group hinner =>
    simp only [List.cons_append, List.append_assoc]
    exact .group hinner

theorem Opens.ne_nil {text : List Char} (h : Opens text) : text ≠ [] := by
  rintro rfl
  cases h

theorem Opens.not_spacing {text : List Char} (h : Opens text) :
    ∀ c ∈ text.head?, isSpacing c = false := by
  intro c hc
  refine Bool.eq_false_iff.mpr fun hspacing => ?_
  have hneutral := neutral_of_isSpacing hspacing
  cases h with
  | minus =>
    obtain rfl : '-' = c := Option.some.inj hc
    cases hspacing
  | @alphanum d _ hd =>
    obtain rfl : d = c := Option.some.inj hc
    simp only [isSpacing, Bool.or_eq_true, beq_iff_eq] at hspacing
    rcases hspacing with ((rfl | rfl) | rfl) | rfl <;> cases hd
  | group => exact hneutral.1 (Option.some.inj hc).symm

/-- A sign is one without the spacing in front of it too. -/
theorem SignText.strip {negative : Bool} {sign rest : List Char} (h : SignText negative sign)
    (hrest : Opens rest) :
    ∃ space core, sign = space ++ core ∧ Spaced space ∧ SignText negative core
      ∧ Opens (core ++ rest) := by
  cases h with
  | plain hspace => exact ⟨_, [], (List.append_nil _).symm, hspace, .plain Spaced.nil, hrest⟩
  | @minus before behind hbefore hbehind =>
    exact ⟨before, '-' :: behind, rfl, hbefore, .minus Spaced.nil hbehind, .minus⟩

namespace Expression

/-- Without the spacing in front of it, a text derives the same tree. -/
theorem Derives.strip {layer : Layer} {text : List Char} {tree : Expression}
    (h : Derives layer text tree) :
    ∃ space core, text = space ++ core ∧ Spaced space ∧ Opens core ∧ Derives layer core tree := by
  induction h with
  | @constant negative sign digits value hsign hne hdigits hrange hvalue =>
    obtain ⟨c, more, rfl⟩ := List.exists_cons_of_ne_nil hne
    have hc : c.isAlphanum = true := by
      rw [Char.isAlphanum, hdigits c (List.mem_cons_self ..), Bool.or_true]
    obtain ⟨space, core, rfl, hspace, hcore, hopens⟩ :=
      hsign.strip (show Opens (c :: more) from .alphanum hc)
    exact ⟨space, _, List.append_assoc .., hspace, hopens,
      .constant hcore hne hdigits hrange hvalue⟩
  | @var negative sign name hsign hname =>
    have hc : name.isAlphanum = true := by rw [Char.isAlphanum, hname, Bool.true_or]
    obtain ⟨space, core, rfl, hspace, hcore, hopens⟩ :=
      hsign.strip (show Opens [name] from .alphanum hc)
    exact ⟨space, _, List.append_assoc .., hspace, hopens, .var hcore hname⟩
  | @group negative sign inner tree hsign hinner _ =>
    have hgroup : Opens ('(' :: (inner ++ [')'])) := .group hinner.balanced
    obtain ⟨space, core, rfl, hspace, hcore, hopens⟩ := hsign.strip hgroup
    exact ⟨space, _, List.append_assoc .., hspace, hopens, .group hcore hinner⟩
  | factor _ ih =>
    obtain ⟨space, core, rfl, hspace, hopens, hcore⟩ := ih
    exact ⟨space, core, rfl, hspace, hopens, .factor hcore⟩
  | summand _ ih =>
    obtain ⟨space, core, rfl, hspace, hopens, hcore⟩ := ih
    exact ⟨space, core, rfl, hspace, hopens, .summand hcore⟩
  | times _ hmiddle hright ih _ =>
    obtain ⟨space, core, rfl, hspace, hopens, hcore⟩ := ih
    exact ⟨space, _, List.append_assoc .., hspace, hopens.append _, .times hcore hmiddle hright⟩
  | plus _ hmiddle hright ih _ =>
    obtain ⟨space, core, rfl, hspace, hopens, hcore⟩ := ih
    exact ⟨space, _, List.append_assoc .., hspace, hopens.append _, .plus hcore hmiddle hright⟩
  | minus _ hmiddle hright ih _ =>
    obtain ⟨space, core, rfl, hspace, hopens, hcore⟩ := ih
    exact ⟨space, _, List.append_assoc .., hspace, hopens.append _, .minus hcore hmiddle hright⟩
  | clause _ hbehind ih =>
    obtain ⟨space, core, rfl, hspace, hopens, hcore⟩ := ih
    exact ⟨space, _, List.append_assoc .., hspace, hopens.append _, .clause hcore hbehind⟩

/-- What stands in front of the beginning of a derived text is spacing. -/
theorem Derives.opens {layer : Layer} {text : List Char} {tree : Expression}
    (h : Derives layer text tree) :
    ∃ space back, text = space ++ back ∧ Spaced space ∧ Opens back := by
  obtain ⟨space, core, htext, hspace, hopens, -⟩ := h.strip
  exact ⟨space, core, htext, hspace, hopens⟩

/-- A derived text is never empty. -/
theorem Derives.ne_nil {layer : Layer} {text : List Char} {tree : Expression}
    (h : Derives layer text tree) : text ≠ [] := by
  obtain ⟨space, back, rfl, -, hopens⟩ := h.opens
  cases hopens <;> simp

end Expression

end Diophantine
