import Diophantine.Proofs.Exactness
import Diophantine.Proofs.Expression.Soundness

/-!
# Arithmetic as it is written

People write chains of operands: numbers, letters and chains in parentheses, with signs between them
or with nothing where a product is meant. A chain has a value by the rules that are taught at
school. Trees have no differences and no negations, and products are put in where there is no sign,
but the tree that a chain is parsed to stands for its value.

- `Surface.Operand`, `Surface.Chain`: what is written, with the text and the value of it;
- `Surface.Reads`: how far a chain has been read: the sum in front of its last product may still be
  joined by a longer product;
- `Surface.Operand.written`, `Surface.Chain.reads`: every operand and every chain is read;
- `Surface.Chain.parse_text`: what is parsed has the value that was written.
-/

namespace Diophantine

namespace Surface

/-! ### What is written -/

/-- A run of spaces, tabs, carriage returns and line feeds. -/
abbrev Spacing := { text : List Char // Spaced text }

/-- A run of digits for a number that is a value. -/
structure Literal where
  digits : List Char
  ne_nil : digits ≠ []
  isDigit : ∀ c ∈ digits, c.isDigit = true
  inRange : Nat.ofDigitChars 10 digits 0 ≤ 9223372036854775807

/-- An optional minus sign in front of an operand, with the spacing around it. -/
inductive Sign
  | plain (space : Spacing)
  | minus (before behind : Spacing)

/-- The three kinds of operands. -/
inductive Kind
  | literal
  | letter
  | group

/-- Where two operands may stand side by side without a sign. Two letters might be a word, and two
runs of digits would be one. -/
def Kind.Touches : Kind → Kind → Prop
  | .literal, .letter | .letter, .literal | .group, _ | _, .group => True
  | _, _ => False

/-- What stands between two operands: a sign, or nothing. Behind `+` and `*` the second one may have
a sign of its own. -/
inductive Link : Kind → Kind → Type
  | plus {front back : Kind} (before : Spacing) (sign : Sign) : Link front back
  | minus {front back : Kind} (before behind : Spacing) : Link front back
  | times {front back : Kind} (before : Spacing) (sign : Sign) : Link front back
  | touching {front back : Kind} (h : front.Touches back) : Link front back

mutual

/-- A number, a letter or a chain in parentheses. -/
inductive Operand : Kind → Type
  | literal (literal : Literal) : Operand .literal
  | letter (name : Name) (h : name.isAlpha = true) : Operand .letter
  | group {kind : Kind} (inner : Chain kind) (behind : Spacing) : Operand .group

/-- Operands with links between them. The kind of a chain is that of its last operand. -/
inductive Chain : Kind → Type
  | first {kind : Kind} (sign : Sign) (operand : Operand kind) : Chain kind
  | join {front back : Kind} (chain : Chain front) (link : Link front back)
      (operand : Operand back) : Chain back

end

/-! ### Texts -/

def Sign.text : Sign → List Char
  | .plain space => space.val
  | .minus before behind => before.val ++ '-' :: behind.val

def Link.text {front back : Kind} : Link front back → List Char
  | .plus before sign => before.val ++ '+' :: sign.text
  | .minus before behind => before.val ++ '-' :: behind.val
  | .times before sign => before.val ++ '*' :: sign.text
  | .touching _ => []

mutual

def Operand.text {kind : Kind} : Operand kind → List Char
  | .literal literal => literal.digits
  | .letter name _ => [name]
  | .group inner behind => '(' :: ((inner.text ++ behind.val) ++ [')'])

def Chain.text {kind : Kind} : Chain kind → List Char
  | .first sign operand => sign.text ++ operand.text
  | .join chain link operand => chain.text ++ (link.text ++ operand.text)

end

mutual

/-- How deep the parentheses of an operand nest. -/
def Operand.depth {kind : Kind} : Operand kind → Nat
  | .literal _ | .letter _ _ => 0
  | .group inner _ => inner.depth + 1

/-- How deep the parentheses of a chain nest. -/
def Chain.depth {kind : Kind} : Chain kind → Nat
  | .first _ operand => operand.depth
  | .join chain _ operand => max chain.depth operand.depth

end

/-! ### Values -/

/-- What is known of the value of a chain while it goes on: the last product so far, and what is to
be done with it when it is complete. -/
structure Running where
  pending : Int → Int
  product : Int

/-- The value of a chain that ends here. -/
def Running.value (running : Running) : Int :=
  running.pending running.product

def Sign.apply : Sign → Int → Int
  | .plain _, value => value
  | .minus _ _, value => -value

/-- What one more operand makes of a value: `*` takes it into the last product, while `+` and `-`
complete this product and begin another one. -/
def Link.resume {front back : Kind} : Link front back → Running → Int → Running
  | .plus _ sign, running, value =>
    { pending := fun product => running.value + product, product := sign.apply value }
  | .minus _ _, running, value =>
    { pending := fun product => running.value - product, product := value }
  | .times _ sign, running, value =>
    { running with product := running.product * sign.apply value }
  | .touching _, running, value =>
    { running with product := running.product * value }

mutual

def Operand.value (σ : Name → Int) {kind : Kind} : Operand kind → Int
  | .literal literal => (Nat.ofDigitChars 10 literal.digits 0 : Nat)
  | .letter name _ => σ name
  | .group inner _ => (inner.running σ).value

def Chain.running (σ : Name → Int) {kind : Kind} : Chain kind → Running
  | .first sign operand => { pending := id, product := sign.apply (operand.value σ) }
  | .join chain link operand => link.resume (chain.running σ) (operand.value σ)

end

/-- The value of a chain. -/
def Chain.value (σ : Name → Int) {kind : Kind} (chain : Chain kind) : Int :=
  (chain.running σ).value

/-! ### Parentheses -/

def Sign.negative : Sign → Bool
  | .plain _ => false
  | .minus _ _ => true

theorem Sign.signText : (sign : Sign) → SignText sign.negative sign.text
  | .plain space => .plain space.property
  | .minus before behind => .minus before.property behind.property

/-- There are no parentheses between operands. -/
theorem Link.plain {front back : Kind} (link : Link front back) :
    ∀ c ∈ link.text, c ≠ '(' ∧ c ≠ ')' := by
  have hoperator : ∀ {op : Char} (space : Spacing) {text : List Char}, (op ≠ '(' ∧ op ≠ ')') →
      (∀ c ∈ text, c ≠ '(' ∧ c ≠ ')') →
      ∀ c ∈ space.val ++ op :: text, c ≠ '(' ∧ c ≠ ')' := by
    intro op space text hop htext
    refine List.forall_mem_append.mpr ⟨fun c hc => (space.property.signs c hc).2, ?_⟩
    exact List.forall_mem_cons.mpr ⟨hop, htext⟩
  cases link with
  | plus before sign =>
    exact hoperator before (by decide) fun c hc => (sign.signText.signs c hc).2
  | minus before behind =>
    exact hoperator before (by decide) fun c hc => (behind.property.signs c hc).2
  | times before sign =>
    exact hoperator before (by decide) fun c hc => (sign.signText.signs c hc).2
  | touching h => exact nofun

mutual

theorem Operand.balanced {kind : Kind} : (operand : Operand kind) →
    Balanced operand.text ∧ nesting operand.text = operand.depth
  | .literal literal =>
    Balanced.of_neutral fun c hc => neutral_of_isDigit (literal.isDigit c hc)
  | .letter name h =>
    Balanced.of_plain (List.forall_mem_singleton.mpr (not_parenthesis_of_isAlpha h))
  | .group inner behind => by
    obtain ⟨hbal, hnest⟩ := inner.balanced
    obtain ⟨hspace, hflat⟩ := Balanced.of_neutral behind.property.neutral
    obtain ⟨hgroup, hdeep⟩ := (hbal.append hspace).group
    refine ⟨hgroup, hdeep.trans ?_⟩
    rw [hbal.nesting_append, hnest, hflat, Nat.max_zero]
    rfl

theorem Chain.balanced {kind : Kind} : (chain : Chain kind) →
    Balanced chain.text ∧ nesting chain.text = chain.depth
  | .first sign operand => by
    obtain ⟨hbal, hnest⟩ := operand.balanced
    obtain ⟨hsign, hflat⟩ := Balanced.of_neutral sign.signText.neutral
    refine ⟨hsign.append hbal, ?_⟩
    show nesting (sign.text ++ operand.text) = operand.depth
    rw [hsign.nesting_append, hflat, hnest, Nat.zero_max]
  | .join chain link operand => by
    obtain ⟨hfront, hfrontNest⟩ := chain.balanced
    obtain ⟨hback, hbackNest⟩ := operand.balanced
    obtain ⟨hlink, hflat⟩ := Balanced.of_plain link.plain
    refine ⟨hfront.append (hlink.append hback), ?_⟩
    show nesting (chain.text ++ (link.text ++ operand.text)) = max chain.depth operand.depth
    rw [hfront.nesting_append, hlink.nesting_append, hflat, hfrontNest, hbackNest, Nat.zero_max]

end

/-! ### Seams -/

/-- The characters that an operand may begin with. -/
def Kind.Begins : Kind → Char → Prop
  | .literal, c => c.isDigit = true
  | .letter, c => c.isAlpha = true
  | .group, c => c = '('

/-- The characters that an operand may end with. -/
def Kind.Ends : Kind → Char → Prop
  | .literal, c => c.isDigit = true
  | .letter, c => c.isAlpha = true
  | .group, c => c = ')'

/-- Where two operands may stand side by side, a product is put in between them. -/
theorem Kind.Touches.juxtaposed {front back : Kind} (h : front.Touches back) {a b : Char}
    (ha : front.Ends a) (hb : back.Begins b) : juxtaposed a b = true := by
  cases front with
  | literal =>
    have ha : a.isDigit = true := ha
    cases back with
    | literal => exact h.elim
    | letter =>
      have hb : b.isAlpha = true := hb
      simp [Diophantine.juxtaposed, ha, hb]
    | group =>
      obtain rfl : b = '(' := hb
      simp [Diophantine.juxtaposed, Char.isAlphanum, ha]
  | letter =>
    have ha : a.isAlpha = true := ha
    cases back with
    | literal =>
      have hb : b.isDigit = true := hb
      simp [Diophantine.juxtaposed, ha, hb]
    | letter => exact h.elim
    | group =>
      obtain rfl : b = '(' := hb
      simp [Diophantine.juxtaposed, Char.isAlphanum, ha]
  | group =>
    obtain rfl : a = ')' := ha
    cases back with
    | literal =>
      have hb : b.isDigit = true := hb
      simp [Diophantine.juxtaposed, Char.isAlphanum, hb]
    | letter =>
      have hb : b.isAlpha = true := hb
      simp [Diophantine.juxtaposed, Char.isAlphanum, hb]
    | group =>
      obtain rfl : b = '(' := hb
      rfl

theorem Operand.exists_begins {kind : Kind} (operand : Operand kind) :
    ∃ b ∈ operand.text.head?, kind.Begins b := by
  cases operand with
  | literal literal =>
    obtain ⟨b, digits, hdigits⟩ := List.exists_cons_of_ne_nil literal.ne_nil
    refine ⟨b, ?_, literal.isDigit b ?_⟩
    · show b ∈ literal.digits.head?
      rw [hdigits]
      rfl
    · rw [hdigits]
      exact List.mem_cons_self ..
  | letter name h => exact ⟨name, rfl, h⟩
  | group inner behind => exact ⟨'(', rfl, rfl⟩

theorem Operand.exists_ends {kind : Kind} (operand : Operand kind) :
    ∃ a ∈ operand.text.getLast?, kind.Ends a := by
  cases operand with
  | literal literal =>
    have hlast := List.getLast?_eq_some_getLast literal.ne_nil
    exact ⟨_, hlast, literal.isDigit _ (List.getLast_mem literal.ne_nil)⟩
  | letter name h => exact ⟨name, rfl, h⟩
  | group inner behind =>
    refine ⟨')', ?_, rfl⟩
    show ')' ∈ (['('] ++ ((inner.text ++ behind.val) ++ [')'])).getLast?
    exact List.mem_getLast?_append_of_mem_getLast?
      (List.mem_getLast?_append_of_mem_getLast? rfl)

/-! ### Operands are read -/

/-- Digits for a number in range are read as this number or its negation. -/
theorem Literal.exists_value (literal : Literal) (sign : Sign) :
    ∃ value, Value.ofDigits? sign.negative literal.digits = some value
      ∧ value.toInt = sign.apply (Nat.ofDigitChars 10 literal.digits 0 : Nat) := by
  have hrange := literal.inRange
  have hexact : (Int64.ofInt (sign.apply (Nat.ofDigitChars 10 literal.digits 0 : Nat))).toInt
      = sign.apply (Nat.ofDigitChars 10 literal.digits 0 : Nat) := by
    refine Int64.toInt_ofInt_of_le ?_ ?_ <;> cases sign <;> simp only [Sign.apply] <;> omega
  refine ⟨_, Value.ofDigits?_eq_some_iff.mpr ⟨hrange, ?_⟩, hexact⟩
  rw [hexact]
  cases sign <;> rfl

/-- A sign in front of a tree is a sign in front of its value. -/
theorem exact_signed (σ : Name → Int) (sign : Sign) (tree : Expression) :
    (signed sign.negative tree).exact σ = sign.apply (tree.exact σ) := by
  cases sign with
  | plain space => rfl
  | minus before behind => exact Expression.exact_negated σ tree

/-! ### Chains are read -/

/-- A chain has been read up to its last product, which has a tree of its own. A longer product
could take its place, and `embed` makes a tree for the whole chain of it. Where the last product is
subtracted, its tree stands for its negation, and the factor is minus one. -/
structure Reads (text : List Char) (running : (Name → Int) → Running) (front last : List Char)
    (tree : Expression) (embed : Expression → Expression) (factor : Int) : Prop where
  text_eq : text = front ++ last
  product : Expression.Written .product last tree
  product_eq : ∀ σ, tree.exact σ = factor * (running σ).product
  sum : ∀ more longer, Expression.Written .product (last ++ more) longer →
    Expression.Written .sum (front ++ (last ++ more)) (embed longer)
  sum_eq : ∀ σ longer value, longer.exact σ = factor * value →
    (embed longer).exact σ = (running σ).pending value

namespace Reads

/-- The first operand of a chain is a product of its own. -/
theorem first {text : List Char} {tree : Expression} {value : (Name → Int) → Int}
    (h : Expression.Written .term text tree) (hvalue : ∀ σ, tree.exact σ = value σ) :
    Reads text (fun σ => { pending := id, product := value σ }) [] text tree id 1 where
  text_eq := rfl
  product := h.factor
  product_eq := fun σ => by rw [hvalue, Int.one_mul]
  sum := fun _ _ hlonger => hlonger.summand
  sum_eq := fun σ longer value hlonger => hlonger.trans (Int.one_mul value)

variable {text : List Char} {running : (Name → Int) → Running} {front last : List Char}
  {tree : Expression} {embed : Expression → Expression} {factor : Int}
  (h : Reads text running front last tree embed factor)

include h

/-- A chain may end behind any product. -/
theorem whole : Expression.Written .sum text (embed tree)
    ∧ ∀ σ, (embed tree).exact σ = (running σ).value := by
  refine ⟨?_, fun σ => h.sum_eq σ tree _ (h.product_eq σ)⟩
  have hsum := h.sum [] tree (by rw [List.append_nil]; exact h.product)
  rwa [List.append_nil, ← h.text_eq] at hsum

variable {right : Expression} {value : (Name → Int) → Int}

/-- A further factor makes the last product longer. -/
theorem longer {more : List Char}
    (hproduct : Expression.Written .product (last ++ more) (.mul tree right))
    (hvalue : ∀ σ, right.exact σ = value σ) :
    Reads (text ++ more) (fun σ => { running σ with product := (running σ).product * value σ })
      front (last ++ more) (.mul tree right) embed factor where
  text_eq := by rw [h.text_eq, List.append_assoc]
  product := hproduct
  product_eq := fun σ => by
    rw [Expression.exact_mul, h.product_eq, hvalue, Int.mul_assoc]
  sum := fun further longer hlonger => by
    rw [List.append_assoc] at hlonger ⊢
    exact h.sum _ longer hlonger
  sum_eq := h.sum_eq

/-- Behind a plus sign another product begins. -/
theorem plus {space back : List Char} (hspace : Spaced space)
    (hright : Expression.Written .term back right) (hvalue : ∀ σ, right.exact σ = value σ) :
    Reads (text ++ (space ++ '+' :: back))
      (fun σ => { pending := fun product => (running σ).value + product, product := value σ })
      (text ++ (space ++ ['+'])) back right (.add (embed tree)) 1 where
  text_eq := by rw [List.append_assoc, List.append_assoc, List.singleton_append]
  product := hright.factor
  product_eq := fun σ => by rw [hvalue, Int.one_mul]
  sum := fun more longer hlonger => by
    rw [List.append_assoc, List.append_assoc, List.singleton_append]
    exact h.whole.1.plus hspace hlonger
  sum_eq := fun σ longer value hlonger => by
    rw [Expression.exact_add, h.whole.2, hlonger, Int.one_mul]

/-- Behind a minus sign another product begins, to which the sign belongs. -/
theorem minus {space back : List Char} (hspace : Spaced space)
    (hright : Expression.Written .term ('-' :: back) right)
    (hvalue : ∀ σ, right.exact σ = -value σ) :
    Reads (text ++ (space ++ '-' :: back))
      (fun σ => { pending := fun product => (running σ).value - product, product := value σ })
      (text ++ space) ('-' :: back) right (.add (embed tree)) (-1) where
  text_eq := (List.append_assoc ..).symm
  product := hright.factor
  product_eq := fun σ => by rw [hvalue, Int.neg_one_mul]
  sum := fun more longer hlonger => by
    rw [List.append_assoc]
    exact h.whole.1.minus hspace hlonger
  sum_eq := fun σ longer value hlonger => by
    rw [Expression.exact_add, h.whole.2, hlonger, Int.neg_one_mul]
    exact Int.sub_eq_add_neg.symm

/-- A link and an operand behind a chain that has been read. -/
theorem join {kind next : Kind} (hends : ∃ a ∈ last.getLast?, kind.Ends a) (link : Link kind next)
    {operand : Operand next}
    (hoperand : ∀ sign : Sign, ∃ tree, Expression.Written .term (sign.text ++ operand.text) tree
      ∧ ∀ σ, tree.exact σ = sign.apply (operand.value σ)) :
    ∃ front last tree embed factor,
      Reads (text ++ (link.text ++ operand.text))
          (fun σ => link.resume (running σ) (operand.value σ)) front last tree embed factor
        ∧ ∃ a ∈ last.getLast?, next.Ends a := by
  obtain ⟨c, hc, hclast⟩ := operand.exists_ends
  have hlast : ∀ before : List Char, c ∈ (before ++ operand.text).getLast? := fun _ =>
    List.mem_getLast?_append_of_mem_getLast? hc
  have hassoc : ∀ (before : List Char) (op : Char) (sign : List Char),
      before ++ op :: (sign ++ operand.text) = (before ++ op :: sign) ++ operand.text := by
    intro before op sign
    rw [List.append_assoc, List.cons_append]
  cases link with
  | plus before sign =>
    obtain ⟨right, hright, hvalue⟩ := hoperand sign
    have hreads := h.plus before.property hright hvalue
    rw [hassoc] at hreads
    exact ⟨_, _, _, _, _, hreads, c, hlast sign.text, hclast⟩
  | minus before behind =>
    obtain ⟨right, hright, hvalue⟩ := hoperand (.minus ⟨[], Spaced.nil⟩ behind)
    have hterm : Expression.Written .term ('-' :: (behind.val ++ operand.text)) right := hright
    have hreads := h.minus before.property hterm hvalue
    rw [hassoc] at hreads
    exact ⟨_, _, _, _, _, hreads, c, hlast ('-' :: behind.val), hclast⟩
  | times before sign =>
    obtain ⟨right, hright, hvalue⟩ := hoperand sign
    have hreads := h.longer (h.product.times before.property hright) hvalue
    rw [hassoc] at hreads
    refine ⟨_, _, _, _, _, hreads, c, ?_, hclast⟩
    rw [← List.append_assoc]
    exact hlast _
  | touching htouches =>
    obtain ⟨right, hright, hvalue⟩ := hoperand (.plain ⟨[], Spaced.nil⟩)
    obtain ⟨a, ha, haends⟩ := hends
    obtain ⟨b, hb, hbegins⟩ := operand.exists_begins
    have hjuxtaposed : juxtaposed a b = true := htouches.juxtaposed haends hbegins
    have hreads := h.longer (h.product.touching hright ha hb hjuxtaposed) hvalue
    exact ⟨_, _, _, _, _, hreads, c, hlast last, hclast⟩

end Reads

mutual

theorem Operand.written {kind : Kind} : (operand : Operand kind) → operand.depth ≤ maxNesting →
    ∀ sign : Sign, ∃ tree, Expression.Written .term (sign.text ++ operand.text) tree
      ∧ ∀ σ, tree.exact σ = sign.apply (operand.value σ)
  | .literal literal, _, sign => by
    obtain ⟨value, hvalue, hexact⟩ := literal.exists_value sign
    exact ⟨.constant value, .constant sign.signText literal.ne_nil literal.isDigit hvalue,
      fun _ => hexact⟩
  | .letter name h, _, sign => ⟨_, .var sign.signText h, fun σ => exact_signed σ sign _⟩
  | .group inner behind, hdepth, sign => by
    have hroom : inner.depth < maxNesting := hdepth
    obtain ⟨front, last, tree, embed, factor, hreads, -⟩ := inner.reads (Nat.le_of_lt hroom)
    obtain ⟨hsum, hexact⟩ := hreads.whole
    have hclause := hsum.clause behind.property
    have hnest : nesting (inner.text ++ behind.val) < maxNesting := by
      obtain ⟨hbal, hdeep⟩ := inner.balanced
      rw [hbal.nesting_append, hdeep, (Balanced.of_neutral behind.property.neutral).2, Nat.max_zero]
      exact hroom
    refine ⟨_, .group sign.signText hclause.derives hnest, fun σ => ?_⟩
    rw [exact_signed, hexact]
    rfl

theorem Chain.reads {kind : Kind} : (chain : Chain kind) → chain.depth ≤ maxNesting →
    ∃ front last tree embed factor,
      Reads chain.text (fun σ => chain.running σ) front last tree embed factor
        ∧ ∃ a ∈ last.getLast?, kind.Ends a
  | .first sign operand, hdepth => by
    obtain ⟨tree, hwritten, hvalue⟩ := operand.written hdepth sign
    obtain ⟨a, ha, hends⟩ := operand.exists_ends
    exact ⟨_, _, _, _, _, .first hwritten hvalue, a, List.mem_getLast?_append_of_mem_getLast? ha,
      hends⟩
  | .join chain link operand, hdepth => by
    obtain ⟨hchain, hoperand⟩ := Nat.max_le.mp hdepth
    obtain ⟨front, last, tree, embed, factor, hreads, hends⟩ := chain.reads hchain
    exact hreads.join hends link (operand.written hoperand)

end

/-- **Parsed arithmetic is ordinary arithmetic**: a chain whose parentheses nest no more than 128
deep, with any spacing behind it, is parsed, and whatever integers the letters stand for, the tree
stands for the value of the chain. -/
theorem Chain.parse_text {kind : Kind} (chain : Chain kind) (behind : Spacing)
    (hdepth : chain.depth ≤ 128) :
    ∃ tree, Expression.parse (String.ofList (chain.text ++ behind.val)) = .ok tree
      ∧ ∀ σ, tree.exact σ = chain.value σ := by
  obtain ⟨front, last, tree, embed, factor, hreads, -⟩ := chain.reads hdepth
  obtain ⟨hsum, hexact⟩ := hreads.whole
  have hclause := hsum.clause behind.property
  refine ⟨embed tree, Expression.parse_eq_ok_iff_derives.mpr ?_, hexact⟩
  rw [String.toList_ofList, nesting_explicitProducts]
  exact ⟨hclause.derives, hclause.fits.room⟩

/-- The chain `2x - 3(y + -z)`, with two products that nothing is written for. -/
def difference : Chain .group :=
  let none : Spacing := ⟨[], Spaced.nil⟩
  let space : Spacing := ⟨[' '], Spaced.single⟩
  let two : Literal :=
    ⟨['2'], List.cons_ne_nil _ _, List.forall_mem_singleton.mpr rfl, by decide⟩
  let three : Literal :=
    ⟨['3'], List.cons_ne_nil _ _, List.forall_mem_singleton.mpr rfl, by decide⟩
  let inner :=
    (Chain.first (.plain none) (.letter 'y' rfl)).join (.plus space (.minus space none))
      (.letter 'z' rfl)
  let front :=
    (Chain.first (.plain none) (.literal two)).join (.touching (by exact trivial)) (.letter 'x' rfl)
  (front.join (.minus space space) (.literal three)).join (.touching (by exact trivial))
    (.group inner none)

theorem parse_text_difference :
    ∃ tree, Expression.parse "2x - 3(y + -z) " = .ok tree
      ∧ ∀ σ, tree.exact σ = 2 * σ 'x' - 3 * (σ 'y' + -σ 'z') := by
  obtain ⟨tree, hparse, hexact⟩ :=
    difference.parse_text ⟨[' '], Spaced.single⟩ (by decide)
  exact ⟨tree, hparse, hexact⟩

end Surface

end Diophantine
