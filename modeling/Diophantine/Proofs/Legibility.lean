import Diophantine.Proofs.Rereading

/-!
# Legible renderings

Different problems are never rendered alike, if only their variables are letters. Reading back does
not show this: the least value and trees that nest too deep are rendered as well, and no reader
takes them.

The argument goes along the text instead. Two renderings that begin in the same place are compared,
whatever follows them, and they must be of the same tree and end in the same place. All that the
first character leaves open is what a parenthesis begins, and there the sign behind the left side
decides. A comparison has no parentheses of its own, so its text may begin as a connective does, and
the parentheses of its left operand hold operators where those of a connective hold a comparison: as
deep as one looks, no connective begins like an operand.

- `Lettered`, `Legible`: what is asked of the names, and what is shown of the renderings;
- `Expression.legible`, `Equation.legible`, `Constraint.legible`: one kind of tree after the other;
- `Constraint.render_ne_operand`: a constraint does not begin with an operand of an operator;
- `renderList_inj`: items with commas between them;
- `Problem.display_inj`: no two problems are rendered alike.
-/

namespace Diophantine

/-! ### Names and ends -/

/-- Every name is a letter. -/
def Lettered (names : List Name) : Prop :=
  ∀ name ∈ names, name.isAlpha = true

@[simp] theorem lettered_append_iff {front back : List Name} :
    Lettered (front ++ back) ↔ Lettered front ∧ Lettered back :=
  List.forall_mem_append

theorem lettered_flatMap_iff {α : Type} {names : α → List Name} {items : List α} :
    Lettered (items.flatMap names) ↔ ∀ item ∈ items, Lettered (names item) := by
  induction items with
  | nil => exact ⟨fun _ => nofun, fun _ => nofun⟩
  | cons item items ih =>
    rw [List.flatMap_cons, lettered_append_iff, ih, List.forall_mem_cons]

theorem EndsTerm.cons {c : Char} (hc : c.isDigit = false) (tail : List Char) :
    EndsTerm (c :: tail) :=
  .of_solid Spaced.nil hc

/-- The text of an item shows which item it is and where it ends, as long as no digit follows. -/
def Legible {α : Type} (render : α → List Char → List Char) (names : α → List Name)
    (item : α) : Prop :=
  ∀ ⦃other : α⦄ ⦃rest back : List Char⦄, Lettered (names other) → EndsTerm rest → EndsTerm back →
    render item rest = render other back → item = other ∧ rest = back

/-! ### Constants -/

namespace Value

variable {rest back : List Char}

theorem toDigits_append_ne {n : Nat} {c : Char} (hc : c.isDigit = false) :
    Nat.toDigits 10 n ++ rest ≠ c :: back := by
  intro h
  obtain ⟨d, digits, hdigits⟩ :=
    List.exists_cons_of_ne_nil (Nat.toDigits_ne_nil (n := n) (b := 10))
  have hd : d.isDigit = true :=
    isDigit_of_mem_toDigits d (hdigits ▸ List.mem_cons_self ..)
  rw [hdigits] at h
  obtain rfl : d = c := (List.cons.inj h).1
  rw [hc] at hd
  cases hd

/-- A run of digits that no digit follows shows the number and where it ends. -/
theorem toDigits_append_inj {m n : Nat} (hrest : EndsTerm rest) (hback : EndsTerm back)
    (h : Nat.toDigits 10 m ++ rest = Nat.toDigits 10 n ++ back) : m = n ∧ rest = back := by
  obtain ⟨hm, hrest'⟩ := takeWhile_dropWhile_append (isDigit_of_mem_toDigits (n := m)) hrest
  obtain ⟨hn, hback'⟩ := takeWhile_dropWhile_append (isDigit_of_mem_toDigits (n := n)) hback
  rw [h] at hm hrest'
  constructor
  · calc
      m = Nat.ofDigitChars 10 (Nat.toDigits 10 m) 0 := Nat.ofDigitChars_ten_toDigits.symm
      _ = Nat.ofDigitChars 10 (Nat.toDigits 10 n) 0 := by rw [← hm, hn]
      _ = n := Nat.ofDigitChars_ten_toDigits
  · exact hrest'.symm.trans hback'

/-- A constant begins with a minus sign or a digit. -/
theorem digits_append_ne {v : Value} {c : Char} (hc : c ≠ '-' ∧ c.isDigit = false) :
    digits v ++ rest ≠ c :: back := by
  unfold digits
  split
  · exact fun h => hc.1 (List.cons.inj h).1.symm
  · exact toDigits_append_ne hc.2

theorem digits_append_inj {v w : Value} (hrest : EndsTerm rest) (hback : EndsTerm back)
    (h : digits v ++ rest = digits w ++ back) : v = w ∧ rest = back := by
  unfold digits at h
  by_cases hv : v.toInt < 0
  · by_cases hw : w.toInt < 0
    · rw [if_pos hv, if_pos hw] at h
      obtain ⟨habs, htail⟩ := toDigits_append_inj hrest hback (List.cons.inj h).2
      exact ⟨Int64.toInt_inj.mp (by omega), htail⟩
    · rw [if_pos hv, if_neg hw] at h
      exact absurd h.symm (toDigits_append_ne (by decide))
  · by_cases hw : w.toInt < 0
    · rw [if_neg hv, if_pos hw] at h
      exact absurd h (toDigits_append_ne (by decide))
    · rw [if_neg hv, if_neg hw] at h
      obtain ⟨habs, htail⟩ := toDigits_append_inj hrest hback h
      exact ⟨Int64.toInt_inj.mp (by omega), htail⟩

end Value

/-! ### Expressions -/

namespace Expression

/-- The signs between the sides of a node, with the trees that they build. -/
inductive OperatorSign : Char → (Expression → Expression → Expression) → Prop
  | plus : OperatorSign '+' .add
  | star : OperatorSign '*' .mul

variable {sign sign' : Char} {build build' : Expression → Expression → Expression}
  {left right left' right' tree : Expression} {rest back : List Char}

namespace OperatorSign

theorem unique (h : OperatorSign sign build) (h' : OperatorSign sign build') :
    build = build' := by
  cases h <;> cases h' <;> rfl

theorem ne_comparison (h : OperatorSign sign build) : sign ≠ '<' ∧ sign ≠ '>' := by
  cases h <;> decide

theorem names_eq (h : OperatorSign sign build) :
    (build left right).names = left.names ++ right.names := by
  cases h <;> rfl

theorem render_eq (h : OperatorSign sign build) :
    (build left right).render rest
      = '(' :: left.render (' ' :: sign :: ' ' :: right.render (')' :: rest)) := by
  cases h <;> rfl

end OperatorSign

@[simp] theorem lettered_var_iff {name : Name} :
    Lettered (var name).names ↔ name.isAlpha = true :=
  List.forall_mem_singleton

theorem lettered_chain (count : Nat) : Lettered (chain count).names := by
  have hx : Lettered (var 'x').names := lettered_var_iff.mpr (by decide)
  induction count with
  | zero => exact hx
  | succ count ih => exact lettered_append_iff.mpr ⟨ih, hx⟩

/-- A letter begins nothing but a variable. -/
theorem first_of_isAlpha {c : Char} (hc : c.isAlpha = true) :
    c ≠ '(' ∧ c ≠ '-' ∧ c.isDigit = false := by
  refine ⟨(not_parenthesis_of_isAlpha hc).1, ?_, ?_⟩
  · rintro rfl
    cases hc
  · refine Bool.eq_false_iff.mpr fun hdigit => ?_
    rw [(neutral_of_isDigit hdigit).2.2] at hc
    cases hc

/-- A parenthesis begins a node with two sides. -/
theorem exists_sides_of_open {text : List Char} (htree : Lettered tree.names)
    (h : tree.render rest = '(' :: text) :
    ∃ sign build left right, OperatorSign sign build ∧ tree = build left right
      ∧ text = left.render (' ' :: sign :: ' ' :: right.render (')' :: rest)) := by
  cases tree with
  | constant value => exact absurd h (Value.digits_append_ne (by decide))
  | var name =>
    exact absurd (List.cons.inj h).1 (first_of_isAlpha (lettered_var_iff.mp htree)).1
  | add left right => exact ⟨'+', .add, left, right, .plus, rfl, (List.cons.inj h).2.symm⟩
  | mul left right => exact ⟨'*', .mul, left, right, .star, rfl, (List.cons.inj h).2.symm⟩

/-- Two sides with a sign between them show both sides, the sign and where the right side ends. -/
theorem sides_inj (hl : Legible render names left) (hr : Legible render names right)
    (hl' : Lettered left'.names) (hr' : Lettered right'.names) (hrest : EndsTerm rest)
    (hback : EndsTerm back)
    (h : left.render (' ' :: sign :: ' ' :: right.render rest)
      = left'.render (' ' :: sign' :: ' ' :: right'.render back)) :
    left = left' ∧ sign = sign' ∧ right = right' ∧ rest = back := by
  obtain ⟨hleft, htail⟩ := hl hl' (.cons (by decide) _) (.cons (by decide) _) h
  obtain ⟨hsign, htail⟩ := List.cons.inj (List.cons.inj htail).2
  obtain ⟨hright, hend⟩ := hr hr' hrest hback (List.cons.inj htail).2
  exact ⟨hleft, hsign, hright, hend⟩

/-- A node is legible if its sides are. -/
theorem legible_node (hsign : OperatorSign sign build) (hl : Legible render names left)
    (hr : Legible render names right) : Legible render names (build left right) := by
  intro other rest back hother hrest hback h
  rw [hsign.render_eq] at h
  obtain ⟨sign', build', left', right', hsign', rfl, htext⟩ := exists_sides_of_open hother h.symm
  obtain ⟨hl', hr'⟩ := lettered_append_iff.mp (hsign'.names_eq ▸ hother)
  obtain ⟨rfl, rfl, rfl, hend⟩ :=
    sides_inj hl hr hl' hr' (.cons (by decide) _) (.cons (by decide) _) htext
  exact ⟨by rw [hsign.unique hsign'], (List.cons.inj hend).2⟩

theorem legible (htree : Lettered tree.names) : Legible render names tree := by
  induction tree with
  | constant value =>
    intro other rest back hother hrest hback h
    cases other with
    | constant value' =>
      obtain ⟨rfl, htail⟩ := Value.digits_append_inj hrest hback h
      exact ⟨rfl, htail⟩
    | var name =>
      exact absurd h (Value.digits_append_ne (first_of_isAlpha (lettered_var_iff.mp hother)).2)
    | add | mul => exact absurd h (Value.digits_append_ne (by decide))
  | var name =>
    obtain ⟨hopen, hfirst⟩ := first_of_isAlpha (lettered_var_iff.mp htree)
    intro other rest back hother hrest hback h
    cases other with
    | constant value' => exact absurd h.symm (Value.digits_append_ne hfirst)
    | var name' =>
      obtain ⟨rfl, htail⟩ := List.cons.inj h
      exact ⟨rfl, htail⟩
    | add | mul => exact absurd (List.cons.inj h).1 hopen
  | add left right ihl ihr =>
    obtain ⟨hl, hr⟩ := lettered_append_iff.mp htree
    exact legible_node .plus (ihl hl) (ihr hr)
  | mul left right ihl ihr =>
    obtain ⟨hl, hr⟩ := lettered_append_iff.mp htree
    exact legible_node .star (ihl hl) (ihr hr)

end Expression

theorem Equation.legible {equation : Equation} (h : Lettered equation.names) :
    Legible render names equation := by
  intro other rest back hother hrest hback heq
  obtain ⟨hl, hr⟩ := lettered_append_iff.mp h
  obtain ⟨hl', hr'⟩ := lettered_append_iff.mp hother
  obtain ⟨hleft, -, hright, hend⟩ :=
    Expression.sides_inj (Expression.legible hl) (Expression.legible hr) hl' hr' hrest hback heq
  cases equation
  cases other
  exact ⟨congr (congrArg Equation.mk hleft) hright, hend⟩

/-! ### Constraints -/

namespace ComparisonSign

variable {sign : Char} {build build' : Expression → Expression → Constraint}
  {left right : Expression} {rest : List Char}

theorem unique (h : ComparisonSign sign build) (h' : ComparisonSign sign build') :
    build = build' := by
  cases h <;> cases h' <;> rfl

theorem eq_less_or_greater (h : ComparisonSign sign build) : sign = '<' ∨ sign = '>' := by
  cases h with
  | less => exact .inl rfl
  | greater => exact .inr rfl

theorem names_eq (h : ComparisonSign sign build) :
    (build left right).names = left.names ++ right.names := by
  cases h <;> rfl

theorem render_eq (h : ComparisonSign sign build) :
    (build left right).render rest = left.render (' ' :: sign :: ' ' :: right.render rest) := by
  cases h <;> rfl

end ComparisonSign

namespace Constraint

/-- The words between the sides of a connective, with the trees that they build. -/
inductive ConnectiveWord : List Char → (Constraint → Constraint → Constraint) → Prop
  | and : ConnectiveWord ['a', 'n', 'd'] .and
  | or : ConnectiveWord ['o', 'r'] .or

variable {word word' : List Char} {connect connect' : Constraint → Constraint → Constraint}
  {front behind front' behind' tree : Constraint} {left right operand : Expression}
  {sign c : Char} {build : Expression → Expression → Constraint} {rest back : List Char}

namespace ConnectiveWord

/-- The first letter of a connective tells which one it is. -/
theorem unique (h : ConnectiveWord word connect) (h' : ConnectiveWord word' connect')
    (htext : word ++ rest = word' ++ back) : connect = connect' ∧ rest = back := by
  cases h with
  | and =>
    cases h' with
    | and => exact ⟨rfl, List.append_cancel_left htext⟩
    | or => exact absurd (List.cons.inj htext).1 (by decide)
  | or =>
    cases h' with
    | and => exact absurd (List.cons.inj htext).1 (by decide)
    | or => exact ⟨rfl, List.append_cancel_left htext⟩

theorem names_eq (h : ConnectiveWord word connect) :
    (connect front behind).names = front.names ++ behind.names := by
  cases h <;> rfl

theorem render_eq (h : ConnectiveWord word connect) :
    (connect front behind).render rest
      = '(' :: front.render (' ' :: (word ++ ' ' :: behind.render (')' :: rest))) := by
  cases h <;> rfl

end ConnectiveWord

/-- A constraint is a comparison or a connective. -/
theorem comparison_or_connective (tree : Constraint) :
    (∃ sign build left right, ComparisonSign sign build ∧ tree = build left right)
      ∨ ∃ word connect front behind, ConnectiveWord word connect ∧ tree = connect front behind := by
  cases tree with
  | less left right => exact .inl ⟨_, _, left, right, .less, rfl⟩
  | greater left right => exact .inl ⟨_, _, left, right, .greater, rfl⟩
  | and front behind => exact .inr ⟨_, _, front, behind, .and, rfl⟩
  | or front behind => exact .inr ⟨_, _, front, behind, .or, rfl⟩

theorem comparison_ne_operand (hsign : ComparisonSign sign build) (hl : Lettered left.names)
    (hoperand : Lettered operand.names) (hc : c ≠ '<' ∧ c ≠ '>') :
    (build left right).render rest ≠ operand.render (' ' :: c :: back) := by
  intro h
  rw [hsign.render_eq] at h
  obtain ⟨-, htail⟩ :=
    Expression.legible hl hoperand (.cons (by decide) _) (.cons (by decide) _) h
  obtain rfl : sign = c := (List.cons.inj (List.cons.inj htail).2).1
  exact hsign.eq_less_or_greater.elim hc.1 hc.2

/-- A constraint does not begin with an operand, unless the sign of a comparison follows the
operand. The parentheses of a connective hold a constraint where those of an operand hold a side of
an operator, so the same is asked of these. -/
theorem render_ne_operand (htree : Lettered tree.names) (hoperand : Lettered operand.names)
    (hc : c ≠ '<' ∧ c ≠ '>') : tree.render rest ≠ operand.render (' ' :: c :: back) := by
  induction tree generalizing operand c rest back with
  | less left right =>
    exact comparison_ne_operand .less (lettered_append_iff.mp htree).1 hoperand hc
  | greater left right =>
    exact comparison_ne_operand .greater (lettered_append_iff.mp htree).1 hoperand hc
  | and front behind ih _ | or front behind ih _ =>
    -- Both texts begin with a parenthesis. Behind it stand the front of the connective and the left
    -- side of the operand, which the sign of an operator follows.
    intro h
    obtain ⟨sign, build, left, right, hsign, rfl, htext⟩ :=
      Expression.exists_sides_of_open hoperand h.symm
    obtain ⟨hl, -⟩ := lettered_append_iff.mp (hsign.names_eq ▸ hoperand)
    exact ih (lettered_append_iff.mp htree).1 hl hsign.ne_comparison htext

theorem comparison_ne_connective (hsign : ComparisonSign sign build)
    (hword : ConnectiveWord word connect) (hl : Lettered left.names)
    (hfront : Lettered front.names) :
    (build left right).render rest ≠ (connect front behind).render back := by
  intro h
  rw [hsign.render_eq, hword.render_eq] at h
  obtain ⟨op, node, first, second, hop, rfl, htext⟩ := Expression.exists_sides_of_open hl h
  obtain ⟨hfirst, -⟩ := lettered_append_iff.mp (hop.names_eq ▸ hl)
  exact render_ne_operand hfront hfirst hop.ne_comparison htext

theorem legible_comparison (hsign : ComparisonSign sign build) (hl : Lettered left.names)
    (hr : Lettered right.names) : Legible render names (build left right) := by
  intro other rest back hother hrest hback h
  obtain ⟨sign', build', left', right', hsign', rfl⟩ | ⟨word, connect, front, behind, hword, rfl⟩ :=
    other.comparison_or_connective
  · obtain ⟨hl', hr'⟩ := lettered_append_iff.mp (hsign'.names_eq ▸ hother)
    rw [hsign.render_eq, hsign'.render_eq] at h
    obtain ⟨rfl, rfl, rfl, hend⟩ := Expression.sides_inj (Expression.legible hl)
      (Expression.legible hr) hl' hr' hrest hback h
    exact ⟨by rw [hsign.unique hsign'], hend⟩
  · obtain ⟨hfront, -⟩ := lettered_append_iff.mp (hword.names_eq ▸ hother)
    exact absurd h (comparison_ne_connective hsign hword hl hfront)

/-- A connective is legible if both sides are. -/
theorem legible_connective (hword : ConnectiveWord word connect) (hfront : Lettered front.names)
    (hf : Legible render names front) (hb : Legible render names behind) :
    Legible render names (connect front behind) := by
  intro other rest back hother hrest hback h
  obtain ⟨sign, build, left, right, hsign, rfl⟩ | ⟨word', connect', front', behind', hword', rfl⟩ :=
    other.comparison_or_connective
  · obtain ⟨hl, -⟩ := lettered_append_iff.mp (hsign.names_eq ▸ hother)
    exact absurd h.symm (comparison_ne_connective hsign hword hl hfront)
  · obtain ⟨hfront', hbehind'⟩ := lettered_append_iff.mp (hword'.names_eq ▸ hother)
    rw [hword.render_eq, hword'.render_eq] at h
    obtain ⟨rfl, htail⟩ :=
      hf hfront' (.cons (by decide) _) (.cons (by decide) _) (List.cons.inj h).2
    obtain ⟨rfl, htail⟩ := hword.unique hword' (List.cons.inj htail).2
    obtain ⟨rfl, hend⟩ :=
      hb hbehind' (.cons (by decide) _) (.cons (by decide) _) (List.cons.inj htail).2
    exact ⟨rfl, (List.cons.inj hend).2⟩

theorem legible (htree : Lettered tree.names) : Legible render names tree := by
  induction tree with
  | less left right =>
    obtain ⟨hl, hr⟩ := lettered_append_iff.mp htree
    exact legible_comparison .less hl hr
  | greater left right =>
    obtain ⟨hl, hr⟩ := lettered_append_iff.mp htree
    exact legible_comparison .greater hl hr
  | and front behind ihf ihb =>
    obtain ⟨hf, hb⟩ := lettered_append_iff.mp htree
    exact legible_connective .and hf (ihf hf) (ihb hb)
  | or front behind ihf ihb =>
    obtain ⟨hf, hb⟩ := lettered_append_iff.mp htree
    exact legible_connective .or hf (ihf hf) (ihb hb)

end Constraint

/-! ### Lists -/

/-- Neither a digit nor a further item of a list follows. -/
def EndsClause (tail : List Char) : Prop :=
  EndsTerm tail ∧ tail.head? ≠ some ','

theorem EndsClause.cons {c : Char} (hc : c.isDigit = false ∧ c ≠ ',') (tail : List Char) :
    EndsClause (c :: tail) :=
  ⟨.cons hc.1 tail, fun h => hc.2 (Option.some.inj h)⟩

section Lists

variable {α : Type} {render : α → List Char → List Char} {names : α → List Name}
  {rest back : List Char}

/-- A list begins with its first item. -/
theorem exists_renderList_eq (render : α → List Char → List Char) (item : α) (items : List α)
    (rest : List Char) : ∃ tail, renderList render (item :: items) rest = render item tail := by
  cases items with
  | nil => exact ⟨rest, rfl⟩
  | cons next items => exact ⟨_, rfl⟩

/-- The text of a list shows its items and where it ends. -/
theorem renderList_inj {item other : α} {items others : List α}
    (hlegible : ∀ entry ∈ item :: items, Legible render names entry)
    (hlettered : ∀ entry ∈ other :: others, Lettered (names entry))
    (hrest : EndsClause rest) (hback : EndsClause back)
    (h : renderList render (item :: items) rest = renderList render (other :: others) back) :
    item :: items = other :: others ∧ rest = back := by
  have hcomma (tail : List Char) : EndsTerm (',' :: tail) := .cons (by decide) tail
  -- On the items of the first list: where only one of the lists goes on, a comma meets the end.
  induction items generalizing item other others with
  | nil =>
    have hitem := hlegible item (List.mem_cons_self ..)
    have hother := hlettered other (List.mem_cons_self ..)
    cases others with
    | nil =>
      obtain ⟨rfl, hend⟩ := hitem hother hrest.1 hback.1 h
      exact ⟨rfl, hend⟩
    | cons next others =>
      obtain ⟨-, hend⟩ := hitem hother hrest.1 (hcomma _) h
      exact absurd (congrArg List.head? hend) hrest.2
  | cons next items ih =>
    have hitem := hlegible item (List.mem_cons_self ..)
    have hother := hlettered other (List.mem_cons_self ..)
    cases others with
    | nil =>
      obtain ⟨-, hend⟩ := hitem hother (hcomma _) hback.1 h
      exact absurd (congrArg List.head? hend).symm hback.2
    | cons next' others =>
      obtain ⟨rfl, htail⟩ := hitem hother (hcomma _) (hcomma _) h
      obtain ⟨hmore, hend⟩ := ih (List.forall_mem_cons.mp hlegible).2
        (List.forall_mem_cons.mp hlettered).2 (List.cons.inj (List.cons.inj htail).2).2
      exact ⟨congrArg (item :: ·) hmore, hend⟩

end Lists

/-! ### Problems -/

namespace Problem

variable {equations equations' : List Equation} {constraints constraints' : List Constraint}

theorem lettered_names_iff {problem : Problem} :
    Lettered problem.names ↔
      (∀ equation ∈ problem.equations, Lettered equation.names)
        ∧ ∀ tree ∈ problem.constraints, Lettered tree.names := by
  unfold names
  rw [lettered_append_iff, lettered_flatMap_iff, lettered_flatMap_iff]

theorem endsClause_renderConstraints (constraints : List Constraint) :
    EndsClause (renderConstraints constraints ['.']) := by
  unfold renderConstraints
  split
  · exact .cons (by decide) _
  · exact .cons (by decide) _

theorem renderConstraints_inj (h : ∀ tree ∈ constraints, Lettered tree.names)
    (h' : ∀ tree ∈ constraints', Lettered tree.names)
    (heq : renderConstraints constraints ['.'] = renderConstraints constraints' ['.']) :
    constraints = constraints' := by
  have hperiod : EndsClause ['.'] := .cons (by decide) []
  have hfirst (tree : Constraint) (trees : List Constraint) :
      renderConstraints [] ['.'] ≠ renderConstraints (tree :: trees) ['.'] :=
    fun h => absurd (List.cons.inj h).1 (by decide)
  cases constraints with
  | nil =>
    cases constraints' with
    | nil => rfl
    | cons tree' trees' => exact absurd heq (hfirst tree' trees')
  | cons tree trees =>
    cases constraints' with
    | nil => exact absurd heq.symm (hfirst tree trees)
    | cons tree' trees' =>
      exact (renderList_inj (fun entry hmem => Constraint.legible (h entry hmem)) h' hperiod
        hperiod (List.append_cancel_left heq)).1

/-- The words in front of the constraints are not the beginning of an equation: the first letter
would be its left side, and no other letter could follow. -/
theorem renderConstraints_ne_equation {equation : Equation} (h : Lettered equation.names)
    (constraints : List Constraint) (tail : List Char) :
    renderConstraints constraints ['.'] ≠ ' ' :: equation.render tail := by
  intro heq
  cases constraints with
  | nil => exact absurd (List.cons.inj heq).1 (by decide)
  | cons tree trees =>
    have hletter : Lettered (Expression.var 's').names :=
      Expression.lettered_var_iff.mpr (by decide)
    have htext : equation.left.render (' ' :: '=' :: ' ' :: equation.right.render tail)
        = (Expression.var 's').render ("uch that ".toList
          ++ renderList Constraint.render (tree :: trees) ['.']) :=
      (List.cons.inj heq).2.symm
    obtain ⟨-, htail⟩ := Expression.legible (lettered_append_iff.mp h).1 hletter
      (.cons (by decide) _) (.cons (by decide) _) htext
    exact absurd (List.cons.inj htail).1 (by decide)

/-- The text of the clauses shows the equations, and where the constraints begin. -/
theorem renderEquations_inj (h : ∀ equation ∈ equations, Lettered equation.names)
    (h' : ∀ equation ∈ equations', Lettered equation.names)
    (heq : renderEquations equations (renderConstraints constraints ['.'])
      = renderEquations equations' (renderConstraints constraints' ['.'])) :
    equations = equations'
      ∧ renderConstraints constraints ['.'] = renderConstraints constraints' ['.'] := by
  cases equations with
  | nil =>
    cases equations' with
    | nil => exact ⟨rfl, heq⟩
    | cons equation' more' =>
      obtain ⟨tail, htail⟩ := exists_renderList_eq Equation.render equation' more'
        (renderConstraints constraints' ['.'])
      exact absurd (heq.trans (congrArg (' ' :: ·) htail))
        (renderConstraints_ne_equation (h' equation' (List.mem_cons_self ..)) _ tail)
  | cons equation more =>
    cases equations' with
    | nil =>
      obtain ⟨tail, htail⟩ := exists_renderList_eq Equation.render equation more
        (renderConstraints constraints ['.'])
      exact absurd (heq.symm.trans (congrArg (' ' :: ·) htail))
        (renderConstraints_ne_equation (h equation (List.mem_cons_self ..)) _ tail)
    | cons equation' more' =>
      exact renderList_inj (fun entry hmem => Equation.legible (h entry hmem)) h'
        (endsClause_renderConstraints constraints) (endsClause_renderConstraints constraints')
        (List.cons.inj heq).2

theorem eq_empty_of_isEmpty {problem : Problem} (h : problem.isEmpty = true) : problem = empty := by
  obtain ⟨equations, constraints⟩ := problem
  obtain ⟨he, hc⟩ := Bool.and_eq_true_iff.mp h
  obtain rfl : equations = [] := List.isEmpty_iff.mp he
  obtain rfl : constraints = [] := List.isEmpty_iff.mp hc
  rfl

theorem render_inj {problem other : Problem} (hproblem : Lettered problem.names)
    (hother : Lettered other.names) (h : problem.render = other.render) : problem = other := by
  obtain ⟨he, hc⟩ := lettered_names_iff.mp hproblem
  obtain ⟨he', hc'⟩ := lettered_names_iff.mp hother
  unfold render at h
  by_cases hempty : problem.isEmpty = true
  · by_cases hempty' : other.isEmpty = true
    · rw [eq_empty_of_isEmpty hempty, eq_empty_of_isEmpty hempty']
    · rw [if_pos hempty, if_neg hempty'] at h
      cases h
  · by_cases hempty' : other.isEmpty = true
    · rw [if_neg hempty, if_pos hempty'] at h
      cases h
    · rw [if_neg hempty, if_neg hempty'] at h
      obtain ⟨hequations, htail⟩ := renderEquations_inj he he' (List.append_cancel_left h)
      have hconstraints := renderConstraints_inj hc hc' htail
      cases problem
      cases other
      exact congr (congrArg Problem.mk hequations) hconstraints

/-- Different problems are never rendered alike, if their variables are letters: whatever their
constants are, and however deep they nest. -/
theorem display_inj {problem other : Problem}
    (hproblem : ∀ name ∈ problem.names, name.isAlpha = true)
    (hother : ∀ name ∈ other.names, name.isAlpha = true) :
    problem.display = other.display ↔ problem = other := by
  constructor
  · intro h
    exact render_inj hproblem hother (String.ofList_injective h)
  · rintro rfl
    rfl

/-- Two problems that no parser gives back, as they nest too deep and hold the least value. They
differ in one sign. -/
theorem display_inj_chains :
    let problem : Problem :=
      { equations := [{ left := .chain 200, right := .constant Int64.minValue }]
        constraints := [.less (.chain 200) (.var 'y')] }
    let other : Problem :=
      { equations := [{ left := .chain 200, right := .constant Int64.minValue }]
        constraints := [.greater (.chain 200) (.var 'y')] }
    (∀ name ∈ problem.names, name.isAlpha = true) ∧ (∀ name ∈ other.names, name.isAlpha = true)
      ∧ problem.display ≠ other.display := by
  intro problem other
  have hequation : Lettered ((Expression.chain 200).names ++ []) :=
    lettered_append_iff.mpr ⟨Expression.lettered_chain 200, fun _ => nofun⟩
  have hconstraint : Lettered ((Expression.chain 200).names ++ ['y']) :=
    lettered_append_iff.mpr
      ⟨Expression.lettered_chain 200, Expression.lettered_var_iff.mpr (by decide)⟩
  have hproblem : Lettered problem.names := lettered_names_iff.mpr
    ⟨List.forall_mem_singleton.mpr hequation, List.forall_mem_singleton.mpr hconstraint⟩
  have hother : Lettered other.names := lettered_names_iff.mpr
    ⟨List.forall_mem_singleton.mpr hequation, List.forall_mem_singleton.mpr hconstraint⟩
  refine ⟨hproblem, hother, fun h => ?_⟩
  have heq : problem = other := (display_inj hproblem hother).mp h
  cases congrArg Problem.constraints heq

/-- A variable that is no letter may look like a constant. -/
example : (Expression.var '1').display = (Expression.constant 1).display := by
  decide +kernel

end Problem

end Diophantine
