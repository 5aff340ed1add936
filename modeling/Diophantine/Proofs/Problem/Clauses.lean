import Diophantine.Proofs.Constraint.Rendering
import Diophantine.Proofs.Problem.Spelling
import Diophantine.Proofs.Sentence

/-!
# Clauses of the grammar

The text of an equation or a constraint is a clause that splitting finds, and reading the clause
gives the tree that the text derives, unless it nests too deep. Where both can happen, `Yields` says
which one does.

- `Yields`: the result is a value exactly on a condition;
- `Equation.Derives`: the grammar of equations;
- `Equation.Derives.clauseOf`, `Constraint.Derives.clauseOf`: the clause of one item;
- `readClauses_framed`: the clauses of all items;
- `Equation.derives_render`, `Equation.nesting_render`: what an equation is rendered as.
-/

namespace Diophantine

/-! ### Results with a condition -/

/-- The result is the value if the condition holds, and a failure otherwise. -/
def Yields {ε α : Type} (result : Except ε α) (value : α) (condition : Prop) : Prop :=
  ∀ other, result = .ok other ↔ value = other ∧ condition

namespace Yields

variable {ε α β : Type} {result : Except ε α} {value : α} {condition : Prop}

theorem ok (value : α) : Yields (.ok value : Except ε α) value True := by
  intro other
  constructor
  · intro h
    exact ⟨Except.ok.inj h, trivial⟩
  · rintro ⟨rfl, -⟩
    rfl

theorem congr {other : Prop} (h : Yields result value condition) (hiff : condition ↔ other) :
    Yields result value other :=
  fun found => (h found).trans (and_congr_right fun _ => hiff)

/-- What goes on from a result goes on from the value, where there is one. -/
theorem bind {next : α → Except ε β} {last : β} {other : Prop} (h : Yields result value condition)
    (hnext : Yields (next value) last other) :
    Yields (result.bind next) last (condition ∧ other) := by
  intro found
  cases result with
  | error failure =>
    constructor
    · exact nofun
    · rintro ⟨-, hcondition, -⟩
      have hok : Except.error failure = .ok value := (h value).mpr ⟨rfl, hcondition⟩
      cases hok
  | ok first =>
    obtain ⟨rfl, hcondition⟩ := (h first).mp rfl
    show next value = .ok found ↔ _
    rw [hnext found]
    exact and_congr_right fun _ => (and_iff_right hcondition).symm

theorem map (h : Yields result value condition) (f : α → β) :
    Yields (result.map f) (f value) condition := by
  have hbind : result.map f = result.bind fun found => .ok (f found) := by
    cases result <;> rfl
  rw [hbind]
  exact (h.bind (ok (f value))).congr (and_iff_left trivial)

/-- What goes on from a result, whatever the result is, goes on from the value that it has. -/
theorem eq_ok_iff {result : Except ε α} {next : Except ε β} {f : α → β} (default : α)
    (h : ∀ value other, Yields result value other → Yields next (f value) (condition ∧ other))
    (last : β) :
    next = .ok last ↔ condition ∧ ∃ value, result = .ok value ∧ f value = last := by
  cases result with
  | error failure =>
    have hnone : Yields (Except.error failure) default False := fun _ => ⟨nofun, nofun⟩
    rw [h default False hnone last]
    constructor
    · rintro ⟨-, -, hfalse⟩
      exact hfalse.elim
    · rintro ⟨-, value, hvalue, -⟩
      cases hvalue
  | ok value =>
    rw [h value True (ok value) last]
    constructor
    · rintro ⟨hlast, hcondition, -⟩
      exact ⟨hcondition, value, rfl, hlast⟩
    · rintro ⟨hcondition, found, hfound, hlast⟩
      cases hfound
      exact ⟨hlast, hcondition, trivial⟩

end Yields

/-! ### Lists of clauses -/

theorem readClauses_cons {α : Type} (read : Slice → Except Failure α) (clause : Slice)
    (clauses : List Slice) :
    readClauses read (clause :: clauses)
      = (read clause).bind fun item =>
          (readClauses read clauses).map fun items => item :: items := by
  rw [readClauses]
  cases read clause with
  | error failure => rfl
  | ok item => cases readClauses read clauses <;> rfl

/-- What splitting and reading make of a text: it is found as a clause, with spacing around it, and
read as the item, unless it nests too deep. -/
structure ClauseOf {α : Type} (active : List Terminator) (read : Slice → Except Failure α)
    (text : List Char) (item : α) : Prop extends ClauseText active text where
  yields : ∀ clause, Framed clause text → Yields (read clause) item (nesting text ≤ maxNesting)

/-- The clauses of texts give all items, unless one of them nests too deep. -/
theorem readClauses_framed {α : Type} {active : List Terminator}
    {read : Slice → Except Failure α} {texts : List (List Char)} {items : List α}
    {clauses : List Slice} (h : List.Forall₂ (ClauseOf active read) texts items)
    (hframed : List.Forall₂ Framed clauses texts) :
    Yields (readClauses read clauses) items (∀ text ∈ texts, nesting text ≤ maxNesting) := by
  induction h generalizing clauses with
  | nil =>
    cases hframed
    exact (Yields.ok []).congr (iff_of_true trivial nofun)
  | cons hitem _ ih =>
    cases hframed with
    | cons hfirst hrest =>
      rw [readClauses_cons, List.forall_mem_cons]
      exact (hitem.yields _ hfirst).bind ((ih hrest).map _)

theorem forall_clauseText {α : Type} {active : List Terminator} {read : Slice → Except Failure α}
    {texts : List (List Char)} {items : List α}
    (h : List.Forall₂ (ClauseOf active read) texts items) :
    ∀ text ∈ texts, ClauseText active text := by
  induction h with
  | nil => exact List.forall_mem_nil _
  | cons hitem _ ih => exact List.forall_mem_cons.mpr ⟨hitem.toClauseText, ih⟩

/-! ### Spacing around clauses -/

theorem nesting_framed {before text behind : List Char} (h : Balanced text)
    (hbefore : Spaced before) (hbehind : Spaced behind) :
    nesting (before ++ (text ++ behind)) = nesting text := by
  obtain ⟨hbal, hnest⟩ := Balanced.of_neutral hbefore.neutral
  obtain ⟨-, hnest'⟩ := Balanced.of_neutral hbehind.neutral
  rw [hbal.nesting_append, hnest, h.nesting_append, hnest', Nat.zero_max, Nat.max_zero]

namespace Expression

theorem Derives.framed {text : List Char} {tree : Expression} (h : Derives .clause text tree)
    {before behind : List Char} (hbefore : Spaced before) (hbehind : Spaced behind) :
    Derives .clause (before ++ (text ++ behind)) tree := by
  cases h with
  | clause hsum hspace =>
    rw [List.append_assoc, ← List.append_assoc]
    exact .clause (hsum.spaced hbefore) (hspace.append hbehind)

/-- The text of an expression is read from between any spacing. -/
theorem Derives.read_framed {text : List Char} {tree : Expression} (h : Derives .clause text tree)
    {before behind : List Char} (hbefore : Spaced before) (hbehind : Spaced behind)
    (here : Position) :
    Yields (read { start := here, chars := before ++ (text ++ behind) }) tree
      (nesting text ≤ maxNesting) := by
  intro other
  rw [← nesting_framed h.balanced hbefore hbehind]
  exact (h.framed hbefore hbehind).read_eq_ok_iff here

end Expression

namespace Constraint

theorem Derives.framed {text : List Char} {tree : Constraint} (h : Derives .clause text tree)
    {before behind : List Char} (hbefore : Spaced before) (hbehind : Spaced behind) :
    Derives .clause (before ++ (text ++ behind)) tree := by
  cases h with
  | clause hdisjunction hspace =>
    rw [List.append_assoc, ← List.append_assoc]
    exact .clause (hdisjunction.spaced hbefore) (hspace.append hbehind)

/-- The text of a constraint is read from between any spacing. -/
theorem Derives.read_framed {text : List Char} {tree : Constraint} (h : Derives .clause text tree)
    {before behind : List Char} (hbefore : Spaced before) (hbehind : Spaced behind)
    (here : Position) :
    Yields (read { start := here, chars := before ++ (text ++ behind) }) tree
      (nesting text ≤ maxNesting) := by
  intro other
  rw [← nesting_framed h.balanced hbefore hbehind]
  exact (h.framed hbefore hbehind).read_eq_ok_iff here

end Constraint

/-- A clause that is not blank is read. -/
theorem readUnlessBlank_of_framed {α : Type} {read : Slice → Except Failure α} {clause : Slice}
    {text : List Char} (h : Framed clause text) (hsolid : ∃ c ∈ text, isBlank c = false) :
    readUnlessBlank read clause = read clause := by
  unfold readUnlessBlank
  rw [h.allBlank_eq_false hsolid, if_neg (by decide)]

/-! ### Equations -/

namespace Equation

/-- The text derives the equation: it is two expressions with a sign between them. -/
inductive Derives : List Char → Equation → Prop
  | intro {front back : List Char} {left right : Expression}
      (hleft : Expression.Derives .clause front left)
      (hright : Expression.Derives .clause back right) :
      Derives (front ++ '=' :: back) { left := left, right := right }

namespace Derives

variable {text : List Char} {equation : Equation} (h : Derives text equation)

include h

/-- An equation is written with the characters of expressions and its sign. -/
theorem not_mem {c : Char} (hc : inAlphabet c = false ∧ c ≠ '=') : c ∉ text := by
  obtain ⟨hleft, hright⟩ := h
  intro hmem
  rcases List.mem_append.mp hmem with hmem | hmem
  · exact hleft.not_mem hc.1 hmem
  · rcases List.mem_cons.mp hmem with rfl | hmem
    · exact hc.2 rfl
    · exact hright.not_mem hc.1 hmem

theorem balanced : Balanced text := by
  obtain ⟨hleft, hright⟩ := h
  exact (hleft.balanced.operator Spaced.nil (by decide) hright.balanced).1

theorem letters_apart : LettersApart text := by
  obtain ⟨hleft, hright⟩ := h
  exact hleft.letters_apart.operator Spaced.nil (by decide) hright.letters_apart

theorem mem_sign : '=' ∈ text := by
  obtain ⟨hleft, hright⟩ := h
  exact List.mem_append_right _ (List.mem_cons_self ..)

/-- Without the spacing in front of it, a text derives the same equation. -/
theorem strip :
    ∃ space core, text = space ++ core ∧ Spaced space ∧ Opens core ∧ Derives core equation := by
  obtain ⟨hleft, hright⟩ := h
  obtain ⟨space, core, hfront, hspace, hopens, hcore⟩ := hleft.strip
  rw [hfront]
  exact ⟨space, _, List.append_assoc .., hspace, hopens.append _, .intro hcore hright⟩

end Derives

section Sides

variable {front back : List Char} {left right : Expression}
  (hleft : Expression.Derives .clause front left) (hright : Expression.Derives .clause back right)

include hleft hright

theorem nesting_sides : nesting (front ++ '=' :: back) = max (nesting front) (nesting back) :=
  (hleft.balanced.operator Spaced.nil (by decide) hright.balanced).2

/-- Two expressions make an equation with a space on either side of the sign. -/
theorem derives_sides :
    Derives (front ++ ([' ', '=', ' '] ++ back)) { left := left, right := right }
      ∧ nesting (front ++ ([' ', '=', ' '] ++ back)) = max (nesting front) (nesting back) := by
  have hfront := hleft.framed Spaced.nil Spaced.single
  have hback := hright.framed Spaced.single Spaced.nil
  have htext : front ++ ([' ', '=', ' '] ++ back)
      = ([] ++ (front ++ [' '])) ++ '=' :: ([' '] ++ (back ++ [])) := by
    simp
  rw [htext]
  refine ⟨.intro hfront hback, ?_⟩
  rw [nesting_sides hfront hback, nesting_framed hleft.balanced Spaced.nil Spaced.single,
    nesting_framed hright.balanced Spaced.single Spaced.nil]

end Sides

theorem read_of_split {clause front back : Slice}
    (h : clause.splitOutside '=' = .ok (some (front, back))) :
    read clause = (Expression.read front).bind fun left =>
      (Expression.read back).map fun right => { left := left, right := right } := by
  unfold read
  rw [h]
  dsimp only
  cases Expression.read front with
  | error failure => rfl
  | ok left => cases Expression.read back <;> rfl

/-- The clause of an equation is read as the equation: it is split at its sign, which no side
holds. -/
theorem Derives.clauseOf {text : List Char} {equation : Equation} (h : Derives text equation) :
    ClauseOf equationTerminators readClause text equation where
  balanced := h.balanced
  quiet :=
    { comma := h.not_mem (by decide)
      period := h.not_mem (by decide)
      words := fun _ => h.letters_apart }
  solid := ⟨'=', h.mem_sign, rfl⟩
  yields clause hframed := by
    unfold readClause
    rw [readUnlessBlank_of_framed hframed ⟨'=', h.mem_sign, rfl⟩]
    obtain ⟨before, behind, hbefore, hbehind, hchars⟩ := hframed
    obtain ⟨start, chars⟩ := clause
    cases h with
    | @intro front back left right hleft hright =>
      have hsplit : chars = before ++ (front ++ []) ++ '=' :: ([] ++ (back ++ behind)) := by
        rw [show chars = _ from hchars]
        simp only [List.append_assoc, List.cons_append, List.nil_append]
      subst hsplit
      have hfront := hleft.framed hbefore Spaced.nil
      rw [read_of_split (Slice.splitOutside_of_balanced _ hfront.balanced
        (hfront.not_mem (by decide)) (by decide) (by decide))]
      have hback := hright.read_framed Spaced.nil hbehind
        (start.past (before ++ (front ++ []) ++ ['=']))
      rw [nesting_sides hleft hright, Nat.max_le]
      exact (hleft.read_framed hbefore Spaced.nil start).bind
        (hback.map fun right => Equation.mk left right)

/-! ### Rendered equations -/

theorem render_eq_append (equation : Equation) (rest : List Char) :
    equation.render rest = equation.render [] ++ rest := by
  unfold render
  rw [equation.left.render_eq_append, equation.right.render_eq_append,
    equation.left.render_eq_append (' ' :: _)]
  simp only [List.cons_append, List.append_assoc]

/-- An equation is rendered as its sides with the sign between them. -/
theorem render_nil (equation : Equation) :
    equation.render []
      = equation.left.render [] ++ ([' ', '=', ' '] ++ equation.right.render []) :=
  equation.left.render_eq_append _

theorem derives_render {equation : Equation} (h : equation.Spelled) :
    Derives (equation.render []) equation := by
  obtain ⟨hl, hr⟩ := spelled_iff.mp h
  rw [render_nil]
  exact (derives_sides (Expression.derives_render hl).sum_of_term.clause_of_sum
    (Expression.derives_render hr).sum_of_term.clause_of_sum).1

/-- In front of a text that begins no factor, an equation is rendered without implicit products. -/
theorem explicit_render (equation : Equation) {rest : List Char} (hrest : Explicit rest)
    (hapart : Apart rest) : Explicit (equation.render rest) := by
  have hright := equation.right.explicit_render hrest hapart
  have hmiddle := hright.operator '=' (by decide)
  exact equation.left.explicit_render hmiddle (Apart.cons (by decide) _)

/-- Both sides of the equation nest no deeper than is allowed. -/
def Shallow (equation : Equation) : Prop :=
  equation.left.depth ≤ maxNesting ∧ equation.right.depth ≤ maxNesting

/-- A rendered equation nests too deep exactly if one of its sides does. -/
theorem nesting_render_le_iff {equation : Equation} (h : equation.Spelled) :
    nesting (equation.render []) ≤ maxNesting ↔ equation.Shallow := by
  obtain ⟨hl, hr⟩ := spelled_iff.mp h
  rw [render_nil, (derives_sides (Expression.derives_render hl).sum_of_term.clause_of_sum
    (Expression.derives_render hr).sum_of_term.clause_of_sum).2, Expression.nesting_render hl,
    Expression.nesting_render hr, Nat.max_le]
  exact Iff.rfl

end Equation

/-! ### Constraints -/

namespace Constraint

theorem Derives.solid {layer : Layer} {text : List Char} {tree : Constraint}
    (h : Derives layer text tree) : ∃ c ∈ text, isBlank c = false := by
  rcases h.compares with hmem | hmem
  · exact ⟨'<', hmem, rfl⟩
  · exact ⟨'>', hmem, rfl⟩

/-- The clause of a constraint is read as the constraint. The words `such that` do not count there,
though a constraint may hold other words. -/
theorem Derives.clauseOf {text : List Char} {tree : Constraint} (h : Derives .clause text tree) :
    ClauseOf constraintTerminators readClause text tree where
  balanced := h.balanced
  quiet :=
    { comma := h.not_mem (by decide)
      period := h.not_mem (by decide)
      words := fun hactive => absurd hactive (by decide) }
  solid := h.solid
  yields clause hframed := by
    unfold readClause
    rw [readUnlessBlank_of_framed hframed h.solid]
    obtain ⟨before, behind, hbefore, hbehind, hchars⟩ := hframed
    obtain ⟨start, chars⟩ := clause
    rw [show chars = _ from hchars]
    exact h.read_framed hbefore hbehind start

end Constraint

end Diophantine
