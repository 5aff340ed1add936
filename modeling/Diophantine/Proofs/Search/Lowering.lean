import Diophantine.Proofs.Assignment
import Diophantine.Proofs.Exactness
import Diophantine.Search.Slots

/-!
# Lowering keeps meaning

Lowering puts slots in place of names and changes nothing else. Slots are only ever added behind
those that are there, so a term or a goal goes on standing for the tree that it came from, however
much is lowered after it.

- `Slots.Indexed`: the slots by name and the names by slot say the same;
- `Slots.Extends`: slots that come from others by giving slots to names;
- `Term.Stands`, `Goal.Equates`, `Goal.Asserts`: what terms and goals stand for, given the names by
  slot, and that this lasts (`mono`);
- `Expression.lowers`, `Equation.lowers`, `Constraint.lowers`, `lowers_lowerEach`: lowering gives
  what stands for the tree;
- `Term.Stands.evaluate_eq`, `Goal.Equates.holds_iff`, `Goal.Asserts.holds_eq`: what stands for a
  tree has its value and its answer.
-/

namespace Diophantine

/-! ### Two ways to look up slots -/

namespace Slots

/-- A name has a slot if it stands there, and no other. -/
def Indexed (slots : Slots) : Prop :=
  ∀ name index, slots.find? name = some index ↔ slots.names[index]? = some name

theorem indexed_empty : Indexed empty :=
  fun _ _ => iff_of_false nofun nofun

/-- No name stands at two slots, since looking it up gives only one of them. -/
theorem Indexed.nodup {slots : Slots} (h : slots.Indexed) : slots.names.Nodup := by
  refine List.nodup_iff_getElem?_ne_getElem?.mpr fun i j hij hj heq => ?_
  have hname : slots.names[j]? = some slots.names[j] := List.getElem?_eq_getElem hj
  have hi := (h _ _).mpr (heq.trans hname)
  have hj' := (h _ _).mpr hname
  exact Nat.ne_of_lt hij (Option.some.inj (hi.symm.trans hj'))

theorem Indexed.mem_iff {slots : Slots} (h : slots.Indexed) {name : Name} :
    name ∈ slots.names ↔ ∃ index, slots.find? name = some index := by
  rw [List.mem_iff_getElem?]
  exact exists_congr fun index => (h name index).symm

/-! ### More slots -/

/-- Slots that come from others by giving a slot to each of some names, unless it has one. -/
structure Extends (slots later : Slots) (names : List Name) : Prop where
  front : slots.names <+: later.names
  indexed : later.Indexed
  mem_iff : ∀ name, name ∈ later.names ↔ name ∈ slots.names ∨ name ∈ names

theorem Extends.refl {slots : Slots} (h : slots.Indexed) : Extends slots slots [] :=
  { front := List.prefix_refl _
    indexed := h
    mem_iff := fun _ => (or_iff_left List.not_mem_nil).symm }

theorem Extends.trans {slots later last : Slots} {names more : List Name}
    (h : Extends slots later names) (h' : Extends later last more) :
    Extends slots last (names ++ more) :=
  { front := h.front.trans h'.front
    indexed := h'.indexed
    mem_iff := fun name => by rw [h'.mem_iff, h.mem_iff, List.mem_append, or_assoc] }

/-- Slots that are given to names alone are those of the set of these names. -/
theorem Extends.ofList_eq {slots : Slots} {names : List Name} (h : Extends empty slots names) :
    NameSet.ofList slots.names = NameSet.ofList names :=
  NameSet.ofList_congr fun name => (h.mem_iff name).trans (or_iff_right List.not_mem_nil)

/-- A slot that was given stays with its name. -/
theorem Extends.find?_eq {slots later : Slots} {names : List Name} (h : Extends slots later names)
    (hindexed : slots.Indexed) {name : Name} {index : Nat} (hfind : slots.find? name = some index) :
    later.find? name = some index := by
  obtain ⟨hlt, hget⟩ := List.getElem?_eq_some_iff.mp ((hindexed name index).mp hfind)
  exact (h.indexed name index).mpr (hget ▸ List.prefix_iff_getElem?.mp h.front index hlt)

/-- Giving the next slot to a new name keeps both ways to look up slots in agreement. -/
theorem Indexed.push {slots : Slots} (h : slots.Indexed) {name : Name}
    (hfresh : name ∉ slots.names) :
    Indexed { names := slots.names ++ [name]
              byName := (name, slots.names.length) :: slots.byName } := by
  intro other index
  unfold find?
  rw [Assignment.lookup_cons, List.getElem?_append]
  have hold := h other index
  by_cases hlt : index < slots.names.length
  · rw [if_pos hlt, ← hold]
    by_cases heq : other = name
    · subst heq
      rw [if_pos rfl]
      have hne : slots.find? other ≠ some index := fun hfind => hfresh (h.mem_iff.mpr ⟨_, hfind⟩)
      exact iff_of_false (fun hindex => Nat.ne_of_gt hlt (Option.some.inj hindex)) hne
    · rw [if_neg heq]
      exact Iff.rfl
  · rw [if_neg hlt, List.getElem?_singleton]
    by_cases heq : other = name
    · subst heq
      rw [if_pos rfl, Option.some.injEq]
      split <;> simp <;> omega
    · rw [if_neg heq]
      have hnone : slots.names[index]? = none := List.getElem?_eq_none (Nat.le_of_not_lt hlt)
      rw [hnone] at hold
      refine iff_of_false (fun hfind => nomatch hold.mp hfind) ?_
      split
      · exact fun hname => heq (Option.some.inj hname).symm
      · exact nofun

theorem extends_intern {slots : Slots} (h : slots.Indexed) (name : Name) :
    Extends slots (slots.intern name).2 [name] := by
  unfold intern
  split
  · rename_i index hindex
    have hmem : name ∈ slots.names := h.mem_iff.mpr ⟨index, hindex⟩
    refine ⟨List.prefix_refl _, h, fun other => ⟨.inl, ?_⟩⟩
    rintro (hother | hother)
    · exact hother
    · exact List.mem_singleton.mp hother ▸ hmem
  · rename_i hnone
    have hfresh : name ∉ slots.names := fun hmem => by
      obtain ⟨index, hindex⟩ := h.mem_iff.mp hmem
      cases hnone.symm.trans hindex
    exact ⟨List.prefix_append .., h.push hfresh, fun other => List.mem_append⟩

/-- The slot of a name is the one at which it stands. -/
theorem getElem?_intern {slots : Slots} (h : slots.Indexed) (name : Name) :
    (slots.intern name).2.names[(slots.intern name).1]? = some name := by
  unfold intern
  split
  · rename_i index hindex
    exact (h name index).mp hindex
  · exact List.getElem?_concat_length ..

end Slots

/-! ### Standing for a tree -/

/-- A term is an expression with slots in place of names. -/
inductive Term.Stands (names : List Name) : Term → Expression → Prop
  | constant (value : Value) : Stands names (.constant value) (.constant value)
  | slot {index : Nat} {name : Name} (h : names[index]? = some name) :
      Stands names (.slot index) (.var name)
  | add {l r : Term} {left right : Expression} (hl : Stands names l left)
      (hr : Stands names r right) : Stands names (.add l r) (.add left right)
  | mul {l r : Term} {left right : Expression} (hl : Stands names l left)
      (hr : Stands names r right) : Stands names (.mul l r) (.mul left right)

/-- A goal asks for what an equation says. -/
inductive Goal.Equates (names : List Name) : Goal → Equation → Prop
  | equal {l r : Term} {equation : Equation} (hl : l.Stands names equation.left)
      (hr : r.Stands names equation.right) : Equates names (.equal l r) equation

/-- A goal asks for what a constraint says. -/
inductive Goal.Asserts (names : List Name) : Goal → Constraint → Prop
  | less {l r : Term} {left right : Expression} (hl : l.Stands names left)
      (hr : r.Stands names right) : Asserts names (.less l r) (.less left right)
  | greater {l r : Term} {left right : Expression} (hl : l.Stands names left)
      (hr : r.Stands names right) : Asserts names (.greater l r) (.greater left right)
  | all {l r : Goal} {left right : Constraint} (hl : Asserts names l left)
      (hr : Asserts names r right) : Asserts names (.all l r) (.and left right)
  | any {l r : Goal} {left right : Constraint} (hl : Asserts names l left)
      (hr : Asserts names r right) : Asserts names (.any l r) (.or left right)

section Mono

variable {names later : List Name} (hfront : names <+: later)

include hfront

/-- What a term stands for does not change with more names. -/
theorem Term.Stands.mono {term : Term} {expression : Expression}
    (h : term.Stands names expression) : term.Stands later expression := by
  induction h with
  | constant value => exact .constant value
  | slot hname =>
    obtain ⟨hlt, hget⟩ := List.getElem?_eq_some_iff.mp hname
    exact .slot (hget ▸ List.prefix_iff_getElem?.mp hfront _ hlt)
  | add _ _ ihl ihr => exact .add ihl ihr
  | mul _ _ ihl ihr => exact .mul ihl ihr

theorem Goal.Equates.mono {goal : Goal} {equation : Equation} (h : goal.Equates names equation) :
    goal.Equates later equation := by
  obtain ⟨hl, hr⟩ := h
  exact .equal (hl.mono hfront) (hr.mono hfront)

theorem Goal.Asserts.mono {goal : Goal} {constraint : Constraint}
    (h : goal.Asserts names constraint) : goal.Asserts later constraint := by
  induction h with
  | less hl hr => exact .less (hl.mono hfront) (hr.mono hfront)
  | greater hl hr => exact .greater (hl.mono hfront) (hr.mono hfront)
  | all _ _ ihl ihr => exact .all ihl ihr
  | any _ _ ihl ihr => exact .any ihl ihr

end Mono

/-! ### Lowering -/

/-- What lowering an item makes of slots: its names have slots, and the result stands for it. -/
structure Lowers {α β : Type} (Stands : List Name → β → α → Prop) (slots : Slots) (item : α)
    (names : List Name) (result : β × Slots) : Prop where
  slots : Slots.Extends slots result.2 names
  stands : Stands result.2.names result.1 item

section Lowers

variable {slots : Slots}

/-- Lowering an expression puts the slots of its names in their place. -/
theorem Expression.lowers (h : slots.Indexed) (expression : Expression) :
    Lowers Term.Stands slots expression expression.names (expression.lower slots) := by
  induction expression generalizing slots with
  | constant value => exact ⟨.refl h, .constant value⟩
  | var name => exact ⟨Slots.extends_intern h name, .slot (Slots.getElem?_intern h name)⟩
  | add left right ihl ihr =>
    -- The left side is lowered first; what it gave has to last while the right side adds slots.
    have hl := ihl h
    have hr := ihr hl.slots.indexed
    exact ⟨hl.slots.trans hr.slots, .add (hl.stands.mono hr.slots.front) hr.stands⟩
  | mul left right ihl ihr =>
    have hl := ihl h
    have hr := ihr hl.slots.indexed
    exact ⟨hl.slots.trans hr.slots, .mul (hl.stands.mono hr.slots.front) hr.stands⟩

theorem Equation.lowers (h : slots.Indexed) (equation : Equation) :
    Lowers Goal.Equates slots equation equation.names (equation.lower slots) := by
  have hl := Expression.lowers h equation.left
  have hr := Expression.lowers hl.slots.indexed equation.right
  exact ⟨hl.slots.trans hr.slots, .equal (hl.stands.mono hr.slots.front) hr.stands⟩

theorem Constraint.lowers (h : slots.Indexed) (constraint : Constraint) :
    Lowers Goal.Asserts slots constraint constraint.names (constraint.lower slots) := by
  induction constraint generalizing slots with
  | less left right =>
    have hl := Expression.lowers h left
    have hr := Expression.lowers hl.slots.indexed right
    exact ⟨hl.slots.trans hr.slots, .less (hl.stands.mono hr.slots.front) hr.stands⟩
  | greater left right =>
    have hl := Expression.lowers h left
    have hr := Expression.lowers hl.slots.indexed right
    exact ⟨hl.slots.trans hr.slots, .greater (hl.stands.mono hr.slots.front) hr.stands⟩
  | and left right ihl ihr =>
    have hl := ihl h
    have hr := ihr hl.slots.indexed
    exact ⟨hl.slots.trans hr.slots, .all (hl.stands.mono hr.slots.front) hr.stands⟩
  | or left right ihl ihr =>
    have hl := ihl h
    have hr := ihr hl.slots.indexed
    exact ⟨hl.slots.trans hr.slots, .any (hl.stands.mono hr.slots.front) hr.stands⟩

/-- Lowering one item after the other lowers each of them. -/
theorem lowers_lowerEach {α : Type} {Stands : List Name → Goal → α → Prop}
    (hmono : ∀ {names later : List Name}, names <+: later → ∀ {goal : Goal} {item : α},
      Stands names goal item → Stands later goal item)
    {lower : Slots → α → Goal × Slots} {namesOf : α → List Name}
    (hlower : ∀ {slots : Slots}, slots.Indexed → ∀ item,
      Lowers Stands slots item (namesOf item) (lower slots item))
    (h : slots.Indexed) (items : List α) :
    Lowers (fun names => List.Forall₂ (Stands names)) slots items (items.flatMap namesOf)
      (lowerEach lower slots items) := by
  induction items generalizing slots with
  | nil => exact ⟨.refl h, .nil⟩
  | cons item items ih =>
    have hitem := hlower h item
    have hitems := ih hitem.slots.indexed
    exact ⟨hitem.slots.trans hitems.slots,
      .cons (hmono hitems.slots.front hitem.stands) hitems.stands⟩

/-- Goals for the equations of a problem, before goals for its constraints. -/
inductive Problem.Poses (problem : Problem) (names : List Name) : List Goal → Prop
  | intro {equations constraints : List Goal}
      (hequations : List.Forall₂ (Goal.Equates names) equations problem.equations)
      (hconstraints : List.Forall₂ (Goal.Asserts names) constraints problem.constraints) :
      Poses problem names (equations ++ constraints)

theorem Problem.Poses.mono {problem : Problem} {names later : List Name}
    (hfront : names <+: later) {goals : List Goal} (h : problem.Poses names goals) :
    problem.Poses later goals := by
  obtain ⟨hequations, hconstraints⟩ := h
  exact .intro (hequations.imp fun _ _ h => h.mono hfront)
    (hconstraints.imp fun _ _ h => h.mono hfront)

theorem Problem.lowers (h : slots.Indexed) (problem : Problem) :
    Lowers (fun names goals problem => problem.Poses names goals) slots problem problem.names
      (problem.lower slots) := by
  have hequations := lowers_lowerEach Goal.Equates.mono Equation.lowers h problem.equations
  have hconstraints := lowers_lowerEach Goal.Asserts.mono Constraint.lowers
    hequations.slots.indexed problem.constraints
  refine ⟨hequations.slots.trans hconstraints.slots, .intro ?_ hconstraints.stands⟩
  exact hequations.stands.imp fun _ _ h => h.mono hconstraints.slots.front

end Lowers

/-! ### Meaning -/

theorem Goal.compare_eq_both (test : Value → Value → Bool) (values : List Value) (l r : Term) :
    Goal.compare test values l r = Value.both test (l.evaluate values) (r.evaluate values) := by
  unfold compare
  cases l.evaluate values <;> cases r.evaluate values <;> rfl

/-- Related members of two lists have related properties. -/
theorem forall_mem_iff_of_forall₂ {α β : Type} {R : α → β → Prop} {P : α → Prop} {Q : β → Prop}
    (hiff : ∀ {a b}, R a b → (P a ↔ Q b)) {as : List α} {bs : List β} (h : List.Forall₂ R as bs) :
    (∀ a ∈ as, P a) ↔ ∀ b ∈ bs, Q b := by
  induction h with
  | nil => exact iff_of_true nofun nofun
  | cons hab _ ih => rw [List.forall_mem_cons, List.forall_mem_cons, hiff hab, ih]

section Meaning

variable {slots : Slots} {values : List Value} (hnodup : slots.names.Nodup)
  (hlen : slots.names.length = values.length)

include hnodup hlen

/-- A term has the value of the expression that it stands for. -/
theorem Term.Stands.evaluate_eq {term : Term} {expression : Expression}
    (h : term.Stands slots.names expression) :
    term.evaluate values = expression.evaluate (slots.assignment values) := by
  induction h with
  | constant value => rfl
  | slot hname => exact (Assignment.find?_zip_of_getElem? hnodup hlen hname).symm
  | add _ _ ihl ihr => rw [evaluate_add, Expression.evaluate_add, ihl, ihr]
  | mul _ _ ihl ihr => rw [evaluate_mul, Expression.evaluate_mul, ihl, ihr]

/-- Comparing terms is comparing the values of the expressions that they stand for. -/
theorem Goal.compare_eq {l r : Term} {left right : Expression} (test : Value → Value → Bool)
    (hl : l.Stands slots.names left) (hr : r.Stands slots.names right) :
    Goal.compare test values l r
      = Value.both test (left.evaluate (slots.assignment values))
          (right.evaluate (slots.assignment values)) := by
  rw [compare_eq_both, hl.evaluate_eq hnodup hlen, hr.evaluate_eq hnodup hlen]

/-- The goal of an equation holds where the equation does. -/
theorem Goal.Equates.holds_iff {goal : Goal} {equation : Equation}
    (h : goal.Equates slots.names equation) :
    goal.holds values = true ↔ equation.holds (slots.assignment values) = some true := by
  obtain ⟨hl, hr⟩ := h
  rw [Equation.holds_eq_some_true_iff, ← Goal.compare_eq hnodup hlen _ hl hr]
  exact Iff.rfl

/-- The goal of a constraint holds where the constraint is certain. -/
theorem Goal.Asserts.holds_eq {goal : Goal} {constraint : Constraint}
    (h : goal.Asserts slots.names constraint) :
    goal.holds values = constraint.certain (slots.assignment values) := by
  induction h with
  | less hl hr => exact Goal.compare_eq hnodup hlen _ hl hr
  | greater hl hr => exact Goal.compare_eq hnodup hlen _ hl hr
  | all _ _ ihl ihr => rw [holds_all, Constraint.certain_and, ihl, ihr]
  | any _ _ ihl ihr => rw [holds_any, Constraint.certain_or, ihl, ihr]

/-- The goals of a problem are those of its equations, followed by those of its constraints. -/
theorem Problem.Poses.exists_eq_append {goals : List Goal} {problem : Problem}
    (h : problem.Poses slots.names goals) :
    ∃ equations constraints, goals = equations ++ constraints
      ∧ List.Forall₂ (fun goal (equation : Equation) =>
          goal.holds values = true ↔ equation.holds (slots.assignment values) = some true)
          equations problem.equations
      ∧ List.Forall₂ (fun goal (constraint : Constraint) =>
          goal.holds values = constraint.certain (slots.assignment values))
          constraints problem.constraints := by
  obtain ⟨hequations, hconstraints⟩ := h
  exact ⟨_, _, rfl, hequations.imp fun _ _ h => h.holds_iff hnodup hlen,
    hconstraints.imp fun _ _ h => h.holds_eq hnodup hlen⟩

/-- The goals of a problem all hold where its equations do and its constraints are certain. -/
theorem Problem.Poses.holds_iff {goals : List Goal} {problem : Problem}
    (h : problem.Poses slots.names goals) :
    (∀ goal ∈ goals, goal.holds values = true) ↔
      (∀ equation ∈ problem.equations, equation.holds (slots.assignment values) = some true)
        ∧ ∀ constraint ∈ problem.constraints,
            constraint.certain (slots.assignment values) = true := by
  obtain ⟨equations, constraints, rfl, hequations, hconstraints⟩ :=
    h.exists_eq_append hnodup hlen
  rw [List.forall_mem_append]
  refine and_congr (forall_mem_iff_of_forall₂ id hequations)
    (forall_mem_iff_of_forall₂ (fun h => ?_) hconstraints)
  rw [h]

end Meaning

end Diophantine
