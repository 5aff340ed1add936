import Mathlib.Data.Set.Function
import Diophantine.Proofs.Search.Order

/-!
# Other names

A search knows names by their slots, and the slots follow the order in which names are met. Names
are kept in the order of their code points in assignments, but that order has no part in the search.
So with other names in place of those of a problem, as long as they are still told apart, the same
points are visited in the same order, and the same values are found for the new names.

- `Expression.rename` and its siblings: other names in place of those of a tree;
- `Assignment.rename`, `Assignment.find?_rename`: the same values for other names;
- `Slots.rename`, `Slots.intern_rename`, `Slots.assignment_rename`: other names in the same slots;
- `Slots.KeptApart`, `Problem.lower_rename`: lowering trees with other names;
- `Search.solve_rename`, `Search.solveProblem_rename`: searching with other names.
-/

namespace Diophantine

/-! ### Trees -/

/-- The expression with other names for its variables. -/
def Expression.rename (f : Name → Name) : Expression → Expression
  | .constant value => .constant value
  | .var name => .var (f name)
  | .add left right => .add (left.rename f) (right.rename f)
  | .mul left right => .mul (left.rename f) (right.rename f)

/-- The equation with other names for its variables. -/
def Equation.rename (f : Name → Name) (equation : Equation) : Equation :=
  { left := equation.left.rename f, right := equation.right.rename f }

/-- The constraint with other names for its variables. -/
def Constraint.rename (f : Name → Name) : Constraint → Constraint
  | .less left right => .less (left.rename f) (right.rename f)
  | .greater left right => .greater (left.rename f) (right.rename f)
  | .and left right => .and (left.rename f) (right.rename f)
  | .or left right => .or (left.rename f) (right.rename f)

/-- The problem with other names for its variables. -/
def Problem.rename (f : Name → Name) (problem : Problem) : Problem :=
  { equations := problem.equations.map (Equation.rename f)
    constraints := problem.constraints.map (Constraint.rename f) }

variable {f : Name → Name}

/-! ### Assignments -/

/-- What is bound to names, bound to others. -/
def renameEntries {α : Type} (f : Name → Name) (entries : List (Name × α)) : List (Name × α) :=
  entries.map fun entry => (f entry.1, entry.2)

@[simp] theorem map_fst_renameEntries {α : Type} (entries : List (Name × α)) :
    (renameEntries f entries).map Prod.fst = (entries.map Prod.fst).map f := by
  unfold renameEntries
  rw [List.map_map, List.map_map]
  rfl

/-- A new name is found where the old one was, if no other name became the same. -/
theorem lookup_renameEntries {α : Type} {entries : List (Name × α)} {name : Name}
    (h : ∀ key ∈ entries.map Prod.fst, f key = f name → key = name) :
    (renameEntries f entries).lookup (f name) = entries.lookup name := by
  induction entries with
  | nil => rfl
  | cons entry entries ih =>
    obtain ⟨key, value⟩ := entry
    obtain ⟨hkey, hentries⟩ := List.forall_mem_cons.mp h
    show ((f key, value) :: renameEntries f entries).lookup (f name) = _
    rw [Assignment.lookup_cons, Assignment.lookup_cons, ih hentries]
    by_cases heq : name = key
    · rw [if_pos heq, if_pos (congrArg f heq)]
    · rw [if_neg heq, if_neg fun hf => heq (hkey hf.symm).symm]

namespace Assignment

/-- The same values for other names. -/
def rename (f : Name → Name) (assignment : Assignment) : Assignment :=
  ofList (renameEntries f assignment.entries)

section Rename

variable {assignment : Assignment}
  (hinj : Set.InjOn f { name | name ∈ assignment.entries.map Prod.fst })

include hinj

theorem nodup_renameEntries : ((renameEntries f assignment.entries).map Prod.fst).Nodup := by
  rw [map_fst_renameEntries]
  exact assignment.nodup_keys.map_on fun _ ha _ hb heq => hinj ha hb heq

/-- A new name has the value that the old one had. -/
theorem find?_rename {name : Name} (hname : name ∈ assignment.entries.map Prod.fst) :
    (assignment.rename f).find? (f name) = assignment.find? name := by
  unfold rename
  rw [find?_ofList (nodup_renameEntries hinj)]
  exact lookup_renameEntries fun key hkey heq => hinj hkey hname heq

end Rename

/-- Bindings are renamed before or after they are put in order. -/
theorem ofList_renameEntries {bindings : List (Name × Value)} (h : (bindings.map Prod.fst).Nodup)
    (hinj : Set.InjOn f { name | name ∈ bindings.map Prod.fst }) :
    ofList (renameEntries f bindings) = (ofList bindings).rename f := by
  have hkeys : ((renameEntries f bindings).map Prod.fst).Nodup := by
    rw [map_fst_renameEntries]
    exact h.map_on fun _ ha _ hb heq => hinj ha hb heq
  have hrenamed : (renameEntries f bindings).Perm (renameEntries f (ofList bindings).entries) :=
    (perm_entries_ofList h).map _
  have hkeys' := (hrenamed.map Prod.fst).nodup_iff.mp hkeys
  exact eq_of_perm_entries <|
    (perm_entries_ofList hkeys).symm.trans (hrenamed.trans (perm_entries_ofList hkeys'))

end Assignment

/-! ### Slots -/

namespace Slots

variable {slots : Slots}

/-- Other names in the same slots. -/
def rename (f : Name → Name) (slots : Slots) : Slots :=
  { names := slots.names.map f, byName := renameEntries f slots.byName }

theorem Indexed.mem_names_of_mem_byName (h : slots.Indexed) {name : Name}
    (hmem : name ∈ slots.byName.map Prod.fst) : name ∈ slots.names := by
  obtain ⟨entry, hentry, rfl⟩ := List.mem_map.mp hmem
  refine h.mem_iff.mpr (Option.isSome_iff_exists.mp (Option.isSome_iff_ne_none.mpr fun hnone => ?_))
  exact absurd (List.lookup_eq_none_iff.mp hnone entry hentry) (by rw [bne_self_eq_false]; decide)

/-- A new name gets the slot that the old one gets. -/
theorem intern_rename (h : slots.Indexed) {name : Name}
    (hinj : Set.InjOn f { other | other ∈ slots.names ∨ other ∈ [name] }) :
    (slots.rename f).intern (f name) = ((slots.intern name).1, (slots.intern name).2.rename f) := by
  have hfind : (slots.rename f).find? (f name) = slots.find? name :=
    lookup_renameEntries fun key hkey heq =>
      hinj (.inl (h.mem_names_of_mem_byName hkey)) (.inr (List.mem_singleton_self name)) heq
  have hlength : (slots.rename f).names.length = slots.names.length := List.length_map f
  unfold intern
  rw [hfind, hlength]
  cases slots.find? name with
  | some index => rfl
  | none =>
    show (_, (_ : Slots)) = (_, { names := (slots.names ++ [name]).map f, byName := _ })
    rw [List.map_append]
    rfl

/-- New names get the values that the old ones get. -/
theorem assignment_rename (hnodup : slots.names.Nodup)
    (hinj : Set.InjOn f { name | name ∈ slots.names }) (values : List Value) :
    (slots.rename f).assignment values = (slots.assignment values).rename f := by
  have hkeys : ((slots.names.zip values).map Prod.fst).Sublist slots.names := by
    rw [List.zip_eq_zip_take_min, List.map_fst_zip (by simp)]
    exact List.take_sublist ..
  unfold assignment
  rw [← Assignment.ofList_renameEntries (hnodup.sublist hkeys)
    (hinj.mono fun _ hname => hkeys.subset hname)]
  show Assignment.ofList ((slots.names.map f).zip values) = _
  rw [List.zip_map_left]
  rfl

/-- No two of the names that have slots or are given become the same. -/
def KeptApart (f : Name → Name) (slots : Slots) (names : List Name) : Prop :=
  Set.InjOn f { name | name ∈ slots.names ∨ name ∈ names }

theorem KeptApart.left {names more : List Name} (h : slots.KeptApart f (names ++ more)) :
    slots.KeptApart f names :=
  h.mono fun _ hname => hname.imp_right (List.mem_append_left more)

/-- Names that get slots are kept apart from those that follow. -/
theorem KeptApart.right {later : Slots} {names more : List Name}
    (h : slots.KeptApart f (names ++ more)) (hextends : Extends slots later names) :
    later.KeptApart f more := by
  refine h.mono fun name hname => ?_
  show name ∈ slots.names ∨ name ∈ names ++ more
  rw [List.mem_append, ← or_assoc, ← hextends.mem_iff]
  exact hname

end Slots

/-! ### Lowering -/

section Lower

variable {slots : Slots} (hindexed : slots.Indexed)

include hindexed

/-- A term is the same for other names, which get the same slots. -/
theorem Expression.lower_rename {expression : Expression}
    (h : slots.KeptApart f expression.names) :
    (expression.rename f).lower (slots.rename f)
      = ((expression.lower slots).1, (expression.lower slots).2.rename f) := by
  induction expression generalizing slots with
  | constant value => rfl
  | var name =>
    unfold rename lower
    rw [Slots.intern_rename hindexed h]
  | add left right ihl ihr | mul left right ihl ihr =>
    have hextends := (left.lowers hindexed).slots
    unfold rename lower
    simp only [ihl hindexed h.left, ihr hextends.indexed (h.right hextends)]

theorem lowerSides_rename (goal : Term → Term → Goal) {left right : Expression}
    (h : slots.KeptApart f (left.names ++ right.names)) :
    lowerSides (slots.rename f) goal (left.rename f) (right.rename f)
      = ((lowerSides slots goal left right).1, (lowerSides slots goal left right).2.rename f) := by
  have hextends := (left.lowers hindexed).slots
  unfold lowerSides
  simp only [Expression.lower_rename hindexed h.left,
    Expression.lower_rename hextends.indexed (h.right hextends)]

theorem Equation.lower_rename {equation : Equation} (h : slots.KeptApart f equation.names) :
    (equation.rename f).lower (slots.rename f)
      = ((equation.lower slots).1, (equation.lower slots).2.rename f) :=
  lowerSides_rename hindexed .equal h

theorem Constraint.lower_rename {constraint : Constraint}
    (h : slots.KeptApart f constraint.names) :
    (constraint.rename f).lower (slots.rename f)
      = ((constraint.lower slots).1, (constraint.lower slots).2.rename f) := by
  induction constraint generalizing slots with
  | less left right => exact lowerSides_rename hindexed .less h
  | greater left right => exact lowerSides_rename hindexed .greater h
  | and left right ihl ihr | or left right ihl ihr =>
    have hextends := (left.lowers hindexed).slots
    unfold rename lower
    simp only [ihl hindexed h.left, ihr hextends.indexed (h.right hextends)]

/-- Items that are lowered alike for other names are lowered alike one after the other. -/
theorem lowerEach_rename {α : Type} {lower : Slots → α → Goal × Slots} {rename : α → α}
    {namesOf : α → List Name}
    (hextends : ∀ {slots : Slots}, slots.Indexed → ∀ item,
      Slots.Extends slots (lower slots item).2 (namesOf item))
    (hrename : ∀ {slots : Slots}, slots.Indexed → ∀ {item}, slots.KeptApart f (namesOf item) →
      lower (slots.rename f) (rename item) = ((lower slots item).1, (lower slots item).2.rename f))
    {items : List α} (h : slots.KeptApart f (items.flatMap namesOf)) :
    lowerEach lower (slots.rename f) (items.map rename)
      = ((lowerEach lower slots items).1, (lowerEach lower slots items).2.rename f) := by
  induction items generalizing slots with
  | nil => rfl
  | cons item items ih =>
    have hitem := hextends hindexed item
    rw [List.map_cons]
    unfold lowerEach
    simp only [hrename hindexed h.left, ih hitem.indexed (h.right hitem)]

theorem Problem.lower_rename {problem : Problem} (h : slots.KeptApart f problem.names) :
    (problem.rename f).lower (slots.rename f)
      = ((problem.lower slots).1, (problem.lower slots).2.rename f) := by
  have hequations := (lowers_lowerEach Goal.Equates.mono Equation.lowers hindexed
    problem.equations).slots
  unfold rename lower
  simp only [
    lowerEach_rename hindexed (fun h item => (item.lowers h).slots) Equation.lower_rename h.left,
    lowerEach_rename hequations.indexed (fun h item => (item.lowers h).slots)
      Constraint.lower_rename (h.right hequations)]

end Lower

/-! ### Searching -/

/-- The same outcome for other names. -/
def Outcome.rename (f : Name → Name) : Outcome → Outcome
  | .satisfiable assignment => .satisfiable (assignment.rename f)
  | .unsatisfiable => .unsatisfiable

namespace Search

/-- Goals do not mention names, so the search for other names takes the same steps. -/
theorem solve_rename (search : Search) (hnodup : search.slots.names.Nodup)
    (hinj : Set.InjOn f { name | name ∈ search.slots.names }) (goals : List Goal) :
    ({ search with slots := search.slots.rename f }.solve goals).events
        = (search.solve goals).events
      ∧ ({ search with slots := search.slots.rename f }.solve goals).result
        = (search.solve goals).result.map (Outcome.rename f) := by
  have hcount : (search.slots.rename f).names.length = search.slots.names.length :=
    List.length_map f
  unfold solve
  dsimp only
  rw [hcount]
  cases walkBox (visit search.limits goals) search.slots.names.length
      search.limits.bound.toNat 0 with
  | ok examined => exact ⟨rfl, rfl⟩
  | error halt =>
    cases halt with
    | limit examined radius => exact ⟨rfl, rfl⟩
    | found values examined radius =>
      refine ⟨rfl, ?_⟩
      dsimp only
      rw [Slots.assignment_rename hnodup hinj]
      rfl

/-- Lowering a problem with other names gives the same goals, and slots with the other names. -/
theorem solveProblem_rename_eq {problem : Problem}
    (hinj : Set.InjOn f { name | name ∈ problem.names }) (limits : Limits) :
    ((ofLimits limits).solveProblem (problem.rename f)).1
      = { limits := limits, slots := (problem.lower Slots.empty).2.rename f : Search }.solve
          (problem.lower Slots.empty).1 := by
  have hapart : Slots.empty.KeptApart f problem.names :=
    hinj.mono fun name hname => hname.resolve_left List.not_mem_nil
  have hlower : (problem.rename f).lower Slots.empty
      = ((problem.lower Slots.empty).1, (problem.lower Slots.empty).2.rename f) :=
    Problem.lower_rename Slots.indexed_empty hapart
  show { limits := limits, slots := ((problem.rename f).lower Slots.empty).2 : Search }.solve
    ((problem.rename f).lower Slots.empty).1 = _
  rw [hlower]

/-- **Names do not matter** to a search. If other names are put in place of the variables of a
problem, all different, a new search takes the same steps within the same limits, and its answer is
the same: there is no solution, or the limit is reached after as many assignments, or the same
values are found for the new names. -/
theorem solveProblem_rename {problem : Problem} (f : Name → Name)
    (hinj : Set.InjOn f { name | name ∈ problem.vars.names }) (limits : Limits) :
    ((ofLimits limits).solveProblem (problem.rename f)).1.result
        = ((ofLimits limits).solveProblem problem).1.result.map (Outcome.rename f)
      ∧ ((ofLimits limits).solveProblem (problem.rename f)).1.events
        = ((ofLimits limits).solveProblem problem).1.events
      ∧ ∀ a, ((ofLimits limits).solveProblem problem).1.result = .ok (.satisfiable a) →
          (a.rename f).entries.map Prod.fst = (problem.rename f).vars.names
            ∧ ∀ name ∈ problem.vars.names, (a.rename f).find? (f name) = a.find? name := by
  have hnames : Set.InjOn f { name | name ∈ problem.names } :=
    hinj.mono fun _ hname => NameSet.mem_ofList.mpr hname
  have hextends := (Problem.lowers Slots.indexed_empty problem).slots
  have hslots : Set.InjOn f { name | name ∈ (problem.lower Slots.empty).2.names } :=
    hnames.mono fun name hname =>
      ((hextends.mem_iff name).mp hname).resolve_left List.not_mem_nil
  obtain ⟨hevents, hresult⟩ := solve_rename
    { limits := limits, slots := (problem.lower Slots.empty).2 }
    hextends.indexed.nodup hslots (problem.lower Slots.empty).1
  have hanswer : ((ofLimits limits).solveProblem (problem.rename f)).1.result
      = ((ofLimits limits).solveProblem problem).1.result.map (Outcome.rename f) := by
    rw [solveProblem_rename_eq hnames]
    exact hresult
  refine ⟨hanswer, ?_, fun a ha => ?_⟩
  · rw [solveProblem_rename_eq hnames]
    exact hevents
  · rw [ha] at hanswer
    obtain ⟨-, hkeys⟩ := isLeast_of_solveProblem ha
    refine ⟨(isLeast_of_solveProblem hanswer).2, fun name hname => ?_⟩
    rw [← hkeys] at hinj hname
    exact Assignment.find?_rename hinj hname

/-- With `b` for `x` and `a` for `y`, which come in the other order, the same solution of
`x + y = 1` is found. -/
theorem solveProblem_rename_swapped :
    let f : Name → Name := fun name => if name = 'x' then 'b' else 'a'
    let problem : Problem := { equations := [unitSum], constraints := [] }
    ((ofLimits .standard).solveProblem problem).1.result
        = .ok (.satisfiable (Assignment.ofList [('x', 1), ('y', 0)]))
      ∧ Set.InjOn f { name | name ∈ problem.vars.names }
      ∧ ((ofLimits .standard).solveProblem (problem.rename f)).1.result
        = .ok (.satisfiable (Assignment.ofList [('a', 0), ('b', 1)])) := by
  intro f problem
  have hfound : ((ofLimits .standard).solveProblem problem).1.result
      = .ok (.satisfiable (Assignment.ofList [('x', 1), ('y', 0)])) := by
    decide +kernel
  have hnodup : (problem.vars.names.map f).Nodup := by decide +kernel
  have hinj : Set.InjOn f { name | name ∈ problem.vars.names } :=
    fun _ ha _ hb => List.inj_on_of_nodup_map hnodup ha hb
  refine ⟨hfound, hinj, ?_⟩
  obtain ⟨hresult, -⟩ := solveProblem_rename f hinj .standard
  rw [hresult, hfound]
  rfl

end Search

end Diophantine
