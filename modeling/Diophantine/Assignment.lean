import Diophantine.Value

/-!
# Names and assignments

A variable is named by a single character. Sets of names and assignments of values to names are
kept in the order of their code points, which is the order in which they are shown; since that
order is part of the types, two assignments that bind the same names to the same values are equal.

* `NameSet` is a set of names,
* `Assignment` binds names to values; a later binding of a name replaces an earlier one.
-/

namespace Diophantine

/-- The name of a variable. -/
abbrev Name := Char

private theorem nameLt_of_ne_of_not_lt {a b : Name} (h : ¬a < b) (ne : a ≠ b) : b < a := by
  rcases Decidable.em (b < a) with lt | notLt
  · exact lt
  · exact absurd (Char.le_antisymm (Char.not_lt.mp notLt) (Char.not_lt.mp h)) ne

/-! ### Sets of names -/

/-- A set of names, in increasing order. -/
structure NameSet where
  names : List Name
  increasing : names.Pairwise (· < ·)
deriving DecidableEq

namespace NameSet

/-- Puts a name into its place, unless it is there. -/
def insertName (name : Name) : List Name → List Name
  | [] => [name]
  | n :: names =>
    if name < n then name :: n :: names
    else if name = n then n :: names
    else n :: insertName name names

@[simp] theorem mem_insertName {name other : Name} {names : List Name} :
    other ∈ insertName name names ↔ other = name ∨ other ∈ names := by
  induction names with
  | nil => simp [insertName]
  | cons n names ih =>
    unfold insertName
    split
    · simp
    · split
      · rename_i eq
        simp [eq]
      · simp only [List.mem_cons, ih]
        grind

theorem pairwise_insertName {name : Name} {names : List Name}
    (increasing : names.Pairwise (· < ·)) : (insertName name names).Pairwise (· < ·) := by
  induction names with
  | nil => simp [insertName]
  | cons n names ih =>
    obtain ⟨above, tail⟩ := List.pairwise_cons.mp increasing
    unfold insertName
    split
    · rename_i lt
      refine List.pairwise_cons.mpr ⟨fun other h => ?_, increasing⟩
      rcases List.mem_cons.mp h with rfl | h
      · exact lt
      · exact Char.lt_trans lt (above other h)
    · split
      · exact increasing
      · rename_i notLt ne
        refine List.pairwise_cons.mpr ⟨fun other h => ?_, ih tail⟩
        rcases mem_insertName.mp h with rfl | h
        · exact nameLt_of_ne_of_not_lt notLt ne
        · exact above other h

/-- The set without names. -/
def empty : NameSet :=
  { names := [], increasing := List.Pairwise.nil }

/-- The set with one more name. -/
def insert (set : NameSet) (name : Name) : NameSet :=
  { names := insertName name set.names, increasing := pairwise_insertName set.increasing }

/-- The set of the names in a list. -/
def ofList (names : List Name) : NameSet :=
  names.foldl insert empty

end NameSet

/-! ### Assignments -/

/-- Values for some names, in increasing order of the names. -/
structure Assignment where
  entries : List (Name × Value)
  increasing : entries.Pairwise fun a b => a.1 < b.1
deriving DecidableEq

namespace Assignment

/-- Puts a binding into its place, over an earlier one of the same name. -/
def bindEntry (name : Name) (value : Value) : List (Name × Value) → List (Name × Value)
  | [] => [(name, value)]
  | e :: entries =>
    if name < e.1 then (name, value) :: e :: entries
    else if name = e.1 then (name, value) :: entries
    else e :: bindEntry name value entries

theorem fst_eq_or_mem_of_mem_bindEntry {name : Name} {value : Value} {e : Name × Value}
    {entries : List (Name × Value)} (h : e ∈ bindEntry name value entries) :
    e.1 = name ∨ e ∈ entries := by
  induction entries with
  | nil => simp_all [bindEntry]
  | cons d entries ih =>
    unfold bindEntry at h
    split at h
    · grind
    · split at h <;> grind

theorem pairwise_bindEntry {name : Name} {value : Value} {entries : List (Name × Value)}
    (increasing : entries.Pairwise fun a b => a.1 < b.1) :
    (bindEntry name value entries).Pairwise fun a b => a.1 < b.1 := by
  induction entries with
  | nil => simp [bindEntry]
  | cons d entries ih =>
    obtain ⟨above, tail⟩ := List.pairwise_cons.mp increasing
    unfold bindEntry
    split
    · rename_i lt
      refine List.pairwise_cons.mpr ⟨fun other h => ?_, increasing⟩
      rcases List.mem_cons.mp h with rfl | h
      · exact lt
      · exact Char.lt_trans lt (above other h)
    · split
      · rename_i eq
        exact List.pairwise_cons.mpr ⟨fun other h => eq ▸ above other h, tail⟩
      · rename_i notLt ne
        refine List.pairwise_cons.mpr ⟨fun other h => ?_, ih tail⟩
        rcases fst_eq_or_mem_of_mem_bindEntry h with eq | h
        · exact eq ▸ nameLt_of_ne_of_not_lt notLt ne
        · exact above other h

/-- The assignment without bindings. -/
def empty : Assignment :=
  { entries := [], increasing := List.Pairwise.nil }

/-- The assignment with one more binding, which replaces an earlier one of the same name. -/
def insert (assignment : Assignment) (name : Name) (value : Value) : Assignment :=
  { entries := bindEntry name value assignment.entries
    increasing := pairwise_bindEntry assignment.increasing }

/-- The assignment of a list of bindings, of which the last one for each name counts. -/
def ofList (bindings : List (Name × Value)) : Assignment :=
  bindings.foldl (fun assignment binding => assignment.insert binding.1 binding.2) empty

/-- The value of a name, if it is bound. -/
def find? (assignment : Assignment) (name : Name) : Option Value :=
  assignment.entries.lookup name

end Assignment

end Diophantine
