import Mathlib.Data.List.Perm.Lattice
import Diophantine.Assignment

/-!
# Looking up bindings

What an assignment binds is what it was built from: of several bindings of one name the last one
counts, and if no name is bound twice, every binding counts.

- `Assignment.find?_insert`, `Assignment.find?_ofList`, `Assignment.mem_entries_iff`: looking up
  names;
- `Assignment.map_find?_zip`, `Assignment.exists_find?_zip_iff`: names bound to values, one by one;
- `Assignment.map_fst_entries_zip`: the names that are bound, as a `NameSet`.
-/

namespace Diophantine

/-! ### Sets of names -/

/-- Strictly increasing lists are equal if they have the same members. -/
theorem eq_of_increasing {names others : List Name} (h : names.Pairwise (· < ·))
    (h' : others.Pairwise (· < ·)) (hmem : ∀ name, name ∈ names ↔ name ∈ others) :
    names = others := by
  have hperm : names.Perm others :=
    (List.perm_ext_iff_of_nodup (h.imp Char.ne_of_lt) (h'.imp Char.ne_of_lt)).mpr hmem
  exact hperm.eq_of_pairwise
    (fun a _ _ _ hab hba => absurd (Char.lt_trans hab hba) (Char.lt_irrefl a)) h h'

@[simp] theorem NameSet.mem_ofList {names : List Name} {name : Name} :
    name ∈ (NameSet.ofList names).names ↔ name ∈ names := by
  have hfold : ∀ set : NameSet,
      name ∈ (names.foldl NameSet.insert set).names ↔ name ∈ set.names ∨ name ∈ names := by
    induction names with
    | nil => exact fun set => (or_iff_left List.not_mem_nil).symm
    | cons n names ih =>
      intro set
      rw [List.foldl_cons, ih]
      show name ∈ NameSet.insertName n set.names ∨ name ∈ names ↔ _
      rw [NameSet.mem_insertName, List.mem_cons, or_comm (a := name = n), or_assoc]
  exact (hfold NameSet.empty).trans (or_iff_right List.not_mem_nil)

/-- Names with the same members make the same set. -/
theorem NameSet.ofList_congr {names others : List Name}
    (h : ∀ name, name ∈ names ↔ name ∈ others) : NameSet.ofList names = NameSet.ofList others := by
  have hnames : (NameSet.ofList names).names = (NameSet.ofList others).names :=
    eq_of_increasing (NameSet.ofList names).increasing (NameSet.ofList others).increasing
      fun name => by rw [NameSet.mem_ofList, NameSet.mem_ofList, h]
  cases hset : NameSet.ofList names
  cases hother : NameSet.ofList others
  rw [hset, hother] at hnames
  cases hnames
  rfl

/-- A list that names nothing twice has as many names as its set. -/
theorem NameSet.length_ofList {names : List Name} (h : names.Nodup) :
    (NameSet.ofList names).names.length = names.length := by
  have hset : (NameSet.ofList names).names.Nodup :=
    (NameSet.ofList names).increasing.imp Char.ne_of_lt
  exact ((List.perm_ext_iff_of_nodup hset h).mpr fun name => NameSet.mem_ofList).length_eq

/-! ### Lookups -/

namespace Assignment

/-- Looking up a name goes past the bindings of other names. -/
theorem lookup_cons {α : Type} (key other : Name) (value : α) (entries : List (Name × α)) :
    ((key, value) :: entries).lookup other
      = if other = key then some value else entries.lookup other := by
  rw [List.lookup_cons]
  by_cases heq : other = key
  · rw [if_pos heq, beq_iff_eq.mpr heq]
  · rw [if_neg heq, beq_eq_false_iff_ne.mpr heq]

theorem lookup_eq_none {name : Name} {entries : List (Name × Value)}
    (h : name ∉ entries.map Prod.fst) : entries.lookup name = none := by
  rw [List.lookup_eq_none_iff]
  intro binding hmem
  rw [bne_iff_ne]
  rintro rfl
  exact h (List.mem_map_of_mem hmem)

/-- If no name is bound twice, looking up finds every binding. -/
theorem mem_iff_lookup {entries : List (Name × Value)} (h : (entries.map Prod.fst).Nodup)
    {name : Name} {value : Value} :
    (name, value) ∈ entries ↔ entries.lookup name = some value := by
  induction entries with
  | nil => exact iff_of_false List.not_mem_nil nofun
  | cons e entries ih =>
    obtain ⟨key, bound⟩ := e
    obtain ⟨hfresh, hrest⟩ := List.nodup_cons.mp h
    rw [List.mem_cons, lookup_cons]
    by_cases heq : name = key
    · subst heq
      rw [if_pos rfl, Option.some_inj, Prod.mk.injEq]
      constructor
      · rintro (⟨-, rfl⟩ | hmem)
        · rfl
        · exact absurd (List.mem_map_of_mem hmem) hfresh
      · rintro rfl
        exact .inl ⟨rfl, rfl⟩
    · rw [if_neg heq, ← ih hrest]
      exact or_iff_right fun h => heq (congrArg Prod.fst h)

@[simp] theorem lookup_bindEntry (name : Name) (value : Value) (entries : List (Name × Value))
    (other : Name) :
    (bindEntry name value entries).lookup other
      = if other = name then some value else entries.lookup other := by
  induction entries with
  | nil => exact lookup_cons name other value []
  | cons e entries ih =>
    obtain ⟨key, bound⟩ := e
    unfold bindEntry
    split
    · exact lookup_cons ..
    · split
      · -- The binding of the same name is replaced, so the one behind it is not looked at.
        rename_i hkey
        rw [lookup_cons, lookup_cons]
        by_cases heq : other = name
        · rw [if_pos heq, if_pos heq]
        · rw [if_neg heq, if_neg heq, if_neg fun h => heq (h.trans hkey.symm)]
      · rename_i hkey
        rw [lookup_cons, lookup_cons, ih]
        by_cases heq : other = name
        · rw [if_pos heq, if_pos heq, if_neg fun h => hkey (heq.symm.trans h)]
        · rw [if_neg heq, if_neg heq]

/-- A binding shadows earlier ones of its name, and no others. -/
@[simp] theorem find?_insert (assignment : Assignment) (name : Name) (value : Value)
    (other : Name) :
    (assignment.insert name value).find? other
      = if other = name then some value else assignment.find? other :=
  lookup_bindEntry name value assignment.entries other

/-- If no name is bound twice, every binding counts. -/
theorem find?_ofList {bindings : List (Name × Value)} (h : (bindings.map Prod.fst).Nodup)
    (name : Name) : (ofList bindings).find? name = bindings.lookup name := by
  have hfold : ∀ assignment : Assignment,
      (bindings.foldl (fun assignment binding => assignment.insert binding.1 binding.2)
        assignment).find? name = (bindings.lookup name).or (assignment.find? name) := by
    induction bindings with
    | nil => exact fun _ => rfl
    | cons binding bindings ih =>
      intro assignment
      obtain ⟨key, value⟩ := binding
      obtain ⟨hfresh, hrest⟩ := List.nodup_cons.mp h
      -- What is bound first can only be replaced by a binding of the same name, and there is none.
      rw [List.foldl_cons, ih hrest, find?_insert, lookup_cons]
      by_cases heq : name = key
      · have hnone : bindings.lookup name = none := lookup_eq_none (heq ▸ hfresh)
        rw [if_pos heq, if_pos heq, hnone]
        rfl
      · rw [if_neg heq, if_neg heq]
  exact (hfold empty).trans (Option.or_none ..)

/-- An assignment binds no name twice. -/
theorem nodup_keys (assignment : Assignment) : (assignment.entries.map Prod.fst).Nodup :=
  List.pairwise_map.mpr (assignment.increasing.imp Char.ne_of_lt)

/-- The bindings of an assignment are what is found in it. -/
@[simp] theorem mem_entries_iff {assignment : Assignment} {name : Name} {value : Value} :
    (name, value) ∈ assignment.entries ↔ assignment.find? name = some value :=
  mem_iff_lookup assignment.nodup_keys

/-- If no name is bound twice, all bindings are kept. -/
theorem mem_entries_ofList {bindings : List (Name × Value)} (h : (bindings.map Prod.fst).Nodup)
    {entry : Name × Value} : entry ∈ (ofList bindings).entries ↔ entry ∈ bindings := by
  obtain ⟨name, value⟩ := entry
  rw [mem_entries_iff, find?_ofList h, mem_iff_lookup h]

/-- If no name is bound twice, the bindings are put into another order at most. -/
theorem perm_entries_ofList {bindings : List (Name × Value)}
    (h : (bindings.map Prod.fst).Nodup) : bindings.Perm (ofList bindings).entries :=
  (List.perm_ext_iff_of_nodup (h.of_map Prod.fst)
    ((ofList bindings).nodup_keys.of_map Prod.fst)).mpr fun _ => (mem_entries_ofList h).symm

/-- The order of the bindings is that of the names, so there is only one. -/
theorem eq_of_perm_entries {assignment other : Assignment}
    (h : assignment.entries.Perm other.entries) : assignment = other := by
  have hentries : assignment.entries = other.entries :=
    h.eq_of_pairwise
      (fun a _ _ _ hab hba => absurd (Char.lt_trans hab hba) (Char.lt_irrefl a.1))
      assignment.increasing other.increasing
  cases assignment
  cases other
  cases hentries
  rfl

/-! ### Names and their values -/

section Zip

variable {names : List Name} {values : List Value} (hnodup : names.Nodup)
  (hlen : names.length = values.length)

include hnodup hlen

theorem find?_zip (name : Name) :
    (ofList (names.zip values)).find? name = (names.zip values).lookup name := by
  refine find?_ofList ?_ name
  rwa [List.map_fst_zip (Nat.le_of_eq hlen)]

theorem mem_zip_iff {name : Name} {value : Value} :
    (ofList (names.zip values)).find? name = some value ↔ (name, value) ∈ names.zip values := by
  rw [find?_zip hnodup hlen, mem_iff_lookup]
  rwa [List.map_fst_zip (Nat.le_of_eq hlen)]

/-- The value of a name is the one at its place. -/
theorem find?_zip_of_getElem? {index : Nat} {name : Name} (hname : names[index]? = some name) :
    (ofList (names.zip values)).find? name = values[index]? := by
  obtain ⟨hindex, -⟩ := List.getElem?_eq_some_iff.mp hname
  have hvalue : values[index]? = some values[index] := List.getElem?_eq_getElem (hlen ▸ hindex)
  rw [hvalue, mem_zip_iff hnodup hlen]
  exact List.mem_of_getElem? (List.getElem?_zip_eq_some.mpr ⟨hname, hvalue⟩)

/-- Names that are bound to values, one by one, have these values. -/
theorem map_find?_zip : names.map (ofList (names.zip values)).find? = values.map some := by
  refine List.ext_getElem (by rw [List.length_map, List.length_map, hlen]) fun index hl hr => ?_
  rw [List.length_map] at hl hr
  rw [List.getElem_map, List.getElem_map,
    find?_zip_of_getElem? hnodup hlen (List.getElem?_eq_getElem hl), List.getElem?_eq_getElem hr]

/-- The names that have a value are those that were given. -/
theorem exists_find?_zip_iff {name : Name} :
    (∃ value, (ofList (names.zip values)).find? name = some value) ↔ name ∈ names := by
  constructor
  · rintro ⟨value, hvalue⟩
    exact (List.of_mem_zip ((mem_zip_iff hnodup hlen).mp hvalue)).1
  · intro hmem
    obtain ⟨index, hindex, rfl⟩ := List.mem_iff_getElem.mp hmem
    have hfind := find?_zip_of_getElem? hnodup hlen (List.getElem?_eq_getElem hindex)
    exact ⟨_, hfind.trans (List.getElem?_eq_getElem (hlen ▸ hindex))⟩

/-- The names that are bound are the set of those that were given. -/
theorem map_fst_entries_zip :
    (ofList (names.zip values)).entries.map Prod.fst = (NameSet.ofList names).names := by
  refine eq_of_increasing ?_ (NameSet.ofList names).increasing fun name => ?_
  · exact List.pairwise_map.mpr (ofList (names.zip values)).increasing
  · rw [NameSet.mem_ofList, ← exists_find?_zip_iff hnodup hlen, List.mem_map]
    constructor
    · rintro ⟨⟨name, value⟩, hmem, rfl⟩
      exact ⟨value, mem_entries_iff.mp hmem⟩
    · rintro ⟨value, hvalue⟩
      exact ⟨(name, value), mem_entries_iff.mpr hvalue, rfl⟩

/-- The values that are assigned are among those that were given. -/
theorem mem_of_mem_entries_zip {entry : Name × Value}
    (h : entry ∈ (ofList (names.zip values)).entries) : entry.2 ∈ values :=
  (List.of_mem_zip ((mem_zip_iff hnodup hlen).mp (mem_entries_iff.mp h))).2

/-- The values that were given are assigned. -/
theorem exists_mem_entries_zip {value : Value} (h : value ∈ values) :
    ∃ name, (name, value) ∈ (ofList (names.zip values)).entries := by
  obtain ⟨index, hindex, rfl⟩ := List.mem_iff_getElem.mp h
  have hfind := find?_zip_of_getElem? hnodup hlen (List.getElem?_eq_getElem (hlen ▸ hindex))
  rw [List.getElem?_eq_getElem hindex] at hfind
  exact ⟨_, mem_entries_iff.mpr hfind⟩

end Zip

end Assignment

end Diophantine
