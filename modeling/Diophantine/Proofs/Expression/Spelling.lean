import Diophantine.Proofs.Expression.Completeness

/-!
# Which leaves can be written

Not every tree has a text. A variable has to be a letter, and the least value has no spelling, since
its digits alone are out of range before their sign is looked at. No text at all makes the reader
return a tree with another leaf.

- `Spellable`, `Expression.Spelled`: what the leaves of a tree have to be;
- `Expression.spelled_of_read`: whatever is read from whatever text is spelled.
-/

namespace Diophantine

/-- Leaves that can be written: variables are letters, and no constant is the least value. -/
structure Spellable (names : List Name) (constants : List Value) : Prop where
  letters : ∀ name ∈ names, name.isAlpha = true
  constants : Int64.minValue ∉ constants

theorem Spellable.nil : Spellable [] [] :=
  ⟨nofun, nofun⟩

@[simp] theorem Spellable.append_iff {frontNames backNames : List Name}
    {frontConstants backConstants : List Value} :
    Spellable (frontNames ++ backNames) (frontConstants ++ backConstants)
      ↔ Spellable frontNames frontConstants ∧ Spellable backNames backConstants := by
  constructor
  · rintro ⟨hletters, hvalues⟩
    rw [List.mem_append, not_or] at hvalues
    exact ⟨⟨fun n hn => hletters n (List.mem_append_left _ hn), hvalues.1⟩,
      ⟨fun n hn => hletters n (List.mem_append_right _ hn), hvalues.2⟩⟩
  · rintro ⟨hf, hb⟩
    refine ⟨fun n hn => ?_, ?_⟩
    · exact (List.mem_append.mp hn).elim (hf.letters n) (hb.letters n)
    · rw [List.mem_append, not_or]
      exact ⟨hf.constants, hb.constants⟩

/-- The leaves of a list of trees can be written if those of each tree can. -/
theorem Spellable.flatMap_iff {α : Type} {names : α → List Name} {constants : α → List Value}
    {trees : List α} :
    Spellable (trees.flatMap names) (trees.flatMap constants)
      ↔ ∀ tree ∈ trees, Spellable (names tree) (constants tree) := by
  induction trees with
  | nil => exact ⟨fun _ => nofun, fun _ => Spellable.nil⟩
  | cons tree trees ih =>
    rw [List.flatMap_cons, List.flatMap_cons, Spellable.append_iff, ih, List.forall_mem_cons]

namespace Expression

/-- The constants of an expression, from left to right. -/
def constants : Expression → List Value
  | .constant value => [value]
  | .var _ => []
  | .add left right | .mul left right => left.constants ++ right.constants

/-- Every leaf of an expression can be written. -/
def Spelled (tree : Expression) : Prop :=
  Spellable tree.names tree.constants

@[simp] theorem spelled_constant_iff {value : Value} :
    Spelled (.constant value) ↔ value ≠ Int64.minValue := by
  constructor
  · rintro ⟨-, h⟩ rfl
    exact h (List.mem_singleton_self _)
  · intro h
    exact ⟨nofun, fun hmem => h (List.mem_singleton.mp hmem).symm⟩

@[simp] theorem spelled_var_iff {name : Name} : Spelled (.var name) ↔ name.isAlpha = true := by
  constructor
  · rintro ⟨h, -⟩
    exact h name (List.mem_singleton_self _)
  · intro h
    exact ⟨fun n hn => List.mem_singleton.mp hn ▸ h, nofun⟩

@[simp] theorem spelled_add_iff {left right : Expression} :
    Spelled (.add left right) ↔ left.Spelled ∧ right.Spelled :=
  Spellable.append_iff

@[simp] theorem spelled_mul_iff {left right : Expression} :
    Spelled (.mul left right) ↔ left.Spelled ∧ right.Spelled :=
  Spellable.append_iff

/-- A sign in front of a tree adds a constant that can be written. -/
theorem spelled_signed {negative : Bool} {tree : Expression} (h : tree.Spelled) :
    (signed negative tree).Spelled := by
  cases negative with
  | false => exact h
  | true => exact spelled_mul_iff.mpr ⟨spelled_constant_iff.mpr (by decide), h⟩

end Expression

/-! ### Constants that are read -/

/-- Digits never denote the least value: they would have to denote its negation first, and the
greatest value is one short of that. -/
theorem Value.ofDigits?_ne_minValue {negative : Bool} {digits : List Char} {value : Value}
    (h : Value.ofDigits? negative digits = some value) : value ≠ Int64.minValue := by
  obtain ⟨hrange, hvalue⟩ := Value.ofDigits?_eq_some_iff.mp h
  rintro rfl
  have hleast : Int64.minValue.toInt = -9223372036854775808 := rfl
  rw [hleast] at hvalue
  split at hvalue <;> omega

/-! ### Trees that are read -/

namespace Expression

theorem spelled_of_readConstant {negative : Bool} {body rest : Slice} {tree : Expression}
    (h : readConstant negative body = .ok (tree, rest)) : tree.Spelled := by
  unfold readConstant at h
  split at h
  · rename_i value hvalue
    cases h
    exact spelled_constant_iff.mpr (Value.ofDigits?_ne_minValue hvalue)
  · cases h

section Reading

variable {inGroup : GroupReader}
  (hgroup : ∀ interior tree, inGroup interior = .ok tree → tree.Spelled)

include hgroup

theorem spelled_of_readGroup {negative : Bool} {body rest : Slice} {tree : Expression}
    (h : readGroup inGroup negative body = .ok (tree, rest)) : tree.Spelled := by
  unfold readGroup at h
  split at h
  · cases h
  · rename_i interior after _
    split at h
    · cases h
    · rename_i inner hinner
      cases h
      exact spelled_signed (hgroup interior inner hinner)

theorem spelled_of_readTerm {slice rest : Slice} {tree : Expression}
    (h : readTerm inGroup slice = .ok (tree, rest)) : tree.Spelled := by
  unfold readTerm at h
  split at h
  rename_i negative body _
  split at h
  · cases h
  · rename_i c after _
    split at h
    · exact spelled_of_readConstant h
    · split at h
      · rename_i hletter
        cases h
        exact spelled_signed (spelled_var_iff.mpr hletter)
      · split at h
        · exact spelled_of_readGroup hgroup h
        · cases h

theorem spelled_of_readFactors {slice rest : Slice} {left tree : Expression}
    (hleft : left.Spelled) (h : readFactors inGroup left slice = .ok (tree, rest)) :
    tree.Spelled := by
  fun_induction readFactors inGroup left slice with
  | case1 =>
    cases h
    exact hleft
  | case2 => cases h
  | case3 left slice next _ right after hterm ih =>
    exact ih (spelled_mul_iff.mpr ⟨hleft, spelled_of_readTerm hgroup hterm⟩) h

theorem spelled_of_readProduct {slice rest : Slice} {tree : Expression}
    (h : readProduct inGroup slice = .ok (tree, rest)) : tree.Spelled := by
  unfold readProduct at h
  split at h
  · cases h
  · rename_i hterm
    exact spelled_of_readFactors hgroup (spelled_of_readTerm hgroup hterm) h

theorem spelled_of_readSummands {slice rest : Slice} {left tree : Expression}
    (hleft : left.Spelled) (h : readSummands inGroup left slice = .ok (tree, rest)) :
    tree.Spelled := by
  fun_induction readSummands inGroup left slice with
  | case1 =>
    cases h
    exact hleft
  | case2 => cases h
  | case3 left slice next _ right after hproduct ih =>
    exact ih (spelled_add_iff.mpr ⟨hleft, spelled_of_readProduct hgroup hproduct⟩) h

theorem spelled_of_readSum {slice rest : Slice} {tree : Expression}
    (h : readSum inGroup slice = .ok (tree, rest)) : tree.Spelled := by
  unfold readSum at h
  split at h
  · cases h
  · rename_i hproduct
    exact spelled_of_readSummands hgroup (spelled_of_readProduct hgroup hproduct) h

theorem spelled_of_readWholeSum {slice : Slice} {tree : Expression}
    (h : readWholeSum inGroup slice = .ok tree) : tree.Spelled := by
  unfold readWholeSum at h
  split at h
  · cases h
  · rename_i hsum
    split at h
    · cases h
      exact spelled_of_readSum hgroup hsum
    · split at h <;> cases h

end Reading

/-- No text makes the reader return a leaf that cannot be written. -/
theorem spelled_of_read {slice : Slice} {tree : Expression} (h : read slice = .ok tree) :
    tree.Spelled := by
  -- Groups are read from shorter slices only.
  induction hlen : slice.chars.length using Nat.strongRecOn generalizing slice tree with
  | _ length ih =>
    rw [read] at h
    refine spelled_of_readWholeSum (fun interior inner hinner => ?_) h
    split at hinner
    · rename_i hshorter
      exact ih _ (hlen ▸ hshorter) hinner rfl
    · cases hinner

end Expression

end Diophantine
