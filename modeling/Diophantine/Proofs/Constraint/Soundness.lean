import Diophantine.Proofs.Constraint.Rendering
import Diophantine.Proofs.Constraint.Written
import Diophantine.Proofs.Expression.Soundness

/-!
# What the reader accepts, the grammar of constraints derives

One level up from expressions: whatever is read as a constraint is written for it, if its words
stand apart from parentheses and digits. In a text without implicit products, they do.

The reader decides by one look into a group whether it is a constraint or the beginning of an
operand, and never comes back to the choice. It does not have to: where an operand can begin, the
look says so, and where the group is a constraint, it says that.

- `Constraint.written_of_readAtom`, `Constraint.written_of_readDisjunction`: what was read is
  written for the tree, in front of the rest;
- `Constraint.written_of_read`: the same for a clause;
- `Constraint.derives_of_read`: texts without implicit products;
- `Constraint.readAtom_eq_readComparison`, `Constraint.readAtom_eq_read_interior`: the choice;
- `constraint_parse_eq_ok_iff`: reading a text and deriving it are the same, and the choice is
  right.
-/

namespace Diophantine

/-- A word that is found behind spacing stands behind spacing, and ends there. -/
theorem Slice.exists_spaced_of_afterKeyword? {slice next : Slice} {word : String}
    (h : slice.skipSpacing.afterKeyword? word = some next) :
    (∃ space, Spaced space ∧ slice.chars = space ++ (word.toList ++ next.chars))
      ∧ ∀ c ∈ next.chars.head?, c.isAlphanum = false := by
  obtain ⟨space, hspace, hchars⟩ := slice.exists_spaced_skipSpacing
  obtain ⟨hword, -, hends⟩ := Slice.afterKeyword?_eq_some_iff.mp h
  exact ⟨⟨space, hspace, by rw [hchars, hword]⟩, hends⟩

namespace Constraint

section Reading

variable {readers : GroupReaders} {whole : List Char}
  (hoperand : ∀ interior tree, interior.chars <:+: whole → readers.expression interior = .ok tree →
    Expression.Derives .clause (explicitProducts interior.chars) tree)

include hoperand

/-! ### Atoms -/

/-- What is read as a comparison is one. -/
theorem written_of_readComparison {slice rest : Slice} {tree : Constraint}
    (hpart : slice.chars <:+: whole)
    (h : readComparison readers.expression slice = .ok (tree, rest)) :
    ∃ text, slice.chars = text ++ rest.chars ∧ Written .atom text tree := by
  unfold readComparison at h
  split at h
  · cases h
  · rename_i left after hsum
    obtain ⟨front, hfront, hleft⟩ := Expression.written_of_readSum hoperand hpart hsum
    have hafter : after.chars <:+: whole := infix_of_append hfront hpart
    split at h
    · cases h
    · rename_i c operand hnext
      obtain ⟨space, hspace, hchars⟩ := Slice.exists_spaced_of_next? hnext
      have hback : operand.chars <:+: whole :=
        infix_of_append (List.append_cons space c operand.chars) (hchars ▸ hafter)
      -- Whichever sign it is, the right operand is read behind it.
      have hbuild : ∀ {build : Expression → Expression → Constraint}, ComparisonSign c build →
          (readSum readers.expression operand).map
              (fun right => (build left right.1, right.2)) = .ok (tree, rest) →
          ∃ text, slice.chars = text ++ rest.chars ∧ Written .atom text tree := by
        intro build hsign h
        obtain ⟨found, hread, heq⟩ := map_eq_ok_iff.mp h
        cases heq
        obtain ⟨back, hsplit, hright⟩ := Expression.written_of_readSum hoperand hback hread
        refine ⟨front ++ (space ++ c :: back), ?_, .comparison hsign hleft hspace hright⟩
        rw [hfront, hchars, hsplit]
        simp
      split at h
      · rename_i hless
        subst hless
        exact hbuild .less h
      · split at h
        · rename_i hgreater
          subst hgreater
          exact hbuild .greater h
        · cases h

variable (hgroup : ∀ interior tree, interior.chars <:+: whole →
  readers.constraint interior = .ok tree → Derives .clause (explicitProducts interior.chars) tree)

include hgroup

/-- What is read as an atom is one. -/
theorem written_of_readAtom {slice rest : Slice} {tree : Constraint}
    (hpart : slice.chars <:+: whole) (h : readAtom readers slice = .ok (tree, rest)) :
    ∃ text, slice.chars = text ++ rest.chars ∧ Written .atom text tree := by
  unfold readAtom at h
  rw [readComparison_skipSpacing] at h
  split at h
  · rename_i inside hnext
    split at h
    · cases h
    · rename_i interior after hfound
      split at h
      · obtain ⟨found, hread, heq⟩ := map_eq_ok_iff.mp h
        cases heq
        obtain ⟨space, hspace, hchars⟩ := slice.exists_spaced_skipSpacing
        have hopen := Slice.chars_eq_of_open_group hnext hfound
        have hinside : interior.chars <:+: whole :=
          (Slice.infix_of_group hfound).trans (infix_of_append hchars hpart)
        have hderives := hgroup interior _ hinside hread
        have hroom := (Slice.balanced_of_group hfound).2
        refine ⟨space ++ '(' :: (interior.chars ++ [')']), ?_, .group hspace hderives hroom⟩
        rw [hchars, hopen]
        simp
      · exact written_of_readComparison hoperand hpart h
  · exact written_of_readComparison hoperand hpart h

/-! ### Connectives -/

variable (happart : WordsApart connectives whole)

include happart

/-- What is read as further conjuncts extends a conjunction. -/
theorem written_of_readConjuncts {slice rest : Slice} {left tree : Constraint} {front : List Char}
    (hpart : front ++ slice.chars <:+: whole) (hleft : Written .conjunction front left)
    (h : readConjuncts readers left slice = .ok (tree, rest)) :
    ∃ text, slice.chars = text ++ rest.chars ∧ Written .conjunction (front ++ text) tree := by
  fun_induction readConjuncts readers left slice generalizing front with
  | case1 =>
    cases h
    exact ⟨[], rfl, by rwa [List.append_nil]⟩
  | case2 => cases h
  | case3 left slice next hfound right after hatom ih =>
    obtain ⟨⟨space, hspace, hchars⟩, hends⟩ := Slice.exists_spaced_of_afterKeyword? hfound
    have hword : front ++ slice.chars = (front ++ (space ++ "and".toList)) ++ next.chars := by
      rw [hchars]
      simp only [List.append_assoc]
    have hnext : next.chars <:+: whole := infix_of_append hword hpart
    obtain ⟨atom, hsplit, hright⟩ := written_of_readAtom hoperand hgroup hnext hatom
    rw [hsplit, List.head?_append_of_ne_nil _ hright.ne_nil] at hends
    have htext : front ++ slice.chars
        = front ++ (space ++ ("and".toList ++ atom)) ++ after.chars := by
      rw [hchars, hsplit]
      simp only [List.append_assoc]
    rw [htext] at hpart
    have hleft := hleft.and hspace hright hends 
      (happart.infix_of ((List.prefix_append _ _).isInfix.trans hpart))
    obtain ⟨more, hmore, hwhole⟩ := ih hpart hleft h
    refine ⟨space ++ ("and".toList ++ (atom ++ more)), ?_, ?_⟩
    · rw [hchars, hsplit, hmore]
      simp
    · simpa using hwhole

theorem written_of_readConjunction {slice rest : Slice} {tree : Constraint}
    (hpart : slice.chars <:+: whole) (h : readConjunction readers slice = .ok (tree, rest)) :
    ∃ text, slice.chars = text ++ rest.chars ∧ Written .conjunction text tree := by
  unfold readConjunction at h
  split at h
  · cases h
  · rename_i left after hatom
    obtain ⟨front, hfront, hleft⟩ := written_of_readAtom hoperand hgroup hpart hatom
    obtain ⟨more, hmore, hwhole⟩ :=
      written_of_readConjuncts hoperand hgroup happart (hfront ▸ hpart) hleft.conjunct h
    exact ⟨front ++ more, by rw [hfront, hmore, List.append_assoc], hwhole⟩

/-- What is read as further disjuncts extends a disjunction. -/
theorem written_of_readDisjuncts {slice rest : Slice} {left tree : Constraint} {front : List Char}
    (hpart : front ++ slice.chars <:+: whole) (hleft : Written .disjunction front left)
    (h : readDisjuncts readers left slice = .ok (tree, rest)) :
    ∃ text, slice.chars = text ++ rest.chars ∧ Written .disjunction (front ++ text) tree := by
  fun_induction readDisjuncts readers left slice generalizing front with
  | case1 =>
    cases h
    exact ⟨[], rfl, by rwa [List.append_nil]⟩
  | case2 => cases h
  | case3 left slice next hfound right after hconjunction ih =>
    obtain ⟨⟨space, hspace, hchars⟩, hends⟩ := Slice.exists_spaced_of_afterKeyword? hfound
    have hword : front ++ slice.chars = (front ++ (space ++ "or".toList)) ++ next.chars := by
      rw [hchars]
      simp only [List.append_assoc]
    have hnext : next.chars <:+: whole := infix_of_append hword hpart
    obtain ⟨conjunction, hsplit, hright⟩ :=
      written_of_readConjunction hoperand hgroup happart hnext hconjunction
    rw [hsplit, List.head?_append_of_ne_nil _ hright.ne_nil] at hends
    have htext : front ++ slice.chars
        = front ++ (space ++ ("or".toList ++ conjunction)) ++ after.chars := by
      rw [hchars, hsplit]
      simp only [List.append_assoc]
    rw [htext] at hpart
    have hleft := hleft.or hspace hright hends 
      (happart.infix_of ((List.prefix_append _ _).isInfix.trans hpart))
    obtain ⟨more, hmore, hwhole⟩ := ih hpart hleft h
    refine ⟨space ++ ("or".toList ++ (conjunction ++ more)), ?_, ?_⟩
    · rw [hchars, hsplit, hmore]
      simp
    · simpa using hwhole

theorem written_of_readDisjunction {slice rest : Slice} {tree : Constraint}
    (hpart : slice.chars <:+: whole) (h : readDisjunction readers slice = .ok (tree, rest)) :
    ∃ text, slice.chars = text ++ rest.chars ∧ Written .disjunction text tree := by
  unfold readDisjunction at h
  split at h
  · cases h
  · rename_i left after hconjunction
    obtain ⟨front, hfront, hleft⟩ :=
      written_of_readConjunction hoperand hgroup happart hpart hconjunction
    obtain ⟨more, hmore, hwhole⟩ :=
      written_of_readDisjuncts hoperand hgroup happart (hfront ▸ hpart) hleft.disjunct h
    exact ⟨front ++ more, by rw [hfront, hmore, List.append_assoc], hwhole⟩

theorem written_of_readWholeDisjunction {slice : Slice} {tree : Constraint}
    (hpart : slice.chars <:+: whole) (h : readWholeDisjunction readers slice = .ok tree) :
    Written .clause slice.chars tree := by
  unfold readWholeDisjunction at h
  split at h
  · split at h
    · cases h
    · rename_i constraint rest hdisjunction
      obtain ⟨text, htext, hwritten⟩ :=
        written_of_readDisjunction hoperand hgroup happart hpart hdisjunction
      split at h
      · rename_i hnext
        cases h
        rw [htext]
        exact hwritten.clause (Slice.spaced_of_next?_eq_none hnext)
      · split at h <;> cases h
  · cases h

end Reading

/-! ### Clauses -/

/-- **Soundness**: a text that is read as a constraint, as it stands, is written for it if its words
stand apart. -/
theorem written_of_read {slice : Slice} {tree : Constraint}
    (happart : WordsApart connectives slice.chars) (h : read slice = .ok tree) :
    Written .clause slice.chars tree := by
  -- Groups are read from shorter slices only.
  induction hlen : slice.chars.length using Nat.strongRecOn generalizing slice tree with
  | _ length ih =>
    rw [read] at h
    refine written_of_readWholeDisjunction
      (fun _ _ _ hread => (Expression.written_of_read hread).derives)
      (fun interior inner hinside hinner => ?_) happart (List.infix_refl _) h
    change (if interior.chars.length < slice.chars.length then read interior
      else .error (interior.fail .unclosed)) = .ok inner at hinner
    split at hinner
    · rename_i hshorter
      exact (ih _ (hlen ▸ hshorter) (happart.infix_of hinside) hinner rfl).derives
    · cases hinner

/-! ### Texts without implicit products -/

theorem written_of_read_explicit {slice : Slice} {tree : Constraint}
    (hexplicit : Explicit slice.chars) (h : read slice = .ok tree) :
    Written .clause slice.chars tree :=
  written_of_read (.of_explicit hexplicit isWord_of_mem_connectives) h

/-- A text without implicit products derives what it is read as. -/
theorem derives_of_read {slice : Slice} {tree : Constraint} (hexplicit : Explicit slice.chars)
    (h : read slice = .ok tree) : Derives .clause slice.chars tree := by
  have hderives := (written_of_read_explicit hexplicit h).derives
  rwa [explicitProducts_eq_self hexplicit] at hderives

/-- A text without implicit products is read as a constraint exactly if it derives the constraint
and does not nest too deep. -/
theorem read_eq_ok_iff_derives {slice : Slice} {tree : Constraint}
    (hexplicit : Explicit slice.chars) :
    read slice = .ok tree ↔
      Derives .clause slice.chars tree ∧ nesting slice.chars ≤ maxNesting := by
  constructor
  · intro h
    exact ⟨derives_of_read hexplicit h, (written_of_read_explicit hexplicit h).fits.room⟩
  · rintro ⟨hderives, hroom⟩
    exact (hderives.read_eq_ok_iff slice.start).mpr ⟨rfl, hroom⟩

/-- Of a text that is parsed, products are made explicit first. -/
theorem parse_eq_ok_iff_derives {text : String} {tree : Constraint} :
    parse text = .ok tree ↔
      Derives .clause (explicitProducts text.toList) tree
        ∧ nesting (explicitProducts text.toList) ≤ maxNesting :=
  mapError_eq_ok_iff.trans (read_eq_ok_iff_derives (explicit_explicitProducts text.toList))

/-! ### The choice -/

section Choice

variable {slice inside interior rest : Slice}
  (hopen : slice.skipSpacing.next? = some ('(', inside))
  (hfound : slice.skipSpacing.group = .ok (interior, rest))

include hopen hfound

/-- Where an operand can begin, a comparison is read. -/
theorem readAtom_eq_readComparison {layer : Expression.Layer} {front tail : List Char}
    {operand : Expression} (hchars : slice.chars = front ++ tail)
    (hoperand : Expression.Derives layer front operand) :
    readAtom groupReaders slice = readComparison Expression.read slice := by
  obtain ⟨start, chars⟩ := slice
  subst hchars
  have hplain : interior.compares = false := by
    rcases group_of_operand hoperand tail hopen with ⟨_, _, hgroup, hplain⟩ | ⟨-, failure, hf⟩
    · rw [hfound] at hgroup
      cases hgroup
      exact hplain
    · rw [hfound] at hf
      cases hf
  rw [← readComparison_skipSpacing]
  unfold readAtom
  simp only [hopen, hfound, hplain]
  rfl

/-- Where the group is a constraint, it is read as one. -/
theorem readAtom_eq_read_interior {tree : Constraint}
    (hgroup : Derives .clause interior.chars tree) :
    readAtom groupReaders slice = (read interior).map fun tree => (tree, rest) := by
  have hcompares : interior.compares = true := Slice.compares_iff.mpr hgroup.compares
  unfold readAtom
  simp only [hopen, hfound, hcompares]
  rfl

end Choice

end Constraint

/-- **Reading a constraint is deriving it**: a text is read as a constraint exactly if, with its
products made explicit, the grammar derives the constraint from it, up to spacing at its end, and no
more than 128 parentheses are open at once.

What a parenthesis at the beginning of an atom opens is decided by the comparison signs in its
group, and decided rightly: where an operand can begin, the atom is read as a comparison, and where
the group derives a constraint, it is read as that. -/
theorem constraint_parse_eq_ok_iff :
    (∀ (text : String) (tree : Constraint), Constraint.parse text = .ok tree ↔
      Constraint.Derives .clause (normalize text).toList tree
        ∧ nesting (normalize text).toList ≤ 128)
    ∧ ∀ slice inside interior rest : Slice, slice.skipSpacing.next? = some ('(', inside) →
        slice.skipSpacing.group = .ok (interior, rest) →
        (∀ (front tail : List Char) (operand : Expression), slice.chars = front ++ tail →
          Expression.Derives .sum front operand →
          readAtom Constraint.groupReaders slice = readComparison Expression.read slice)
        ∧ ∀ tree : Constraint, Constraint.Derives .clause interior.chars tree →
          readAtom Constraint.groupReaders slice
            = (Constraint.read interior).map fun found => (found, rest) := by
  refine ⟨fun text tree => ?_, fun slice inside interior rest hopen hfound => ⟨?_, ?_⟩⟩
  · rw [show (normalize text).toList = explicitProducts text.toList from String.toList_ofList]
    unfold Constraint.parse
    exact mapError_eq_ok_iff.trans
      (Constraint.read_eq_ok_iff_derives (explicit_explicitProducts text.toList))
  · intro front tail operand hchars hoperand
    exact Constraint.readAtom_eq_readComparison hopen hfound hchars hoperand
  · intro tree hgroup
    exact Constraint.readAtom_eq_read_interior hopen hfound hgroup

/-- In `(x) < 3 or (x > y)`, the first parenthesis begins an operand and the second one a
constraint, and both are read as that. In `-(x) < -y`, both operands are multiplied by minus
one. -/
theorem constraint_parse_eq_ok_iff_parentheses :
    (Constraint.Derives .clause "(x) < 3 or (x > y)".toList
        (.or (.less (.var 'x') (.constant 3)) (.greater (.var 'x') (.var 'y')))
      ∧ nesting "(x) < 3 or (x > y)".toList ≤ 128)
    ∧ (Constraint.Derives .clause "-(x) < -y".toList
        (.less (.mul (.constant (-1)) (.var 'x')) (.mul (.constant (-1)) (.var 'y')))
      ∧ nesting "-(x) < -y".toList ≤ 128)
    ∧ (readAtom Constraint.groupReaders (Slice.ofChars "(x) < 3".toList)
        = readComparison Expression.read (Slice.ofChars "(x) < 3".toList))
    ∧ readAtom Constraint.groupReaders (Slice.ofChars "(x > y)".toList)
        = (Constraint.read { start := ⟨1, 1, 2⟩, chars := "x > y".toList }).map
            fun found => (found, { start := ⟨7, 1, 8⟩, chars := [] }) := by
  have hnormalize : (normalize "(x) < 3 or (x > y)").toList = "(x) < 3 or (x > y)".toList := by
    decide +kernel
  have hsigns : (normalize "-(x) < -y").toList = "-(x) < -y".toList := by decide +kernel
  have hx : Expression.Derives .term ([] ++ ['x']) (.var 'x') := .var (.plain Spaced.nil) rfl
  have hoperand : Expression.Derives .sum "(x)".toList (.var 'x') :=
    hx.sum_of_term.parenthesised.sum_of_term
  have hread : Constraint.read (Slice.ofChars "x > y".toList)
      = .ok (.greater (.var 'x') (.var 'y')) := by
    decide +kernel
  have hconstraint : Constraint.Derives .clause "x > y".toList (.greater (.var 'x') (.var 'y')) :=
    Constraint.derives_of_read (show Explicit "x > y".toList by decide) hread
  refine ⟨?_, ?_, ?_, ?_⟩
  · rw [← hnormalize]
    exact (constraint_parse_eq_ok_iff.1 "(x) < 3 or (x > y)" _).mp (by decide +kernel)
  · rw [← hsigns]
    exact (constraint_parse_eq_ok_iff.1 "-(x) < -y" _).mp (by decide +kernel)
  · exact (constraint_parse_eq_ok_iff.2 (Slice.ofChars "(x) < 3".toList)
      { start := ⟨1, 1, 2⟩, chars := "x) < 3".toList } { start := ⟨1, 1, 2⟩, chars := ['x'] }
      { start := ⟨3, 1, 4⟩, chars := " < 3".toList } (by decide +kernel) (by decide +kernel)).1
        "(x)".toList " < 3".toList (.var 'x') rfl hoperand
  · exact (constraint_parse_eq_ok_iff.2 (Slice.ofChars "(x > y)".toList)
      { start := ⟨1, 1, 2⟩, chars := "x > y)".toList }
      { start := ⟨1, 1, 2⟩, chars := "x > y".toList }
      { start := ⟨7, 1, 8⟩, chars := [] } (by decide +kernel) (by decide +kernel)).2 _ hconstraint

end Diophantine
