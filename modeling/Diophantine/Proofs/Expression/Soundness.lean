import Mathlib.Data.List.TakeWhile
import Diophantine.Proofs.Expression.Written

/-!
# What the reader accepts, the grammar derives

Whatever is read as an expression is written for it: with its products made explicit, the text
derives the same tree. The loops for factors and summands only ever extend what has been read so
far.

A further factor follows a term behind a star or without one. Without a star, it begins with a digit
or a parenthesis, and making products explicit puts a star in front of these. Where products are
explicit already, a term is always followed by something that needs a star, so only the first way is
ever taken.

- `Expression.written_of_readTerm`, `Expression.written_of_readSum`: what was read is written for
  the tree, in front of the rest;
- `Expression.written_of_read`: the same for a clause;
- `Expression.derives_of_readTerm`, `Expression.derives_of_read`: texts without implicit products;
- `expression_parse_eq_ok_iff`: reading a text and deriving it are the same.
-/

namespace Diophantine

/-! ### Parts of a text -/

/-- The inside of a group that is found is part of the text. -/
theorem Slice.infix_of_group {opening interior rest : Slice}
    (hfound : opening.group = .ok (interior, rest)) : interior.chars <:+: opening.chars := by
  obtain ⟨c, hchars⟩ := chars_eq_of_group hfound
  exact ⟨[c], ')' :: rest.chars, by simp [hchars]⟩

/-- Of two parts of a text, the second one is part of whatever the text is part of. -/
theorem infix_of_append {text front back whole : List Char} (htext : text = front ++ back)
    (hpart : text <:+: whole) : back <:+: whole :=
  List.IsInfix.trans ⟨front, [], by rw [htext, List.append_nil]⟩ hpart

/-- Where a factor needs a star, the next factor is looked for behind one. -/
theorem star_of_nextFactor? {slice next : Slice} (hdetached : Detached slice.chars)
    (h : nextFactor? slice = some next) : slice.skipSpacing.next? = some ('*', next) := by
  rcases cases_of_nextFactor? h with hstar | ⟨-, c, hc, hfactor⟩
  · exact hstar
  · obtain ⟨hdigit, hopen⟩ := hdetached c hc
    rcases hfactor with hfactor | hfactor
    · rw [hdigit] at hfactor
      cases hfactor
    · exact absurd hfactor hopen

namespace Expression

/-! ### Terms -/

/-- What is read as a constant is a term, and the run of digits ends with it. -/
theorem written_of_readConstant {negative : Bool} {sign : List Char} {body after rest : Slice}
    {c : Char} {tree : Expression} (hsign : SignText negative sign)
    (hnext : body.next? = some (c, after)) (hdigit : c.isDigit = true)
    (h : readConstant negative body = .ok (tree, rest)) :
    ∃ text, sign ++ body.chars = text ++ rest.chars ∧ Written .term text tree
      ∧ EndsFactor text rest.chars := by
  unfold readConstant at h
  split at h
  · rename_i value hvalue
    cases h
    have hsplit : body.chars
        = body.chars.takeWhile Char.isDigit ++ body.chars.dropWhile Char.isDigit :=
      List.takeWhile_append_dropWhile.symm
    have hne : body.chars.takeWhile Char.isDigit ≠ [] := by
      rw [(Slice.next?_eq_some_iff.mp hnext).1, List.takeWhile_cons_of_pos hdigit]
      simp
    have hdigits : ∀ d ∈ body.chars.takeWhile Char.isDigit, d.isDigit = true :=
      fun d hd => List.mem_takeWhile_imp hd
    refine ⟨sign ++ body.chars.takeWhile Char.isDigit, ?_,
      .constant hsign hne hdigits hvalue, endsFactor_of_digits hne hdigits fun d hd => ?_⟩
    · rw [List.append_assoc]
      exact congrArg (sign ++ ·) hsplit
    · have hnot := List.head?_dropWhile_not Char.isDigit body.chars
      rw [show (body.chars.dropWhile Char.isDigit).head? = some d from hd] at hnot
      simpa using hnot
  · cases h

section Reading

variable {inGroup : GroupReader} {whole : List Char}
  (hgroup : ∀ interior tree, interior.chars <:+: whole → inGroup interior = .ok tree →
    Derives .clause (explicitProducts interior.chars) tree)

include hgroup

theorem written_of_readGroup {negative : Bool} {sign : List Char} {body after rest : Slice}
    {tree : Expression} (hsign : SignText negative sign) (hpart : body.chars <:+: whole)
    (hnext : body.next? = some ('(', after))
    (h : readGroup inGroup negative body = .ok (tree, rest)) :
    ∃ text, sign ++ body.chars = text ++ rest.chars ∧ Written .term text tree
      ∧ EndsFactor text rest.chars := by
  unfold readGroup at h
  split at h
  · cases h
  · rename_i interior behind hfound
    split at h
    · cases h
    · rename_i inner hinner
      cases h
      have hchars := Slice.chars_eq_of_open_group hnext hfound
      have hderives := hgroup interior inner ((Slice.infix_of_group hfound).trans hpart) hinner
      have hroom := (Slice.balanced_of_group hfound).2
      refine ⟨sign ++ '(' :: (interior.chars ++ [')']), ?_, .group hsign hderives hroom, ?_⟩
      · rw [hchars]
        simp
      · have hends := endsFactor_of_close (sign ++ '(' :: interior.chars) rest.chars
        simpa only [List.append_assoc, List.cons_append] using hends

/-- What is read as a term is one, and a further factor may follow behind it. -/
theorem written_of_readTerm {slice rest : Slice} {tree : Expression}
    (hpart : slice.chars <:+: whole) (h : readTerm inGroup slice = .ok (tree, rest)) :
    ∃ text, slice.chars = text ++ rest.chars ∧ Written .term text tree
      ∧ EndsFactor text rest.chars := by
  unfold readTerm at h
  split at h
  rename_i negative body htake
  obtain ⟨sign, hsign, hchars⟩ := signText_of_takeSign htake
  have hbody : body.chars <:+: whole := infix_of_append hchars hpart
  rw [hchars]
  split at h
  · cases h
  · rename_i c after hnext
    split at h
    · rename_i hdigit
      exact written_of_readConstant hsign hnext hdigit h
    · split at h
      · rename_i hletter
        cases h
        refine ⟨sign ++ [c], ?_, .var hsign hletter, endsFactor_of_isAlpha hletter _ _⟩
        rw [(Slice.next?_eq_some_iff.mp hnext).1, List.append_assoc, List.singleton_append]
      · split at h
        · rename_i hopen
          subst hopen
          exact written_of_readGroup hgroup hsign hbody hnext h
        · cases h

/-! ### Products and sums -/

/-- What is read as further factors extends a product. -/
theorem written_of_readFactors {slice rest : Slice} {left tree : Expression} {front : List Char}
    (hpart : slice.chars <:+: whole) (hleft : Written .product front left)
    (hends : EndsFactor front slice.chars)
    (h : readFactors inGroup left slice = .ok (tree, rest)) :
    ∃ text, slice.chars = text ++ rest.chars ∧ Written .product (front ++ text) tree := by
  fun_induction readFactors inGroup left slice generalizing front with
  | case1 =>
    cases h
    exact ⟨[], rfl, by rwa [List.append_nil]⟩
  | case2 => cases h
  | case3 left slice next hfound right after hterm ih =>
    -- Either way, the product goes on with the factor that was read, and the loop behind it.
    have hstep : ∀ {middle factor : List Char}, slice.chars = middle ++ next.chars →
        next.chars = factor ++ after.chars → EndsFactor factor after.chars →
        Written .product (front ++ (middle ++ factor)) (.mul left right) →
        ∃ text, slice.chars = text ++ rest.chars ∧ Written .product (front ++ text) tree := by
      intro middle factor hchars hfactor hafter hproduct
      have hlast : EndsFactor (front ++ (middle ++ factor)) after.chars := by
        rw [← List.append_assoc]
        exact hafter.append_left (front ++ middle)
      obtain ⟨more, hmore, hwhole⟩ := ih
        (infix_of_append hfactor (infix_of_append hchars hpart)) hproduct hlast h
      refine ⟨middle ++ (factor ++ more), ?_, ?_⟩
      · rw [hchars, hfactor, hmore]
        simp
      · simpa using hwhole
    rcases cases_of_nextFactor? hfound with hstar | ⟨rfl, c, hc, hfactor⟩
    · obtain ⟨space, hspace, hchars⟩ := Slice.exists_spaced_of_next? hstar
      have hbehind : slice.chars = (space ++ ['*']) ++ next.chars := by
        rw [hchars, List.append_assoc, List.singleton_append]
      obtain ⟨factor, hsplit, hright, hafter⟩ :=
        written_of_readTerm hgroup (infix_of_append hbehind hpart) hterm
      refine hstep hbehind hsplit hafter ?_
      rw [List.append_assoc, List.singleton_append]
      exact hleft.times hspace hright
    · obtain ⟨factor, hsplit, hright, hafter⟩ := written_of_readTerm hgroup hpart hterm
      have hhead : c ∈ factor.head? := by
        rwa [hsplit, List.head?_append_of_ne_nil _ hright.ne_nil] at hc
      have hfront : EndsFactor front factor := by
        obtain ⟨a, ha, hnext⟩ := hends
        refine ⟨a, ha, fun d hd => hnext d ?_⟩
        rwa [hsplit, List.head?_append_of_ne_nil _ hright.ne_nil]
      have hproduct := hleft.juxtaposed hright hfront hhead hfactor
      exact hstep (List.nil_append _).symm hsplit hafter hproduct

theorem written_of_readProduct {slice rest : Slice} {tree : Expression}
    (hpart : slice.chars <:+: whole) (h : readProduct inGroup slice = .ok (tree, rest)) :
    ∃ text, slice.chars = text ++ rest.chars ∧ Written .product text tree := by
  unfold readProduct at h
  split at h
  · cases h
  · rename_i left after hterm
    obtain ⟨front, hfront, hleft, hends⟩ := written_of_readTerm hgroup hpart hterm
    obtain ⟨more, hmore, hwhole⟩ :=
      written_of_readFactors hgroup (infix_of_append hfront hpart) hleft.factor hends h
    exact ⟨front ++ more, by rw [hfront, hmore, List.append_assoc], hwhole⟩

/-- What is read as further summands extends a sum. -/
theorem written_of_readSummands {slice rest : Slice} {left tree : Expression} {front : List Char}
    (hpart : slice.chars <:+: whole) (hleft : Written .sum front left)
    (h : readSummands inGroup left slice = .ok (tree, rest)) :
    ∃ text, slice.chars = text ++ rest.chars ∧ Written .sum (front ++ text) tree := by
  fun_induction readSummands inGroup left slice generalizing front with
  | case1 =>
    cases h
    exact ⟨[], rfl, by rwa [List.append_nil]⟩
  | case2 => cases h
  | case3 left slice next hfound right after hproduct ih =>
    obtain ⟨space, hspace, hsign⟩ := sign_of_nextSummand? hfound
    have hnext : next.chars <:+: whole := by
      rcases hsign with hchars | ⟨hchars, -⟩
      · exact infix_of_append (List.append_cons space '+' next.chars) (hchars ▸ hpart)
      · exact infix_of_append hchars hpart
    obtain ⟨product, hsplit, hright⟩ := written_of_readProduct hgroup hnext hproduct
    have hafter : after.chars <:+: whole := infix_of_append hsplit hnext
    rcases hsign with hchars | ⟨hchars, back, hback⟩
    · obtain ⟨more, hmore, hwhole⟩ := ih hafter (hleft.plus hspace hright) h
      refine ⟨space ++ '+' :: (product ++ more), ?_, ?_⟩
      · rw [hchars, hsplit, hmore]
        simp
      · simpa using hwhole
    · -- The sign was left in place, so the product that was read begins with it.
      obtain ⟨c, signless, rfl⟩ := List.exists_cons_of_ne_nil hright.ne_nil
      obtain rfl : c = '-' := (List.cons.inj (hsplit.symm.trans hback)).1
      obtain ⟨more, hmore, hwhole⟩ := ih hafter (hleft.minus hspace hright) h
      refine ⟨space ++ '-' :: (signless ++ more), ?_, ?_⟩
      · rw [hchars, hsplit, hmore]
        simp
      · simpa using hwhole

theorem written_of_readSum {slice rest : Slice} {tree : Expression}
    (hpart : slice.chars <:+: whole) (h : readSum inGroup slice = .ok (tree, rest)) :
    ∃ text, slice.chars = text ++ rest.chars ∧ Written .sum text tree := by
  unfold readSum at h
  split at h
  · cases h
  · rename_i left after hproduct
    obtain ⟨front, hfront, hleft⟩ := written_of_readProduct hgroup hpart hproduct
    obtain ⟨more, hmore, hwhole⟩ :=
      written_of_readSummands hgroup (infix_of_append hfront hpart) hleft.summand h
    exact ⟨front ++ more, by rw [hfront, hmore, List.append_assoc], hwhole⟩

theorem written_of_readWholeSum {slice : Slice} {tree : Expression}
    (hpart : slice.chars <:+: whole) (h : readWholeSum inGroup slice = .ok tree) :
    Written .clause slice.chars tree := by
  unfold readWholeSum at h
  split at h
  · cases h
  · rename_i expression rest hsum
    obtain ⟨text, htext, hwritten⟩ := written_of_readSum hgroup hpart hsum
    split at h
    · rename_i hnext
      cases h
      rw [htext]
      exact hwritten.clause (Slice.spaced_of_next?_eq_none hnext)
    · split at h <;> cases h

end Reading

/-! ### Clauses -/

/-- **Soundness**: a text that is read as an expression, as it stands, is written for it. -/
theorem written_of_read {slice : Slice} {tree : Expression} (h : read slice = .ok tree) :
    Written .clause slice.chars tree := by
  -- Groups are read from shorter slices only.
  induction hlen : slice.chars.length using Nat.strongRecOn generalizing slice tree with
  | _ length ih =>
    rw [read] at h
    refine written_of_readWholeSum (fun interior inner _ hinner => ?_) (List.infix_refl _) h
    split at hinner
    · rename_i hshorter
      exact (ih _ (hlen ▸ hshorter) hinner rfl).derives
    · cases hinner

/-! ### Texts without implicit products -/

/-- What is read as a term of such a text derives it, and a further factor behind it needs a star.
-/
theorem derives_of_readTerm {inGroup : GroupReader}
    (hgroup : ∀ interior tree, Explicit interior.chars → inGroup interior = .ok tree →
      Derives .clause interior.chars tree)
    {slice rest : Slice} {tree : Expression} (hexplicit : Explicit slice.chars)
    (h : readTerm inGroup slice = .ok (tree, rest)) :
    ∃ text, slice.chars = text ++ rest.chars ∧ Derives .term text tree
      ∧ Detached rest.chars := by
  have hinside : ∀ interior inner, interior.chars <:+: slice.chars →
      inGroup interior = .ok inner →
      Derives .clause (explicitProducts interior.chars) inner := by
    intro interior inner hpart hinner
    rw [explicitProducts_eq_self (hexplicit.infix_of hpart)]
    exact hgroup interior inner (hexplicit.infix_of hpart) hinner
  obtain ⟨text, hchars, hwritten, hends⟩ := written_of_readTerm hinside (List.infix_refl _) h
  rw [hchars] at hexplicit
  have htext : Explicit text := hexplicit.infix_of ⟨[], rest.chars, rfl⟩
  exact ⟨text, hchars, hwritten.derives_of_explicit htext, hexplicit.detached hends⟩

/-- Such a text derives what it is read as. -/
theorem derives_of_read {slice : Slice} {tree : Expression} (hexplicit : Explicit slice.chars)
    (h : read slice = .ok tree) : Derives .clause slice.chars tree :=
  (written_of_read h).derives_of_explicit hexplicit

/-- A text without implicit products is read as an expression exactly if it derives the expression
and does not nest too deep. -/
theorem read_eq_ok_iff_derives {slice : Slice} {tree : Expression}
    (hexplicit : Explicit slice.chars) :
    read slice = .ok tree ↔
      Derives .clause slice.chars tree ∧ nesting slice.chars ≤ maxNesting := by
  constructor
  · intro h
    exact ⟨derives_of_read hexplicit h, (written_of_read h).fits.room⟩
  · rintro ⟨hderives, hroom⟩
    exact (hderives.read_eq_ok_iff slice.start).mpr ⟨rfl, hroom⟩

/-- Of a text that is parsed, products are made explicit first. -/
theorem parse_eq_ok_iff_derives {text : String} {tree : Expression} :
    parse text = .ok tree ↔
      Derives .clause (explicitProducts text.toList) tree
        ∧ nesting (explicitProducts text.toList) ≤ maxNesting :=
  mapError_eq_ok_iff.trans (read_eq_ok_iff_derives (explicit_explicitProducts text.toList))

end Expression

/-- **Reading is deriving**: a text is read as an expression exactly if, with its products made
explicit, the grammar derives the expression from it and no more than 128 parentheses are open at
once. No production puts digits behind digits, so each constant is a whole run of them.

Once products are explicit, stars are all that products are made of: wherever in such a text a term
has been read, a further factor is only found behind a star. -/
theorem expression_parse_eq_ok_iff :
    (∀ (text : String) (tree : Expression), Expression.parse text = .ok tree ↔
      Expression.Derives .clause (normalize text).toList tree
        ∧ nesting (normalize text).toList ≤ 128)
    ∧ ∀ (text : String) (slice rest next : Slice) (term : Expression),
        slice.chars <:+: (normalize text).toList →
        readTerm Expression.read slice = .ok (term, rest) →
        nextFactor? rest = some next → rest.skipSpacing.next? = some ('*', next) := by
  have hnormalize : ∀ text : String, (normalize text).toList = explicitProducts text.toList :=
    fun _ => String.toList_ofList
  refine ⟨fun text tree => ?_, fun text slice rest next term hpart hterm hnext => ?_⟩
  · rw [hnormalize]
    unfold Expression.parse
    exact mapError_eq_ok_iff.trans (Expression.read_eq_ok_iff_derives (explicit_explicitProducts _))
  · rw [hnormalize] at hpart
    have hexplicit : Explicit slice.chars := (explicit_explicitProducts _).infix_of hpart
    obtain ⟨-, -, -, hdetached⟩ := Expression.derives_of_readTerm
      (fun _ _ hinside hinner => Expression.derives_of_read hinside hinner) hexplicit hterm
    exact star_of_nextFactor? hdetached hnext

/-- The text `2(x - 3)` has a product without a star. Made explicit, it derives the product, and the
factor behind the first term is found behind the star. In `-x - (y + 3)`, a variable and a group are
behind signs, and both are multiplied by minus one. -/
theorem expression_parse_eq_ok_iff_product :
    (Expression.Derives .clause "2*(x - 3)".toList
        (.mul (.constant 2) (.add (.var 'x') (.constant (-3))))
      ∧ nesting "2*(x - 3)".toList ≤ 128)
    ∧ (Expression.Derives .clause "-x - (y + 3)".toList
        (.add (.mul (.constant (-1)) (.var 'x'))
          (.mul (.constant (-1)) (.add (.var 'y') (.constant 3))))
      ∧ nesting "-x - (y + 3)".toList ≤ 128)
    ∧ ∃ rest next : Slice,
        readTerm Expression.read (Slice.ofChars "2*(x - 3)".toList) = .ok (.constant 2, rest)
          ∧ nextFactor? rest = some next ∧ rest.skipSpacing.next? = some ('*', next) := by
  have hnormalize : (normalize "2(x - 3)").toList = "2*(x - 3)".toList := by decide +kernel
  have hsigns : (normalize "-x - (y + 3)").toList = "-x - (y + 3)".toList := by decide +kernel
  refine ⟨?_, ?_, { start := ⟨1, 1, 2⟩, chars := "*(x - 3)".toList },
    { start := ⟨2, 1, 3⟩, chars := "(x - 3)".toList }, ?_⟩
  · rw [← hnormalize]
    exact (expression_parse_eq_ok_iff.1 "2(x - 3)" _).mp (by decide +kernel)
  · rw [← hsigns]
    exact (expression_parse_eq_ok_iff.1 "-x - (y + 3)" _).mp (by decide +kernel)
  · have hterm : readTerm Expression.read (Slice.ofChars "2*(x - 3)".toList)
        = .ok (.constant 2, { start := ⟨1, 1, 2⟩, chars := "*(x - 3)".toList }) := by
      decide +kernel
    have hnext : nextFactor? { start := ⟨1, 1, 2⟩, chars := "*(x - 3)".toList }
        = some { start := ⟨2, 1, 3⟩, chars := "(x - 3)".toList } := by
      decide +kernel
    have hpart : (Slice.ofChars "2*(x - 3)".toList).chars <:+: (normalize "2(x - 3)").toList := by
      rw [hnormalize]
      exact List.infix_rfl
    exact ⟨hterm, hnext, expression_parse_eq_ok_iff.2 "2(x - 3)" _ _ _ _ hpart hterm hnext⟩

end Diophantine
