import Mathlib.Data.Set.Function
import Diophantine.Proofs.Range
import Diophantine.Proofs.Search.Odometer

/-!
# A whole round of an odometer

Turned from zero until a step comes round, an odometer shows every combination of digits, each of
them once, and then stands at zero again. This holds for any wheels that have a digit at all, also
if some of them have no other digit than zero: such a wheel comes round with every step that reaches
it and hands it on.

The digits of a wheel stand for integers. The first `2 * r + 1` digits stand for those up to the
magnitude `r`, each for another one, and no digit stands for an integer that is nearer to zero than
that of a smaller digit.

- `Round`: the steps of an odometer up to the one that comes round;
- `Round.unique`, `round_shown`: there is one round from any digits, and it shows `shown`;
- `eq_zero_of_advance`: what a step that comes round leaves;
- `candidate_bijOn`: the digits of the integers up to a magnitude;
- `round_shows_once`: what a round from zero shows.
-/

namespace Diophantine

/-! ### Rounds -/

/-- The steps of an odometer from the given digits on, up to the first that comes round: the digits
that are shown before each step, and those that the last step leaves. -/
inductive Round (widths : List Nat) : List Nat → List (List Nat) → List Nat → Prop
  | last {digits next : List Nat} (hstep : advance widths digits = (next, false)) :
    Round widths digits [digits] next
  | more {digits next final : List Nat} {seen : List (List Nat)}
      (hstep : advance widths digits = (next, true)) (hmore : Round widths next seen final) :
    Round widths digits (digits :: seen) final

/-- Where a round leads to is settled by where it begins. -/
theorem Round.unique {widths digits final final' : List Nat} {seen seen' : List (List Nat)}
    (h : Round widths digits seen final) (h' : Round widths digits seen' final') :
    seen = seen' ∧ final = final' := by
  induction h generalizing seen' with
  | last hstep =>
    cases h' with
    | last hstep' =>
      rw [hstep] at hstep'
      cases hstep'
      exact ⟨rfl, rfl⟩
    | more hstep' _ =>
      rw [hstep] at hstep'
      cases hstep'
  | more hstep _ ih =>
    cases h' with
    | last hstep' =>
      rw [hstep] at hstep'
      cases hstep'
    | more hstep' hmore' =>
      rw [hstep] at hstep'
      cases hstep'
      obtain ⟨hseen, hfinal⟩ := ih hmore'
      exact ⟨congrArg _ hseen, hfinal⟩

/-- A step comes round only if all wheels do. -/
theorem eq_zero_of_advance {widths digits next : List Nat}
    (hdigits : List.Forall₂ (· < ·) digits widths) (h : advance widths digits = (next, false)) :
    next = List.replicate widths.length 0 := by
  induction hdigits generalizing next with
  | nil =>
    cases h
    rfl
  | @cons digit width digits widths hlt hrest ih =>
    unfold advance at h
    split at h
    · cases h
    · cases hstep : advance widths digits with
      | mk tail more =>
        rw [hstep] at h
        cases h
        rw [ih hstep]
        rfl

/-- From digits that are on their wheels, there is a round, and it ends at zero. -/
theorem round_shown {widths digits : List Nat} (h : List.Forall₂ (· < ·) digits widths) :
    Round widths digits (shown widths digits) (List.replicate widths.length 0) := by
  fun_induction shown widths digits with
  | case1 digits next hstep ih =>
    have hnext := forall₂_lt_advance h
    rw [hstep] at hnext
    exact .more hstep (ih hnext)
  | case2 digits next hstep =>
    rw [← eq_zero_of_advance h hstep]
    exact .last hstep

/-! ### Integers of digits -/

/-- The first digits stand for the integers up to a magnitude, each for another one. -/
theorem candidate_bijOn (radius : Nat) :
    Set.BijOn candidate { digit | digit ≤ 2 * radius }
      { x | -(radius : Int) ≤ x ∧ x ≤ radius } := by
  refine ⟨fun digit hdigit => ?_, candidate_injective.injOn, fun x hx => ?_⟩
  · have hlt : digit < 2 * radius + 1 := Nat.lt_succ_of_le hdigit
    have hnear : (candidate digit).natAbs ≤ radius := natAbs_candidate_le_iff.mpr hlt
    constructor <;> omega
  · obtain ⟨digit, rfl⟩ := exists_candidate_eq x
    obtain ⟨hlow, hhigh⟩ := hx
    have hnear : (candidate digit).natAbs ≤ radius := by omega
    exact ⟨digit, Nat.le_of_lt_succ (natAbs_candidate_le_iff.mp hnear), rfl⟩

/-- A smaller digit stands for no larger magnitude. -/
theorem natAbs_candidate_mono {a b : Nat} (h : a ≤ b) :
    (candidate a).natAbs ≤ (candidate b).natAbs := by
  rw [natAbs_candidate, natAbs_candidate]
  omega

/-- The integers of the digits that come in pairs of opposite sign fit into signed words, if the
digits fit into words. The greatest word is left without its opposite, and does not fit. -/
theorem fitsSigned_candidate {radius digit : Nat} (hradius : 2 * radius < 2 ^ 64)
    (hdigit : digit ≤ 2 * radius) : FitsSigned (candidate digit) := by
  have hnear : (candidate digit).natAbs ≤ radius := natAbs_candidate_le_iff.mpr (by omega)
  constructor <;> omega

/-! ### A round from zero -/

/-- **Every combination once**: from zero on, there is exactly one round. It shows each choice of a
digit for each of the wheels exactly once, as many as the product of the widths, and ends at zero.
The digits up to `2 * radius` stand for the integers up to the magnitude `radius` one to one, and
for signed words if they are words themselves; smaller digits stand for no larger magnitudes. -/
theorem round_shows_once :
    (∀ widths : List Nat, (∀ width ∈ widths, 1 ≤ width) →
      ∃ seen,
        (∀ found final, Round widths (List.replicate widths.length 0) found final ↔
            found = seen ∧ final = List.replicate widths.length 0)
          ∧ seen.Nodup
          ∧ (∀ digits, digits ∈ seen ↔ List.Forall₂ (· < ·) digits widths)
          ∧ seen.length = widths.prod)
    ∧ (∀ radius : Nat,
      Set.BijOn candidate { digit | digit ≤ 2 * radius } { x | -(radius : Int) ≤ x ∧ x ≤ radius }
        ∧ (2 * radius < 2 ^ 64 → ∀ digit ≤ 2 * radius, FitsSigned (candidate digit)))
    ∧ ∀ a b : Nat, a ≤ b → (candidate a).natAbs ≤ (candidate b).natAbs := by
  refine ⟨fun widths hpos => ?_, fun radius => ⟨candidate_bijOn radius, ?_⟩,
    fun a b h => natAbs_candidate_mono h⟩
  · have hzero : List.Forall₂ (· < ·) (List.replicate widths.length 0) widths :=
      Turned.forall₂_lt hpos .start
    have hround := round_shown hzero
    rw [shown_eq_sections hpos] at hround
    refine ⟨(widths.map List.range).sections, fun found final => ?_,
      nodup_sections fun list hlist => ?_, fun digits => ?_, ?_⟩
    · constructor
      · intro hfound
        exact hfound.unique hround
      · rintro ⟨rfl, rfl⟩
        exact hround
    · obtain ⟨width, -, rfl⟩ := List.mem_map.mp hlist
      exact List.nodup_range
    · rw [List.mem_sections, List.forall₂_map_right_iff]
      simp only [List.mem_range]
    · rw [length_sections, List.map_map]
      simp [Function.comp_def]
  · intro hradius digit hdigit
    exact fitsSigned_candidate hradius hdigit

/-- Three wheels, of which the middle one has a single digit. -/
theorem round_shows_once_fixed_wheel :
    (∀ width ∈ [2, 1, 3], 1 ≤ width)
      ∧ ∃ seen, seen = [[0, 0, 0], [1, 0, 0], [0, 0, 1], [1, 0, 1], [0, 0, 2], [1, 0, 2]]
        ∧ Round [2, 1, 3] [0, 0, 0] seen [0, 0, 0] ∧ seen.Nodup
        ∧ (∀ digits, digits ∈ seen ↔ List.Forall₂ (· < ·) digits [2, 1, 3])
        ∧ seen.length = [2, 1, 3].prod := by
  have hpos : ∀ width ∈ [2, 1, 3], 1 ≤ width := by decide
  have hround : Round [2, 1, 3] [0, 0, 0]
      [[0, 0, 0], [1, 0, 0], [0, 0, 1], [1, 0, 1], [0, 0, 2], [1, 0, 2]] [0, 0, 0] :=
    .more rfl (.more rfl (.more rfl (.more rfl (.more rfl (.last rfl)))))
  obtain ⟨seen, hseen, hshows⟩ := round_shows_once.1 [2, 1, 3] hpos
  obtain ⟨rfl, -⟩ := (hseen _ _).mp hround
  exact ⟨hpos, _, rfl, hround, hshows⟩

end Diophantine
