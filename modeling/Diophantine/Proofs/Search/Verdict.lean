import Diophantine.Proofs.Search.Walk

/-!
# What trying points comes to

A search tries the points of a box in order, and counts them. There are three ways for that to end:
at the first point that solves all goals, behind the last point, or where the count reaches its
limit.

- `Search.Solves`: all goals hold on a point;
- `Search.Tried`: the three ends, and what is known at each of them;
- `Search.tried_foldlM`, `Search.tried_walkBox`: the search comes to one of them;
- `Search.foldlM_visit_of_unsolved`: points that are passed over.
-/

namespace Diophantine

namespace Search

/-- All goals hold on a point. -/
def Solves (goals : List Goal) (point : List Int) : Prop :=
  goals.all (Goal.holds (point.map Int64.ofInt)) = true

/-- What trying points, behind a number of points examined before, comes to. -/
inductive Tried (limits : Limits) (goals : List Goal) (points : List (List Int)) (examined : Nat) :
    Except Halt Nat → Prop
  /-- A point solves the goals, and none before it does. -/
  | found {front back : List (List Int)} {point : List Int}
      (hsplit : points = front ++ point :: back) (hbefore : ∀ p ∈ front, ¬Solves goals p)
      (hpoint : Solves goals point)
      (hroom : examined + front.length < limits.maxCandidates.toNat) :
      Tried limits goals points examined (.error (.found (point.map Int64.ofInt)
        (examined + front.length + 1) (magnitude point)))
  /-- No point solves the goals. -/
  | exhausted (hnone : ∀ p ∈ points, ¬Solves goals p)
      (hroom : examined + points.length ≤ limits.maxCandidates.toNat) :
      Tried limits goals points examined (.ok (examined + points.length))
  /-- The limit is reached in front of a point. -/
  | limit {front back : List (List Int)} {point : List Int}
      (hsplit : points = front ++ point :: back) (hbefore : ∀ p ∈ front, ¬Solves goals p)
      (hfull : examined + front.length = limits.maxCandidates.toNat) :
      Tried limits goals points examined
        (.error (.limit limits.maxCandidates.toNat (magnitude point)))

namespace Tried

variable {limits : Limits} {goals : List Goal} {points : List (List Int)} {examined : Nat}
  {result : Except Halt Nat}

/-- A point that does not solve the goals only adds to the count. -/
theorem cons {point : List Int} (hpoint : ¬Solves goals point)
    (h : Tried limits goals points (examined + 1) result) :
    Tried limits goals (point :: points) examined result := by
  cases h with
  | @found front back other hsplit hbefore hother hroom =>
    have hcount : examined + 1 + front.length = examined + (point :: front).length := by
      rw [List.length_cons]
      omega
    rw [hcount] at hroom ⊢
    exact .found (congrArg (point :: ·) hsplit) (List.forall_mem_cons.mpr ⟨hpoint, hbefore⟩)
      hother hroom
  | exhausted hnone hroom =>
    have hcount : examined + 1 + points.length = examined + (point :: points).length := by
      rw [List.length_cons]
      omega
    rw [hcount] at hroom ⊢
    exact .exhausted (List.forall_mem_cons.mpr ⟨hpoint, hnone⟩) hroom
  | @limit front back other hsplit hbefore hfull =>
    have hcount : examined + (point :: front).length = limits.maxCandidates.toNat := by
      rw [List.length_cons]
      omega
    exact .limit (congrArg (point :: ·) hsplit) (List.forall_mem_cons.mpr ⟨hpoint, hbefore⟩)
      hcount

end Tried

/-- Trying one point after the other comes to one of the three ends. -/
theorem tried_foldlM {limits : Limits} (goals : List Goal) (points : List (List Int))
    {examined : Nat} (hroom : examined ≤ limits.maxCandidates.toNat) :
    Tried limits goals points examined
      (points.foldlM (fun examined point => visit limits goals (magnitude point) examined point)
        examined) := by
  induction points generalizing examined with
  | nil => exact .exhausted nofun hroom
  | cons point points ih =>
    rw [List.foldlM_cons]
    by_cases hfull : limits.maxCandidates.toNat ≤ examined
    · have hexact : examined = limits.maxCandidates.toNat := Nat.le_antisymm hroom hfull
      have hvisit : visit limits goals (magnitude point) examined point
          = .error (.limit limits.maxCandidates.toNat (magnitude point)) := by
        unfold visit
        rw [if_pos hfull, hexact]
      rw [hvisit]
      exact .limit (List.nil_append (point :: points)).symm nofun hexact
    · by_cases hpoint : Solves goals point
      · have hvisit : visit limits goals (magnitude point) examined point
            = .error (.found (point.map Int64.ofInt) (examined + 1) (magnitude point)) := by
          unfold visit
          rw [if_neg hfull]
          exact if_pos hpoint
        rw [hvisit]
        exact .found (List.nil_append (point :: points)).symm nofun hpoint (Nat.lt_of_not_le hfull)
      · have hvisit : visit limits goals (magnitude point) examined point
            = .ok (examined + 1) := by
          unfold visit
          rw [if_neg hfull]
          exact if_neg hpoint
        rw [hvisit]
        exact (ih (Nat.lt_of_not_le hfull)).cons hpoint

/-- Points that do not solve the goals are counted, as long as the limit allows for them. -/
theorem foldlM_visit_of_unsolved {limits : Limits} {goals : List Goal} {points : List (List Int)}
    {examined : Nat} (hroom : examined + points.length ≤ limits.maxCandidates.toNat)
    (hnone : ∀ point ∈ points, ¬Solves goals point) :
    points.foldlM (fun examined point => visit limits goals (magnitude point) examined point)
      examined = .ok (examined + points.length) := by
  have hstart : examined ≤ limits.maxCandidates.toNat := Nat.le_of_add_right_le hroom
  have htried := tried_foldlM goals points hstart
  generalize points.foldlM
    (fun examined point => visit limits goals (magnitude point) examined point) examined = result
    at htried ⊢
  cases htried with
  | found hsplit _ hpoint _ =>
    exact absurd hpoint (hnone _ (hsplit ▸ List.mem_append_right _ (List.mem_cons_self ..)))
  | exhausted _ _ => rfl
  | limit hsplit _ hfull =>
    rw [hsplit, List.length_append, List.length_cons] at hroom
    omega

/-- A search of a box comes to one of the three ends. -/
theorem tried_walkBox (limits : Limits) (goals : List Goal) (count bound : Nat) :
    Tried limits goals (boxPoints count bound) 0 (walkBox (visit limits goals) count bound 0) := by
  rw [walkBox_eq_foldlM]
  exact tried_foldlM goals _ (Nat.zero_le _)

end Search

end Diophantine
