import Diophantine.Proofs.Search.Coverage
import Diophantine.Proofs.Search.Reachable

/-!
# What a search answers

Whether a search can come to an end without an answer is a matter of counting: its limit allows for
all points of its box, or it does not. If it does, the answer is the right one for the box; if not,
the search finds a solution in time or gives up when the count is full. Either way, what it finds is
nearest to the origin.

- `Assignment.magnitude`: the largest magnitude of what is assigned;
- `Search.Solution`: the values of a solution within the bound;
- `Search.Answers`: the three answers, and what is known with each of them;
- `Search.answers_solve`: a search gives one of them;
- `Search.solve_outcome`: which one it is, for searches that calls have come to.
-/

namespace Diophantine

/-! ### Largest values -/

/-- The largest magnitude of the values that are assigned. -/
def Assignment.magnitude (a : Assignment) : Nat :=
  Diophantine.magnitude (a.entries.map fun entry => entry.2.toInt)

/-- Values for slots are as large as what they assign to the names. -/
theorem Slots.magnitude_assignment {slots : Slots} {values : List Value}
    (hnodup : slots.names.Nodup) (hlen : slots.names.length = values.length) :
    (slots.assignment values).magnitude = magnitude (values.map Int64.toInt) := by
  refine Nat.le_antisymm (magnitude_le_iff.mpr ?_) (magnitude_le_iff.mpr ?_)
  · refine List.forall_mem_map.mpr fun entry hmem => ?_
    have hvalue : entry.2 ∈ values := Assignment.mem_of_mem_entries_zip hnodup hlen hmem
    exact natAbs_le_magnitude (List.mem_map_of_mem hvalue)
  · refine List.forall_mem_map.mpr fun value hmem => ?_
    obtain ⟨name, hentry⟩ := Assignment.exists_mem_entries_zip hnodup hlen hmem
    exact natAbs_le_magnitude (List.mem_map_of_mem hentry)

namespace Search

/-- The number of points within the bound. -/
def volume (search : Search) : Nat :=
  (2 * search.limits.bound.toNat + 1) ^ search.slots.names.length

/-- Values for all slots, within the bound, on which all goals hold. -/
structure Solution (search : Search) (goals : List Goal) (values : List Value) : Prop where
  length_eq : values.length = search.slots.names.length
  inBound : ∀ value ∈ values, -(search.limits.bound.toNat : Int) ≤ value.toInt
    ∧ value.toInt ≤ search.limits.bound.toNat
  holds : ∀ goal ∈ goals, goal.holds values = true

/-! ### Solutions are points -/

@[simp] theorem map_ofInt_map_toInt (values : List Value) :
    (values.map Int64.toInt).map Int64.ofInt = values := by
  rw [List.map_map]
  exact List.map_id'' Int64.ofInt_toInt values

theorem map_toInt_map_ofInt {count : Nat} {bound : UInt32} {point : List Int}
    (h : point ∈ boxPoints count bound.toNat) :
    (point.map Int64.ofInt).map Int64.toInt = point := by
  have hsmall : bound.toNat < 2 ^ 32 := bound.toNat_lt
  have hrange := (mem_boxPoints_iff_forall.mp h).2
  rw [List.map_map]
  conv_rhs => rw [← List.map_id point]
  refine List.map_congr_left fun x hx => FitsSigned.toInt_ofInt ?_
  obtain ⟨hlow, hhigh⟩ := hrange x hx
  exact ⟨by omega, by omega⟩

variable {search : Search} {goals : List Goal}

/-- The integers of a solution are a point of the box that solves the goals. -/
theorem Solution.point {values : List Value} (h : Solution search goals values) :
    values.map Int64.toInt ∈ boxPoints search.slots.names.length search.limits.bound.toNat
      ∧ Solves goals (values.map Int64.toInt) := by
  constructor
  · rw [mem_boxPoints_iff_forall, List.length_map]
    exact ⟨h.length_eq, List.forall_mem_map.mpr h.inBound⟩
  · rw [Solves, map_ofInt_map_toInt]
    exact List.all_eq_true.mpr h.holds

theorem Solution.magnitude_le {values : List Value} (h : Solution search goals values) :
    magnitude (values.map Int64.toInt) ≤ search.limits.bound.toNat :=
  (mem_boxPoints_iff.mp h.point.1).2

/-- A point of the box that solves the goals is a solution. -/
theorem Solves.solution {point : List Int}
    (hmem : point ∈ boxPoints search.slots.names.length search.limits.bound.toNat)
    (h : Solves goals point) : Solution search goals (point.map Int64.ofInt) := by
  obtain ⟨hlen, hrange⟩ := mem_boxPoints_iff_forall.mp hmem
  refine ⟨by rw [List.length_map, hlen], ?_, List.all_eq_true.mp h⟩
  have hback := map_toInt_map_ofInt hmem
  rw [← List.forall_mem_map (P := fun x => -(search.limits.bound.toNat : Int) ≤ x
    ∧ x ≤ search.limits.bound.toNat), hback]
  exact hrange

/-! ### The three answers -/

/-- What a search answers, with what is known by that. -/
inductive Answers (search : Search) (goals : List Goal) : Except LimitReached Outcome → Prop
  | satisfiable {values : List Value} (hsolution : Solution search goals values)
      (hnearest : ∀ other, Solution search goals other →
        magnitude (values.map Int64.toInt) ≤ magnitude (other.map Int64.toInt)) :
      Answers search goals (.ok (.satisfiable (search.slots.assignment values)))
  | unsatisfiable (hnone : ∀ values, ¬Solution search goals values)
      (hroom : search.volume ≤ search.limits.maxCandidates.toNat) :
      Answers search goals (.ok .unsatisfiable)
  | limit (hfull : search.limits.maxCandidates.toNat < search.volume) :
      Answers search goals (.error { examined := search.limits.maxCandidates.toNat
                                     bound := search.limits.bound })

/-- The points behind one of the box are not nearer to the origin, so a point is nearest among
solutions if none is in front of it. -/
theorem magnitude_le_of_split {count bound : Nat} {front back : List (List Int)}
    {point other : List Int} (hsplit : boxPoints count bound = front ++ point :: back)
    (hother : other ∈ boxPoints count bound) (hfront : other ∉ front) :
    magnitude point ≤ magnitude other := by
  have hpairwise := pairwise_boxPoints count bound
  rw [hsplit] at hpairwise hother
  obtain ⟨-, hrest, -⟩ := List.pairwise_append.mp hpairwise
  rcases List.mem_append.mp hother with hmem | hmem
  · exact absurd hmem hfront
  · rcases List.mem_cons.mp hmem with rfl | hmem
    · exact Nat.le_refl _
    · exact (List.pairwise_cons.mp hrest).1 other hmem

/-- Every search gives one of the three answers. -/
theorem answers_solve (search : Search) (goals : List Goal) :
    Answers search goals (search.solve goals).result := by
  have htried := tried_walkBox search.limits goals search.slots.names.length
    search.limits.bound.toNat
  unfold solve
  dsimp only
  generalize walkBox (visit search.limits goals) search.slots.names.length
    search.limits.bound.toNat 0 = result at htried ⊢
  cases htried with
  | @found front back point hsplit hbefore hpoint hroom =>
    have hmem : point ∈ boxPoints search.slots.names.length search.limits.bound.toNat :=
      hsplit ▸ List.mem_append_right _ (List.mem_cons_self ..)
    -- Points in front of the answer were tried and are no solutions; those behind are no nearer.
    refine .satisfiable (hpoint.solution hmem) fun other hother => ?_
    obtain ⟨hbox, hsolves⟩ := hother.point
    rw [map_toInt_map_ofInt hmem]
    exact magnitude_le_of_split hsplit hbox fun hfront => hbefore _ hfront hsolves
  | exhausted hnone hroom =>
    refine .unsatisfiable (fun values hsolution => ?_) ?_
    · exact hnone _ hsolution.point.1 hsolution.point.2
    · rwa [Nat.zero_add, length_boxPoints] at hroom
  | limit hsplit hbefore hfull =>
    refine .limit ?_
    -- A point is left when the count is full, so the box has more points than may be counted.
    have hlength := congrArg List.length hsplit
    rw [length_boxPoints, List.length_append, List.length_cons] at hlength
    unfold volume
    omega

/-- **What a search answers**, for a search that any calls have come to and any goals. If its limit
allows for all points of its box, it never gives up, and it tells whether there is a solution. If
not, it finds one or gives up when the count is full, but never denies that there is one. What it
finds is a solution, and none is nearer to the origin. -/
theorem solve_outcome (h : search.Reachable) (goals : List Goal) :
    (search.volume ≤ search.limits.maxCandidates.toNat →
      (∀ limit, (search.solve goals).result ≠ .error limit)
        ∧ ((∃ a, (search.solve goals).result = .ok (.satisfiable a))
            ↔ ∃ values, Solution search goals values)
        ∧ ((search.solve goals).result = .ok .unsatisfiable
            ↔ ¬∃ values, Solution search goals values))
    ∧ (search.limits.maxCandidates.toNat < search.volume →
      (search.solve goals).result ≠ .ok .unsatisfiable
        ∧ ((∃ a, (search.solve goals).result = .ok (.satisfiable a))
            ∨ (search.solve goals).result
              = .error { examined := search.limits.maxCandidates.toNat
                         bound := search.limits.bound }))
    ∧ ∀ a, (search.solve goals).result = .ok (.satisfiable a) →
      ∃ values, Solution search goals values
        ∧ search.slots.names.map a.find? = values.map some
        ∧ (∀ name, (∃ value, a.find? name = some value) ↔ name ∈ search.slots.names)
        ∧ ∀ other, Solution search goals other →
            magnitude (values.map Int64.toInt) ≤ magnitude (other.map Int64.toInt) := by
  have hanswers := answers_solve search goals
  generalize (search.solve goals).result = result at hanswers ⊢
  cases hanswers with
  | @satisfiable values hsolution hnearest =>
    have hlen : search.slots.names.length = values.length := hsolution.length_eq.symm
    refine ⟨fun _ => ⟨nofun, ?_, ?_⟩, fun _ => ⟨nofun, .inl ⟨_, rfl⟩⟩, ?_⟩
    · exact iff_of_true ⟨_, rfl⟩ ⟨values, hsolution⟩
    · exact iff_of_false nofun (not_not_intro ⟨values, hsolution⟩)
    · rintro a ⟨⟩
      exact ⟨values, hsolution, Assignment.map_find?_zip h.nodup hlen,
        fun _ => Assignment.exists_find?_zip_iff h.nodup hlen, hnearest⟩
  | unsatisfiable hnone hroom =>
    refine ⟨fun _ => ⟨nofun, ?_, ?_⟩, fun hfull => absurd hroom (Nat.not_le.mpr hfull), nofun⟩
    · exact iff_of_false nofun fun ⟨values, hsolution⟩ => hnone values hsolution
    · exact iff_of_true rfl fun ⟨values, hsolution⟩ => hnone values hsolution
  | limit hfull =>
    exact ⟨fun hroom => absurd hroom (Nat.not_le.mpr hfull), fun _ => ⟨nofun, .inr rfl⟩, nofun⟩

/-- Within a bound of two, a search that has met one name finds a root of `x * x = 1` that is
nearest to zero, if it may look at all five points, and does not deny that there is one if it may
look at three only. -/
theorem solve_outcome_square :
    (∃ (a : Assignment) (values : List Value),
      ((((ofLimits { bound := 2, maxCandidates := 5 }).lowerExpression (.var 'x')).2).solve
          [.equal (.mul (.slot 0) (.slot 0)) (.constant 1)]).result = .ok (.satisfiable a)
        ∧ [a.find? 'x'] = values.map some ∧ magnitude (values.map Int64.toInt) ≤ 1)
      ∧ ((((ofLimits { bound := 2, maxCandidates := 3 }).lowerExpression (.var 'x')).2).solve
          [.equal (.mul (.slot 0) (.slot 0)) (.constant 1)]).result ≠ .ok .unsatisfiable := by
  have hreachable : ∀ limits, Reachable ((ofLimits limits).lowerExpression (.var 'x')).2 :=
    fun limits => ⟨limits, .single (.lowerExpression (.var 'x'))⟩
  have hroot : Solution ((ofLimits { bound := 2, maxCandidates := 5 }).lowerExpression (.var 'x')).2
      [.equal (.mul (.slot 0) (.slot 0)) (.constant 1)] [-1] := by
    refine ⟨rfl, ?_, ?_⟩
    · exact List.forall_mem_singleton.mpr ⟨by decide, by decide⟩
    · exact List.forall_mem_singleton.mpr rfl
  constructor
  · obtain ⟨hcomplete, -, hsound⟩ := solve_outcome
      (hreachable { bound := 2, maxCandidates := 5 })
      [.equal (.mul (.slot 0) (.slot 0)) (.constant 1)]
    obtain ⟨a, ha⟩ := (hcomplete (by decide)).2.1.mpr ⟨[-1], hroot⟩
    obtain ⟨values, -, hvalues, -, hnearest⟩ := hsound a ha
    exact ⟨a, values, ha, hvalues, hnearest [-1] hroot⟩
  · exact ((solve_outcome (hreachable { bound := 2, maxCandidates := 3 }) _).2.1 (by decide)).1

end Search

end Diophantine
