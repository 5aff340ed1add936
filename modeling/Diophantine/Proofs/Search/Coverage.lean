import Diophantine.Proofs.Range
import Diophantine.Proofs.Search.Verdict

/-!
# Every point once

A search that is cut short neither by an answer nor by its limit examines every point of its box
exactly once, the nearer ones first. The numbers that it works with on the way are small: whatever
the bound, each of them fits into a machine word of 64 bits.

- `FitsWords`: the widths, digits and coordinates of a face fit into words;
- `Search.solve_of_walked`: what solving comes to behind the last point;
- `Search.visits_box_once`: the points that a search visits.
-/

namespace Diophantine

/-! ### Machine words -/

/-- Whatever walking a face works with fits into words of 64 bits: the widths, the digits that the
odometer ever shows and what a step makes of them, the integers of digits, and the pinned value. -/
structure FitsWords (radius count : Nat) (face : Face) : Prop where
  widths : ∀ width ∈ face.widths radius count, 0 < width ∧ width < 2 ^ 64
  digits : ∀ digits, Turned (face.widths radius count) digits →
    List.Forall₂ (· < ·) digits (face.widths radius count)
  candidates : ∀ digits, Turned (face.widths radius count) digits →
    ∀ digit ∈ digits, digit + 1 < 2 ^ 64 ∧ FitsSigned (candidate digit)
  pinned : FitsSigned face.pinned

/-- No width goes beyond the number of candidates within the radius. -/
theorem Face.widths_le {radius count : Nat} {face : Face} :
    ∀ width ∈ face.widths radius count, width ≤ 2 * radius + 1 := by
  intro width hmem
  obtain ⟨slot, -, rfl⟩ := List.mem_map.mp hmem
  split
  · omega
  · split <;> omega

theorem forall₂_lt_mem {digits widths : List Nat} (h : List.Forall₂ (· < ·) digits widths) :
    ∀ digit ∈ digits, ∃ width ∈ widths, digit < width := by
  induction h with
  | nil => exact nofun
  | @cons digit width digits widths hlt _ ih =>
    refine List.forall_mem_cons.mpr ⟨⟨width, List.mem_cons_self .., hlt⟩, fun d hd => ?_⟩
    obtain ⟨w, hw, hdw⟩ := ih d hd
    exact ⟨w, List.mem_cons_of_mem _ hw, hdw⟩

/-- The faces of every shell whose radius is a word of 32 bits fit into words of 64 bits. -/
theorem fitsWords {radius count : Nat} {face : Face} (hpos : 0 < radius) (hradius : radius < 2 ^ 32)
    (hface : face ∈ faces radius count) : FitsWords radius count face := by
  have hdigits : ∀ digits, Turned (face.widths radius count) digits →
      List.Forall₂ (· < ·) digits (face.widths radius count) :=
    fun digits h => h.forall₂_lt (Face.widths_pos hpos face)
  refine ⟨fun width hmem => ?_, hdigits, fun digits h digit hmem => ?_, ?_⟩
  · have hle := Face.widths_le width hmem
    exact ⟨Face.widths_pos hpos face width hmem, by omega⟩
  · obtain ⟨width, hwidth, hlt⟩ := forall₂_lt_mem (hdigits digits h) digit hmem
    have hle := Face.widths_le width hwidth
    have hcandidate : (candidate digit).natAbs ≤ radius := natAbs_candidate_le_iff.mpr (by omega)
    refine ⟨by omega, ?_, ?_⟩ <;> omega
  · have hpinned := (mem_faces_iff.mp hface).2
    refine ⟨?_, ?_⟩ <;> omega

/-! ### The points that are visited -/

/-- The points of a box, said by the range of every coordinate. -/
theorem mem_boxPoints_iff_forall {count bound : Nat} {point : List Int} :
    point ∈ boxPoints count bound ↔
      point.length = count ∧ ∀ x ∈ point, -(bound : Int) ≤ x ∧ x ≤ bound := by
  rw [mem_boxPoints_iff, magnitude_le_iff]
  refine and_congr_right fun _ => forall₂_congr fun x _ => ?_
  constructor
  · intro h
    exact ⟨by omega, by omega⟩
  · rintro ⟨hlow, hhigh⟩
    omega

namespace Search

/-- A search that nothing cuts short examines as many points as the box has. -/
theorem foldlM_visit_of_none {limits : Limits} {goals : List Goal} {count : Nat}
    (hbudget : (2 * limits.bound.toNat + 1) ^ count ≤ limits.maxCandidates.toNat)
    (hnone : ∀ point ∈ boxPoints count limits.bound.toNat, ¬Solves goals point) :
    (boxPoints count limits.bound.toNat).foldlM
        (fun examined point => visit limits goals (magnitude point) examined point) 0
      = .ok ((2 * limits.bound.toNat + 1) ^ count) := by
  have hlength := length_boxPoints count limits.bound.toNat
  rw [foldlM_visit_of_unsolved (by omega) hnone, hlength, Nat.zero_add]

/-- A search whose walk ends behind the last point of the box finds nothing. -/
theorem solve_of_walked {search : Search} {goals : List Goal} {examined : Nat}
    (h : walkBox (visit search.limits goals) search.slots.names.length
      search.limits.bound.toNat 0 = .ok examined) :
    search.solve goals =
      { events := if search.slots.names.length = 0 then []
          else [.exhausted search.limits.bound.toNat examined]
        result := .ok .unsatisfiable } := by
  unfold solve
  simp only [h]

/-- **Every point once**: if no point of the box solves the goals and the limit allows for all of
them, a search is handed each point of the box exactly once and no other point, nearer ones first,
and solving the goals comes to nothing, with as many points examined as the box has. Whatever the
goals and the limit, the numbers that it works with fit into words. -/
theorem visits_box_once (limits : Limits) (count : Nat) :
    (∀ goals : List Goal,
      (2 * limits.bound.toNat + 1) ^ count ≤ limits.maxCandidates.toNat →
      (∀ point : List Int, point.length = count →
        (∀ x ∈ point, -(limits.bound.toNat : Int) ≤ x ∧ x ≤ limits.bound.toNat) →
        ¬Solves goals point) →
      (∀ search : Search, search.limits = limits → search.slots.names.length = count →
        search.solve goals =
          { events := if count = 0 then []
              else [.exhausted limits.bound.toNat ((2 * limits.bound.toNat + 1) ^ count)]
            result := .ok .unsatisfiable })
      ∧ ∃ visited : List (List Int),
        walkBox (visit limits goals) count limits.bound.toNat 0
            = .ok ((2 * limits.bound.toNat + 1) ^ count)
          ∧ walkBox (recording (visit limits goals)) count limits.bound.toNat (0, [])
            = .ok ((2 * limits.bound.toNat + 1) ^ count, visited)
          ∧ visited.Nodup
          ∧ (∀ point, point ∈ visited ↔ point.length = count
              ∧ ∀ x ∈ point, -(limits.bound.toNat : Int) ≤ x ∧ x ≤ limits.bound.toNat)
          ∧ visited.length = (2 * limits.bound.toNat + 1) ^ count
          ∧ visited.Pairwise fun p q => magnitude p ≤ magnitude q)
    ∧ (∀ x : Int, -(limits.bound.toNat : Int) ≤ x → x ≤ limits.bound.toNat →
        (Int64.ofInt x).toInt = x)
    ∧ ∀ radius, 0 < radius → radius ≤ limits.bound.toNat →
        ∀ face ∈ faces radius count, FitsWords radius count face := by
  have hsmall : limits.bound.toNat < 2 ^ 32 := limits.bound.toNat_lt
  refine ⟨fun goals hbudget hnone => ?_, fun x hlow hhigh => ?_,
    fun radius hpos hradius face hface => ?_⟩
  · have hwalk := foldlM_visit_of_none hbudget fun point hmem =>
      hnone point (mem_boxPoints_iff_forall.mp hmem).1 (mem_boxPoints_iff_forall.mp hmem).2
    have hrecorded : walkBox (recording (visit limits goals)) count limits.bound.toNat (0, [])
        = .ok ((2 * limits.bound.toNat + 1) ^ count, boxPoints count limits.bound.toNat) := by
      rw [walkBox_eq_foldlM]
      exact foldlM_recording_ok (visit limits goals) hwalk []
    have hwalked : walkBox (visit limits goals) count limits.bound.toNat 0
        = .ok ((2 * limits.bound.toNat + 1) ^ count) := by
      rw [← walkBox_recording (visit limits goals) count limits.bound.toNat 0 [], hrecorded]
      rfl
    refine ⟨?_, boxPoints count limits.bound.toNat, hwalked, hrecorded, nodup_boxPoints _ _,
      fun point => mem_boxPoints_iff_forall, length_boxPoints _ _, pairwise_boxPoints _ _⟩
    rintro search rfl rfl
    exact solve_of_walked hwalked
  · exact FitsSigned.toInt_ofInt ⟨by omega, by omega⟩
  · exact fitsWords hpos (by omega) hface

/-- Two coordinates within a bound of one make nine points, if nothing solves the goals, and four
faces of small numbers. A search of two names examines them all. -/
theorem visits_nine_points :
    solve { limits := { bound := 1, maxCandidates := 9 }
            slots := ((Slots.empty.intern 'x').2.intern 'y').2 }
        [.equal (.constant 0) (.constant 1)]
      = { events := [.exhausted 1 9], result := .ok .unsatisfiable }
    ∧ (∃ visited : List (List Int),
      walkBox (recording (visit { bound := 1, maxCandidates := 9 }
          [.equal (.constant 0) (.constant 1)])) 2 1 (0, []) = .ok (9, visited)
        ∧ visited.Nodup ∧ visited.length = 9)
    ∧ (Int64.ofInt (-1)).toInt = -1 ∧ ∀ face ∈ faces 1 2, FitsWords 1 2 face := by
  have hnone : ∀ point : List Int, ¬Solves [.equal (.constant 0) (.constant 1)] point :=
    fun point h => Bool.false_ne_true h
  obtain ⟨hvisited, hwords, hfaces⟩ := visits_box_once { bound := 1, maxCandidates := 9 } 2
  obtain ⟨hsolve, visited, -, hwalk, hnodup, -, hlength, -⟩ :=
    hvisited [.equal (.constant 0) (.constant 1)] (by decide) fun point _ _ => hnone point
  exact ⟨hsolve _ rfl rfl, ⟨visited, hwalk, hnodup, hlength⟩, hwords (-1) (by decide) (by decide),
    hfaces 1 Nat.one_pos (by decide)⟩

end Search

end Diophantine
