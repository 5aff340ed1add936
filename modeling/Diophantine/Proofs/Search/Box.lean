import Mathlib.Data.List.Perm.Lattice
import Diophantine.Proofs.Search.Odometer
import Diophantine.Search.Shell

/-!
# The points of a box

The walk visits the points of a box in the order of a list that is known beforehand. A point of a
shell is on one face only, that of the first coordinate to reach the radius, so the shells hold
every point once, and the box is the disjoint union of its shells.

- `magnitude`: the largest magnitude of a coordinate, which says to which shell a point belongs;
- `Face.points`, `shellPoints`, `boxPoints`: the points in the order in which they are visited;
- `mem_boxPoints_iff`, `nodup_boxPoints`, `length_boxPoints`, `pairwise_boxPoints`: every point of
  the box is among them, once, and nearer points come first;
- `walkBox_eq_foldlM`: the walk visits these points.
-/

namespace Diophantine

/-! ### Magnitudes -/

/-- The largest magnitude of the coordinates of a point. -/
def magnitude : List Int → Nat
  | [] => 0
  | x :: point => max x.natAbs (magnitude point)

@[simp] theorem magnitude_nil : magnitude [] = 0 := rfl

@[simp] theorem magnitude_cons (x : Int) (point : List Int) :
    magnitude (x :: point) = max x.natAbs (magnitude point) := rfl

theorem magnitude_le_iff {point : List Int} {bound : Nat} :
    magnitude point ≤ bound ↔ ∀ x ∈ point, x.natAbs ≤ bound := by
  induction point with
  | nil => simp
  | cons x point ih => rw [magnitude_cons, Nat.max_le, ih, List.forall_mem_cons]

theorem natAbs_le_magnitude {point : List Int} {x : Int} (h : x ∈ point) :
    x.natAbs ≤ magnitude point :=
  magnitude_le_iff.mp (Nat.le_refl _) x h

/-- The origin is the only point of magnitude zero. -/
theorem magnitude_eq_zero_iff {point : List Int} :
    magnitude point = 0 ↔ point = List.replicate point.length 0 := by
  rw [← Nat.le_zero, magnitude_le_iff, List.eq_replicate_iff]
  refine ⟨fun h => ⟨rfl, fun x hx => ?_⟩, fun h x hx => ?_⟩
  · exact Int.natAbs_eq_zero.mp (Nat.le_zero.mp (h x hx))
  · rw [h.2 x hx]
    exact Nat.le_refl 0

/-- A point of positive magnitude has a first coordinate that reaches it. -/
theorem exists_first_of_magnitude {point : List Int} {radius : Nat} (hpos : 0 < radius)
    (h : magnitude point = radius) :
    ∃ front x back, point = front ++ x :: back ∧ (∀ y ∈ front, y.natAbs < radius)
      ∧ x.natAbs = radius ∧ ∀ y ∈ back, y.natAbs ≤ radius := by
  induction point with
  | nil =>
    rw [magnitude_nil] at h
    omega
  | cons x point ih =>
    rw [magnitude_cons] at h
    by_cases hx : x.natAbs = radius
    · refine ⟨[], x, point, rfl, nofun, hx, ?_⟩
      exact magnitude_le_iff.mp (by omega)
    · have hbelow : x.natAbs < radius := by omega
      have hrest : magnitude point = radius := by omega
      obtain ⟨front, y, back, rfl, hfront, hy, hback⟩ := ih hrest
      exact ⟨x :: front, y, back, rfl, List.forall_mem_cons.mpr ⟨hbelow, hfront⟩, hy, hback⟩

/-! ### Faces -/

/-- Where a point lies on a face: the coordinate of the slot is the pinned one, and no coordinate
before it reaches the radius. -/
def OnFace (radius count : Nat) (face : Face) (point : List Int) : Prop :=
  ∃ front back, point = front ++ face.pinned :: back ∧ front.length = face.slot
    ∧ point.length = count ∧ (∀ x ∈ front, x.natAbs < radius) ∧ ∀ x ∈ back, x.natAbs ≤ radius

theorem forall₂_replicate_iff {α β : Type} {R : α → β → Prop} {list : List α} {n : Nat} {b : β} :
    List.Forall₂ R list (List.replicate n b) ↔ list.length = n ∧ ∀ a ∈ list, R a b := by
  induction list generalizing n with
  | nil =>
    rw [List.forall₂_nil_left_iff, List.replicate_eq_nil_iff]
    exact ⟨fun h => ⟨h.symm, nofun⟩, fun h => h.1.symm⟩
  | cons a list ih =>
    cases n with
    | zero => exact ⟨nofun, fun h => nomatch h.1⟩
    | succ n =>
      rw [List.replicate_succ, List.forall₂_cons, ih, List.forall_mem_cons, List.length_cons,
        Nat.add_right_cancel_iff]
      exact ⟨fun h => ⟨h.2.1, h.1, h.2.2⟩, fun h => ⟨h.2.1, h.1, h.2.2⟩⟩

theorem forall₂_append_iff {α β : Type} {R : α → β → Prop} {list : List α} {front back : List β} :
    List.Forall₂ R list (front ++ back) ↔
      ∃ before after, list = before ++ after ∧ List.Forall₂ R before front
        ∧ List.Forall₂ R after back := by
  constructor
  · intro h
    refine ⟨list.take front.length, list.drop front.length, (List.take_append_drop ..).symm, ?_, ?_⟩
    · exact List.forall₂_take_append list front back h
    · exact List.forall₂_drop_append list front back h
  · rintro ⟨before, after, rfl, hfront, hback⟩
    exact List.rel_append hfront hback

namespace Face

/-- The widths of a face, laid out around its slot. -/
theorem widths_eq {radius count : Nat} {face : Face} (hslot : face.slot < count) :
    face.widths radius count = List.replicate face.slot (2 * radius - 1)
      ++ 1 :: List.replicate (count - face.slot - 1) (2 * radius + 1) := by
  refine List.ext_getElem ?_ fun i hi _ => ?_
  · simp only [widths, List.length_map, List.length_range, List.length_append, List.length_cons,
      List.length_replicate]
    omega
  · simp only [widths, List.getElem_map, List.getElem_range, List.getElem_append,
      List.getElem_cons, List.getElem_replicate, List.length_replicate]
    split
    · rfl
    · rename_i hge
      by_cases heq : i = face.slot
      · rw [if_pos heq, dif_pos (by omega)]
      · rw [if_neg heq, dif_neg (by omega)]

@[simp] theorem length_widths (radius count : Nat) (face : Face) :
    (face.widths radius count).length = count := by
  rw [widths, List.length_map, List.length_range]

/-- No wheel of a face is without digits. -/
theorem widths_pos {radius count : Nat} (hpos : 0 < radius) (face : Face) :
    ∀ width ∈ face.widths radius count, 0 < width := by
  intro width hmem
  obtain ⟨slot, -, rfl⟩ := List.mem_map.mp hmem
  split
  · omega
  · split <;> omega

/-- The digits that the odometer of a face shows, laid out around its slot. -/
theorem mem_sections_widths_iff {radius count : Nat} {face : Face} (hslot : face.slot < count)
    {digits : List Nat} :
    digits ∈ ((face.widths radius count).map List.range).sections ↔
      ∃ before after, digits = before ++ 0 :: after ∧ before.length = face.slot
        ∧ after.length = count - face.slot - 1 ∧ (∀ d ∈ before, d < 2 * radius - 1)
        ∧ ∀ d ∈ after, d < 2 * radius + 1 := by
  rw [List.mem_sections, List.forall₂_map_right_iff, widths_eq hslot, forall₂_append_iff]
  constructor
  · rintro ⟨before, rest, rfl, hbefore, hrest⟩
    cases hrest with
    | @cons digit _ after _ hdigit hafter =>
      obtain rfl : digit = 0 := Nat.lt_one_iff.mp (List.mem_range.mp hdigit)
      obtain ⟨hlen, hbelow⟩ := forall₂_replicate_iff.mp hbefore
      obtain ⟨hlen', hbelow'⟩ := forall₂_replicate_iff.mp hafter
      exact ⟨before, after, rfl, hlen, hlen', fun d hd => List.mem_range.mp (hbelow d hd),
        fun d hd => List.mem_range.mp (hbelow' d hd)⟩
  · rintro ⟨before, after, rfl, hlen, hlen', hbelow, hbelow'⟩
    refine ⟨before, 0 :: after, rfl, ?_, .cons (by decide) ?_⟩
    · exact forall₂_replicate_iff.mpr ⟨hlen, fun d hd => List.mem_range.mpr (hbelow d hd)⟩
    · exact forall₂_replicate_iff.mpr ⟨hlen', fun d hd => List.mem_range.mpr (hbelow' d hd)⟩

/-- The point for digits around the slot. -/
theorem point_append {face : Face} {before after : List Nat} (hlen : before.length = face.slot) :
    face.point (before ++ 0 :: after)
      = before.map candidate ++ face.pinned :: after.map candidate := by
  have hlen' : (before.map candidate).length = face.slot := by rw [List.length_map, hlen]
  rw [point, List.map_append, List.map_cons, List.set_append, if_neg (by omega), hlen',
    Nat.sub_self, List.set_cons_zero]

/-- The points of a face, in the order in which they are visited. -/
def points (radius count : Nat) (face : Face) : List (List Int) :=
  (shown (face.widths radius count) (List.replicate count 0)).map face.point

theorem points_eq {radius count : Nat} (hpos : 0 < radius) (face : Face) :
    face.points radius count
      = (((face.widths radius count).map List.range).sections).map face.point := by
  have hwidths : ∀ width ∈ face.widths radius count, 0 < width := widths_pos hpos face
  have hshown := shown_eq_sections hwidths
  rw [length_widths] at hshown
  rw [points, hshown]

theorem mem_points_iff {radius count : Nat} (hpos : 0 < radius) {face : Face}
    (hslot : face.slot < count) {point : List Int} :
    point ∈ face.points radius count ↔ OnFace radius count face point := by
  rw [points_eq hpos, List.mem_map]
  constructor
  · rintro ⟨digits, hdigits, rfl⟩
    obtain ⟨before, after, rfl, hlen, hlen', hbelow, hbelow'⟩ :=
      (mem_sections_widths_iff hslot).mp hdigits
    refine ⟨before.map candidate, after.map candidate, point_append hlen, ?_, ?_, ?_, ?_⟩
    · rw [List.length_map, hlen]
    · rw [point_append hlen, List.length_append, List.length_cons, List.length_map,
        List.length_map]
      omega
    · intro x hx
      obtain ⟨digit, hdigit, rfl⟩ := List.mem_map.mp hx
      have hlt := hbelow digit hdigit
      rw [natAbs_candidate]
      omega
    · intro x hx
      obtain ⟨digit, hdigit, rfl⟩ := List.mem_map.mp hx
      exact natAbs_candidate_le_iff.mpr (hbelow' digit hdigit)
  -- Every integer is the candidate of a digit, so the coordinates can be turned back.
  · rintro ⟨front, back, rfl, hlen, hcount, hbelow, hbelow'⟩
    obtain ⟨before, rfl⟩ := exists_map_candidate_eq front
    obtain ⟨after, rfl⟩ := exists_map_candidate_eq back
    rw [List.length_map] at hlen
    rw [List.length_append, List.length_cons, List.length_map, List.length_map] at hcount
    refine ⟨before ++ 0 :: after, (mem_sections_widths_iff hslot).mpr
      ⟨before, after, rfl, hlen, by omega, fun d hd => ?_, fun d hd => ?_⟩, point_append hlen⟩
    · have hlt := hbelow _ (List.mem_map_of_mem hd)
      rw [natAbs_candidate] at hlt
      omega
    · exact natAbs_candidate_le_iff.mp (hbelow' _ (List.mem_map_of_mem hd))

/-- A face is walked without visiting a point twice. -/
theorem nodup_points {radius count : Nat} (hpos : 0 < radius) {face : Face}
    (hslot : face.slot < count) : (face.points radius count).Nodup := by
  rw [points_eq hpos]
  refine List.Nodup.map_on ?_ (nodup_sections fun list hlist => ?_)
  · intro digits hdigits digits' hdigits' heq
    obtain ⟨before, after, rfl, hlen, -⟩ := (mem_sections_widths_iff hslot).mp hdigits
    obtain ⟨before', after', rfl, hlen', -⟩ := (mem_sections_widths_iff hslot).mp hdigits'
    rw [point_append hlen, point_append hlen'] at heq
    -- The pinned slot parts both points at the same place.
    have hmap := List.map_injective_iff.mpr candidate_injective
    obtain ⟨hfront, hback⟩ :=
      List.append_inj heq (by rw [List.length_map, List.length_map, hlen, hlen'])
    rw [hmap hfront, hmap (List.cons.inj hback).2]
  · obtain ⟨width, -, rfl⟩ := List.mem_map.mp hlist
    exact List.nodup_range

end Face

namespace OnFace

variable {radius count : Nat} {face : Face} {point : List Int}

theorem getElem?_slot (h : OnFace radius count face point) :
    point[face.slot]? = some face.pinned := by
  obtain ⟨front, back, rfl, hlen, -⟩ := h
  rw [← hlen, List.getElem?_append_right (Nat.le_refl _), Nat.sub_self, List.getElem?_cons_zero]

theorem natAbs_lt_of_lt (h : OnFace radius count face point) {i : Nat} (hi : i < face.slot)
    {x : Int} (hx : point[i]? = some x) : x.natAbs < radius := by
  obtain ⟨front, back, rfl, hlen, -, hbelow, -⟩ := h
  rw [List.getElem?_append_left (by omega)] at hx
  exact hbelow x (List.mem_of_getElem? hx)

/-- No point lies on two faces of a shell: if one slot came first, its pinned coordinate would have
to stay below the radius. -/
theorem unique {face' : Face} (hface : face.pinned.natAbs = radius)
    (hface' : face'.pinned.natAbs = radius) (h : OnFace radius count face point)
    (h' : OnFace radius count face' point) : face = face' := by
  have hslot : face.slot = face'.slot := by
    rcases Nat.lt_trichotomy face.slot face'.slot with hlt | heq | hgt
    · have hbelow := h'.natAbs_lt_of_lt hlt h.getElem?_slot
      omega
    · exact heq
    · have hbelow := h.natAbs_lt_of_lt hgt h'.getElem?_slot
      omega
  have hpinned : some face.pinned = some face'.pinned := by
    rw [← h.getElem?_slot, ← h'.getElem?_slot, hslot]
  obtain ⟨slot, pinned⟩ := face
  obtain ⟨slot', pinned'⟩ := face'
  exact congr (congrArg Face.mk hslot) (Option.some.inj hpinned)

end OnFace

/-! ### Shells -/

@[simp] theorem mem_faces_iff {radius count : Nat} {face : Face} :
    face ∈ faces radius count ↔ face.slot < count ∧ face.pinned.natAbs = radius := by
  simp only [faces, List.mem_flatMap, List.mem_range, List.mem_cons, List.not_mem_nil, or_false]
  constructor
  · rintro ⟨slot, hslot, rfl | rfl⟩
    · exact ⟨hslot, Int.natAbs_natCast radius⟩
    · refine ⟨hslot, ?_⟩
      show (-(radius : Int)).natAbs = radius
      rw [Int.natAbs_neg, Int.natAbs_natCast]
  · rintro ⟨hslot, hpinned⟩
    obtain ⟨slot, pinned⟩ := face
    refine ⟨slot, hslot, ?_⟩
    rcases Int.natAbs_eq_iff.mp hpinned with rfl | rfl
    · exact .inl rfl
    · exact .inr rfl

theorem nodup_faces {radius count : Nat} (hpos : 0 < radius) : (faces radius count).Nodup := by
  refine List.nodup_flatMap.mpr ⟨fun slot _ => ?_, ?_⟩
  · refine List.nodup_cons.mpr ⟨fun hmem => ?_, List.nodup_singleton _⟩
    have heq : (radius : Int) = -radius := congrArg Face.pinned (List.mem_singleton.mp hmem)
    omega
  · refine List.nodup_range.imp fun {slot slot'} hne face hmem hmem' => hne ?_
    -- A face tells the slot that it was listed for.
    have hslot : ∀ s, face ∈ [Face.mk s radius, Face.mk s (-radius)] → face.slot = s := by
      intro s h
      rcases List.mem_cons.mp h with rfl | h
      · rfl
      · rw [List.mem_singleton.mp h]
    rw [← hslot slot hmem, hslot slot' hmem']

/-- The points of a shell, in the order in which they are visited. -/
def shellPoints (radius count : Nat) : List (List Int) :=
  (faces radius count).flatMap (Face.points radius count)

/-- The points of a shell are those of its magnitude. -/
theorem mem_shellPoints_iff {radius count : Nat} (hpos : 0 < radius) {point : List Int} :
    point ∈ shellPoints radius count ↔ point.length = count ∧ magnitude point = radius := by
  rw [shellPoints, List.mem_flatMap]
  constructor
  · rintro ⟨face, hface, hmem⟩
    obtain ⟨hslot, hpinned⟩ := mem_faces_iff.mp hface
    obtain ⟨front, back, rfl, -, hcount, hbelow, hbelow'⟩ :=
      (Face.mem_points_iff hpos hslot).mp hmem
    refine ⟨hcount, Nat.le_antisymm (magnitude_le_iff.mpr fun x hx => ?_) ?_⟩
    · rcases List.mem_append.mp hx with hx | hx
      · exact Nat.le_of_lt (hbelow x hx)
      · rcases List.mem_cons.mp hx with rfl | hx
        · exact Nat.le_of_eq hpinned
        · exact hbelow' x hx
    · rw [← hpinned]
      exact natAbs_le_magnitude (List.mem_append_right _ (List.mem_cons_self ..))
  · rintro ⟨hcount, hmagnitude⟩
    -- Its first coordinate of magnitude `radius` says which face the point is on.
    obtain ⟨front, x, back, rfl, hbelow, hx, hbelow'⟩ := exists_first_of_magnitude hpos hmagnitude
    have hslot : front.length < count := by
      rw [← hcount, List.length_append, List.length_cons]
      omega
    refine ⟨{ slot := front.length, pinned := x }, mem_faces_iff.mpr ⟨hslot, hx⟩, ?_⟩
    exact (Face.mem_points_iff hpos hslot).mpr ⟨front, back, rfl, rfl, hcount, hbelow, hbelow'⟩

theorem nodup_shellPoints {radius : Nat} (hpos : 0 < radius) (count : Nat) :
    (shellPoints radius count).Nodup := by
  refine List.nodup_flatMap.mpr ⟨fun face hface => ?_, ?_⟩
  · exact Face.nodup_points hpos (mem_faces_iff.mp hface).1
  · refine (nodup_faces hpos).imp_of_mem fun {face face'} hface hface' hne point hmem hmem' =>
      hne ?_
    obtain ⟨hslot, hpinned⟩ := mem_faces_iff.mp hface
    obtain ⟨hslot', hpinned'⟩ := mem_faces_iff.mp hface'
    exact OnFace.unique hpinned hpinned' ((Face.mem_points_iff hpos hslot).mp hmem)
      ((Face.mem_points_iff hpos hslot').mp hmem')

/-! ### The box -/

/-- The points of a box, in the order in which they are visited. -/
def boxPoints (count bound : Nat) : List (List Int) :=
  List.replicate count 0 :: (List.range' 1 bound).flatMap fun radius => shellPoints radius count

@[simp] theorem mem_boxPoints_iff {count bound : Nat} {point : List Int} :
    point ∈ boxPoints count bound ↔ point.length = count ∧ magnitude point ≤ bound := by
  rw [boxPoints, List.mem_cons, List.mem_flatMap]
  constructor
  · rintro (rfl | ⟨radius, hradius, hmem⟩)
    · have hzero : magnitude (List.replicate count 0) = 0 :=
        magnitude_eq_zero_iff.mpr (by rw [List.length_replicate])
      exact ⟨List.length_replicate, by omega⟩
    · rw [List.mem_range'_1] at hradius
      obtain ⟨hcount, hmagnitude⟩ := (mem_shellPoints_iff hradius.1).mp hmem
      exact ⟨hcount, by omega⟩
  · rintro ⟨hcount, hmagnitude⟩
    by_cases hzero : magnitude point = 0
    · left
      rw [magnitude_eq_zero_iff.mp hzero, hcount]
    · have hpos : 0 < magnitude point := Nat.pos_of_ne_zero hzero
      exact .inr ⟨magnitude point, List.mem_range'_1.mpr ⟨hpos, by omega⟩,
        (mem_shellPoints_iff hpos).mpr ⟨hcount, rfl⟩⟩

/-- Nearer points come first. -/
theorem pairwise_boxPoints (count bound : Nat) :
    (boxPoints count bound).Pairwise fun p q => magnitude p ≤ magnitude q := by
  have hzero : magnitude (List.replicate count 0) = 0 :=
    magnitude_eq_zero_iff.mpr (by rw [List.length_replicate])
  have hradius : ∀ radius ∈ List.range' 1 bound, ∀ point ∈ shellPoints radius count,
      magnitude point = radius := by
    intro radius hmem point hpoint
    rw [List.mem_range'_1] at hmem
    exact ((mem_shellPoints_iff hmem.1).mp hpoint).2
  refine List.pairwise_cons.mpr ⟨fun point _ => by omega, List.pairwise_flatMap.mpr ⟨?_, ?_⟩⟩
  · intro radius hmem
    refine List.Pairwise.imp_of_mem (fun {p q} hp hq _ => ?_) (nodup_shellPoints
      (List.mem_range'_1.mp hmem).1 count)
    exact Nat.le_of_eq ((hradius radius hmem p hp).trans (hradius radius hmem q hq).symm)
  · refine List.Pairwise.imp_of_mem (fun {r s} hr hs hlt p hp q hq => ?_)
      List.pairwise_lt_range'
    rw [hradius r hr p hp, hradius s hs q hq]
    exact Nat.le_of_lt hlt

/-- No point of a box is visited twice. -/
theorem nodup_boxPoints (count bound : Nat) : (boxPoints count bound).Nodup := by
  have hzero : magnitude (List.replicate count 0) = 0 :=
    magnitude_eq_zero_iff.mpr (by rw [List.length_replicate])
  refine List.nodup_cons.mpr ⟨fun hmem => ?_, List.nodup_flatMap.mpr ⟨fun radius hradius => ?_, ?_⟩⟩
  · obtain ⟨radius, hradius, hpoint⟩ := List.mem_flatMap.mp hmem
    rw [List.mem_range'_1] at hradius
    have hmagnitude := ((mem_shellPoints_iff hradius.1).mp hpoint).2
    omega
  · exact nodup_shellPoints (List.mem_range'_1.mp hradius).1 count
  · have hdistinct : (List.range' 1 bound).Nodup := List.nodup_range'
    refine hdistinct.imp_of_mem fun {r s} hr hs hne point hp hq => hne ?_
    rw [← ((mem_shellPoints_iff (List.mem_range'_1.mp hr).1).mp hp).2,
      ((mem_shellPoints_iff (List.mem_range'_1.mp hs).1).mp hq).2]

/-- A box has as many points as there are ways to choose a candidate for each coordinate. -/
@[simp] theorem length_boxPoints (count bound : Nat) :
    (boxPoints count bound).length = (2 * bound + 1) ^ count := by
  have hcandidates : ∀ x : Int,
      x ∈ (List.range (2 * bound + 1)).map candidate ↔ x.natAbs ≤ bound := by
    intro x
    rw [List.mem_map]
    constructor
    · rintro ⟨digit, hdigit, rfl⟩
      exact natAbs_candidate_le_iff.mpr (List.mem_range.mp hdigit)
    · intro hx
      obtain ⟨digit, rfl⟩ := exists_candidate_eq x
      exact ⟨digit, List.mem_range.mpr (natAbs_candidate_le_iff.mp hx), rfl⟩
  have hperm : (boxPoints count bound).Perm
      (List.replicate count ((List.range (2 * bound + 1)).map candidate)).sections := by
    refine (List.perm_ext_iff_of_nodup (nodup_boxPoints count bound)
      (nodup_sections fun list hlist => ?_)).mpr fun point => ?_
    · rw [(List.mem_replicate.mp hlist).2]
      exact List.nodup_range.map candidate_injective
    · rw [mem_boxPoints_iff, List.mem_sections, forall₂_replicate_iff, magnitude_le_iff]
      simp only [hcandidates]
  rw [hperm.length_eq, length_sections, List.map_replicate, List.length_map, List.length_range,
    List.prod_replicate_nat]

end Diophantine
