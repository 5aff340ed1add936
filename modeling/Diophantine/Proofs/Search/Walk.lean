import Diophantine.Proofs.Search.Box
import Diophantine.Search.Solver

/-!
# Walking a box

The walk hands the points of a box to its visitor one after the other, in the order of `boxPoints`,
and stops where the visitor does. As the radius it announces is the magnitude of the point, a walk
is a fold over that list.

- `walkBox_eq_foldlM`: the walk as a fold;
- `recording`, `walkBox_recording`: the points that a walk hands to its visitor, in order.
-/

namespace Diophantine

/-! ### Folds -/

section Folds

variable {σ ε α β : Type}

theorem foldlM_congr {f g : σ → α → Except ε σ} {list : List α}
    (h : ∀ a ∈ list, ∀ state, f state a = g state a) (state : σ) :
    list.foldlM f state = list.foldlM g state := by
  induction list generalizing state with
  | nil => rfl
  | cons a list ih =>
    obtain ⟨hfirst, hrest⟩ := List.forall_mem_cons.mp h
    rw [List.foldlM_cons, List.foldlM_cons, hfirst state]
    cases g state a with
    | error answer => rfl
    | ok next => exact ih hrest next

theorem foldlM_flatMap (f : α → List β) (visit : σ → β → Except ε σ) (list : List α) (state : σ) :
    (list.flatMap f).foldlM visit state
      = list.foldlM (fun state a => (f a).foldlM visit state) state := by
  induction list generalizing state with
  | nil => rfl
  | cons a list ih =>
    rw [List.flatMap_cons, List.foldlM_append, List.foldlM_cons]
    cases (f a).foldlM visit state with
    | error answer => rfl
    | ok next => exact ih next

end Folds

/-! ### The walk as a fold -/

section Walks

variable {σ ε : Type}

theorem Face.walk_eq_foldlM (visit : σ → List Int → Except ε σ) (face : Face)
    (widths digits : List Nat) (state : σ) :
    face.walk visit widths digits state
      = ((shown widths digits).map face.point).foldlM visit state := by
  fun_induction Face.walk visit face widths digits state with
  | case1 digits state answer hvisit =>
    have hhead : ∃ rest, shown widths digits = digits :: rest := by
      cases hstep : advance widths digits with
      | mk next more =>
        cases more with
        | true => exact ⟨_, shown_of_more hstep⟩
        | false => exact ⟨_, shown_of_done hstep⟩
    obtain ⟨rest, hshown⟩ := hhead
    rw [hshown, List.map_cons, List.foldlM_cons, hvisit]
    rfl
  | case2 digits state next hvisit digits' hstep ih =>
    rw [shown_of_more hstep, List.map_cons, List.foldlM_cons, hvisit]
    exact ih
  | case3 digits state next hvisit digits' hstep =>
    rw [shown_of_done hstep, List.map_singleton, List.foldlM_cons, hvisit]
    rfl

variable (visit : Nat → σ → List Int → Except ε σ)

theorem walkShell_eq_foldlM (count radius : Nat) (state : σ) :
    walkShell visit count radius state
      = (shellPoints radius count).foldlM (visit radius) state := by
  rw [walkShell, shellPoints, foldlM_flatMap]
  refine foldlM_congr (fun face _ state => ?_) state
  exact face.walk_eq_foldlM (visit radius) _ _ state

/-- On a shell, the radius is the magnitude of every point. -/
theorem walkShell_eq_magnitude {radius : Nat} (hpos : 0 < radius) (count : Nat) (state : σ) :
    walkShell visit count radius state
      = (shellPoints radius count).foldlM (fun state point => visit (magnitude point) state point)
          state := by
  rw [walkShell_eq_foldlM]
  refine foldlM_congr (fun point hmem state => ?_) state
  rw [((mem_shellPoints_iff hpos).mp hmem).2]

theorem walkShells_eq_foldlM (count shells : Nat) {radius : Nat} (hpos : 0 < radius) (state : σ) :
    walkShells visit count shells radius state
      = ((List.range' radius shells).flatMap fun radius => shellPoints radius count).foldlM
          (fun state point => visit (magnitude point) state point) state := by
  induction shells generalizing radius state with
  | zero => rfl
  | succ shells ih =>
    rw [walkShells, List.range'_succ, List.flatMap_cons, List.foldlM_append,
      walkShell_eq_magnitude visit hpos]
    cases (shellPoints radius count).foldlM
        (fun state point => visit (magnitude point) state point) state with
    | error answer => rfl
    | ok next => exact ih (Nat.succ_pos radius) next

/-- **The walk visits the points of the box**, one after the other. -/
theorem walkBox_eq_foldlM (count bound : Nat) (state : σ) :
    walkBox visit count bound state
      = (boxPoints count bound).foldlM (fun state point => visit (magnitude point) state point)
          state := by
  have hzero : magnitude (List.replicate count 0) = 0 :=
    magnitude_eq_zero_iff.mpr (by rw [List.length_replicate])
  rw [walkBox, boxPoints, List.foldlM_cons, hzero]
  cases visit 0 state (List.replicate count 0) with
  | error answer => rfl
  | ok next =>
    show (if count = 0 then .ok next else walkShells visit count bound 1 next)
      = ((List.range' 1 bound).flatMap fun radius => shellPoints radius count).foldlM _ next
    rw [← walkShells_eq_foldlM visit count bound Nat.one_pos next]
    by_cases hcount : count = 0
    · -- Without coordinates there are no faces, so the shells are empty.
      subst hcount
      have hempty : ((List.range' 1 bound).flatMap fun radius => shellPoints radius 0) = [] :=
        List.flatMap_eq_nil_iff.mpr fun _ _ => rfl
      rw [if_pos rfl, walkShells_eq_foldlM visit 0 bound Nat.one_pos next, hempty]
      rfl
    · rw [if_neg hcount]

end Walks

/-! ### Recorded walks -/

section Recorded

variable {σ ε : Type}

/-- A visitor that does what another one does, and keeps a list of the points that it is handed,
the one it stops at included. -/
def recording (visit : Nat → σ → List Int → Except ε σ) (radius : Nat)
    (state : σ × List (List Int)) (point : List Int) :
    Except (ε × List (List Int)) (σ × List (List Int)) :=
  match visit radius state.1 point with
  | .error answer => .error (answer, state.2 ++ [point])
  | .ok next => .ok (next, state.2 ++ [point])

/-- A result without the list. -/
def unrecorded : Except (ε × List (List Int)) (σ × List (List Int)) → Except ε σ
  | .error (answer, _) => .error answer
  | .ok (state, _) => .ok state

variable (visit : Nat → σ → List Int → Except ε σ)

theorem foldlM_recording (points : List (List Int)) (state : σ) (visited : List (List Int)) :
    unrecorded (points.foldlM
        (fun state point => recording visit (magnitude point) state point) (state, visited))
      = points.foldlM (fun state point => visit (magnitude point) state point) state := by
  induction points generalizing state visited with
  | nil => rfl
  | cons point points ih =>
    rw [List.foldlM_cons, List.foldlM_cons, recording]
    cases visit (magnitude point) state point with
    | error answer => rfl
    | ok next => exact ih next _

/-- Keeping a list changes nothing about the walk. -/
theorem walkBox_recording (count bound : Nat) (state : σ) (visited : List (List Int)) :
    unrecorded (walkBox (recording visit) count bound (state, visited))
      = walkBox visit count bound state := by
  rw [walkBox_eq_foldlM, walkBox_eq_foldlM]
  exact foldlM_recording visit _ state visited

/-- A walk that comes to its end was handed every point, in order. -/
theorem foldlM_recording_ok {points : List (List Int)} {state last : σ}
    (h : points.foldlM (fun state point => visit (magnitude point) state point) state = .ok last)
    (visited : List (List Int)) :
    points.foldlM (fun state point => recording visit (magnitude point) state point)
      (state, visited) = .ok (last, visited ++ points) := by
  induction points generalizing state visited with
  | nil =>
    cases h
    rw [List.append_nil]
    rfl
  | cons point points ih =>
    rw [List.foldlM_cons] at h ⊢
    rw [recording]
    cases hvisit : visit (magnitude point) state point with
    | error answer =>
      rw [hvisit] at h
      cases h
    | ok next =>
      rw [hvisit] at h
      refine (ih h (visited ++ [point])).trans ?_
      rw [List.append_assoc, List.singleton_append]

end Recorded

end Diophantine
