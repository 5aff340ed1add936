import Diophantine.Search.Odometer

/-!
# Walking a box shell by shell

The points of a box are the lists of a given number of integers within a bound on either side of
zero. They are visited by their distance from the origin, where the distance of a point is the
largest magnitude of its coordinates: first the origin, then the shell of all points at distance
one, then the next shell, up to the bound.

A shell of radius `r` consists of faces. On the face of a slot, that coordinate is pinned to `r` or
to `-r`. So that no point belongs to two faces, the coordinates before the pinned one stay below
`r` in magnitude, while those after it may reach `r`: each point of the shell is on the face of its
first coordinate of magnitude `r`, and on no other. A face is walked with an odometer.

The walk hands every point to a visitor together with the state left by the visit before, and the
visitor may end the walk at any point with an answer.

* `Face.walk`, `walkShell` and `walkBox` are the walk.
-/

namespace Diophantine

/-- One side of a shell: the points of which one coordinate is pinned. -/
structure Face where
  slot : Nat
  pinned : Int
deriving DecidableEq, Repr

namespace Face

/-- The number of candidates for each of `count` coordinates on a face of the shell of a given
radius: those below the radius before the pinned slot, and those up to it after that. -/
def widths (radius count : Nat) (face : Face) : List Nat :=
  (List.range count).map fun slot =>
    if slot < face.slot then 2 * radius - 1
    else if slot = face.slot then 1
    else 2 * radius + 1

/-- The point of a face for the digits of the odometer. -/
def point (face : Face) (digits : List Nat) : List Int :=
  (digits.map candidate).set face.slot face.pinned

/-- Visits the points of a face, from the given digits on. -/
def walk {σ ε : Type} (visit : σ → List Int → Except ε σ) (face : Face) (widths digits : List Nat)
    (state : σ) : Except ε σ :=
  match visit state (face.point digits) with
  | .error answer => .error answer
  | .ok state =>
    match _step : advance widths digits with
    | (next, true) => walk visit face widths next state
    | (_, false) => .ok state
termination_by stepsLeft widths digits
decreasing_by exact stepsLeft_advance_lt _step

end Face

/-- The faces of a shell, in the order in which they are visited. -/
def faces (radius count : Nat) : List Face :=
  (List.range count).flatMap fun slot =>
    [{ slot := slot, pinned := radius }, { slot := slot, pinned := -radius }]

/-- Visits the points of the shell of a given radius. -/
def walkShell {σ ε : Type} (visit : Nat → σ → List Int → Except ε σ) (count radius : Nat)
    (state : σ) : Except ε σ :=
  (faces radius count).foldlM
    (fun state face =>
      face.walk (visit radius) (face.widths radius count) (List.replicate count 0) state)
    state

/-- Visits the points of a number of shells, the first of which has the given radius. -/
def walkShells {σ ε : Type} (visit : Nat → σ → List Int → Except ε σ) (count : Nat) :
    Nat → Nat → σ → Except ε σ
  | 0, _, state => .ok state
  | shells + 1, radius, state =>
    match walkShell visit count radius state with
    | .error answer => .error answer
    | .ok state => walkShells visit count shells (radius + 1) state

/-- Visits the points with `count` coordinates within a bound. A box without coordinates has the
origin as its only point. -/
def walkBox {σ ε : Type} (visit : Nat → σ → List Int → Except ε σ) (count bound : Nat)
    (state : σ) : Except ε σ :=
  match visit 0 state (List.replicate count 0) with
  | .error answer => .error answer
  | .ok state => if count = 0 then .ok state else walkShells visit count bound 1 state

end Diophantine
