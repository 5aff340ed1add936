import Diophantine.Log
import Diophantine.Problem.Parser
import Diophantine.Search.Outcome
import Diophantine.Search.Shell
import Diophantine.Search.Slots

/-!
# Searching for a solution

A search looks at assignments whose values lie within a bound on either side of zero, and gives up
once it has examined a given number of them. A `Search` holds these limits and the slots given so
far. Its goals are tried on the points of the box that the limits describe, shell by shell, and the
first point on which all of them hold is the answer; so no solution has a smaller largest magnitude
than the one that is found.

Every point is counted before it is tried, and a point that may not be counted any more ends the
search without an answer. "Unsatisfiable" means that nothing was found within the bound.

* `Search.lowerExpression` and its siblings turn trees into terms and goals,
* `Search.solve` looks for a point on which goals hold,
* `Search.solveProblem` and `solve` do both for a problem and for a text.
-/

namespace Diophantine

/-! ### Limits -/

/-- How far and how long to search. -/
structure Limits where
  /-- Every variable ranges from minus the bound to the bound. -/
  bound : UInt32
  /-- The number of assignments that may be examined. -/
  maxCandidates : UInt64
deriving DecidableEq, Repr

namespace Limits

/-- The limits of a search for which none are given. -/
def standard : Limits :=
  { bound := 25, maxCandidates := 20000000 }

end Limits

/-- A search that ended without an answer. -/
structure LimitReached where
  /-- The number of assignments examined. -/
  examined : Nat
  bound : UInt32
deriving DecidableEq, Repr

/-- The wording of a search that ended without an answer. -/
def LimitReached.message (limit : LimitReached) : String :=
  "search gave up after " ++ toString limit.examined ++ " assignments (bound "
    ++ toString limit.bound.toNat ++ ")"

/-! ### Searches -/

/-- Limits, and the slots of the names met so far. -/
structure Search where
  limits : Limits
  slots : Slots
deriving DecidableEq, Repr

namespace Search

/-- A search that has met no names. -/
def ofLimits (limits : Limits) : Search :=
  { limits := limits, slots := Slots.empty }

/-! ### Lowering -/

/-- Lowers an expression to a term. -/
def lowerExpression (search : Search) (expression : Expression) : Term × Search :=
  let (term, slots) := expression.lower search.slots
  (term, { search with slots := slots })

/-- Lowers an equation to a goal. -/
def lowerEquation (search : Search) (equation : Equation) : Goal × Search :=
  let (goal, slots) := equation.lower search.slots
  (goal, { search with slots := slots })

/-- Lowers a constraint to a goal. -/
def lowerConstraint (search : Search) (constraint : Constraint) : Goal × Search :=
  let (goal, slots) := constraint.lower search.slots
  (goal, { search with slots := slots })

/-- Lowers the equations and the constraints of a problem to goals, in this order. -/
def lowerProblem (search : Search) (problem : Problem) : List Goal × Search :=
  let (goals, slots) := problem.lower search.slots
  (goals, { search with slots := slots })

/-! ### Solving -/

/-- What ends the walk before all points have been visited. -/
inductive Halt
  /-- All goals hold on these values. -/
  | found (values : List Value) (examined radius : Nat)
  /-- No further point may be examined. -/
  | limit (examined radius : Nat)
deriving DecidableEq, Repr

/-- Examines a point, unless that would exceed the limit. The state is the number of points examined
before. -/
def visit (limits : Limits) (goals : List Goal) (radius examined : Nat) (point : List Int) :
    Except Halt Nat :=
  -- The limit is tested first: a point over the limit is not examined, even if goals hold on it.
  if limits.maxCandidates.toNat ≤ examined then .error (.limit examined radius)
  else
    let values := point.map Int64.ofInt
    if goals.all (Goal.holds values) then .error (.found values (examined + 1) radius)
    else .ok (examined + 1)

/-- Looks for the first point on which all goals hold. -/
def solve (search : Search) (goals : List Goal) : Logged (Except LimitReached Outcome) :=
  let count := search.slots.names.length
  match walkBox (visit search.limits goals) count search.limits.bound.toNat 0 with
  | .error (.found values examined radius) =>
    -- The origin costs no search, so finding it leaves no record.
    { events := if radius = 0 then [] else [.satisfied examined radius]
      result := .ok (.satisfiable (search.slots.assignment values)) }
  | .error (.limit examined radius) =>
    { events := [.limitReached search.limits.maxCandidates.toNat radius]
      result := .error { examined := examined, bound := search.limits.bound } }
  | .ok examined =>
    { events := if count = 0 then [] else [.exhausted search.limits.bound.toNat examined]
      result := .ok .unsatisfiable }

/-- Lowers a problem and solves its goals. Names met before have a part in the search too. -/
def solveProblem (search : Search) (problem : Problem) :
    Logged (Except LimitReached Outcome) × Search :=
  let (goals, search) := search.lowerProblem problem
  (search.solve goals, search)

end Search

/-! ### From a text to an outcome -/

/-- Why a text has no outcome. -/
inductive SolveError
  | unreadable (diagnostic : Diagnostic)
  | unfinished (limit : LimitReached)
deriving DecidableEq, Repr

/-- The wording of a missing outcome. -/
def SolveError.message : SolveError → String
  | .unreadable diagnostic => diagnostic.render
  | .unfinished limit => limit.message

/-- Reads a problem and solves it with a new search. -/
def solve (limits : Limits) (text : String) : Logged (Except SolveError Outcome) :=
  let parsed := Problem.parseFrom inlineSource text
  match parsed.result with
  | .error diagnostic => { events := parsed.events, result := .error (.unreadable diagnostic) }
  | .ok problem =>
    let solved := ((Search.ofLimits limits).solveProblem problem).1
    { events := parsed.events ++ solved.events, result := solved.result.mapError .unfinished }

end Diophantine
