import Diophantine.Sentence

/-!
# What a run reports about itself

Besides its answer, a run leaves a record of the steps that it took: where it was in the text, how
sentences were split, how far the search went. Each record is an `Event`; `Event.line` words it,
with its level in front. A computation that leaves records is a `Logged` value, which keeps them
also where the computation fails.
-/

namespace Diophantine

/-- How important an event is. -/
inductive Level
  | trace
  | debug
  | warn
deriving DecidableEq, Repr

/-- The name of a level. -/
def Level.label : Level → String
  | .trace => "trace"
  | .debug => "debug"
  | .warn => "warn"

/-- A step worth a record. -/
inductive Event
  /-- The text does not begin with `Solve`. -/
  | noProblem
  /-- The list of equations begins. -/
  | enteringEquations
  /-- The list of constraints begins. -/
  | enteringConstraints
  /-- A sentence was split into clauses. -/
  | split (clauses : Nat) (stop : Option Ending)
  /-- The whole problem was read. -/
  | parsed (equations constraints : Nat)
  /-- The search may not examine another assignment. -/
  | limitReached (limit radius : Nat)
  /-- The search found an answer. -/
  | satisfied (examined radius : Nat)
  /-- The search looked everywhere within the bound. -/
  | exhausted (bound examined : Nat)
deriving DecidableEq, Repr

namespace Event

/-- The level of an event. -/
def level : Event → Level
  | .split _ _ => .trace
  | .limitReached _ _ => .warn
  | .noProblem | .enteringEquations | .enteringConstraints | .parsed _ _ | .satisfied _ _
  | .exhausted _ _ => .debug

/-- The wording of where the splitting of a sentence ended. -/
def describeStop : Option Ending → String
  | some .period => "stopped at '.'"
  | some .suchThat => "stopped at 'such that'"
  | none => "reached end of input"

/-- The wording of an event. -/
def message : Event → String
  | .noProblem => "no 'Solve' keyword at start of text; problem is empty"
  | .enteringEquations => "entering equations"
  | .enteringConstraints => "entering constraints"
  | .split clauses stop => "split " ++ toString clauses ++ " clause(s), " ++ describeStop stop
  | .parsed equations constraints =>
    "parsed " ++ toString equations ++ " equation(s) and " ++ toString constraints
      ++ " constraint(s)"
  | .limitReached limit radius =>
    "search limit of " ++ toString limit ++ " assignments reached at radius " ++ toString radius
  | .satisfied examined radius =>
    "satisfied after " ++ toString examined ++ " assignment(s) at radius " ++ toString radius
  | .exhausted bound examined =>
    "no assignment within bound " ++ toString bound ++ " after " ++ toString examined
      ++ " assignment(s)"

/-- A record of an event. -/
def line (event : Event) : String :=
  event.level.label ++ ": " ++ event.message

end Event

/-- A result, and the events on the way to it. -/
structure Logged (α : Type) where
  events : List Event
  result : α

namespace Logged

/-- A result with earlier events in front of its own. -/
def after {α : Type} (events : List Event) (logged : Logged α) : Logged α :=
  { logged with events := events ++ logged.events }

/-- A failure with the events before it. -/
def failed {ε α : Type} (events : List Event) (failure : ε) : Logged (Except ε α) :=
  { events := events, result := .error failure }

end Logged

end Diophantine
