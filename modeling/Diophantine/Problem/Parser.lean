import Diophantine.Constraint.Parser
import Diophantine.Log
import Diophantine.Problem.Basic
import Diophantine.Sentence

/-!
# Reading problems

A problem begins with the word `Solve`; a text that does not is the empty problem. Sentences of
equations follow until the words `such that`, which may end a sentence or stand at the beginning of
one, and all sentences after them are constraints. Spacing between sentences does not matter.

Sentences are read one after the other, and each of them clause by clause, so a failure is always
that of the first clause that is wrong in the first sentence that is wrong. Within a sentence, pairs
of parentheses and clause boundaries are settled before any clause is read.

* `Equation.readClause` and `Constraint.readClause` read one clause,
* `readConstraints` and `readEquations` read sentence after sentence,
* `Problem.read` reads a whole problem, `Problem.parse` a text as people write it.
-/

namespace Diophantine

/-! ### Clauses -/

/-- Reads a clause that must not be blank. -/
def readUnlessBlank {α : Type} (read : Slice → Except Failure α) (clause : Slice) :
    Except Failure α :=
  if clause.allBlank then .error (clause.fail .emptyClause) else read clause

namespace Equation

/-- Reads two expressions with an equals sign between them. The first such sign outside parentheses
counts. -/
def read (clause : Slice) : Except Failure Equation :=
  match clause.splitOutside '=' with
  | .error failure => .error failure
  | .ok none => .error (clause.skipSpacing.trimEnd.failWhole .noEquals)
  | .ok (some (front, back)) =>
    match Expression.read front with
    | .error failure => .error failure
    | .ok left =>
      match Expression.read back with
      | .error failure => .error failure
      | .ok right => .ok { left := left, right := right }

/-- Reads a clause of a sentence as an equation. -/
def readClause (clause : Slice) : Except Failure Equation :=
  readUnlessBlank read clause

end Equation

namespace Constraint

/-- Reads a clause of a sentence as a constraint. -/
def readClause (clause : Slice) : Except Failure Constraint :=
  readUnlessBlank read clause

end Constraint

/-- Reads clause after clause, up to the first failure. -/
def readClauses {α : Type} (read : Slice → Except Failure α) : List Slice → Except Failure (List α)
  | [] => .ok []
  | clause :: clauses =>
    match read clause with
    | .error failure => .error failure
    | .ok item =>
      match readClauses read clauses with
      | .error failure => .error failure
      | .ok items => .ok (item :: items)

/-! ### Sentences -/

/-- What separates and ends clauses among the equations. -/
def equationTerminators : List Terminator :=
  [.comma, .ending .period, .ending .suchThat]

/-- What separates and ends clauses among the constraints. -/
def constraintTerminators : List Terminator :=
  [.comma, .ending .period]

/-- The event of having split a sentence. -/
def Sentence.event (sentence : Sentence) : Event :=
  .split sentence.clauses.length sentence.stop

/-- The problem with more equations in front. -/
def Problem.withEquations (equations : List Equation) (problem : Problem) : Problem :=
  { problem with equations := equations ++ problem.equations }

/-- The problem with more constraints in front. -/
def Problem.withConstraints (constraints : List Constraint) (problem : Problem) : Problem :=
  { problem with constraints := constraints ++ problem.constraints }

/-- Reads the sentences of constraints up to the end of a slice. -/
def readConstraints (slice : Slice) : Logged (Except Failure Problem) :=
  if _empty : slice.skipSpacing.chars = [] then { events := [], result := .ok .empty }
  else
    match _sentence : Sentence.read constraintTerminators slice.skipSpacing with
    | .error failure => .failed [] failure
    | .ok sentence =>
      match readClauses Constraint.readClause sentence.clauses with
      | .error failure => .failed [sentence.event] failure
      | .ok constraints =>
        let more := readConstraints sentence.remainder
        { events := sentence.event :: more.events
          result := more.result.map (Problem.withConstraints constraints) }
termination_by slice.chars.length
decreasing_by
  have le := Slice.length_chars_skipSpacing_le slice
  have positive := List.length_pos_iff.mpr _empty
  rcases Sentence.length_remainder _sentence with empty | shorter
  · simp only [empty, List.length_nil]
    omega
  · omega

/-- Reads the sentences of equations, and the constraints after them, up to the end of a slice. -/
def readEquations (slice : Slice) : Logged (Except Failure Problem) :=
  if _empty : slice.skipSpacing.chars = [] then { events := [], result := .ok .empty }
  else
    match slice.skipSpacing.afterKeyword? "such that" with
    | some rest => (readConstraints rest).after [.enteringConstraints]
    | none =>
      match _sentence : Sentence.read equationTerminators slice.skipSpacing with
      | .error failure => .failed [] failure
      | .ok sentence =>
        match readClauses Equation.readClause sentence.clauses with
        | .error failure => .failed [sentence.event] failure
        | .ok equations =>
          -- The words are gone with the sentence, so constraints begin right here.
          let more :=
            if sentence.stop = some .suchThat then
              (readConstraints sentence.remainder).after [.enteringConstraints]
            else readEquations sentence.remainder
          { events := sentence.event :: more.events
            result := more.result.map (Problem.withEquations equations) }
termination_by slice.chars.length
decreasing_by
  have le := Slice.length_chars_skipSpacing_le slice
  have positive := List.length_pos_iff.mpr _empty
  rcases Sentence.length_remainder _sentence with empty | shorter
  · simp only [empty, List.length_nil]
    omega
  · omega

/-! ### Problems -/

namespace Problem

/-- The event of having read a problem. -/
def event (problem : Problem) : Event :=
  .parsed problem.equations.length problem.constraints.length

/-- Reads a slice as a problem, without making implicit products explicit first. -/
def read (slice : Slice) : Logged (Except Failure Problem) :=
  match slice.skipSpacing.afterKeyword? "Solve" with
  | none => { events := [.noProblem, Problem.empty.event], result := .ok .empty }
  | some rest =>
    let body := readEquations rest
    match body.result with
    | .error failure => .failed (.enteringEquations :: body.events) failure
    | .ok problem =>
      { events := .enteringEquations :: (body.events ++ [problem.event]), result := .ok problem }

/-- Reads a text as a problem. The name of its source goes into the diagnostic if it is wrong. -/
def parseFrom (source text : String) : Logged (Except Diagnostic Problem) :=
  let chars := explicitProducts text.toList
  let logged := read (Slice.ofChars chars)
  { events := logged.events
    result := logged.result.mapError fun failure => failure.diagnose source chars }

/-- Reads a text without a source as a problem. -/
def parse (text : String) : Except Diagnostic Problem :=
  (parseFrom inlineSource text).result

end Problem

end Diophantine
