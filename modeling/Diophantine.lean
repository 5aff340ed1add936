import Diophantine.Assignment
import Diophantine.CommandLine
import Diophantine.Constraint.Basic
import Diophantine.Constraint.Parser
import Diophantine.Diagnostic
import Diophantine.Expression.Basic
import Diophantine.Expression.Parser
import Diophantine.Failure
import Diophantine.Group
import Diophantine.Log
import Diophantine.Main
import Diophantine.Problem.Basic
import Diophantine.Problem.Parser
import Diophantine.Proofs.Assignment
import Diophantine.Proofs.Calls
import Diophantine.Proofs.Carets
import Diophantine.Proofs.Constraint.Completeness
import Diophantine.Proofs.Constraint.Grammar
import Diophantine.Proofs.Constraint.Groups
import Diophantine.Proofs.Constraint.Letters
import Diophantine.Proofs.Constraint.Places
import Diophantine.Proofs.Constraint.Rendering
import Diophantine.Proofs.Constraint.Soundness
import Diophantine.Proofs.Constraint.Spelling
import Diophantine.Proofs.Constraint.Words
import Diophantine.Proofs.Constraint.Written
import Diophantine.Proofs.Correspondence
import Diophantine.Proofs.Diagnostics
import Diophantine.Proofs.Evaluation
import Diophantine.Proofs.Exactness
import Diophantine.Proofs.Expression.Completeness
import Diophantine.Proofs.Expression.Grammar
import Diophantine.Proofs.Expression.Groups
import Diophantine.Proofs.Expression.Places
import Diophantine.Proofs.Expression.Rendering
import Diophantine.Proofs.Expression.Soundness
import Diophantine.Proofs.Expression.Spelling
import Diophantine.Proofs.Expression.Surface
import Diophantine.Proofs.Expression.Written
import Diophantine.Proofs.Insertion
import Diophantine.Proofs.Juxtaposition
import Diophantine.Proofs.Legibility
import Diophantine.Proofs.Lines
import Diophantine.Proofs.Nesting
import Diophantine.Proofs.Normalization
import Diophantine.Proofs.Pairing
import Diophantine.Proofs.Problem.Blame
import Diophantine.Proofs.Problem.Clauses
import Diophantine.Proofs.Problem.Composition
import Diophantine.Proofs.Problem.Introduction
import Diophantine.Proofs.Problem.Refusal
import Diophantine.Proofs.Problem.RoundTrip
import Diophantine.Proofs.Problem.Sentences
import Diophantine.Proofs.Problem.Spelling
import Diophantine.Proofs.Problem.Words
import Diophantine.Proofs.Problem.Written
import Diophantine.Proofs.Range
import Diophantine.Proofs.Readers
import Diophantine.Proofs.Relocation
import Diophantine.Proofs.Repetition
import Diophantine.Proofs.Rereading
import Diophantine.Proofs.Search.Answer
import Diophantine.Proofs.Search.Box
import Diophantine.Proofs.Search.Coverage
import Diophantine.Proofs.Search.Denial
import Diophantine.Proofs.Search.Lasting
import Diophantine.Proofs.Search.Limits
import Diophantine.Proofs.Search.Lowering
import Diophantine.Proofs.Search.Odometer
import Diophantine.Proofs.Search.Order
import Diophantine.Proofs.Search.Reachable
import Diophantine.Proofs.Search.Renaming
import Diophantine.Proofs.Search.Round
import Diophantine.Proofs.Search.Soundness
import Diophantine.Proofs.Search.Verdict
import Diophantine.Proofs.Search.Walk
import Diophantine.Proofs.Sentence
import Diophantine.Proofs.Splitting
import Diophantine.Proofs.Stars
import Diophantine.Proofs.Unbalanced
import Diophantine.Proofs.Words
import Diophantine.Reader
import Diophantine.Search.Goal
import Diophantine.Search.Odometer
import Diophantine.Search.Outcome
import Diophantine.Search.Shell
import Diophantine.Search.Slots
import Diophantine.Search.Solver
import Diophantine.Sentence
import Diophantine.Text.Blank
import Diophantine.Text.Juxtaposition
import Diophantine.Text.Position
import Diophantine.Text.Slice
import Diophantine.Value
