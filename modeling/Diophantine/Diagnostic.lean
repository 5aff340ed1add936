import Diophantine.Failure

/-!
# Diagnostics

A diagnostic is a failure made ready for a person: what is wrong, in which source, at which line
and column, the line itself, and carets under the part that is meant.

The carets never leave the line. A span that begins after its end is pointed at just behind the
last character, and one that goes on below the line is underlined to its end only; there is always
at least one caret.

* `Diagnostic.locate` builds a diagnostic from any span of a source,
* `Failure.diagnose` builds the diagnostic of a failure,
* `Diagnostic.render` lays it out on five lines.
-/

namespace Diophantine

/-- A failure with the line that it concerns. -/
structure Diagnostic where
  kind : Kind
  message : String
  /-- The name of the source; empty when it has none. -/
  file : String
  offset : Nat
  line : Nat
  column : Nat
  /-- The line of the source. -/
  snippet : String
  /-- Spaces and carets to stand under the snippet. -/
  pointer : String
deriving DecidableEq, Repr

/-- The number of columns before the first caret under a line of `width` characters. -/
def Span.caretColumn (span : Span) (width : Nat) : Nat :=
  min (span.column - 1) width

/-- The number of carets under a line of `width` characters: one for each byte of the span as far
as the line goes, and never none. -/
def Span.caretCount (span : Span) (width : Nat) : Nat :=
  min (max span.length 1) (max (width - span.caretColumn width) 1)

/-- The characters that point out a span under a line of `width` characters. -/
def Span.pointer (span : Span) (width : Nat) : List Char :=
  List.replicate (span.caretColumn width) ' ' ++ List.replicate (span.caretCount width) '^'

namespace Diagnostic

/-- The diagnostic for a span of a source. The span need not lie within the source: a line that
does not exist is shown as an empty one. -/
def locate (kind : Kind) (message file : String) (source : List Char) (span : Span) :
    Diagnostic :=
  let snippet := lineAt source span.line
  { kind := kind
    message := message
    file := file
    offset := span.start
    line := span.line
    column := span.column
    snippet := String.ofList snippet
    pointer := String.ofList (span.pointer snippet.length) }

/-- Whether the failure is one of structure. -/
def isStructural (diagnostic : Diagnostic) : Bool :=
  diagnostic.kind == .structural

/-- Where the failure is, in words or in the usual short form after the name of a source. -/
def location (diagnostic : Diagnostic) : String :=
  if diagnostic.file.isEmpty then
    "line " ++ toString diagnostic.line ++ ", column " ++ toString diagnostic.column
  else
    diagnostic.file ++ ":" ++ toString diagnostic.line ++ ":" ++ toString diagnostic.column

/-- A number with spaces in front that bring it to a width of three. -/
def margin (number : Nat) : String :=
  let digits := Nat.toDigits 10 number
  String.ofList (List.replicate (3 - digits.length) ' ' ++ digits)

/-- The diagnostic as text, without a final line break. -/
def render (diagnostic : Diagnostic) : String :=
  diagnostic.kind.heading ++ ": " ++ diagnostic.message
    ++ "\n --> " ++ diagnostic.location
    ++ "\n  |"
    ++ "\n" ++ margin diagnostic.line ++ " | " ++ diagnostic.snippet
    ++ "\n  | " ++ diagnostic.pointer

end Diagnostic

/-- The name that stands for a text without a source. -/
def inlineSource : String := "<inline>"

/-- The diagnostic of a failure in a source. -/
def Failure.diagnose (failure : Failure) (file : String) (source : List Char) : Diagnostic :=
  Diagnostic.locate failure.cause.kind failure.cause.message file source failure.span

end Diophantine
