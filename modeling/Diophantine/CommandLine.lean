import Diophantine.Search.Solver

/-!
# The command line

The program reads a problem from a file, shows it, and shows its solution or, on request, the
problem as it was understood. What it does is a function of its arguments and of what reading a file
gives; the outer layer reads the file and writes the texts.

* `Options.read` reads arguments,
* `runFile` handles the content of a file,
* `runCommand` does all of it, and gives a `Transcript`.
-/

namespace Diophantine

/-! ### Arguments -/

/-- What the arguments ask for. -/
structure Options where
  limits : Limits
  /-- Show the problem and do not solve it. -/
  showProblem : Bool
  path : String
deriving DecidableEq, Repr

/-- What the arguments have said so far. -/
structure Arguments where
  bound : Option UInt32
  maxCandidates : Option UInt64
  showProblem : Bool
  path : Option String

namespace Arguments

/-- Nothing said yet. -/
def empty : Arguments :=
  { bound := none, maxCandidates := none, showProblem := false, path := none }

/-- The number that an argument writes: digits after an optional plus sign, at most `greatest`. -/
def number? (greatest : Nat) (text : String) : Option Nat :=
  let digits :=
    match text.toList with
    | '+' :: digits => digits
    | digits => digits
  if digits.isEmpty || !digits.all Char.isDigit then none
  else
    let number := Nat.ofDigitChars 10 digits 0
    if number ≤ greatest then some number else none

/-- Takes note of a path. There may be only one, and it may not be empty. -/
def withPath (arguments : Arguments) (path : String) : Option Arguments :=
  if path.isEmpty || arguments.path.isSome then none
  else some { arguments with path := some path }

/-- Takes note of an option with a value. An option may be given only once. -/
def withOption (arguments : Arguments) (name value : String) : Option Arguments :=
  if name = "--bound" then
    if arguments.bound.isSome then none
    else
      (number? (UInt32.size - 1) value).map fun number =>
        { arguments with bound := some (UInt32.ofNat number) }
  else if name = "--max-candidates" then
    if arguments.maxCandidates.isSome then none
    else
      (number? (UInt64.size - 1) value).map fun number =>
        { arguments with maxCandidates := some (UInt64.ofNat number) }
  else none

/-- Takes note of the option without a value. -/
def withShowProblem (arguments : Arguments) : Option Arguments :=
  if arguments.showProblem then none else some { arguments with showProblem := true }

/-- Whether an argument is an option. A lone minus sign is a path. -/
def isOption (argument : String) : Bool :=
  argument.toList.head? == some '-' && argument != "-"

/-- The name and the value of an argument that holds both, with an equals sign between them. -/
def splitValue? (argument : String) : Option (String × String) :=
  let chars := argument.toList
  if chars.contains '=' then
    some (String.ofList (chars.takeWhile (· != '=')),
      String.ofList ((chars.dropWhile (· != '=')).drop 1))
  else none

/-- Reads arguments as paths, whatever they look like. -/
def readPaths (arguments : Arguments) : List String → Option Arguments
  | [] => some arguments
  | path :: more => (arguments.withPath path).bind fun arguments => arguments.readPaths more

/-- Reads arguments one after the other. Two minus signs alone end the options. -/
def readAll (arguments : Arguments) : List String → Option Arguments
  | [] => some arguments
  | argument :: more =>
    if argument = "--" then arguments.readPaths more
    else if isOption argument then
      match splitValue? argument with
      | some (name, value) =>
        (arguments.withOption name value).bind fun arguments => arguments.readAll more
      | none =>
        if argument = "--ast" then
          arguments.withShowProblem.bind fun arguments => arguments.readAll more
        else
          -- The value is the next argument, which must not be an option itself.
          match more with
          | [] => none
          | value :: more =>
            if isOption value then none
            else
              (arguments.withOption argument value).bind fun arguments => arguments.readAll more
    else (arguments.withPath argument).bind fun arguments => arguments.readAll more

end Arguments

/-- Reads the arguments, unless they make no sense. -/
def Options.read (arguments : List String) : Option Options :=
  (Arguments.empty.readAll arguments).bind fun said =>
    said.path.map fun path =>
      { limits :=
          { bound := said.bound.getD Limits.standard.bound
            maxCandidates := said.maxCandidates.getD Limits.standard.maxCandidates }
        showProblem := said.showProblem
        path := path }

/-! ### Running -/

/-- Why a file has no content. -/
inductive ReadError
  | missing
  | directory
  | notText
  | other (cause : String)
deriving DecidableEq, Repr

/-- The wording of a file without content. -/
def ReadError.message : ReadError → String
  | .missing => "No such file or directory (os error 2)"
  | .directory => "Is a directory (os error 21)"
  | .notText => "stream did not contain valid UTF-8"
  | .other cause => cause

/-- What a run leaves behind. The usage text, which is no part of the answer, takes the place of the
error text where there is none. -/
structure Transcript where
  code : UInt32
  output : String
  errors : Option String
deriving DecidableEq, Repr

/-- A run whose arguments make no sense. -/
def Transcript.usage : Transcript :=
  { code := 2, output := "", errors := none }

/-- The report of a failure outside the problem text. -/
def reportError (message : String) : String :=
  "Error: " ++ message ++ "\n"

/-- What the program shows first: the text without the blanks at its end. -/
def showSource (text : String) : String :=
  String.ofList (trimBlankEnd text.toList) ++ "\n"

/-- Runs on the content of the file. -/
def runFile (options : Options) (text : String) : Transcript :=
  let source := showSource text
  match (Problem.parseFrom options.path text).result with
  | .error diagnostic =>
    { code := 1, output := source, errors := some (diagnostic.render ++ "\n") }
  | .ok problem =>
    if options.showProblem then
      { code := 0, output := source ++ problem.display ++ "\n", errors := some "" }
    else
      match ((Search.ofLimits options.limits).solveProblem problem).1.result with
      | .error limit => { code := 1, output := source, errors := some (reportError limit.message) }
      | .ok outcome =>
        { code := 0, output := source ++ outcome.display ++ "\n", errors := some "" }

/-- Runs on what reading the file gave. -/
def runRead (options : Options) (content : Except ReadError String) : Transcript :=
  match content with
  | .error error =>
    { code := 1
      output := ""
      errors := some (reportError
        ("failed to read " ++ options.path ++ "\n\nCaused by:\n    " ++ error.message)) }
  | .ok text => runFile options text

/-- Runs with the given arguments, where `contents` says what reading a file gives. -/
def runCommand (arguments : List String) (contents : String → Except ReadError String) :
    Transcript :=
  match Options.read arguments with
  | none => .usage
  | some options => runRead options (contents options.path)

end Diophantine
