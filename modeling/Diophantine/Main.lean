import Diophantine.CommandLine

/-!
# The program

The outer layer of the command line: it reads the file that the arguments name and writes what the
run leaves behind.
-/

namespace Diophantine

/-- The content of a file, or why there is none. -/
def readContent (path : String) : IO (Except ReadError String) := do
  try
    let bytes ← IO.FS.readBinFile path
    match String.fromUTF8? bytes with
    | some text => return .ok text
    | none => return .error .notText
  catch error =>
    match error with
    | .noFileOrDirectory .. => return .error .missing
    | .inappropriateType .. => return .error .directory
    | other => return .error (.other (toString other))

/-- What the arguments may be. -/
def usageText : String :=
  "usage: diophantine [--bound N] [--max-candidates N] [--ast] PATH\n"

/-- Runs the program with the given arguments. -/
def runProgram (arguments : List String) : IO UInt32 := do
  let transcript ←
    match Options.read arguments with
    | none => pure Transcript.usage
    | some options => do
      let content ← readContent options.path
      pure (runRead options content)
  IO.print transcript.output
  IO.eprint (transcript.errors.getD usageText)
  return transcript.code

end Diophantine

/-- Runs the command line. -/
def main (arguments : List String) : IO UInt32 :=
  Diophantine.runProgram arguments
