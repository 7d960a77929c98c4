import LosslessCss.CommandLine

/-
  The program: it reads the file that is named on the
  command line and writes what the run reports.

  Key definitions include:
    * `CommandLine.execute`
    * `main`
-/

------------------------------------------------------------
-- The Program
------------------------------------------------------------

namespace LosslessCss

namespace CommandLine

/- What is known of the file with a name. -/
def readFile (name : String) :
    IO (Except ReadFailure String) := do
  try
    let bytes ← IO.FS.readBinFile name
    pure (decode bytes)
  catch
    | .noFileOrDirectory _ _ _ => pure (.error .missing)
    | problem => pure (.error (.other (toString problem)))

/- What is known of the file, when none may be named. -/
def readOptional : Option String →
    IO (Except ReadFailure String)
| some name => readFile name
| none => pure (.error .missing)

/- Run with the given arguments. -/
def execute (arguments : List String) : IO UInt32 := do
  match Options.ofArguments? arguments with
  | none =>
      IO.eprintln "error: the arguments are not understood"
      pure 2
  | some options =>
      if options.file.isNone && !options.version then
        IO.eprintln "error: a file is required"
        pure 2
      else
        let contents ← readOptional options.file
        let report := run options contents
        IO.print report.output
        IO.eprint report.errors
        pure report.code.toUInt32

end CommandLine

end LosslessCss

/- Read, run and write. -/
def main (arguments : List String) : IO UInt32 :=
  LosslessCss.CommandLine.execute arguments
