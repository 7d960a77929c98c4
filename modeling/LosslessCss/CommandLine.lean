import LosslessCss.CommandLine.Snippet
import LosslessCss.Parse
import LosslessCss.Tree.Export
import LosslessCss.Tree.Outline
import LosslessCss.Tree.Render

/-
  The command line, without its input and output.

  A run takes the options and the contents of the file, and
  reports what is to be written and the exit code.

  Key definitions include:
    * `CommandLine.Options`
    * `CommandLine.ReadFailure`
    * `CommandLine.Report`
    * `CommandLine.run`
-/

------------------------------------------------------------
-- Options
------------------------------------------------------------

namespace LosslessCss

namespace CommandLine

/- What the user asks for. -/
structure Options where
  tokens : Bool
  json : Bool
  replay : Bool
  quiet : Bool
  version : Bool
  file : Option String
deriving DecidableEq

namespace Options

/- Nothing asked for yet. -/
def none : Options :=
  ⟨false, false, false, false, false, Option.none⟩

/- Add one argument, unless it is not understood. -/
def add?
    (options : Options)
    (argument : String) : Option Options :=
  match argument with
  | "--tokens" => some { options with tokens := true }
  | "--json" => some { options with json := true }
  | "--replay" => some { options with replay := true }
  | "--quiet" => some { options with quiet := true }
  | "-q" => some { options with quiet := true }
  | "--version" => some { options with version := true }
  | "-V" => some { options with version := true }
  | name =>
      if name.startsWith "-" || options.file.isSome then
        Option.none
      else
        some { options with file := some name }

/- The options in a list of arguments. -/
def ofArguments? (arguments : List String) :
    Option Options :=
  arguments.foldlM add? Options.none

end Options

end CommandLine

end LosslessCss

------------------------------------------------------------
-- Files
------------------------------------------------------------

namespace LosslessCss

namespace CommandLine

/- Why the text of a file is not known. -/
inductive ReadFailure where
  | missing
  | notText
  | other (message : String)
deriving DecidableEq

namespace ReadFailure

/- The text of a failure. -/
def message : ReadFailure → String
| .missing => "No such file or directory (os error 2)"
| .notText => "stream did not contain valid UTF-8"
| .other message => message

end ReadFailure

/- The text in the bytes of a file. -/
def decode (bytes : ByteArray) :
    Except ReadFailure String :=
  match String.fromUTF8? bytes with
  | some text => .ok text
  | none => .error .notText

end CommandLine

end LosslessCss

------------------------------------------------------------
-- Runs
------------------------------------------------------------

namespace LosslessCss

namespace CommandLine

/- What a run writes, and how it ends. -/
structure Report where
  code : Nat
  output : String
  errors : String
deriving DecidableEq

namespace Report

/- A run that succeeds. -/
def success (output : String) : Report :=
  ⟨0, output, ""⟩

/- A run that fails. -/
def failure
    (output message : String) : Report :=
  ⟨1, output, "Error: " ++ message ++ "\n"⟩

end Report

/- Lines as one text, with an end to every line. -/
def unlines (lines : List String) : String :=
  String.join (lines.map fun line => line ++ "\n")

/- The name and the version of the program. -/
def versionLine : String :=
  "Verbatim CSS3 parser 0.1.0"

/- The tokens of a text, one on each line. -/
def tokenListing (css : String) : String :=
  unlines
    ((Lexer.tokenize css Location.start).map Token.listing)

/- What is written about a tree. -/
def describeTree
    (options : Options)
    (node : Node) : String :=
  if options.quiet then ""
  else if options.json then node.json ++ "\n"
  else if options.replay then node.render
  else node.outline

/- Run on the text of a file. -/
def runText
    (options : Options)
    (css : String) : Report :=
  if options.tokens then
    .success (tokenListing css)
  else
    let settings :=
      { Settings.default with source := options.file }
    match Parse.text css settings with
    | .ok node => .success (describeTree options node)
    | .error e =>
        .failure (unlines (Snippet.lines css e)) e.message

/- Run on what is known of the file. -/
def run
    (options : Options)
    (contents : Except ReadFailure String) : Report :=
  if options.version then
    .success (unlines [versionLine])
  else
    match contents with
    | .error problem => .failure "" problem.message
    | .ok css => runText options css

end CommandLine

end LosslessCss
