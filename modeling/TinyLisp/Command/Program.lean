import TinyLisp.Command.Arguments
import TinyLisp.Command.Files
import TinyLisp.Session.Console

/-!
# The program

What each command does with its input, and with which exit status it ends: zero if
all went well, one after a fault.  A fault is reported on the console, and what was
printed before it stays printed.
-/

namespace TinyLisp

namespace Command

/-- Texts one to a line; no text at all still makes a line. -/
def listing (texts : List String) : String :=
  String.intercalate "\n" texts

/-- The tokens of a source, one to a line. -/
def lexListing (source : String) : String :=
  listing ((Source.ofString source).tokens.1.map Token.render)

/-- The expressions of a source, one to a line. -/
def parseListing (source : String) : Except ParseError String :=
  (parseScript source).map fun es => listing (es.map Expr.render)

/-- A fault before anything was printed. -/
def failure (message : String) : Nat × Console :=
  (1, Console.complain {} message)

/-- Evaluates the first expression of a source.  Its value is not printed. -/
def runProgram (source : Source) : Nat × Console :=
  match (runSource source {}).1 with
  | (.ok _, out) => (0, { out })
  | (.error fault, out) => (1, Console.complain { out } fault.message)

/-- Carries out a command on its input, which is what opening its file or reading
standard input came to. -/
def execute (cmd : Command) (input : Except ReadError Content) : Nat × Console :=
  match input with
  | .error e => failure e.message
  | .ok content =>
    match cmd with
    | .evalInput | .run _ => runProgram content.source
    | .lex _ =>
      match content.text with
      | .error e => failure e.message
      | .ok source => (0, Console.say {} (lexListing source))
    | .parse _ =>
      match content.text with
      | .error e => failure e.message
      | .ok source =>
        match parseListing source with
        | .error e => failure e.message
        | .ok text => (0, Console.say {} text)
    | .repl =>
      match content with
      | .directory => failure ReadError.isDirectory.message
      | .file bytes => Console.converse bytes

/-- The input of a command, given the files and standard input. -/
def input (cmd : Command) (files : Files) (stdin : List UInt8) : Except ReadError Content :=
  match cmd.file? with
  | some path => files.openPath path
  | none => .ok (.file stdin)

end Command

/-- Runs the program on its arguments.  There is no result if they are no command
line of the program. -/
def program (args : List String) (files : Files) (stdin : List UInt8) : Option (Nat × Console) :=
  (Command.ofArgs? args).map fun cmd => cmd.execute (cmd.input files stdin)

end TinyLisp
