/-!
# Command lines

What a command line asks for.  There are no options, so an argument that looks like
one is an error, unless it stands behind `--`.
-/

namespace TinyLisp

/-- What the program is asked to do. -/
inductive Command
  /-- Evaluates the first expression of standard input. -/
  | evalInput
  /-- Evaluates the first expression of a file. -/
  | run (file : String)
  /-- Lists the tokens of a file or of standard input. -/
  | lex (file : Option String)
  /-- Lists the expressions of a file or of standard input. -/
  | parse (file : Option String)
  /-- Holds a conversation on standard input. -/
  | repl
  deriving DecidableEq, Repr

namespace Command

/-- An argument that looks like an option.  A lone hyphen does not. -/
def isOption (arg : String) : Bool :=
  arg.toList.head? = some '-' && arg ≠ "-"

/-- The arguments that are meant as they stand, if there are no options. -/
def operands? : List String → Option (List String)
  | [] => some []
  | arg :: rest =>
    if arg = "--" then some rest
    else if isOption arg then none
    else (operands? rest).map (arg :: ·)

/-- The name of a file, which cannot be empty. -/
def fileName? (arg : String) : Option String :=
  if arg = "" then none else some arg

/-- At most one file name. -/
def optionalFile? (args : List String) : Option (Option String) :=
  match operands? args with
  | some [] => some none
  | some [arg] => (fileName? arg).map some
  | _ => none

/-- The command of a command line, if it is one. -/
def ofArgs? : List String → Option Command
  | [] => some .evalInput
  | verb :: args =>
    if verb = "run" then
      match optionalFile? args with
      | some (some file) => some (.run file)
      | _ => none
    else if verb = "lex" then (optionalFile? args).map .lex
    else if verb = "parse" then (optionalFile? args).map .parse
    else if verb = "repl" then if operands? args = some [] then some .repl else none
    else if verb = "--" then if args = [] then some .evalInput else none
    else none

/-- The file that a command reads, if it does not read standard input. -/
def file? : Command → Option String
  | .run file => some file
  | .lex file => file
  | .parse file => file
  | .evalInput => none
  | .repl => none

end Command

end TinyLisp
