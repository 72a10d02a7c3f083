import TinyLisp.Expr.Basic
import TinyLisp.Token.Basic

/-!
# What can be wrong with a source

The causes for which tokens are no expression, and their wording.
-/

namespace TinyLisp

/-- The number of lists and quotes that may be open where an expression starts
is below this limit. -/
def depthLimit : Nat := 256

/-- Why tokens are no expression. -/
inductive ParseError
  /-- No expression starts with this token. -/
  | unexpected (kind : Token.Kind) (text : String)
  /-- The input ends inside a list. -/
  | unclosedList
  /-- What follows a quotation mark is not a list. -/
  | quotedNonList (operand : Expr)
  /-- A number, written as given, is out of range. -/
  | invalidNumber (literal : String)
  /-- Too many lists and quotes are open. -/
  | tooDeep
  deriving DecidableEq, Repr

namespace ParseError

/-- No expression starts with the token. -/
def ofToken (t : Token) : ParseError :=
  .unexpected t.kind t.text

/-- The wording of an error. -/
def message : ParseError → String
  | .unexpected kind text => "unexpected token " ++ kind.render ++ " " ++ Quoted.quote text
  | .unclosedList => "Unclosed list!"
  | .quotedNonList operand => "cannot quote a non-list expression: " ++ operand.render
  | .invalidNumber literal => "invalid number literal: " ++ literal
  | .tooDeep => "expression nested deeper than " ++ toString depthLimit ++ " levels"

end ParseError

end TinyLisp
