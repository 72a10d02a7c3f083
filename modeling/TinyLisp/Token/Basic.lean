import TinyLisp.Text.Quoted

/-!
# Tokens

A token is a kind and the text it was read from.  The text of a string literal
keeps its quotes but not its escaping backslashes.
-/

namespace TinyLisp

namespace Token

/-- The kinds of token. -/
inductive Kind
  /-- A name: any run of characters that is nothing else. -/
  | atom
  /-- A minus sign, alone or before a number. -/
  | minus
  /-- A digit followed by digits and underscores. -/
  | number
  /-- A string literal. -/
  | string
  /-- From a semicolon to the end of the line. -/
  | comment
  /-- An opening parenthesis. -/
  | lparen
  /-- A closing parenthesis. -/
  | rparen
  /-- A quotation mark. -/
  | quote
  /-- The end of the input. -/
  | eof
  /-- What is no token; no text is read as this kind. -/
  | error
  deriving DecidableEq, Repr

/-- How a kind is shown. -/
def Kind.render : Kind → String
  | .atom => "<atom>"
  | .minus => "-"
  | .number => "<number>"
  | .string => "<string>"
  | .comment => "<comment>"
  | .lparen => "("
  | .rparen => ")"
  | .quote => "'"
  | .eof => "<EOF>"
  | .error => "<error>"

end Token

/-- A token: its kind, its text, and whether it is a string literal that the end
of the input cut short. -/
structure Token where
  kind : Token.Kind
  text : String
  truncated : Bool := false
  deriving DecidableEq, Repr

namespace Token

/-- The end of the input. -/
def endOfInput : Token where
  kind := .eof
  text := ""

/-- The token marks the end of the input. -/
def isEnd (t : Token) : Bool :=
  t.kind = .eof

/-- A token is shown as its kind and its quoted text. -/
def render (t : Token) : String :=
  t.kind.render ++ " " ++ Quoted.quote t.text

/-- The text that a string literal denotes: what stands between its quotes.  A
literal that is cut short has no closing quote. -/
def content (t : Token) : String :=
  let inner := if t.text.toList.head? = some '\x22' then t.text.toList.tail else t.text.toList
  if t.truncated then String.ofList inner
  else if inner.getLast? = some '\x22' then String.ofList inner.dropLast
  else String.ofList inner

end Token

end TinyLisp
