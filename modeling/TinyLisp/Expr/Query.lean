import TinyLisp.Expr.Parser

/-!
# Asking for expressions

A parser can be asked for its expressions one by one or all together, and whether
there are any left, in any order and also after errors.  What it is asked next goes
on from the tokens that the last answer left.
-/

namespace TinyLisp.Parser

/-- What a parser can be asked for. -/
inductive Query
  /-- The expression that comes next. -/
  | expression
  /-- The expression that comes next, unless the input is at its end. -/
  | expression?
  /-- Whether the input is at its end. -/
  | atEnd
  /-- All expressions up to the end of the input or the first error. -/
  | script
  deriving DecidableEq, Repr

/-- The answer to a query. -/
inductive Answer
  | expression (r : Except ParseError Expr)
  | expression? (r : Option (Except ParseError Expr))
  | atEnd (b : Bool)
  | script (r : Except ParseError (List Expr))

/-- Answers a query. -/
def ask (p : Parser) : Query → Answer × Parser
  | .expression => (.expression p.expression.1, p.expression.2)
  | .expression? => (.expression? p.expression?.1, p.expression?.2)
  | .atEnd => (.atEnd p.atEnd.1, p.atEnd.2)
  | .script => (.script p.script.1, p.script.2)

/-- Answers queries one after the other.  Each answer comes with the number of bytes
consumed so far. -/
def askAll (p : Parser) : List Query → List (Answer × Nat)
  | [] => []
  | q :: qs => ((p.ask q).1, (p.ask q).2.source.consumed) :: (p.ask q).2.askAll qs

end TinyLisp.Parser
