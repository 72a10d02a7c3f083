import TinyLisp.Token.Lexer

/-!
# Asking for tokens

A source can be asked for its tokens one by one or all together, in any order and
also beyond the end of the input.  What it is asked next goes on from where the last
answer left it.
-/

namespace TinyLisp.Source

/-- What a source can be asked for. -/
inductive Query
  /-- The next token, be it the end of the input. -/
  | token
  /-- The next token before the end of the input. -/
  | token?
  /-- All tokens before the end of the input. -/
  | tokens
  deriving DecidableEq, Repr

/-- The answer to a query. -/
inductive Answer
  | token (t : Token)
  | token? (t : Option Token)
  | tokens (ts : List Token)
  deriving DecidableEq, Repr

/-- Answers a query. -/
def ask (s : Source) : Query → Answer × Source
  | .token => (.token s.token.1, s.token.2)
  | .token? => (.token? s.token?.1, s.token?.2)
  | .tokens => (.tokens s.tokens.1, s.tokens.2)

/-- Answers queries one after the other.  Each answer comes with the number of bytes
consumed so far. -/
def askAll (s : Source) : List Query → List (Answer × Nat)
  | [] => []
  | q :: qs => ((s.ask q).1, (s.ask q).2.consumed) :: (s.ask q).2.askAll qs

end TinyLisp.Source
