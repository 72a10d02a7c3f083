import TinyLisp.Expr.Query
import TinyLisp.Main
import TinyLisp.Proofs.Expr.RoundTrip
import TinyLisp.Proofs.Expr.Language
import TinyLisp.Proofs.Expr.Lexeme
import TinyLisp.Token.Query
import TinyLisp.Proofs.Expr.Query
import TinyLisp.Proofs.Source.Reader
import TinyLisp.Proofs.Session.Stream
import TinyLisp.Proofs.Token.Continuation
import TinyLisp.Proofs.Expr.Incomplete
import TinyLisp.Proofs.Expr.Producible
import TinyLisp.Proofs.Eval.Meaning
import TinyLisp.Proofs.Eval.Order
import TinyLisp.Proofs.Eval.Fault
import TinyLisp.Proofs.Eval.Submission
import TinyLisp.Proofs.Session.Limit
import TinyLisp.Proofs.Expr.Observation
import TinyLisp.Proofs.Session.Failure
import TinyLisp.Proofs.Command.Listing
import TinyLisp.Proofs.Session.Conversation
import TinyLisp.Proofs.Eval.Exact
import TinyLisp.Proofs.Session.Consumption
import TinyLisp.Proofs.Expr.Concatenation
import TinyLisp.Proofs.Expr.Iteration
import TinyLisp.Proofs.Expr.Depth
import TinyLisp.Proofs.Expr.Literal
import TinyLisp.Proofs.Session.Answer
import TinyLisp.Proofs.Command.TokenListing
import TinyLisp.Proofs.Source.LineReader
import TinyLisp.Proofs.Source.Lookahead
import TinyLisp.Proofs.Token.EndOfInput
