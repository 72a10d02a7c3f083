import TinyLisp.Eval.Basic
import TinyLisp.Expr.Parser
import TinyLisp.Source.Reader

/-!
# Sessions

A session evaluates single expressions, one after the other, on one sink.  Each
time the first expression of a source is parsed and evaluated, and what it printed
is flushed.  Nothing is flushed for an expression that is faulty.
-/

namespace TinyLisp

/-- Why a source has no value. -/
inductive Fault
  /-- It does not start with an expression. -/
  | parse (e : ParseError)
  /-- The expression cannot be evaluated. -/
  | eval (e : EvalError)
  /-- What the expression printed cannot be flushed. -/
  | flush
  deriving DecidableEq, Repr

/-- The wording of a fault. -/
def Fault.message : Fault → String
  | .parse e => e.message
  | .eval e => e.message
  | .flush => "flush failed"

/-- Evaluates an expression and flushes what it printed. -/
def Expr.evalFlush (e : Expr) (out : Sink) : Except Fault Value × Sink :=
  match e.eval out with
  | (.error err, out) => (.error (.eval err), out)
  | (.ok v, out) => if out.flush.1 then (.ok v, out.flush.2) else (.error .flush, out.flush.2)

/-- Evaluates the result of parsing, if it is an expression. -/
def evalParsed (parsed : Except ParseError Expr) (out : Sink) : Except Fault Value × Sink :=
  match parsed with
  | .error e => (.error (.parse e), out)
  | .ok e => e.evalFlush out

/-- Evaluates the first expression of a text. -/
def evalText (code : String) (out : Sink) : Except Fault Value × Sink :=
  evalParsed (parseExpr code) out

/-- Evaluates the first expression of a source.  The source that is left is
returned along with the outcome. -/
def runSource (s : Source) (out : Sink) : (Except Fault Value × Sink) × Source :=
  let parsed := Parser.expression { source := s }
  (evalParsed parsed.1 out, parsed.2.source)

/-! ### Several steps -/

/-- A step of a session. -/
inductive Step
  /-- Evaluates the first expression of a text. -/
  | eval (code : String)
  /-- Evaluates the first expression of a reader. -/
  | run (chunks : List Chunk)
  deriving DecidableEq, Repr

/-- What a step comes to. -/
structure StepReport where
  outcome : Except Fault Value
  /-- The bytes that the sink took during the step. -/
  written : List UInt8
  /-- How often the sink has been flushed so far. -/
  flushes : Nat
  /-- The number of bytes consumed from the reader, if the step had one. -/
  consumed : Option Nat

/-- Makes a step. -/
def Step.perform (step : Step) (out : Sink) : StepReport × Sink :=
  let (outcome, consumed) :=
    match step with
    | .eval code => (evalText code out, none)
    | .run chunks =>
      let r := runSource (.ofChunks chunks) out
      (r.1, some r.2.consumed)
  ({ outcome := outcome.1
     written := outcome.2.written.drop out.written.length
     flushes := outcome.2.flushes
     consumed },
    outcome.2)

/-- Makes steps one after the other on the same sink. -/
def session : List Step → Sink → List StepReport
  | [], _ => []
  | step :: steps, out => (step.perform out).1 :: session steps (step.perform out).2

end TinyLisp
