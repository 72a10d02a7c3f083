import TinyLisp.Eval.Sink
import TinyLisp.Expr.Basic

/-!
# What can be wrong with an evaluation

The causes for which an expression has no value, and their wording.
-/

namespace TinyLisp

/-- Why an expression has no value. -/
inductive EvalError
  /-- A name stands where a value is needed. -/
  | bareAtom (name : String)
  /-- A quoted list stands where a value is needed. -/
  | quotedList (items : List Expr)
  /-- A list of several items does not start with a name. -/
  | notProcedure (items : List Expr)
  /-- The sink refused what was printed. -/
  | output (e : WriteError)
  deriving DecidableEq, Repr

/-- The wording of an error. -/
def EvalError.message : EvalError → String
  | .bareAtom name => "cannot evaluate atom: " ++ name
  | .quotedList items =>
    "not implemented: evaluating literal list " ++ (Expr.quoted items).render
  | .notProcedure items =>
    "expected an atom as a function name in list: " ++ (Expr.list items).render
  | .output e => "failed to write output: " ++ e.message

end TinyLisp
