import TinyLisp.Eval.Procedure

/-!
# Evaluation

Numbers and texts are their own values.  A list that starts with a name is a call:
its arguments are evaluated from left to right, and the first fault among them ends
the evaluation.  A call of an unknown name has no value, just like the empty list.
A list of one item that is no name has the value of its item.

What is printed on the way goes to a sink, which is handed from one evaluation to
the next.
-/

namespace TinyLisp

namespace Expr

mutual

/-- Evaluates an expression. -/
def eval : Expr → Sink → Except EvalError Value × Sink
  | .atom name, out => (.error (.bareAtom name), out)
  | .number n, out => (.ok (some (.number n)), out)
  | .text s, out => (.ok (some (.text s)), out)
  | .quoted items, out => (.error (.quotedList items), out)
  | .list [], out => (.ok none, out)
  | .list (.atom name :: args), out =>
    match evalArgs args out with
    | (.error e, out) => (.error e, out)
    | (.ok values, out) =>
      match Procedure.ofName? name with
      | none => (.ok none, out)
      | some p => p.call values out
  | .list [e], out => eval e out
  | .list items, out => (.error (.notProcedure items), out)

/-- Evaluates arguments from left to right, up to the first fault. -/
def evalArgs : List Expr → Sink → Except EvalError (List Value) × Sink
  | [], out => (.ok [], out)
  | e :: es, out =>
    match eval e out with
    | (.error err, out) => (.error err, out)
    | (.ok v, out) =>
      match evalArgs es out with
      | (.error err, out) => (.error err, out)
      | (.ok vs, out) => (.ok (v :: vs), out)

end

end Expr

end TinyLisp
