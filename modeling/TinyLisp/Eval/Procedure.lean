import TinyLisp.Eval.EvalError
import TinyLisp.Text.Utf8

/-!
# Procedures

The procedures that a program can call, and what calling them with evaluated
arguments does.  Sums and products wrap around in the 64-bit words, and whatever
is no number counts as zero in them.
-/

namespace TinyLisp

/-- The procedures. -/
inductive Procedure
  /-- Prints its arguments. -/
  | print
  /-- Adds its arguments. -/
  | add
  /-- Multiplies its arguments. -/
  | mul
  deriving DecidableEq, Repr

namespace Procedure

/-- The procedure of a name. -/
def ofName? (name : String) : Option Procedure :=
  if name = "print" then some .print
  else if name = "+" then some .add
  else if name = "*" then some .mul
  else none

/-- How a value is printed: a text as it is, an absent value as an empty list, and
anything else as its source. -/
def printed : Value → String
  | some (.text s) => s
  | some e => e.render
  | none => "()"

/-- Prints values one after the other, as far as the sink takes them. -/
def printAll : List Value → Sink → Except EvalError Value × Sink
  | [], out => (.ok none, out)
  | v :: vs, out =>
    match out.write (Utf8.encode (printed v)) with
    | (.ok (), out) => printAll vs out
    | (.error e, out) => (.error (.output e), out)

/-- The number that a value counts for. -/
def numeric : Value → Int64
  | some (.number n) => n
  | _ => 0

/-- The sum of values. -/
def sum (args : List Value) : Int64 :=
  (args.map numeric).foldl (· + ·) 0

/-- The product of values. -/
def product (args : List Value) : Int64 :=
  (args.map numeric).foldl (· * ·) 1

/-- Calls a procedure. -/
def call (p : Procedure) (args : List Value) (out : Sink) : Except EvalError Value × Sink :=
  match p with
  | .print => printAll args out
  | .add => (.ok (some (.number (sum args))), out)
  | .mul => (.ok (some (.number (product args))), out)

end Procedure

end TinyLisp
