import Mathlib.Data.List.Basic
import TinyLisp.Eval.Basic

/-!
# The meaning of expressions

An expression that evaluates without a fault has a value that does not depend on the
sink: nothing at all, a number or a text (`Expr.meaning`).  What is printed of it is
the text as it is, the number in decimal, or `()` (`Datum.shown`).

A sink without a limit takes whatever is printed (`Sink.extend`), so that a call with
such a sink always succeeds (`Expr.call_eq`).
-/

namespace TinyLisp

/-! ### Sinks without a limit -/

/-- The sink after it has taken some bytes. -/
def Sink.extend (out : Sink) (bytes : List UInt8) : Sink :=
  { out with written := out.written ++ bytes }

namespace Sink

@[simp] lemma room_extend (out : Sink) (bytes : List UInt8) :
    (out.extend bytes).room = out.room := rfl

@[simp] lemma extend_nil (out : Sink) : out.extend [] = out := by
  simp [extend]

@[simp] lemma extend_extend (out : Sink) (xs ys : List UInt8) :
    (out.extend xs).extend ys = out.extend (xs ++ ys) := by
  simp [extend]

/-- A sink without a limit takes every piece. -/
lemma write_eq {out : Sink} (h : out.room = none) (bytes : List UInt8) :
    out.write bytes = (.ok (), out.extend bytes) := by
  simp [write, h, extend]

end Sink

/-! ### Values -/

/-- What an evaluation can yield. -/
inductive Datum
  /-- Nothing. -/
  | absent
  /-- A number. -/
  | number (n : Int64)
  /-- A text. -/
  | text (s : String)
  deriving DecidableEq, Repr

namespace Datum

/-- The value that stands for a datum. -/
def toValue : Datum → Value
  | .absent => none
  | .number n => some (.number n)
  | .text s => some (.text s)

/-- How a datum appears when it is printed. -/
def shown : Datum → String
  | .absent => "()"
  | .number n => String.ofList (Decimal.write n.toInt)
  | .text s => s

lemma printed_toValue (d : Datum) : Procedure.printed d.toValue = d.shown := by
  cases d <;> rfl

end Datum

namespace Expr

/-- What a call of a name with evaluated arguments yields. -/
def result (name : String) (args : List Datum) : Datum :=
  match Procedure.ofName? name with
  | some .add => .number (Procedure.sum (args.map Datum.toValue))
  | some .mul => .number (Procedure.product (args.map Datum.toValue))
  | _ => .absent

mutual

/-- The value of an expression that evaluates without a fault. -/
def meaning : Expr → Datum
  | .number n => .number n
  | .text s => .text s
  | .list (.atom name :: args) => result name (meanings args)
  | .list [e] => meaning e
  | _ => .absent

/-- The values of a sequence of expressions. -/
def meanings : List Expr → List Datum
  | [] => []
  | e :: es => meaning e :: meanings es

end

lemma meanings_eq_map (es : List Expr) : meanings es = es.map meaning := by
  induction es with
  | nil => rfl
  | cons e es ih => rw [meanings, List.map_cons, ih]

/-! ### Calls -/

/-- What a call of `print` writes: its arguments, one right after the other. -/
def printout (args : List Expr) : List UInt8 :=
  args.flatMap fun e => Utf8.encode e.meaning.shown

/-- The arguments of a call of `print`. -/
def printArgs? : Expr → Option (List Expr)
  | .list (.atom name :: args) => if name = "print" then some args else none
  | _ => none

/-- What the evaluation of an expression writes in the end, after all that its items
have written. -/
def output (e : Expr) : List UInt8 :=
  (e.printArgs?.map printout).getD []

lemma printArgs?_eq_some_iff {e : Expr} {args : List Expr} :
    e.printArgs? = some args ↔ e = .list (.atom "print" :: args) := by
  unfold printArgs?
  split
  · split_ifs with hname
    · subst hname
      simp
    · simp [hname]
  · rename_i hcall
    simpa using fun h => hcall "print" args h

/-- Nothing but calls writes anything of its own. -/
lemma output_eq_nil {e : Expr} (h : ∀ name args, e ≠ .list (.atom name :: args)) :
    e.output = [] := by
  have hnone : e.printArgs? = none := by
    rw [Option.eq_none_iff_forall_ne_some]
    exact fun args hargs => h "print" args (printArgs?_eq_some_iff.mp hargs)
  rw [output, hnone]
  rfl

/-- A sink without a limit takes the values that are printed to it. -/
lemma printAll_eq (args : List Expr) {out : Sink} (h : out.room = none) :
    Procedure.printAll (args.map (·.meaning.toValue)) out
      = (.ok none, out.extend (printout args)) := by
  induction args generalizing out with
  | nil => simp [Procedure.printAll, printout]
  | cons e args ih =>
    rw [List.map_cons, Procedure.printAll, Sink.write_eq h, Datum.printed_toValue]
    have hroom : (out.extend (Utf8.encode e.meaning.shown)).room = none := h
    simp [ih hroom, printout]

/-- A call with a sink without a limit succeeds: it yields the value of the call and
writes its output. -/
lemma call_eq (name : String) (args : List Expr) {out : Sink} (h : out.room = none) :
    (match Procedure.ofName? name with
      | none => (.ok none, out)
      | some p => p.call (args.map (·.meaning.toValue)) out)
      = (.ok (meaning (.list (.atom name :: args))).toValue,
          out.extend (output (.list (.atom name :: args)))) := by
  have hvalues : (meanings args).map Datum.toValue = args.map (·.meaning.toValue) := by
    rw [meanings_eq_map, List.map_map]
    rfl
  rw [meaning, result, output, printArgs?, hvalues]
  by_cases hprint : name = "print"
  · subst hprint
    simpa [Procedure.ofName?, Procedure.call, Datum.toValue] using printAll_eq args h
  · rw [if_neg hprint, Option.map_none, Option.getD_none, Sink.extend_nil]
    by_cases hadd : name = "+"
    · subst hadd
      rfl
    · by_cases hmul : name = "*"
      · subst hmul
        rfl
      · simp [Procedure.ofName?, hprint, hadd, hmul, Datum.toValue]

end Expr

end TinyLisp
