import Mathlib.Data.List.Basic
import TinyLisp.Eval.Basic

/-!
# Evaluation as a single piece of output

An evaluation writes in many pieces, and each of them may be the one that the sink
refuses.  For what becomes of it, only all the bytes together matter.  Whatever the
sink, it is as if the evaluation handed them in as a single piece and then had its
outcome (`Sink.submit`).  If the sink takes them all, the outcome stays as it is.
Otherwise the sink takes as many as it has room for, and the outcome is that the
output failed.

Both the bytes and the outcome can be learned from a sink without a limit
(`Expr.eval_eq_submit`).
-/

namespace TinyLisp

namespace Sink

/-- Hands in bytes as a single piece and then has the given outcome, unless the sink
refuses some of the bytes. -/
def submit {α : Type} (out : Sink) (bytes : List UInt8) (outcome : Except EvalError α) :
    Except EvalError α × Sink :=
  match out.write bytes with
  | (.ok (), out) => (outcome, out)
  | (.error e, out) => (.error (.output e), out)

/-! ### Pieces of output -/

/-- A piece without bytes is never refused. -/
lemma write_nil (out : Sink) : out.write [] = (.ok (), out) := by
  obtain ⟨written, room, whenFull, flushes, flushFails⟩ := out
  cases room <;> simp [write]

/-- A piece may be cut in two: the second part is written if the first has been taken
whole. -/
lemma write_append (out : Sink) (xs ys : List UInt8) :
    out.write (xs ++ ys) =
      match out.write xs with
      | (.ok (), mid) => mid.write ys
      | (.error e, mid) => (.error e, mid) := by
  obtain ⟨written, room, whenFull, flushes, flushFails⟩ := out
  cases room with
  | none => simp [write]
  | some n =>
    by_cases hxs : xs.length ≤ n
    · have hfits : xs.length + ys.length ≤ n ↔ ys.length ≤ n - xs.length := by omega
      simp [write, hxs, hfits, List.take_append, List.take_of_length_le, Nat.sub_sub]
    · have hfull : ¬xs.length + ys.length ≤ n := by omega
      have hroom : n - (xs.length + ys.length) = n - xs.length := by omega
      have htake : n - xs.length = 0 := by omega
      simp [write, hxs, hfull, hroom, htake, List.take_append]

/-- On a sink without a limit nothing is refused. -/
lemma submit_of_room_eq_none {α : Type} {out : Sink} (h : out.room = none) (bytes : List UInt8)
    (outcome : Except EvalError α) :
    out.submit bytes outcome = (outcome, { out with written := out.written ++ bytes }) := by
  simp [submit, write, h]

end Sink

/-! ### Computations that come to a single piece -/

/-- On every sink the computation comes to handing in the same bytes and having the
same outcome. -/
def Submits {α : Type} (run : Sink → Except EvalError α × Sink) (bytes : List UInt8)
    (outcome : Except EvalError α) : Prop :=
  ∀ out, run out = out.submit bytes outcome

/-- Having an outcome and writing nothing. -/
lemma submits_pure {α : Type} (outcome : Except EvalError α) :
    Submits (fun out => (outcome, out)) [] outcome := by
  intro out
  rw [Sink.submit, Sink.write_nil]

/-- Goes on with the value of a computation, unless it has failed. -/
def andThen {α β : Type} (run : Sink → Except EvalError α × Sink)
    (next : α → Sink → Except EvalError β × Sink) (out : Sink) : Except EvalError β × Sink :=
  match run out with
  | (.error e, out) => (.error e, out)
  | (.ok a, out) => next a out

/-- A computation that has failed does not go on. -/
lemma Submits.andThen_error {α β : Type} {run : Sink → Except EvalError α × Sink}
    {bytes : List UInt8} {err : EvalError} (h : Submits run bytes (.error err))
    (next : α → Sink → Except EvalError β × Sink) :
    Submits (andThen run next) bytes (.error err) := by
  intro out
  rw [andThen, h out, Sink.submit, Sink.submit]
  rcases out.write bytes with ⟨_ | _, mid⟩
  · rfl
  · rfl

/-- Otherwise the bytes of both parts are handed in together. -/
lemma Submits.andThen_ok {α β : Type} {run : Sink → Except EvalError α × Sink}
    {next : α → Sink → Except EvalError β × Sink} {xs ys : List UInt8} {a : α}
    {outcome : Except EvalError β} (h : Submits run xs (.ok a))
    (hnext : Submits (next a) ys outcome) : Submits (andThen run next) (xs ++ ys) outcome := by
  intro out
  rw [andThen, h out, Sink.submit, Sink.submit, Sink.write_append]
  rcases out.write xs with ⟨_ | _, mid⟩
  · rfl
  · exact hnext mid

/-- The computation comes to a single piece. -/
def IsSubmission {α : Type} (run : Sink → Except EvalError α × Sink) : Prop :=
  ∃ bytes outcome, Submits run bytes outcome

lemma isSubmission_pure {α : Type} (outcome : Except EvalError α) :
    IsSubmission fun out => (outcome, out) :=
  ⟨[], outcome, submits_pure outcome⟩

/-- A computation of two parts comes to a single piece if both of them do. -/
lemma IsSubmission.andThen {α β : Type} {run : Sink → Except EvalError α × Sink}
    {next : α → Sink → Except EvalError β × Sink} (h : IsSubmission run)
    (hnext : ∀ a, IsSubmission (next a)) : IsSubmission (andThen run next) := by
  obtain ⟨xs, _ | a, hrun⟩ := h
  · exact ⟨xs, _, hrun.andThen_error next⟩
  · obtain ⟨ys, outcome, hys⟩ := hnext a
    exact ⟨xs ++ ys, outcome, hrun.andThen_ok hys⟩

/-! ### Procedures -/

lemma isSubmission_printAll (values : List Value) :
    IsSubmission (Procedure.printAll values) := by
  induction values with
  | nil => exact isSubmission_pure _
  | cons v values ih =>
    obtain ⟨ys, outcome, hys⟩ := ih
    refine ⟨Utf8.encode (Procedure.printed v) ++ ys, outcome, fun out => ?_⟩
    rw [Procedure.printAll, Sink.submit, Sink.write_append]
    rcases out.write (Utf8.encode (Procedure.printed v)) with ⟨_ | _, mid⟩
    · rfl
    · exact hys mid

lemma isSubmission_call (p : Procedure) (args : List Value) : IsSubmission (p.call args) := by
  cases p with
  | print => exact isSubmission_printAll args
  | add => exact isSubmission_pure _
  | mul => exact isSubmission_pure _

/-! ### Expressions -/

namespace Expr

/-- What a call does when its arguments have been evaluated. -/
def dispatch (name : String) (values : List Value) (out : Sink) : Except EvalError Value × Sink :=
  match Procedure.ofName? name with
  | none => (.ok none, out)
  | some p => p.call values out

lemma isSubmission_dispatch (name : String) (values : List Value) :
    IsSubmission (dispatch name values) := by
  unfold dispatch
  cases Procedure.ofName? name with
  | none => exact isSubmission_pure _
  | some p => exact isSubmission_call p values

/-- A call evaluates its arguments first. -/
lemma eval_call (name : String) (args : List Expr) :
    eval (.list (.atom name :: args)) = andThen (evalArgs args) (dispatch name) := by
  funext out
  rw [eval, andThen]
  rcases evalArgs args out with ⟨_ | _, mid⟩
  · rfl
  · rfl

/-- Arguments are evaluated one after the other. -/
lemma evalArgs_cons (e : Expr) (es : List Expr) :
    evalArgs (e :: es) =
      andThen e.eval fun v => andThen (evalArgs es) fun vs out => (.ok (v :: vs), out) := by
  funext out
  rw [evalArgs, andThen]
  rcases e.eval out with ⟨_ | v, mid⟩
  · rfl
  · dsimp only
    rw [andThen]
    rcases evalArgs es mid with ⟨_ | vs, last⟩
    · rfl
    · rfl

mutual

/-- Evaluating an expression comes to a single piece. -/
lemma isSubmission_eval (e : Expr) : IsSubmission e.eval := by
  match e with
  | .atom _ | .number _ | .text _ | .quoted _ | .list [] => exact isSubmission_pure _
  | .list (.atom name :: args) =>
    rw [eval_call]
    exact (isSubmission_evalArgs args).andThen (isSubmission_dispatch name)
  | .list [.number _] | .list [.text _] | .list [.quoted _] => exact isSubmission_pure _
  | .list [.list items] => exact isSubmission_eval (.list items)
  | .list (.number _ :: _ :: _) | .list (.text _ :: _ :: _) | .list (.quoted _ :: _ :: _)
  | .list (.list _ :: _ :: _) => exact isSubmission_pure _

/-- So does evaluating arguments. -/
lemma isSubmission_evalArgs (es : List Expr) : IsSubmission (evalArgs es) := by
  match es with
  | [] => exact isSubmission_pure _
  | e :: es =>
    rw [evalArgs_cons]
    apply (isSubmission_eval e).andThen
    intro v
    apply (isSubmission_evalArgs es).andThen
    intro vs
    exact isSubmission_pure _

end

/-- On every sink, evaluating an expression comes to handing in what it writes on a sink
without a limit, with the outcome that it has there. -/
theorem eval_eq_submit (e : Expr) (out : Sink) :
    e.eval out = out.submit (e.eval {}).2.written (e.eval {}).1 := by
  obtain ⟨bytes, outcome, h⟩ := e.isSubmission_eval
  have hfree := (h {}).trans (Sink.submit_of_room_eq_none rfl bytes outcome)
  rw [h out, hfree]
  rfl

end Expr

end TinyLisp
