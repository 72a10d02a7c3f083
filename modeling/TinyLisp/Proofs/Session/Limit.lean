import TinyLisp.Proofs.Eval.Submission
import TinyLisp.Session.Basic

/-!
# Sessions on a sink that runs full

A session on a sink with room for `n` bytes is compared with the same session on a sink
without a limit.  The sink takes the first `n` bytes that the steps write, all steps
together, and nothing else changes but the outcomes of those steps whose bytes do not
all fit (`session_cut`).

Each step has its bytes and its outcome whatever the sink (`Step.bytes`,
`Step.outcome`), and hands them in as a single piece (`Step.perform_eq`).  So the room
that a step finds is what the bytes of the steps before it have left (`room_after`).
-/

namespace TinyLisp

/-! ### Handing in bytes with an outcome -/

namespace Sink

/-- The bytes of a piece that the sink takes. -/
def accepted (out : Sink) (bytes : List UInt8) : List UInt8 :=
  match out.room with
  | none => bytes
  | some n => bytes.take n

/-- The sink has room for the whole piece. -/
def fits (out : Sink) (bytes : List UInt8) : Bool :=
  out.room.all (bytes.length ≤ ·)

/-- Writing takes the bytes that there is room for, and succeeds if these are all. -/
lemma write_eq_accepted (out : Sink) (bytes : List UInt8) :
    out.write bytes =
      (if out.fits bytes then .ok () else .error out.whenFull,
        { out with
          written := out.written ++ out.accepted bytes
          room := out.room.map (· - bytes.length) }) := by
  obtain ⟨written, room, whenFull, flushes, flushFails⟩ := out
  cases room <;> simp [write, fits, accepted]

/-- What becomes of an outcome when its bytes are handed in: the sink may refuse some of
them, and flushing may fail if there is a value. -/
def verdict (out : Sink) (bytes : List UInt8) (outcome : Except Fault Value) :
    Except Fault Value :=
  if !out.fits bytes then .error (.eval (.output out.whenFull))
  else if outcome.isOk && out.flushFails then .error .flush
  else outcome

/-- The sink when bytes have been handed in; it is flushed if all of them fit and there
is a value. -/
def completed (out : Sink) (bytes : List UInt8) (outcome : Except Fault Value) : Sink :=
  { out with
    written := out.written ++ out.accepted bytes
    room := out.room.map (· - bytes.length)
    flushes := out.flushes + if out.fits bytes && outcome.isOk then 1 else 0 }

/-- A fault that writes nothing stays as it is. -/
lemma verdict_nil (out : Sink) (fault : Fault) :
    out.verdict [] (.error fault) = .error fault := by
  have hfits : out.fits [] = true := by simp [fits]
  simp [verdict, hfits, Except.isOk, Except.toBool]

/-- It leaves the sink as it is, too. -/
lemma completed_nil (out : Sink) (fault : Fault) : out.completed [] (.error fault) = out := by
  obtain ⟨written, room, whenFull, flushes, flushFails⟩ := out
  cases room <;> simp [completed, accepted, Except.isOk, Except.toBool]

/-- If flushing works, there is a value exactly if there was one and all bytes fit. -/
lemma isOk_verdict {out : Sink} (h : out.flushFails = false) (bytes : List UInt8)
    (outcome : Except Fault Value) :
    (out.verdict bytes outcome).isOk = (out.fits bytes && outcome.isOk) := by
  unfold verdict
  cases out.fits bytes with
  | false => rfl
  | true => simp [h]

/-- If flushing fails, there is a fault wherever there was a value. -/
lemma verdict_flushFails (out : Sink) (bytes : List UInt8) (outcome : Except Fault Value) :
    { out with flushFails := true }.verdict bytes outcome =
      if ({ out with flushFails := false }.verdict bytes outcome).isOk then .error .flush
      else { out with flushFails := false }.verdict bytes outcome := by
  rw [isOk_verdict rfl]
  have hfits (b : Bool) : { out with flushFails := b }.fits bytes = out.fits bytes := rfl
  simp only [verdict, hfits]
  cases out.fits bytes with
  | false => simp
  | true => simp

/-- Evaluating an expression and flushing the sink is handing in bytes with an outcome. -/
lemma evalFlush_eq {e : Expr} {bytes : List UInt8} {outcome : Except EvalError Value}
    (h : Submits e.eval bytes outcome) (out : Sink) :
    e.evalFlush out =
      (out.verdict bytes (outcome.mapError .eval),
        out.completed bytes (outcome.mapError .eval)) := by
  rw [Expr.evalFlush, h out, submit, write_eq_accepted, verdict, completed]
  cases out.fits bytes with
  | false => simp
  | true =>
    cases outcome with
    | error err => simp [Except.mapError, Except.isOk, Except.toBool]
    | ok v => cases out.flushFails <;> simp [Except.mapError, Except.isOk, Except.toBool, flush]

end Sink

/-! ### A single step -/

namespace Step

/-- What the source of a step is parsed to. -/
def parsed : Step → Except ParseError Expr
  | .eval code => parseExpr code
  | .run chunks => (Parser.expression { source := .ofChunks chunks }).1

/-- The number of bytes that a step consumes from its reader. -/
def consumed : Step → Option ℕ
  | .eval _ => none
  | .run chunks => some (Parser.expression { source := .ofChunks chunks }).2.source.consumed

/-- The bytes that a step writes if nothing is refused. -/
def bytes (step : Step) : List UInt8 :=
  match step.parsed with
  | .error _ => []
  | .ok e => (e.eval {}).2.written

/-- What a step comes to if nothing is refused and flushing works. -/
def outcome (step : Step) : Except Fault Value :=
  match step.parsed with
  | .error err => .error (.parse err)
  | .ok e => (e.eval {}).1.mapError .eval

/-- A step hands in its bytes with its outcome. -/
lemma evalParsed_eq (step : Step) (out : Sink) :
    evalParsed step.parsed out =
      (out.verdict step.bytes step.outcome, out.completed step.bytes step.outcome) := by
  unfold bytes outcome
  cases step.parsed with
  | error err =>
    dsimp only
    rw [evalParsed, Sink.verdict_nil, Sink.completed_nil]
  | ok e => exact Sink.evalFlush_eq e.eval_eq_submit out

/-- What a step reports on any sink, and the sink that it leaves. -/
theorem perform_eq (step : Step) (out : Sink) :
    step.perform out =
      ({ outcome := out.verdict step.bytes step.outcome
         written := out.accepted step.bytes
         flushes := (out.completed step.bytes step.outcome).flushes
         consumed := step.consumed },
        out.completed step.bytes step.outcome) := by
  have hperform : step.perform out =
      ({ outcome := (evalParsed step.parsed out).1
         written := (evalParsed step.parsed out).2.written.drop out.written.length
         flushes := (evalParsed step.parsed out).2.flushes
         consumed := step.consumed },
        (evalParsed step.parsed out).2) := by
    cases step <;> rfl
  rw [hperform, evalParsed_eq]
  simp [Sink.completed]

end Step

/-! ### All steps -/

/-- The sink after some steps. -/
def Sink.after (out : Sink) (steps : List Step) : Sink :=
  steps.foldl (fun out step => (step.perform out).2) out

/-- The first of some steps leaves the sink for the others. -/
lemma Sink.after_cons (out : Sink) (step : Step) (steps : List Step) :
    out.after (step :: steps) = (out.completed step.bytes step.outcome).after steps := by
  rw [after, List.foldl_cons, step.perform_eq]
  rfl

/-- Each step is made on the sink that the steps before it leave. -/
lemma getElem?_session (steps : List Step) (out : Sink) (i : ℕ) :
    (session steps out)[i]? =
      steps[i]?.map fun step => (step.perform (out.after (steps.take i))).1 := by
  induction steps generalizing out i with
  | nil => rfl
  | cons step steps ih =>
    cases i with
    | zero => rfl
    | succ i => exact ih (step.perform out).2 i

/-- A session can be cut short. -/
lemma session_take (steps : List Step) (out : Sink) (i : ℕ) :
    session (steps.take i) out = (session steps out).take i := by
  induction steps generalizing out i with
  | nil => simp [session]
  | cons step steps ih =>
    cases i with
    | zero => rfl
    | succ i => simp [session, ih]

/-- The bytes of the steps use up the room, whether they fit or not. -/
lemma room_after (out : Sink) (steps : List Step) :
    (out.after steps).room = out.room.map (· - (steps.flatMap Step.bytes).length) := by
  induction steps generalizing out with
  | nil => simp [Sink.after]
  | cons step steps ih =>
    rw [Sink.after_cons, ih]
    simp [Sink.completed, Function.comp_def, Nat.sub_sub]

/-- Steps do not change how a sink refuses bytes, nor whether it can be flushed. -/
lemma modes_after (out : Sink) (steps : List Step) :
    (out.after steps).whenFull = out.whenFull ∧
      (out.after steps).flushFails = out.flushFails := by
  induction steps generalizing out with
  | nil => exact ⟨rfl, rfl⟩
  | cons step steps ih =>
    rw [Sink.after_cons]
    exact ih _

/-- A sink that can be flushed is flushed once for each step that has a value. -/
lemma flushes_after {out : Sink} (h : out.flushFails = false) (steps : List Step) :
    (out.after steps).flushes =
      out.flushes + (session steps out).countP fun r => r.outcome.isOk := by
  induction steps generalizing out with
  | nil => rfl
  | cons step steps ih =>
    have hmode : (out.completed step.bytes step.outcome).flushFails = false := h
    rw [Sink.after_cons, ih hmode, session, List.countP_cons, step.perform_eq]
    have hflushes : (out.completed step.bytes step.outcome).flushes =
        out.flushes + if out.fits step.bytes && step.outcome.isOk then 1 else 0 := rfl
    dsimp only
    rw [Sink.isOk_verdict h, hflushes]
    omega

/-- The bytes that the steps write in a session on a sink without a limit. -/
lemma flatMap_written_session {out : Sink} (h : out.room = none) (steps : List Step) :
    (session steps out).flatMap (·.written) = steps.flatMap Step.bytes := by
  induction steps generalizing out with
  | nil => rfl
  | cons step steps ih =>
    have hroom : (out.completed step.bytes step.outcome).room = none := by
      simp [Sink.completed, h]
    rw [session, List.flatMap_cons, List.flatMap_cons, step.perform_eq, ih hroom]
    simp [Sink.accepted, h]

/-! ### Sinks that run full -/

/-- The number of bytes that the steps before step `i` have written. -/
def writtenBefore (reports : List StepReport) (i : ℕ) : ℕ :=
  ((reports.take i).flatMap (·.written)).length

/-- The number of steps up to step `i` that have a value. -/
def succeeded (reports : List StepReport) (i : ℕ) : ℕ :=
  (reports.take (i + 1)).countP fun r => r.outcome.isOk

/-- The same report, but with a fault where there was a value. -/
def StepReport.unflushed (r : StepReport) : StepReport :=
  { r with outcome := if r.outcome.isOk then .error .flush else r.outcome }

/-- Whether a sink can be flushed shows in the outcomes only. -/
lemma session_flushFails (steps : List Step) (out : Sink) :
    session steps { out with flushFails := true } =
      (session steps { out with flushFails := false }).map StepReport.unflushed := by
  induction steps generalizing out with
  | nil => rfl
  | cons step steps ih =>
    rw [session, session, List.map_cons, step.perform_eq, step.perform_eq]
    apply congrArg₂
    · dsimp only
      rw [Sink.verdict_flushFails]
      rfl
    · exact ih (out.completed step.bytes step.outcome)

/-- The report of each step, if flushing works: what becomes of its bytes and its outcome
on the sink that the steps before it leave, and the number of values so far. -/
lemma getElem?_session_eq {out : Sink} (h : out.flushFails = false) (steps : List Step) (i : ℕ) :
    (session steps out)[i]? = steps[i]?.map fun step =>
      { outcome := (out.after (steps.take i)).verdict step.bytes step.outcome
        written := (out.after (steps.take i)).accepted step.bytes
        flushes := out.flushes + succeeded (session steps out) i
        consumed := step.consumed } := by
  rw [getElem?_session]
  cases hstep : steps[i]? with
  | none => rfl
  | some step =>
    have hafter : out.after (steps.take (i + 1)) =
        (out.after (steps.take i)).completed step.bytes step.outcome := by
      rw [List.take_add_one, hstep, Sink.after, List.foldl_append]
      exact congrArg Prod.snd (step.perform_eq _)
    have hflushes : ((out.after (steps.take i)).completed step.bytes step.outcome).flushes =
        out.flushes + succeeded (session steps out) i := by
      rw [← hafter, flushes_after h, session_take, succeeded]
    rw [Option.map_some, Option.map_some, step.perform_eq, hflushes]

/-- On a sink without a limit, each step has its outcome and writes its bytes. -/
lemma getElem?_session_free (steps : List Step) (i : ℕ) :
    (session steps {})[i]? = steps[i]?.map fun step =>
      { outcome := step.outcome
        written := step.bytes
        flushes := succeeded (session steps {}) i
        consumed := step.consumed } := by
  have hroom : (Sink.after {} (steps.take i)).room = none := room_after {} (steps.take i)
  have hmode : (Sink.after {} (steps.take i)).flushFails = false := (modes_after {} _).2
  rw [getElem?_session_eq rfl]
  simp [Sink.verdict, Sink.fits, Sink.accepted, hroom, hmode]

/-- On a sink that runs full, each step finds the room that the bytes before it have
left. -/
lemma getElem?_session_full (steps : List Step) (n : ℕ) (full : WriteError) (i : ℕ) :
    (session steps { room := some n, whenFull := full })[i]? = steps[i]?.map fun step =>
      { outcome :=
          if step.bytes.length ≤ n - ((steps.take i).flatMap Step.bytes).length then step.outcome
          else .error (.eval (.output full))
        written := step.bytes.take (n - ((steps.take i).flatMap Step.bytes).length)
        flushes := succeeded (session steps { room := some n, whenFull := full }) i
        consumed := step.consumed } := by
  have hroom := room_after { room := some n, whenFull := full } (steps.take i)
  have hmodes := modes_after { room := some n, whenFull := full } (steps.take i)
  rw [getElem?_session_eq rfl]
  generalize ((steps.take i).flatMap Step.bytes).length = before at hroom ⊢
  simp only [Sink.verdict, Sink.fits, Sink.accepted, hroom, hmodes, Option.map_some,
    Option.all_some, Bool.and_false, Bool.false_eq_true, if_false, Nat.zero_add,
    Bool.not_eq_true', decide_eq_false_iff_not, ite_not]

/-- A sink that runs full cuts the output of a session short and changes nothing else.
With room for `n` bytes it takes those bytes of a step that are among the first `n` of
all.  A step whose bytes all fit has the outcome that it has on a sink without a limit,
and any other step fails because of its output.  The sink is flushed for the steps that
have a value, and if flushing fails, these are the steps that fail. -/
theorem session_cut (steps : List Step) (n : ℕ) (full : WriteError) :
    (∀ i, (session steps { room := some n, whenFull := full })[i]? =
      (session steps {})[i]?.map fun r =>
        ({ outcome :=
             if r.written = [] ∨ writtenBefore (session steps {}) i + r.written.length ≤ n
             then r.outcome else .error (.eval (.output full))
           written := r.written.take (n - writtenBefore (session steps {}) i)
           flushes := succeeded (session steps { room := some n, whenFull := full }) i
           consumed := r.consumed } : StepReport)) ∧
    (∀ i, (session steps {})[i]?.map (·.flushes) =
      (session steps {})[i]?.map fun _ => succeeded (session steps {}) i) ∧
    (∀ room, session steps { room, whenFull := full, flushFails := true } =
      (session steps { room, whenFull := full }).map StepReport.unflushed) ∧
    WriteError.closed.message = "closed" ∧
    WriteError.stalled.message = "failed to write whole buffer" := by
  refine ⟨fun i => ?_, fun i => ?_, fun room => ?_, rfl, rfl⟩
  · have hbefore : writtenBefore (session steps {}) i =
        ((steps.take i).flatMap Step.bytes).length := by
      rw [writtenBefore, ← session_take, flatMap_written_session rfl]
    rw [getElem?_session_full, getElem?_session_free, hbefore, Option.map_map]
    congr 1
    funext step
    have hfits : step.bytes.length ≤ n - ((steps.take i).flatMap Step.bytes).length ↔
        step.bytes = [] ∨
          ((steps.take i).flatMap Step.bytes).length + step.bytes.length ≤ n := by
      rw [← List.length_eq_zero_iff]
      omega
    simp only [Function.comp_apply, hfits]
  · rw [getElem?_session_free, Option.map_map, Option.map_map]
    rfl
  · exact session_flushFails steps { room, whenFull := full }

/-- Four bytes of six are taken.  The last of them is in the middle of a piece, and a step
that writes nothing is not affected. -/
example :
    (session [.eval "(print 12 (+ 1 2))", .eval "(print \"ab\" 7)", .eval "()"]
      { room := some 4 }).map (fun r => (r.outcome, r.written, r.flushes)) =
      [(.ok none, [0x31, 0x32, 0x33], 1), (.error (.eval (.output .closed)), [0x61], 1),
        (.ok none, [], 2)] := by
  decide +kernel

end TinyLisp
