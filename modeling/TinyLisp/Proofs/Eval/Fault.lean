import TinyLisp.Proofs.Eval.Meaning
import TinyLisp.Proofs.Eval.Order

/-!
# Faults of evaluation

An expression is faulty if it can never have a value: a name, a quoted list, or a list
of several items that does not start with a name (`Expr.fault?`).  A faulty expression
evaluates none of its items.

The evaluations that end one after the other (`Expr.visits`) can be settled one by one
(`Expr.settle`): a faulty one ends everything, and any other writes its output.
Evaluating a tree comes to the same (`Expr.eval_eq_settle`).  Hence it fails with the
leftmost fault of the tree, after it has printed what the calls of `print` entirely
before that fault print (`Expr.eval_leftmostFault`).
-/

namespace TinyLisp

namespace Expr

/-- What is wrong with an expression that can have no value. -/
def fault? : Expr → Option EvalError
  | .atom name => some (.bareAtom name)
  | .quoted items => some (.quotedList items)
  | .list (.atom _ :: _) => none
  | .list (x :: y :: items) => some (.notProcedure (x :: y :: items))
  | _ => none

/-- A fault that the evaluation of a tree comes across. -/
def FaultAt (e : Expr) (p : Place) (err : EvalError) : Prop :=
  ∃ x, e.Evaluates p x ∧ x.fault? = some err

/-- A fault of a tree that lies entirely before all others. -/
def LeftmostFault (e : Expr) (p : Place) (err : EvalError) : Prop :=
  e.FaultAt p err ∧ ∀ q err', e.FaultAt q err' → q = p ∨ Place.Before p q

/-- A faulty expression evaluates none of its items. -/
lemma demands_of_fault? {x : Expr} {err : EvalError} (h : x.fault? = some err) :
    x.demands = [] := by
  fun_cases fault? x <;> simp_all [fault?, demands]

/-- The message of a fault ends with the source of the faulty expression. -/
lemma render_isSuffix_message {x : Expr} {err : EvalError} (h : x.fault? = some err) :
    x.render.toList <:+ err.message.toList := by
  have hsuffix (label source : String) : source.toList <:+ (label ++ source).toList := by
    rw [String.toList_append]
    exact List.suffix_append label.toList source.toList
  fun_cases fault? x with
  | case1 name =>
    obtain rfl : EvalError.bareAtom name = err := by simpa [fault?] using h
    have hname : (Expr.atom name).render = name := by simp [render, chars]
    rw [hname]
    exact hsuffix _ name
  | case2 items =>
    obtain rfl : EvalError.quotedList items = err := by simpa [fault?] using h
    exact hsuffix _ (Expr.quoted items).render
  | case4 y z items hy =>
    obtain rfl : EvalError.notProcedure (y :: z :: items) = err := by
      simpa [fault?, hy] using h
    exact hsuffix _ (Expr.list (y :: z :: items)).render
  | _ => simp_all [fault?]

/-- The expressions that are evaluated, in the order in which their evaluations end. -/
def endings (e : Expr) : List Expr :=
  e.visits.map Prod.snd

lemma endings_eq (e : Expr) :
    e.endings = (e.demands.map Prod.fst).flatMap endings ++ [e] := by
  rw [endings, visits_eq, List.map_append, List.map_flatMap, List.flatMap_map]
  simp [endings, Function.comp_def]

/-! ### Settling evaluations one by one -/

/-- What evaluations that end one after the other come to, as far as the first fault. -/
def settle : List Expr → Sink → Option EvalError × Sink
  | [], out => (none, out)
  | x :: xs, out =>
    match x.fault? with
    | some err => (some err, out)
    | none => settle xs (out.extend x.output)

lemma settle_append (xs ys : List Expr) (out : Sink) :
    settle (xs ++ ys) out =
      match settle xs out with
      | (some err, out) => (some err, out)
      | (none, out) => settle ys out := by
  induction xs generalizing out with
  | nil => rfl
  | cons x xs ih =>
    rw [List.cons_append, settle, settle]
    cases x.fault? with
    | some err => rfl
    | none => exact ih _

/-- Settling evaluations without a fault writes what they write, in their order. -/
lemma settle_of_forall {xs : List Expr} (h : ∀ x ∈ xs, x.fault? = none) (out : Sink) :
    settle xs out = (none, out.extend (xs.flatMap output)) := by
  induction xs generalizing out with
  | nil => simp [settle]
  | cons x xs ih =>
    rw [settle, h x List.mem_cons_self]
    simp [ih fun y hy => h y (List.mem_cons_of_mem x hy)]

/-- Settling evaluations does not limit a sink. -/
lemma room_of_settle {xs : List Expr} {out last : Sink} {fault : Option EvalError}
    (h : settle xs out = (fault, last)) : last.room = out.room := by
  induction xs generalizing out with
  | nil =>
    obtain ⟨-, rfl⟩ := Prod.mk.inj h
    rfl
  | cons x xs ih =>
    rw [settle] at h
    cases hx : x.fault? with
    | some err =>
      rw [hx] at h
      obtain ⟨-, rfl⟩ := Prod.mk.inj h
      rfl
    | none =>
      rw [hx] at h
      exact (ih h).trans (out.room_extend x.output)

/-! ### Evaluation -/

/-- The answer that settled evaluations lead to: a value, unless there was a fault. -/
def conclude {α : Type} (a : α) : Option EvalError × Sink → Except EvalError α × Sink
  | (some err, out) => (.error err, out)
  | (none, out) => (.ok a, out)

/-- Evaluating arguments settles all that they evaluate, one argument after the other. -/
lemma evalArgs_eq_settle {es : List Expr}
    (h : ∀ e ∈ es, ∀ out : Sink, out.room = none →
      e.eval out = conclude e.meaning.toValue (settle e.endings out))
    {out : Sink} (hroom : out.room = none) :
    evalArgs es out =
      conclude (es.map (·.meaning.toValue)) (settle (es.flatMap endings) out) := by
  induction es generalizing out with
  | nil => rfl
  | cons e es ih =>
    rw [evalArgs, h e List.mem_cons_self out hroom, List.flatMap_cons, settle_append]
    rcases hmid : settle e.endings out with ⟨_ | err, mid⟩
    · have hes := ih (fun x hx => h x (List.mem_cons_of_mem e hx))
        ((room_of_settle hmid).trans hroom)
      simp only [conclude, hes]
      rcases settle (es.flatMap endings) mid with ⟨_ | err, last⟩
      · rfl
      · rfl
    · rfl

/-- Evaluating an expression settles all that it evaluates. -/
lemma eval_eq_settle (e : Expr) {out : Sink} (hroom : out.room = none) :
    e.eval out = conclude e.meaning.toValue (settle e.endings out) := by
  induction e using demands_induction generalizing out with
  | step e ih =>
    have hargs : evalArgs (e.demands.map Prod.fst) out = _ := evalArgs_eq_settle (by
      intro x hx mid hmid
      obtain ⟨d, hd, rfl⟩ := List.mem_map.mp hx
      exact ih d hd hmid) hroom
    rw [endings_eq, settle_append]
    fun_cases demands e with
    | case1 name args =>
      simp only [demands, List.zipIdx_map_fst] at hargs ⊢
      rw [eval, hargs]
      rcases hlast : settle (args.flatMap endings) out with ⟨_ | err, last⟩
      · exact call_eq name args ((room_of_settle hlast).trans hroom)
      · rfl
    | case2 x hx =>
      have hmeaning : meaning (.list [x]) = meaning x := by
        rw [meaning]
        exact hx
      have hitem : x.eval out = _ := ih (x, 0) (by simp [demands]) hroom
      have hlast (last : Sink) : settle [.list [x]] last = (none, last) := by
        have hfault : fault? (.list [x]) = none := by
          cases x <;> rfl
        have houtput : output (.list [x]) = [] := output_eq_nil fun name args h =>
          hx name (List.cons.inj (Expr.list.inj h)).1
        simp [settle, hfault, houtput]
      rw [eval, hmeaning, hitem]
      · simp only [List.map_cons, List.map_nil, List.flatMap_cons, List.flatMap_nil,
          List.append_nil, hlast]
        rcases settle x.endings out with ⟨_ | err, last⟩
        · rfl
        · rfl
      · exact hx
    | case3 e hcall hsingle =>
      have houtput : e.output = [] := output_eq_nil hcall
      have hend : e.eval out = conclude e.meaning.toValue (settle [e] out) := by
        cases e with
        | list items =>
          rcases items with _ | ⟨x, _ | ⟨y, items⟩⟩
          · simp [eval, meaning, settle, fault?, houtput, conclude, Datum.toValue]
          · exact (hsingle x rfl).elim
          · cases x with
            | atom name => exact (hcall name (y :: items) rfl).elim
            | _ => rfl
        | _ => simp [eval, meaning, settle, fault?, houtput, conclude, Datum.toValue]
      exact hend

/-! ### The leftmost fault -/

/-- There is no more than one leftmost fault. -/
lemma LeftmostFault.unique {e : Expr} {p q : Place} {err err' : EvalError}
    (hp : e.LeftmostFault p err) (hq : e.LeftmostFault q err') : p = q ∧ err = err' := by
  have hpq : p = q := by
    rcases hp.2 q err' hq.1 with rfl | hbefore
    · rfl
    · rcases hq.2 p err hp.1 with rfl | hafter
      · rfl
      · exact absurd hafter (Place.Sooner.not_before (Or.inl hbefore))
  subst hpq
  obtain ⟨⟨x, hx, hxerr⟩, -⟩ := hp
  obtain ⟨⟨y, hy, hyerr⟩, -⟩ := hq
  obtain rfl := hx.unique hy
  exact ⟨rfl, Option.some.inj (hxerr.symm.trans hyerr)⟩

/-- What ends sooner than a faulty expression lies entirely before it, because nothing is
evaluated inside of it. -/
lemma before_of_sooner {e x y : Expr} {p q : Place} {err : EvalError}
    (hq : e.Evaluates q x) (hx : x.fault? = some err) (hp : e.Evaluates p y)
    (h : Place.Sooner p q) : Place.Before p q := by
  rcases h with h | ⟨hqp, hne⟩
  · exact h
  · exact absurd (hq.eq_of_isPrefix (demands_of_fault? hx) hp hqp).symm hne

section FirstFault

variable {e x : Expr} {q : Place} {err : EvalError} {before after : List (Place × Expr)}

/-- A visit ends later than those before it, and sooner than those after it. -/
lemma sooner_of_visits (hvisits : e.visits = before ++ (q, x) :: after) :
    (∀ v ∈ before, Place.Sooner v.1 q) ∧ ∀ v ∈ after, Place.Sooner q v.1 := by
  have hsooner := e.pairwise_visits
  rw [hvisits, List.pairwise_append, List.pairwise_cons] at hsooner
  obtain ⟨-, ⟨hafter, -⟩, hbefore⟩ := hsooner
  exact ⟨fun v hv => hbefore v hv (q, x) List.mem_cons_self, hafter⟩

/-- The visits before a faulty one lie entirely before it. -/
lemma mem_before_iff (hvisits : e.visits = before ++ (q, x) :: after)
    (hx : x.fault? = some err) {p : Place} {y : Expr} :
    (p, y) ∈ before ↔ e.Evaluates p y ∧ Place.Before p q := by
  obtain ⟨hbefore, hafter⟩ := sooner_of_visits hvisits
  have hq : e.Evaluates q x := mem_visits.mp (by simp [hvisits])
  constructor
  · intro hp
    have hy : e.Evaluates p y := mem_visits.mp (by simp [hvisits, hp])
    exact ⟨hy, before_of_sooner hq hx hy (hbefore _ hp)⟩
  · rintro ⟨hy, hlt⟩
    have hmem := mem_visits.mpr hy
    rw [hvisits, List.mem_append, List.mem_cons] at hmem
    rcases hmem with hmem | heq | hmem
    · exact hmem
    · obtain ⟨rfl, -⟩ := Prod.mk.inj heq
      exact absurd hlt (Place.Sooner.not_before (Or.inl hlt))
    · exact absurd hlt (hafter _ hmem).not_before

/-- The first faulty visit is the leftmost fault. -/
lemma leftmostFault_of_visits (hvisits : e.visits = before ++ (q, x) :: after)
    (hbefore : ∀ v ∈ before, v.2.fault? = none) (hx : x.fault? = some err) :
    e.LeftmostFault q err := by
  obtain ⟨-, hafter⟩ := sooner_of_visits hvisits
  have hq : e.Evaluates q x := mem_visits.mp (by simp [hvisits])
  refine ⟨⟨x, hq, hx⟩, ?_⟩
  rintro p err' ⟨y, hy, hyerr⟩
  have hmem := mem_visits.mpr hy
  rw [hvisits, List.mem_append, List.mem_cons] at hmem
  rcases hmem with hmem | heq | hmem
  · rw [hbefore _ hmem] at hyerr
    simp at hyerr
  · exact Or.inl (Prod.mk.inj heq).1
  · exact Or.inr (before_of_sooner hy hyerr hq (hafter _ hmem))

end FirstFault

/-- No visit is faulty, or one of them is the first that is. -/
lemma forall_fault?_or_exists (e : Expr) :
    (∀ v ∈ e.visits, v.2.fault? = none) ∨
      ∃ before q x after err, e.visits = before ++ (q, x) :: after ∧
        (∀ v ∈ before, v.2.fault? = none) ∧ x.fault? = some err := by
  cases hfind : e.visits.find? (·.2.fault?.isSome) with
  | none =>
    left
    intro v hv
    simpa using List.find?_eq_none.mp hfind v hv
  | some v =>
    right
    obtain ⟨hv, before, after, hvisits, hbefore⟩ := List.find?_eq_some_iff_append.mp hfind
    obtain ⟨err, herr⟩ := Option.isSome_iff_exists.mp hv
    refine ⟨before, v.1, v.2, after, err, hvisits, ?_, herr⟩
    intro w hw
    simpa using hbefore w hw

/-- Evaluation completes what lies entirely before the leftmost fault, and fails with that
fault. -/
lemma exists_completed (e : Expr) {out : Sink} (hroom : out.room = none) :
    ∃ done : List (Place × Expr),
      done.Pairwise (fun v w => Place.Sooner v.1 w.1) ∧
      (∀ p x, (p, x) ∈ done ↔
        e.Evaluates p x ∧ ∀ q err, e.LeftmostFault q err → Place.Before p q) ∧
      (e.eval out).2 = out.extend (done.flatMap (·.2.output)) ∧
      ((e.eval out).1 = .ok e.meaning.toValue ∧ (¬∃ p err, e.FaultAt p err) ∨
        ∃ p err, e.LeftmostFault p err ∧ (e.eval out).1 = .error err) := by
  rw [eval_eq_settle e hroom, endings]
  rcases e.forall_fault?_or_exists with hnone | ⟨before, q, x, after, err, hvisits, hbefore, hx⟩
  · have hfault : ¬∃ p err, e.FaultAt p err := by
      rintro ⟨p, err, x, hx, herr⟩
      rw [hnone _ (mem_visits.mpr hx)] at herr
      simp at herr
    rw [settle_of_forall (List.forall_mem_map.mpr hnone), List.flatMap_map]
    refine ⟨e.visits, e.pairwise_visits, ?_, rfl, Or.inl ⟨rfl, hfault⟩⟩
    intro p x
    rw [mem_visits]
    constructor
    · intro h
      exact ⟨h, fun q err hq => absurd ⟨q, err, hq.1⟩ hfault⟩
    · exact And.left
  · have hleftmost := leftmostFault_of_visits hvisits hbefore hx
    have hsettle : settle (e.visits.map Prod.snd) out
        = (some err, out.extend (before.flatMap (·.2.output))) := by
      rw [hvisits, List.map_append, List.map_cons, settle_append,
        settle_of_forall (List.forall_mem_map.mpr hbefore), List.flatMap_map]
      simp [settle, hx]
    rw [hsettle]
    have hpairwise := e.pairwise_visits
    rw [hvisits, List.pairwise_append] at hpairwise
    refine ⟨before, hpairwise.1, ?_, rfl, Or.inr ⟨q, err, hleftmost, rfl⟩⟩
    intro p y
    rw [mem_before_iff hvisits hx]
    constructor
    · rintro ⟨hy, hlt⟩
      refine ⟨hy, fun q' err' hq' => ?_⟩
      obtain ⟨rfl, -⟩ := hleftmost.unique hq'
      exact hlt
    · rintro ⟨hy, hlt⟩
      exact ⟨hy, hlt q err hleftmost⟩

/-- The leftmost fault is what evaluation fails with. -/
lemma eval_eq_error_iff (e : Expr) {out : Sink} (hroom : out.room = none) (err : EvalError) :
    (e.eval out).1 = .error err ↔ ∃ p, e.LeftmostFault p err := by
  obtain ⟨-, -, -, -, hanswer⟩ := exists_completed e hroom
  constructor
  · intro h
    rcases hanswer with ⟨hok, -⟩ | ⟨p, err', hp, herr⟩
    · rw [hok] at h
      simp at h
    · rw [herr] at h
      obtain rfl := Except.error.inj h
      exact ⟨p, hp⟩
  · rintro ⟨p, hp⟩
    rcases hanswer with ⟨-, hnone⟩ | ⟨q, err', hq, herr⟩
    · exact absurd ⟨p, err, hp.1⟩ hnone
    · obtain ⟨-, rfl⟩ := hp.unique hq
      exact herr

/-! ### What is printed -/

/-- What a sequence of evaluations writes is what its calls of `print` write. -/
lemma exists_calls {done : List (Place × Expr)}
    (h : done.Pairwise fun v w => Place.Sooner v.1 w.1) :
    ∃ calls : List (Place × List Expr),
      calls.Pairwise (fun c d => Place.Sooner c.1 d.1) ∧
      (∀ p args, (p, args) ∈ calls ↔ (p, .list (.atom "print" :: args)) ∈ done) ∧
      (calls.flatMap fun c => printout c.2) = done.flatMap (·.2.output) := by
  refine ⟨done.filterMap fun v => v.2.printArgs?.map fun args => (v.1, args), ?_, ?_, ?_⟩
  · rw [List.pairwise_filterMap]
    refine h.imp fun hsooner c hc d hd => ?_
    obtain ⟨_, -, rfl⟩ := Option.map_eq_some_iff.mp hc
    obtain ⟨_, -, rfl⟩ := Option.map_eq_some_iff.mp hd
    exact hsooner
  · intro p args
    simp only [List.mem_filterMap, Option.map_eq_some_iff, printArgs?_eq_some_iff,
      Prod.mk.injEq]
    constructor
    · rintro ⟨⟨q, x⟩, hv, args', rfl, rfl, rfl⟩
      exact hv
    · intro hv
      exact ⟨_, hv, args, rfl, rfl, rfl⟩
  · rw [List.filterMap_eq_flatMap_toList, List.flatMap_assoc]
    congr
    funext v
    rw [output]
    cases v.2.printArgs? with
    | none => rfl
    | some args => simp

/-- Evaluation with a sink that never refuses anything fails if and only if the tree has
a fault.  It fails with the leftmost fault, and the message ends with the source of the
faulty expression.  What it prints is what all the calls of `print` print that lie
entirely before that fault, in the order in which they end. -/
theorem eval_leftmostFault (e : Expr) (out : Sink) (hroom : out.room = none) :
    ((∃ err, (e.eval out).1 = .error err) ↔ ∃ p err, e.FaultAt p err) ∧
    (∀ err, (e.eval out).1 = .error err ↔ ∃ p, e.LeftmostFault p err) ∧
    (∀ p err, e.LeftmostFault p err →
      ∃ x, e.Evaluates p x ∧ x.render.toList <:+ err.message.toList) ∧
    (∀ v, (e.eval out).1 = .ok v → v = e.meaning.toValue) ∧
    ∃ calls : List (Place × List Expr),
      calls.Pairwise (fun c d => Place.Sooner c.1 d.1) ∧
      (∀ p args, (p, args) ∈ calls ↔
        e.Evaluates p (.list (.atom "print" :: args)) ∧
          ∀ q err, e.LeftmostFault q err → Place.Before p q) ∧
      (e.eval out).2 = out.extend (calls.flatMap fun c => printout c.2) := by
  obtain ⟨done, hdone, hmem, hout, hanswer⟩ := exists_completed e hroom
  obtain ⟨calls, hcalls, hprint, hwritten⟩ := exists_calls hdone
  have herror (err : EvalError) := eval_eq_error_iff e hroom err
  refine ⟨⟨?_, ?_⟩, herror, ?_, ?_, calls, hcalls, ?_, ?_⟩
  · rintro ⟨err, h⟩
    obtain ⟨p, hp⟩ := (herror err).mp h
    exact ⟨p, err, hp.1⟩
  · intro hfault
    rcases hanswer with ⟨-, hnone⟩ | ⟨p, err, -, herr⟩
    · exact absurd hfault hnone
    · exact ⟨err, herr⟩
  · rintro p err ⟨⟨x, hx, herr⟩, -⟩
    exact ⟨x, hx, render_isSuffix_message herr⟩
  · intro v hv
    rcases hanswer with ⟨hok, -⟩ | ⟨p, err, -, herr⟩
    · rw [hok] at hv
      exact (Except.ok.inj hv).symm
    · rw [herr] at hv
      simp at hv
  · intro p args
    rw [hprint, hmem]
  · rw [hout, hwritten]

/-- In `(print (print "a") 2 (f (print (+ 1 2)) x (print "b")) (1 2))` the name `x` is the
leftmost fault, and two of the four calls of `print` are done before it. -/
theorem eval_leftmostFault_nested :
    let e : Expr := .list [.atom "print", .list [.atom "print", .text "a"], .number 2,
      .list [.atom "f", .list [.atom "print", .list [.atom "+", .number 1, .number 2]],
        .atom "x", .list [.atom "print", .text "b"]],
      .list [.number 1, .number 2]]
    ({} : Sink).room = none ∧
      e.eval {} = (.error (.bareAtom "x"), { written := Utf8.encode "a3" }) ∧
      ∃ p, e.LeftmostFault p (.bareAtom "x") := by
  intro e
  have heval : e.eval {} = (.error (.bareAtom "x"), { written := Utf8.encode "a3" }) := by
    decide +kernel
  refine ⟨rfl, heval, ?_⟩
  exact ((eval_leftmostFault e {} rfl).2.1 (.bareAtom "x")).mp (by rw [heval])

end Expr

end TinyLisp
