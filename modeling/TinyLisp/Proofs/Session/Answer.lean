import TinyLisp.Proofs.Eval.Exact
import TinyLisp.Proofs.Expr.RoundTrip
import TinyLisp.Session.Basic

/-!
# Answers that are typed back in

The value of an expression is a number or one of the texts that the expression contains,
however many calls and lists stand around it (`Expr.eval_value`).  Such a value is an
expression that evaluates to itself.  So the rendering of a value can be evaluated in its
turn and comes to the same value, as long as the rendering is read back as what it renders:
a text is rendered just as it is, and must not hold what would have to be escaped
(`evalText_render_answer`).
-/

namespace TinyLisp

namespace Expr

/-! ### Values -/

/-- The value of a call is a number. -/
lemma dispatch_value {name : String} {values : List Value} {out out' : Sink} {v : Expr}
    (h : dispatch name values out = (.ok (some v), out')) : ∃ n, v = .number n := by
  unfold dispatch at h
  split at h
  · simp at h
  · next p _ =>
    cases p with
    | print => exact absurd (Procedure.eq_none_of_printAll h) (by simp)
    | add =>
      obtain ⟨hv, -⟩ := Prod.mk.inj h
      exact ⟨_, (Option.some.inj (Except.ok.inj hv)).symm⟩
    | mul =>
      obtain ⟨hv, -⟩ := Prod.mk.inj h
      exact ⟨_, (Option.some.inj (Except.ok.inj hv)).symm⟩

/-- The value of an expression is a number, or a text that the expression contains. -/
theorem eval_value (e : Expr) {out out' : Sink} {v : Expr}
    (h : e.eval out = (.ok (some v), out')) :
    (∃ n, v = .number n) ∨ ∃ t, v = .text t ∧ .text t ∈ e.nodes := by
  -- a list of one item passes the value of its item on
  have hone : ∀ item : Expr,
      ((∃ n, v = .number n) ∨ ∃ t, v = .text t ∧ .text t ∈ item.nodes) →
      (∃ n, v = .number n) ∨ ∃ t, v = .text t ∧ .text t ∈ (list [item]).nodes := by
    intro item hitem
    refine hitem.imp_right ?_
    rintro ⟨t, hv, ht⟩
    exact ⟨t, hv, nodes_subset_of_mem_items (e := .list [item]) List.mem_cons_self ht⟩
  match e with
  | .atom _ | .quoted _ | .list [] => simp [eval] at h
  | .number n =>
    obtain ⟨hv, -⟩ := Prod.mk.inj h
    exact Or.inl ⟨n, (Option.some.inj (Except.ok.inj hv)).symm⟩
  | .text t =>
    obtain ⟨hv, -⟩ := Prod.mk.inj h
    exact Or.inr ⟨t, (Option.some.inj (Except.ok.inj hv)).symm, mem_nodes_self _⟩
  | .list (.atom name :: args) =>
    rw [eval_call] at h
    obtain ⟨values, mid, -, hcall⟩ := exists_of_andThen_eq_ok h
    exact Or.inl (dispatch_value hcall)
  | .list [.number n] => exact hone _ (eval_value (.number n) h)
  | .list [.text t] => exact hone _ (eval_value (.text t) h)
  | .list [.quoted items] => exact hone _ (eval_value (.quoted items) h)
  | .list [.list items] => exact hone _ (eval_value (.list items) h)
  | .list (.number _ :: _ :: _) | .list (.text _ :: _ :: _) | .list (.quoted _ :: _ :: _)
  | .list (.list _ :: _ :: _) => simp [eval] at h

/-- A number can be read back from its rendering. -/
lemma wellFormed_number (n : Int64) : (number n).WellFormed := by
  refine ⟨?_, ?_, ?_, ?_⟩ <;> simp [nodes, items, Apart, levels]

/-- So can a text that holds nothing to be escaped. -/
lemma wellFormed_text {t : String} (h : '\x22' ∉ t.toList ∧ '\\' ∉ t.toList) :
    (text t).WellFormed := by
  refine ⟨?_, ?_, ?_, ?_⟩
  · simp [nodes]
  · simpa [nodes] using h
  · simp [nodes, items, Apart]
  · simp [levels]

end Expr

/-! ### Evaluating a rendering -/

/-- What a source comes to is what its first expression comes to, if the sink can be
flushed afterwards. -/
lemma evalText_eq_ok {s : String} {v : Value} {out out' : Sink}
    (h : evalText s out = (.ok v, out')) :
    ∃ e mid, parseExpr s = .ok e ∧ e.eval out = (.ok v, mid) ∧ mid.flushFails = false ∧
      out' = mid.flush.2 := by
  unfold evalText evalParsed at h
  split at h
  · simp at h
  · next e hparse =>
    unfold Expr.evalFlush at h
    split at h
    · simp at h
    · next w mid heval =>
      split at h
      · next hflush =>
        obtain ⟨hv, rfl⟩ := Prod.mk.inj h
        obtain rfl := Except.ok.inj hv
        exact ⟨e, mid, hparse, heval, by simpa [Sink.flush] using hflush, rfl⟩
      · simp at h

/-- The rendering of an expression that is its own value comes to that value, and nothing
is written. -/
lemma evalText_render {v : Expr} {out : Sink} (hv : v.eval out = (.ok (some v), out))
    (hread : v.WellFormed) (hflush : out.flushFails = false) :
    evalText v.render out = (.ok (some v), { out with flushes := out.flushes + 1 }) := by
  rw [evalText, parseExpr_render hread]
  simp [evalParsed, Expr.evalFlush, hv, Sink.flush, hflush]

/-- If a source has a value, it is a number or one of the texts of its first expression.  The
rendering of the value has the same value again, and nothing is written, unless the value is
a text with a quote or a backslash in it.  This holds on every sink that can be flushed, and
so it does on the one that is left. -/
theorem evalText_render_answer {s : String} {v : Expr} {out out' : Sink}
    (h : evalText s out = (.ok (some v), out')) :
    (∃ e, parseExpr s = .ok e ∧
        ((∃ n, v = .number n) ∨ ∃ t, v = .text t ∧ .text t ∈ e.nodes)) ∧
      out'.flushFails = false ∧
      ((∀ t, v = .text t → '\x22' ∉ t.toList ∧ '\\' ∉ t.toList) →
        ∀ again : Sink, again.flushFails = false →
          evalText v.render again =
            (.ok (some v), { again with flushes := again.flushes + 1 })) := by
  obtain ⟨e, mid, hparse, heval, hflush, rfl⟩ := evalText_eq_ok h
  have hvalue := e.eval_value heval
  refine ⟨⟨e, hparse, hvalue⟩, hflush, fun htexts again hagain => ?_⟩
  rcases hvalue with ⟨n, rfl⟩ | ⟨t, rfl, -⟩
  · have hself : (Expr.number n).eval again = (.ok (some (.number n)), again) := by
      rw [Expr.eval]
    exact evalText_render hself (Expr.wellFormed_number n) hagain
  · have hself : (Expr.text t).eval again = (.ok (some (.text t)), again) := by
      rw [Expr.eval]
    exact evalText_render hself (Expr.wellFormed_text (htexts t rfl)) hagain

/-- A sum in a list of its own wraps around to the least number and prints on the way.  Its
rendering starts with a minus sign. -/
theorem evalText_render_answer_least :
    evalText "((+ 9223372036854775807 1 (print \"x\")))" {} =
        (.ok (some (.number Int64.minValue)), { written := [0x78], flushes := 1 }) ∧
      (Expr.number Int64.minValue).render = "-9223372036854775808" ∧
      evalText "-9223372036854775808" { written := [0x78], flushes := 1 } =
        (.ok (some (.number Int64.minValue)), { written := [0x78], flushes := 2 }) := by
  have h : evalText "((+ 9223372036854775807 1 (print \"x\")))" {} =
      (.ok (some (.number Int64.minValue)), { written := [0x78], flushes := 1 }) := by
    decide +kernel
  have hrender : (Expr.number Int64.minValue).render = "-9223372036854775808" := by
    decide +kernel
  obtain ⟨-, hflush, hagain⟩ := evalText_render_answer h
  have hback := hagain (by simp) _ hflush
  rw [hrender] at hback
  exact ⟨h, hrender, hback⟩

end TinyLisp
