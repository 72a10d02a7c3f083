import TinyLisp.Proofs.Expr.Observation

/-!
# Going on after faults

A parser can be asked for its next expression again and again, also when the last one was
faulty.  A fault may be found in the middle of nested lists, and the token where it is
found may be left to be read.  Still every answer uses up a token, because nothing is open
when an expression is started, and so its first token is always read
(`Pushdown.rest_expression_suffix_tail`).

Therefore the answers come to an end after as many as there are tokens, at the latest, and
there the parser stays (`proceed_reaches_end`).
-/

namespace TinyLisp

/-- Reading an expression uses up the first token, be the expression faulty or not. -/
lemma Pushdown.rest_expression_suffix_tail (t : Token) (ts : List Token) :
    (expression [] (t :: ts)).2 <:+ ts := by
  have hstep : (step [] (t :: ts)).rest <:+ ts := rest_start_suffix [] t ts
  rw [expression_eq_resume]
  cases hturn : step [] (t :: ts) with
  | stop outcome rest => rwa [hturn] at hstep
  | go frames rest =>
    rw [hturn] at hstep
    exact (rest_expression_suffix frames rest).trans hstep

namespace Parser

/-- The parser when its next expression has been asked for `n` times, whatever the answers
were. -/
def proceed (p : Parser) (n : ℕ) : Parser :=
  p.after (List.replicate n .expression?)

/-- Asking for the next expression gets the parser further. -/
structure Advances (p : Parser) : Prop where
  /-- There is an answer, be it an expression or a fault. -/
  answers : ∃ r, p.expression?.1 = some r
  /-- The tokens left are some last ones of those before. -/
  suffix : p.expression?.2.pending <:+ p.pending
  /-- They are not all of them. -/
  ne : p.expression?.2.pending ≠ p.pending

lemma proceed_succ (p : Parser) (n : ℕ) : p.proceed (n + 1) = p.expression?.2.proceed n := rfl

/-- As long as a token is pending, asking for an expression gives an answer and uses up that
token. -/
lemma IsReady.expression?_of_cons {p : Parser} (h : p.IsReady) {t : Token} {ts : List Token}
    (hts : p.pending = t :: ts) :
    (∃ r, p.expression?.1 = some r) ∧ p.expression?.2.pending <:+ ts := by
  obtain ⟨hanswer, hpending, -⟩ := h.ask .expression?
  rw [hts, Pushdown.ask, if_neg (List.cons_ne_nil t ts)] at hanswer hpending
  refine ⟨⟨_, Answer.expression?.inj hanswer⟩, ?_⟩
  exact hpending ▸ Pushdown.rest_expression_suffix_tail t ts

/-- As long as tokens are pending, the parser advances. -/
lemma IsReady.advances {p : Parser} (h : p.IsReady) (hne : p.pending ≠ []) : p.Advances := by
  obtain ⟨t, ts, hts⟩ := List.exists_cons_of_ne_nil hne
  obtain ⟨hanswer, hsuffix⟩ := h.expression?_of_cons hts
  refine ⟨hanswer, ?_, fun heq => ?_⟩
  · rw [hts]
    exact hsuffix.trans (List.suffix_cons t ts)
  · have hlength : (t :: ts).length ≤ ts.length := by
      rw [← hts, ← heq]
      exact hsuffix.length_le
    exact absurd hlength (by simp)

/-- When nothing is pending, there is no expression. -/
lemma IsReady.of_pending_eq_nil {p : Parser} (h : p.IsReady) (hnil : p.pending = []) :
    p.expression?.1 = none ∧ p.expression.1 = .error (.unexpected .eof "") := by
  obtain ⟨hanswer, -⟩ := h.ask .expression?
  obtain ⟨hexpression, -⟩ := h.expression
  rw [hnil] at hanswer hexpression
  refine ⟨Answer.expression?.inj hanswer, hexpression.trans ?_⟩
  rw [Pushdown.expression_eq_resume]
  rfl

/-- Nothing is pending when as many expressions have been asked for as there are tokens, and
the parser advances as long as something is. -/
theorem IsReady.exists_proceed {p : Parser} (h : p.IsReady) :
    ∃ n ≤ p.pending.length, (∀ k < n, (p.proceed k).Advances) ∧ (p.proceed n).IsReady ∧
      (p.proceed n).pending = [] := by
  by_cases hnil : p.pending = []
  · exact ⟨0, Nat.zero_le _, by simp, h, hnil⟩
  · have hadvances := h.advances hnil
    have hlt : p.expression?.2.pending.length < p.pending.length := by
      apply Nat.lt_of_le_of_ne hadvances.suffix.length_le
      intro hlength
      exact hadvances.ne (hadvances.suffix.eq_of_length hlength)
    obtain ⟨n, hn, hbefore, hlast⟩ := IsReady.exists_proceed (h.ask .expression?).2.2
    refine ⟨n + 1, Nat.lt_of_le_of_lt hn hlt, fun k hk => ?_, ?_⟩
    · cases k with
      | zero => exact hadvances
      | succ k =>
        rw [proceed_succ]
        exact hbefore k (Nat.lt_of_succ_lt_succ hk)
    · rw [proceed_succ]
      exact hlast
termination_by p.pending.length

end Parser

/-- Asking for the next expression again and again comes to an end, on any source and across
all faults, after as many answers as there are tokens at the latest.  Each answer before
leaves some last ones of the pending tokens, but not all.  Whatever is asked afterwards,
there is no next expression, and an expression is missed at the end of the input. -/
theorem proceed_reaches_end (s : Source) :
    ∃ n ≤ s.tokens.1.length,
      (∀ k < n, (Parser.proceed { source := s } k).Advances) ∧
      (Parser.proceed { source := s } n).expression?.1 = none ∧
      ∀ qs, ((Parser.proceed { source := s } n).expression?.2.after qs).expression?.1 = none ∧
        ((Parser.proceed { source := s } n).expression?.2.after qs).expression.1 =
          .error (.unexpected .eof "") := by
  obtain ⟨n, hn, hbefore, hready, hnil⟩ := (Parser.isReady_mk s).exists_proceed
  have hend := hready.of_pending_eq_nil hnil
  refine ⟨n, hn, hbefore, hend.1, fun qs => ?_⟩
  -- the query that found the end is one more among those that follow
  obtain ⟨hafter, hsuffix⟩ := hready.after (.expression? :: qs)
  rw [hnil, List.suffix_nil] at hsuffix
  exact hafter.of_pending_eq_nil hsuffix

end TinyLisp
