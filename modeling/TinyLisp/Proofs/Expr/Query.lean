import TinyLisp.Expr.Query
import TinyLisp.Proofs.Expr.Pending

/-!
# Answers come from the pending tokens

Between two queries a parser has nothing open (`Parser.IsReady`).  What it answers is
then a function of the tokens that are pending, and so is which of them are left for
the next query (`Parser.IsReady.ask`).  Two parsers with the same tokens before them
cannot be told apart by any sequence of queries (`Parser.IsReady.askAll`).
-/

namespace TinyLisp

namespace Pushdown

/-- Answers a query from the tokens pending, and gives the tokens left. -/
def ask (ts : List Token) : Parser.Query → Parser.Answer × List Token
  | .expression => (.expression (expression [] ts).1, (expression [] ts).2)
  | .expression? =>
    if ts = [] then (.expression? none, [])
    else (.expression? (some (expression [] ts).1), (expression [] ts).2)
  | .atEnd => (.atEnd (decide (ts = [])), ts)
  | .script => (.script (script ts).1, (script ts).2)

/-- Answers queries one after the other. -/
def askAll (ts : List Token) : List Parser.Query → List Parser.Answer
  | [] => []
  | q :: qs => (ask ts q).1 :: askAll (ask ts q).2 qs

end Pushdown

namespace Parser

/-- A parser between two queries. -/
structure IsReady (p : Parser) : Prop where
  coherent : p.Coherent
  frames_eq : p.frames = []

/-- A parser at the start of a source is ready. -/
lemma isReady_mk (s : Source) : IsReady { source := s } :=
  ⟨coherent_of_ahead_eq_none rfl, rfl⟩

/-- Looking at the next token keeps a parser ready. -/
lemma IsReady.peek {p : Parser} (h : p.IsReady) : p.peek.IsReady :=
  ⟨coherent_peek h.coherent, p.frames_peek.trans h.frames_eq⟩

/-- A ready parser reads an expression off the pending tokens, and is ready again. -/
lemma IsReady.expression {p : Parser} (h : p.IsReady) :
    p.expression.1 = (Pushdown.expression [] p.pending).1 ∧
      p.expression.2.pending = (Pushdown.expression [] p.pending).2 ∧
      p.expression.2.IsReady := by
  obtain ⟨heq, hcoherent, hframes⟩ := expression_eq h.coherent
  rw [h.frames_eq] at heq
  exact ⟨congrArg Prod.fst heq, congrArg Prod.snd heq, hcoherent, hframes⟩

/-- So it does with a script. -/
lemma IsReady.script {p : Parser} (h : p.IsReady) :
    p.script.1 = (Pushdown.script p.pending).1 ∧
      p.script.2.pending = (Pushdown.script p.pending).2 ∧ p.script.2.IsReady := by
  obtain ⟨heq, hcoherent, hframes⟩ := scriptInto_eq h.coherent h.frames_eq []
  refine ⟨?_, congrArg Prod.snd heq, hcoherent, hframes⟩
  have hfst : p.script.1 = (Pushdown.script p.pending).1.map ([].reverse ++ ·) :=
    congrArg Prod.fst heq
  rw [hfst]
  cases (Pushdown.script p.pending).1 <;> rfl

/-- A ready parser is at the end of the input if nothing is pending. -/
lemma IsReady.atEnd_fst {p : Parser} (h : p.IsReady) :
    p.atEnd.1 = decide (p.pending = []) := by
  rw [Bool.eq_iff_iff, decide_eq_true_iff]
  exact isEnd_next_iff h.coherent

/-- A ready parser answers every query from the pending tokens, and is ready again. -/
theorem IsReady.ask {p : Parser} (h : p.IsReady) (q : Query) :
    (p.ask q).1 = (Pushdown.ask p.pending q).1 ∧
      (p.ask q).2.pending = (Pushdown.ask p.pending q).2 ∧ (p.ask q).2.IsReady := by
  cases q with
  | expression =>
    obtain ⟨hanswer, hpending, hready⟩ := h.expression
    exact ⟨congrArg Answer.expression hanswer, hpending, hready⟩
  | expression? =>
    obtain ⟨hanswer, hpending, hready⟩ := h.peek.expression
    rw [pending_peek h.coherent] at hanswer hpending
    unfold Parser.ask Pushdown.ask expression?
    by_cases hnil : p.pending = []
    · have hend : p.atEnd.1 = true := by rw [h.atEnd_fst, decide_eq_true hnil]
      rw [if_pos hend, if_pos hnil]
      exact ⟨rfl, (pending_peek h.coherent).trans hnil, h.peek⟩
    · have hend : ¬p.atEnd.1 = true := by rw [h.atEnd_fst, decide_eq_true_iff]; exact hnil
      rw [if_neg hend, if_neg hnil]
      exact ⟨congrArg (Answer.expression? ∘ some) hanswer, hpending, hready⟩
  | atEnd => exact ⟨congrArg Answer.atEnd h.atEnd_fst, pending_peek h.coherent, h.peek⟩
  | script =>
    obtain ⟨hanswer, hpending, hready⟩ := h.script
    exact ⟨congrArg Answer.script hanswer, hpending, hready⟩

/-- So it does with queries one after the other. -/
theorem IsReady.askAll {p : Parser} (h : p.IsReady) (qs : List Query) :
    (p.askAll qs).map Prod.fst = Pushdown.askAll p.pending qs := by
  induction qs generalizing p with
  | nil => rfl
  | cons q qs ih =>
    obtain ⟨hanswer, hpending, hready⟩ := h.ask q
    rw [Parser.askAll, List.map_cons, ih hready, Pushdown.askAll, hanswer, hpending]

end Parser

end TinyLisp
