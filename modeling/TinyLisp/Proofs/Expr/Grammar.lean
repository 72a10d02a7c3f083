import TinyLisp.Proofs.Expr.Pushdown
import TinyLisp.Proofs.Expr.Shape

/-!
# A grammar for the automaton

`Pushdown.Spells us es rest` says that the tokens `us` spell the expressions `es`, where
the tokens `rest` follow.  A number may be spelled in more than one way, and what
follows matters to a minus sign.

The automaton reads what is spelled (`Spells.parsed`), in every list that is open
and at the top level, as long as there are no more levels than it may go down.
-/

namespace TinyLisp.Pushdown

/-- The tokens `us` spell the expressions `es` where the tokens `rest` follow. -/
inductive Spells : List Token → List Expr → List Token → Prop
  | nil {rest : List Token} : Spells [] [] rest
  | leaf {used us rest : List Token} {e : Expr} {es : List Expr}
      (he : Leaf used e (us ++ rest)) (hes : Spells us es rest) :
      Spells (used ++ us) (e :: es) rest
  | list {l r : Token} {vs us rest : List Token} {items es : List Expr}
      (hl : l.kind = .lparen) (hr : r.kind = .rparen)
      (hitems : Spells vs items (r :: (us ++ rest))) (hes : Spells us es rest) :
      Spells (l :: vs ++ [r] ++ us) (.list items :: es) rest
  | quoted {q l r : Token} {vs us rest : List Token} {items es : List Expr}
      (hq : q.kind = .quote) (hl : l.kind = .lparen) (hr : r.kind = .rparen)
      (hitems : Spells vs items (r :: (us ++ rest))) (hes : Spells us es rest) :
      Spells (q :: l :: vs ++ [r] ++ us) (.quoted items :: es) rest

/-- The tokens `us` are read as the expressions `es` before the tokens `rest`, be it
inside a list or at the top level. -/
structure Parsed (us : List Token) (es : List Expr) (rest : List Token) : Prop where
  in_list : ∀ done outer, outer.length + 1 + Expr.levelsAll es ≤ depthLimit →
    expression (.list done :: outer) (us ++ rest) =
      expression (.list (es.reverse ++ done) :: outer) rest
  at_top : Expr.levelsAll es ≤ depthLimit →
    script (us ++ rest) = ((script rest).1.map (es ++ ·), (script rest).2)

lemma parsed_nil (rest : List Token) : Parsed [] [] rest := by
  refine ⟨fun done outer _ => rfl, fun _ => ?_⟩
  rw [List.nil_append]
  cases hscript : script rest with
  | mk outcome ts => cases outcome <;> rfl

/-- An expression is read where it stands, if it is so whatever is open there. -/
lemma Parsed.cons {used us rest : List Token} {e : Expr} {es : List Expr}
    (he : ∀ frames, frames.length + e.levels ≤ depthLimit →
      expression frames (used ++ (us ++ rest)) = resume (deliver e (us ++ rest) frames))
    (hes : Parsed us es rest) : Parsed (used ++ us) (e :: es) rest := by
  refine ⟨fun done outer hlevels => ?_, fun hlevels => ?_⟩
  · rw [Expr.levelsAll] at hlevels
    have hread := he (.list done :: outer) (by rw [List.length_cons]; omega)
    have hrest := hes.in_list (e :: done) outer (by omega)
    rw [List.append_assoc, hread, List.reverse_cons, List.append_assoc]
    exact hrest
  · rw [Expr.levelsAll] at hlevels
    have hread := he [] (by rw [List.length_nil]; omega)
    have hrest := hes.at_top (by omega)
    rw [List.append_assoc, script_of_ok hread, hrest]
    cases hscript : script rest with
    | mk outcome ts => cases outcome <;> rfl

/-- A leaf is read in one step. -/
lemma expression_leaf {used rest : List Token} {e : Expr} (h : Leaf used e rest)
    (frames : List Frame) (hdepth : frames.length < depthLimit) :
    expression frames (used ++ rest) = resume (deliver e rest frames) := by
  rw [expression_eq_resume, (Moves.leaf h hdepth).step_eq]

/-- A list is read if its items are. -/
lemma expression_list {l r : Token} {vs rest : List Token} {items : List Expr}
    (hl : l.kind = .lparen) (hr : r.kind = .rparen) (hitems : Parsed vs items (r :: rest))
    (frames : List Frame) (hlevels : frames.length + 1 + Expr.levelsAll items ≤ depthLimit) :
    expression frames (l :: vs ++ [r] ++ rest) = resume (deliver (.list items) rest frames) := by
  have hdepth : frames.length < depthLimit := by omega
  calc expression frames (l :: vs ++ [r] ++ rest)
      = expression (.list [] :: frames) (vs ++ r :: rest) := by
        rw [expression_eq_resume, List.append_assoc, List.cons_append,
          (Moves.lparen hl hdepth).step_eq]
        rfl
    _ = expression (.list (items.reverse ++ []) :: frames) (r :: rest) :=
        hitems.in_list [] frames hlevels
    _ = resume (deliver (.list items) rest frames) := by
        rw [expression_eq_resume, (Moves.rparen hr).step_eq, List.append_nil,
          List.reverse_reverse]

/-- So is a quoted list. -/
lemma expression_quoted {q l r : Token} {vs rest : List Token} {items : List Expr}
    (hq : q.kind = .quote) (hl : l.kind = .lparen) (hr : r.kind = .rparen)
    (hitems : Parsed vs items (r :: rest)) (frames : List Frame)
    (hlevels : frames.length + 2 + Expr.levelsAll items ≤ depthLimit) :
    expression frames (q :: l :: vs ++ [r] ++ rest) =
      resume (deliver (.quoted items) rest frames) := by
  have hdepth : frames.length < depthLimit := by omega
  calc expression frames (q :: l :: vs ++ [r] ++ rest)
      = expression (.quote :: frames) (l :: vs ++ [r] ++ rest) := by
        rw [expression_eq_resume, List.cons_append, List.cons_append,
          (Moves.quote hq hdepth).step_eq]
        rfl
    _ = resume (deliver (.list items) rest (.quote :: frames)) :=
        expression_list hl hr hitems (.quote :: frames) (by rw [List.length_cons]; omega)
    _ = resume (deliver (.quoted items) rest frames) := rfl

/-- What is spelled is read. -/
theorem Spells.parsed {us rest : List Token} {es : List Expr} (h : Spells us es rest) :
    Parsed us es rest := by
  induction h with
  | nil => exact parsed_nil _
  | @leaf used us rest e es he _ ih =>
    refine ih.cons fun frames hlevels => expression_leaf he frames ?_
    have hpos : 0 < e.levels := by cases he <;> simp [Expr.levels]
    omega
  | @list l r vs us rest items es hl hr _ _ ihitems ih =>
    refine ih.cons fun frames hlevels => expression_list hl hr ihitems frames ?_
    rw [Expr.levels] at hlevels
    omega
  | @quoted q l r vs us rest items es hq hl hr _ _ ihitems ih =>
    refine ih.cons fun frames hlevels => expression_quoted hq hl hr ihitems frames ?_
    rw [Expr.levels] at hlevels
    omega

/-- A script that is spelled is read. -/
theorem script_of_spells {us : List Token} {es : List Expr} (h : Spells us es [])
    (hlevels : Expr.levelsAll es ≤ depthLimit) : script us = (.ok es, []) := by
  have hscript := h.parsed.at_top hlevels
  rw [List.append_nil, script_nil] at hscript
  simpa [Except.map] using hscript

end TinyLisp.Pushdown
