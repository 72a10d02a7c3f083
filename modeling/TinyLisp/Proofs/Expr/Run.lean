import TinyLisp.Proofs.Expr.Pushdown
import TinyLisp.Proofs.Token.Enclosing

/-!
# Runs of the automaton

`Pushdown.Runs` says that the automaton gets from one configuration to another by steps
that are not the last.  An expression that is faulty is read by such a run, followed by
the step that fails (`exists_runs_of_error`).

A step reads the tokens at the front and does not care about the rest, unless it has to
tell a minus sign from a negative number.  So the same step is made before other tokens
(`Moves.before`), and a whole expression is the same expression (`expression_before`).
Only behind a minus sign the new tokens must not start with a number where the old ones
did not.
-/

namespace TinyLisp.Pushdown

/-! ### The same step before other tokens -/

/-- The same turn, with other tokens left. -/
def Turn.before (rest : List Token) : Turn → Turn
  | .stop outcome _ => .stop outcome rest
  | .go frames _ => .go frames rest

/-- Handing over an expression does not look at the tokens. -/
@[simp] lemma before_deliver (e : Expr) (rest rest' : List Token) (frames : List Frame) :
    (deliver e rest frames).before rest' = deliver e rest' frames := by
  induction frames generalizing e with
  | nil => rfl
  | cons frame outer ih =>
    cases frame with
    | list items => rfl
    | quote =>
      unfold deliver
      cases e.quote? with
      | some q => exact ih q
      | none => rfl

/-- The tokens `rest'` may follow the tokens `used` where `rest` did: if the last token used
is a minus sign, it gets no number that it did not have. -/
def MayFollow (used rest rest' : List Token) : Prop :=
  Token.EndsWith .minus used → (next rest').kind = .number → (next rest).kind = .number

/-- A leaf is the same leaf before other tokens. -/
lemma Leaf.before {used rest rest' : List Token} {e : Expr} (h : Leaf used e rest)
    (hnext : MayFollow used rest rest') : Leaf used e rest' := by
  cases h with
  | atom ht => exact .atom ht
  | number ht hn => exact .number ht hn
  | negative hm ht hn => exact .negative hm ht hn
  | minus hm hrest =>
    exact .minus hm fun hnumber => hrest (hnext (by simpa [Token.EndsWith] using hm) hnumber)
  | string ht => exact .string ht

/-- A step is the same step before other tokens. -/
lemma Moves.before {frames : List Frame} {ts : List Token} {turn : Turn}
    (h : Moves frames ts turn) :
    ∃ used, ts = used ++ turn.rest ∧ ∀ rest', MayFollow used turn.rest rest' →
      Moves frames (used ++ rest') (turn.before rest') := by
  cases h with
  | @leaf _ used rest e hleaf hdepth =>
    refine ⟨used, by rw [rest_deliver], fun rest' hnext => ?_⟩
    rw [rest_deliver] at hnext
    rw [before_deliver]
    exact .leaf (hleaf.before hnext) hdepth
  | @lparen _ t rest ht hdepth => exact ⟨[t], rfl, fun rest' _ => .lparen ht hdepth⟩
  | @quote _ t rest ht hdepth => exact ⟨[t], rfl, fun rest' _ => .quote ht hdepth⟩
  | @rparen items outer t rest ht =>
    refine ⟨[t], by rw [rest_deliver]; rfl, fun rest' _ => ?_⟩
    rw [before_deliver]
    exact .rparen ht

/-- An expression is the same before other tokens. -/
theorem expression_before {frames : List Frame} {ts rest : List Token} {e : Expr}
    (h : expression frames ts = (.ok e, rest)) :
    ∃ used, ts = used ++ rest ∧ ∀ rest', MayFollow used rest rest' →
      expression frames (used ++ rest') = (.ok e, rest') := by
  refine expression_induction (motive := fun frames ts e rest => ∃ used, ts = used ++ rest ∧
    ∀ rest', MayFollow used rest rest' →
      expression frames (used ++ rest') = (.ok e, rest')) ?_ ?_ h
  · intro frames ts e rest hmoves
    obtain ⟨used, hts, hbefore⟩ := hmoves.before
    refine ⟨used, hts, fun rest' hnext => ?_⟩
    rw [expression_eq_resume, (hbefore rest' hnext).step_eq]
    rfl
  · intro frames frames' ts ts' e rest hmoves ih
    obtain ⟨used, hts, hbefore⟩ := hmoves.before
    obtain ⟨used', rfl, ih⟩ := ih
    refine ⟨used ++ used', by rw [hts, rest_go, List.append_assoc], fun rest' hnext => ?_⟩
    have hnext' : MayFollow used (used' ++ rest) (used' ++ rest') := by
      cases used' with
      | nil => rwa [List.append_nil] at hnext
      | cons t used' => exact fun _ => id
    rw [List.append_assoc, expression_eq_resume, (hbefore _ hnext').step_eq]
    exact ih rest' fun hminus => hnext (hminus.append_left used)

/-! ### Runs -/

/-- The automaton gets from one configuration to another without being done. -/
inductive Runs : List Frame → List Token → List Frame → List Token → Prop
  | refl {frames : List Frame} {ts : List Token} : Runs frames ts frames ts
  | head {frames frames' frames'' : List Frame} {ts ts' ts'' : List Token}
      (h : Moves frames ts (.go frames' ts')) (hrest : Runs frames' ts' frames'' ts'') :
      Runs frames ts frames'' ts''

/-- A run does not change what is read in the end. -/
lemma Runs.expression_eq {frames frames' : List Frame} {ts ts' : List Token}
    (h : Runs frames ts frames' ts') : expression frames ts = expression frames' ts' := by
  induction h with
  | refl => rfl
  | head hmoves _ ih =>
    rw [expression_eq_resume, hmoves.step_eq]
    exact ih

/-- A run leaves the tokens that it has not read. -/
lemma Runs.suffix {frames frames' : List Frame} {ts ts' : List Token}
    (h : Runs frames ts frames' ts') : ts' <:+ ts := by
  induction h with
  | refl => exact List.suffix_refl _
  | head hmoves _ ih =>
    obtain ⟨t, us, hts⟩ := hmoves.exists_used
    rw [hts, rest_go]
    exact ih.trans (List.suffix_append _ _)

/-- A faulty expression is read by a run up to the step that fails. -/
theorem exists_runs_of_error {frames : List Frame} {ts rest : List Token} {err : ParseError}
    (h : expression frames ts = (.error err, rest)) :
    ∃ frames' ts', Runs frames ts frames' ts' ∧ step frames' ts' = .stop (.error err) rest := by
  fun_induction expression frames ts with
  | case1 frames ts outcome rest' hstep =>
    obtain ⟨rfl, rfl⟩ := Prod.mk.inj h
    exact ⟨frames, ts, .refl, hstep⟩
  | case2 frames ts frames' rest' hstep hlt ih =>
    obtain ⟨frames'', ts'', hruns, hlast⟩ := ih h
    exact ⟨frames'', ts'', .head (moves_of_step hstep rfl) hruns, hlast⟩

end TinyLisp.Pushdown
