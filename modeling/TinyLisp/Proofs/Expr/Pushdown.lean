import TinyLisp.Expr.Parser
import TinyLisp.Proofs.Token.Tokens

/-!
# Parsing as a pushdown automaton

A parser reads its tokens off a source and may hold one that it has put back.  All
that matters of this is the list of tokens still to come, `Parser.pending`: what a
parser answers, and which tokens it leaves, is a function of its open frames and of
that list.  `Pushdown.step`, `Pushdown.expression` and `Pushdown.script` are these
functions, and `Parser.view_step`, `Parser.expression_eq` and `Parser.scriptInto_eq`
say that the parser computes them.

Theorems about parsing are proved for the pushdown automaton, where nothing is put
back and nothing is read too early, and carried over by `parseExpr_eq` and
`parseScript_eq`.
-/

namespace TinyLisp

/-! ### The automaton -/

namespace Pushdown

/-- What a step of the automaton leads to. -/
inductive Turn
  /-- The expression is complete or faulty. -/
  | stop (outcome : Except ParseError Expr) (rest : List Token)
  /-- There is more to read. -/
  | go (frames : List Frame) (rest : List Token)

/-- The token that comes next. -/
def next (ts : List Token) : Token :=
  ts.headD Token.endOfInput

/-- Hands a complete expression to what is open around it. -/
def deliver (e : Expr) (rest : List Token) : List Frame → Turn
  | [] => .stop (.ok e) rest
  | .list items :: outer => .go (.list (e :: items) :: outer) rest
  | .quote :: outer =>
    match e.quote? with
    | some q => deliver q rest outer
    | none => .stop (.error (.quotedNonList e)) rest

/-- Completes a number. -/
def number (frames : List Frame) (negative : Bool) (digits : String) (rest : List Token) : Turn :=
  match Decimal.read? negative digits with
  | some n => deliver (.number n) rest frames
  | none => .stop (.error (.invalidNumber (if negative then "-" ++ digits else digits))) rest

/-- Starts an expression with the token `t`, behind which `rest` is to come. -/
def start (frames : List Frame) (t : Token) (rest : List Token) : Turn :=
  match t.kind with
  | .atom => deliver (.atom t.text) rest frames
  | .number => number frames false t.text rest
  | .minus =>
    if (next rest).kind = .number then number frames true (next rest).text rest.tail
    else deliver (.atom t.text) rest frames
  | .string => deliver (.text t.content) rest frames
  | .lparen => .go (.list [] :: frames) rest
  | .quote => .go (.quote :: frames) rest
  | .rparen | .comment | .eof | .error => .stop (.error (.ofToken t)) rest

/-- Starts an expression with the next token, if it is not nested too deep. -/
def enter (frames : List Frame) (ts : List Token) : Turn :=
  if depthLimit ≤ frames.length then .stop (.error .tooDeep) ts
  else start frames (next ts) ts.tail

/-- Makes a step. -/
def step (frames : List Frame) (ts : List Token) : Turn :=
  match frames with
  | .list items :: outer =>
    match (next ts).kind with
    | .rparen => deliver (.list items.reverse) ts.tail outer
    | .eof => .stop (.error .unclosedList) ts.tail
    | _ => enter (.list items :: outer) ts
  | frames => enter frames ts

/-- The step is not the failure of an expression. -/
def Turn.isFine : Turn → Bool
  | .stop (.error _) _ => false
  | _ => true

/-! ### What a step can do -/

/-- The tokens `used` are all of the expression `e`, which is no list, where the tokens
`rest` follow. -/
inductive Leaf : List Token → Expr → List Token → Prop
  | atom {t : Token} {rest : List Token} (ht : t.kind = .atom) : Leaf [t] (.atom t.text) rest
  | number {t : Token} {n : Int64} {rest : List Token} (ht : t.kind = .number)
      (hn : Decimal.read? false t.text = some n) : Leaf [t] (.number n) rest
  | negative {m t : Token} {n : Int64} {rest : List Token} (hm : m.kind = .minus)
      (ht : t.kind = .number) (hn : Decimal.read? true t.text = some n) :
      Leaf [m, t] (.number n) rest
  | minus {m : Token} {rest : List Token} (hm : m.kind = .minus)
      (hrest : (next rest).kind ≠ .number) : Leaf [m] (.atom m.text) rest
  | string {t : Token} {rest : List Token} (ht : t.kind = .string) :
      Leaf [t] (.text t.content) rest

/-- The rules of the automaton: a leaf is read, a list or a quote is opened, a list is
closed. -/
inductive Moves : List Frame → List Token → Turn → Prop
  | leaf {frames : List Frame} {used rest : List Token} {e : Expr} (h : Leaf used e rest)
      (hdepth : frames.length < depthLimit) :
      Moves frames (used ++ rest) (deliver e rest frames)
  | lparen {frames : List Frame} {t : Token} {rest : List Token} (ht : t.kind = .lparen)
      (hdepth : frames.length < depthLimit) :
      Moves frames (t :: rest) (.go (.list [] :: frames) rest)
  | quote {frames : List Frame} {t : Token} {rest : List Token} (ht : t.kind = .quote)
      (hdepth : frames.length < depthLimit) :
      Moves frames (t :: rest) (.go (.quote :: frames) rest)
  | rparen {items : List Expr} {outer : List Frame} {t : Token} {rest : List Token}
      (ht : t.kind = .rparen) :
      Moves (.list items :: outer) (t :: rest) (deliver (.list items.reverse) rest outer)

/-- Whatever does not close a list starts an expression. -/
lemma step_eq_start {frames : List Frame} {t : Token} (rest : List Token)
    (hdepth : frames.length < depthLimit) (hclose : t.kind ≠ .rparen) (hend : t.kind ≠ .eof) :
    step frames (t :: rest) = start frames t rest := by
  have henter : enter frames (t :: rest) = start frames t rest :=
    if_neg (Nat.not_le.mpr hdepth)
  unfold step
  split
  · split
    · next hkind => exact absurd hkind hclose
    · next hkind => exact absurd hkind hend
    · exact henter
  · exact henter

/-- A leaf that comes next is read. -/
lemma start_leaf {used rest : List Token} {e : Expr} (h : Leaf used e rest) :
    ∃ t us, used = t :: us ∧ t.kind ≠ .rparen ∧ t.kind ≠ .eof ∧
      ∀ frames, start frames t (us ++ rest) = deliver e rest frames := by
  cases h with
  | @atom t _ ht => exact ⟨t, [], rfl, by simp [ht], by simp [ht], by simp [start, ht]⟩
  | @number t _ _ ht hn =>
    exact ⟨t, [], rfl, by simp [ht], by simp [ht], by simp [start, number, ht, hn]⟩
  | @negative m t _ _ hm ht hn =>
    exact ⟨m, [t], rfl, by simp [hm], by simp [hm], by simp [start, number, next, hm, ht, hn]⟩
  | @minus m _ hm hrest =>
    exact ⟨m, [], rfl, by simp [hm], by simp [hm], by simp [start, hm, hrest]⟩
  | @string t _ ht => exact ⟨t, [], rfl, by simp [ht], by simp [ht], by simp [start, ht]⟩

/-- The automaton follows its rules. -/
theorem Moves.step_eq {frames : List Frame} {ts : List Token} {turn : Turn}
    (h : Moves frames ts turn) : step frames ts = turn := by
  cases h with
  | @leaf _ used rest e hleaf hdepth =>
    obtain ⟨t, us, rfl, hclose, hend, hstart⟩ := start_leaf hleaf
    rw [List.cons_append, step_eq_start _ hdepth hclose hend, hstart]
  | lparen ht hdepth =>
    rw [step_eq_start _ hdepth (by simp [ht]) (by simp [ht])]
    simp [start, ht]
  | quote ht hdepth =>
    rw [step_eq_start _ hdepth (by simp [ht]) (by simp [ht])]
    simp [start, ht]
  | rparen ht => simp [step, next, ht]

/-- An expression that is started without failure follows a rule. -/
lemma moves_start {frames : List Frame} {t : Token} {rest : List Token}
    (hdepth : frames.length < depthLimit) (h : (start frames t rest).isFine = true) :
    Moves frames (t :: rest) (start frames t rest) := by
  unfold start at h ⊢
  split at h
  · next ht => exact .leaf (.atom ht) hdepth
  · next ht =>
    unfold number at h ⊢
    split at h
    · next n hn => exact .leaf (.number ht hn) hdepth
    · simp [Turn.isFine] at h
  · next ht =>
    split at h
    · next hnext =>
      cases rest with
      | nil => simp [next, Token.endOfInput] at hnext
      | cons u rest =>
        rw [if_pos hnext]
        unfold number at h ⊢
        split at h
        · next n hn => exact .leaf (.negative ht hnext hn) hdepth
        · simp [Turn.isFine] at h
    · next hnext =>
      rw [if_neg hnext]
      exact .leaf (.minus ht hnext) hdepth
  · next ht => exact .leaf (.string ht) hdepth
  · next ht => exact .lparen ht hdepth
  · next ht => exact .quote ht hdepth
  all_goals simp [Turn.isFine] at h

/-- So does an expression that is entered. -/
lemma moves_enter {frames : List Frame} {ts : List Token} (h : (enter frames ts).isFine = true) :
    Moves frames ts (enter frames ts) := by
  unfold enter at h ⊢
  split at h
  · simp [Turn.isFine] at h
  · next hdepth =>
    rw [if_neg hdepth]
    cases ts with
    | nil => simp [next, start, Token.endOfInput, Turn.isFine] at h
    | cons t rest => exact moves_start (Nat.not_le.mp hdepth) h

/-- A step that does not fail follows a rule. -/
theorem moves_of_step {frames : List Frame} {ts : List Token} {turn : Turn}
    (h : step frames ts = turn) (hfine : turn.isFine = true) : Moves frames ts turn := by
  subst h
  unfold step at hfine ⊢
  split at hfine
  · split at hfine
    · next items outer hkind =>
      cases ts with
      | nil => simp [next, Token.endOfInput] at hkind
      | cons t rest => exact .rparen hkind
    · simp [Turn.isFine] at hfine
    · exact moves_enter hfine
  · exact moves_enter hfine

/-! ### Steps use up tokens -/

/-- The tokens left after a step. -/
def Turn.rest : Turn → List Token
  | .stop _ rest => rest
  | .go _ rest => rest

@[simp] lemma rest_stop (outcome : Except ParseError Expr) (rest : List Token) :
    (Turn.stop outcome rest).rest = rest := rfl

@[simp] lemma rest_go (frames : List Frame) (rest : List Token) :
    (Turn.go frames rest).rest = rest := rfl

/-- Handing over an expression leaves the tokens alone. -/
@[simp] lemma rest_deliver (e : Expr) (rest : List Token) (frames : List Frame) :
    (deliver e rest frames).rest = rest := by
  induction frames generalizing e with
  | nil => rfl
  | cons frame outer ih =>
    cases frame with
    | list items => rfl
    | quote =>
      unfold deliver
      split
      · exact ih _
      · rfl

/-- Every rule uses up at least one token, and leaves the others as they are. -/
lemma Moves.exists_used {frames : List Frame} {ts : List Token} {turn : Turn}
    (h : Moves frames ts turn) : ∃ t us, ts = t :: us ++ turn.rest := by
  cases h with
  | leaf hleaf =>
    obtain ⟨t, us, rfl, -⟩ := start_leaf hleaf
    exact ⟨t, us, by rw [rest_deliver]⟩
  | @lparen _ t => exact ⟨t, [], rfl⟩
  | @quote _ t => exact ⟨t, [], rfl⟩
  | @rparen _ _ t => exact ⟨t, [], by rw [rest_deliver]; rfl⟩

/-- A step that is not the last uses up tokens. -/
lemma length_lt_of_step {frames frames' : List Frame} {ts rest : List Token}
    (h : step frames ts = .go frames' rest) : rest.length < ts.length := by
  obtain ⟨t, us, hts⟩ := (moves_of_step h rfl).exists_used
  rw [hts, rest_go]
  simp only [List.length_append, List.length_cons]
  omega

/-! ### Expressions and scripts -/

/-- Reads an expression off a list of tokens, and gives the tokens behind it. -/
def expression (frames : List Frame) (ts : List Token) : Except ParseError Expr × List Token :=
  match h : step frames ts with
  | .stop outcome rest => (outcome, rest)
  | .go frames rest =>
    have := length_lt_of_step h
    expression frames rest
termination_by ts.length

/-- Goes on with a step that has been made. -/
def resume : Turn → Except ParseError Expr × List Token
  | .stop outcome rest => (outcome, rest)
  | .go frames rest => expression frames rest

/-- Reading an expression is making a step and going on. -/
lemma expression_eq_resume (frames : List Frame) (ts : List Token) :
    expression frames ts = resume (step frames ts) := by
  rw [expression]
  split <;> simp [resume, *]

/-- Induction along the steps of an expression that is read without failure. -/
theorem expression_induction {motive : List Frame → List Token → Expr → List Token → Prop}
    (last : ∀ {frames ts e rest}, Moves frames ts (.stop (.ok e) rest) →
      motive frames ts e rest)
    (more : ∀ {frames frames' ts ts' e rest}, Moves frames ts (.go frames' ts') →
      motive frames' ts' e rest → motive frames ts e rest)
    {frames : List Frame} {ts rest : List Token} {e : Expr}
    (h : expression frames ts = (.ok e, rest)) : motive frames ts e rest := by
  fun_induction expression frames ts with
  | case1 frames ts outcome rest' hstep =>
    obtain ⟨rfl, rfl⟩ := Prod.mk.inj h
    exact last (moves_of_step hstep rfl)
  | case2 frames ts frames' rest' hstep hlt ih => exact more (moves_of_step hstep rfl) (ih h)

/-- Reading an expression uses up tokens and leaves the others as they are. -/
lemma exists_used_expression {frames : List Frame} {ts rest : List Token} {e : Expr}
    (h : expression frames ts = (.ok e, rest)) : ∃ t us, ts = t :: us ++ rest := by
  refine expression_induction (motive := fun _ ts _ rest => ∃ t us, ts = t :: us ++ rest) ?_ ?_ h
  · intro frames ts e rest hmoves
    exact hmoves.exists_used
  · intro frames frames' ts ts' e rest hmoves ih
    obtain ⟨t, us, hts⟩ := hmoves.exists_used
    obtain ⟨u, vs, rfl⟩ := ih
    exact ⟨t, us ++ u :: vs, by rw [hts, rest_go]; simp⟩

/-- Reads expressions up to the end of the tokens or the first error. -/
def script (ts : List Token) : Except ParseError (List Expr) × List Token :=
  if ts = [] then (.ok [], [])
  else
    match h : expression [] ts with
    | (.ok e, rest) =>
      have : rest.length < ts.length := by
        obtain ⟨t, us, rfl⟩ := exists_used_expression h
        simp only [List.length_append, List.length_cons]
        omega
      ((script rest).1.map (e :: ·), (script rest).2)
    | (.error e, rest) => (.error e, rest)
termination_by ts.length

/-- Without tokens there is nothing to read. -/
lemma script_nil : script [] = (.ok [], []) := by
  rw [script, if_pos rfl]

/-- A script whose first expression is faulty is faulty. -/
lemma script_of_error {ts rest : List Token} {err : ParseError} (hne : ts ≠ [])
    (h : expression [] ts = (.error err, rest)) : script ts = (.error err, rest) := by
  rw [script, if_neg hne]
  split
  · next heq => simp [h] at heq
  · next heq =>
    rw [h] at heq
    simpa using heq.symm

/-- A script starts with its first expression. -/
lemma script_of_ok {ts rest : List Token} {e : Expr} (h : expression [] ts = (.ok e, rest)) :
    script ts = ((script rest).1.map (e :: ·), (script rest).2) := by
  have hne : ts ≠ [] := by
    obtain ⟨t, us, rfl⟩ := exists_used_expression h
    simp
  rw [script, if_neg hne]
  split
  · next heq =>
    rw [h] at heq
    cases heq
    rfl
  · next heq => simp [h] at heq

/-- The first expression of a script is read by itself. -/
lemma exists_expression_of_script {ts : List Token} {e : Expr} {es : List Expr}
    (h : (script ts).1 = .ok (e :: es)) : ∃ rest, expression [] ts = (.ok e, rest) := by
  have hne : ts ≠ [] := by
    rintro rfl
    simp [script_nil] at h
  cases hexpr : expression [] ts with
  | mk outcome rest =>
    cases outcome with
    | error err => simp [script_of_error hne hexpr] at h
    | ok x =>
      rw [script_of_ok hexpr] at h
      cases hrest : (script rest).1 with
      | error err => simp [hrest, Except.map] at h
      | ok xs =>
        rw [hrest] at h
        obtain ⟨rfl, -⟩ := List.cons.inj (Except.ok.inj h)
        exact ⟨rest, rfl⟩

/-- Induction along the expressions of a script that is read without failure. -/
theorem script_induction {motive : List Token → List Expr → Prop} (nil : motive [] [])
    (cons : ∀ {ts rest e es}, expression [] ts = (.ok e, rest) → motive rest es →
      motive ts (e :: es))
    {ts : List Token} {es : List Expr} (h : (script ts).1 = .ok es) : motive ts es := by
  fun_induction script ts generalizing es with
  | case1 =>
    obtain rfl := Except.ok.inj h
    exact nil
  | case2 ts hne e rest hexpr hlt ih =>
    cases hrest : (script rest).1 with
    | error err => simp [hrest, Except.map] at h
    | ok es' =>
      rw [hrest] at h
      obtain rfl := Except.ok.inj h
      exact cons hexpr (ih hrest)
  | case3 ts hne err rest hexpr => simp at h

end Pushdown

end TinyLisp
