import TinyLisp.Proofs.Expr.Pushdown

/-!
# The tokens a parser has before it

`Parser.pending` is the list of tokens that a parser is still going to read: the one
that was put back, and those of its source.  Reading a token takes the first of them
and looking at it leaves them alone, so a parser is the pushdown automaton of
`Pushdown` on its pending tokens.

This needs one invariant, `Parser.Coherent`: if the end of the input has been put
back, there is nothing behind it.
-/

namespace TinyLisp

namespace Parser

/-- If the end of the input has been put back, the source has no more tokens. -/
def Coherent (p : Parser) : Prop :=
  ∀ t, p.ahead = some t → t.isEnd = true → t = Token.endOfInput ∧ p.source.tokens.1 = []

/-- The tokens still to be read, without the end of the input. -/
def pending (p : Parser) : List Token :=
  match p.ahead with
  | none => p.source.tokens.1
  | some t => if t.isEnd then [] else t :: p.source.tokens.1

/-! ### Reading tokens -/

/-- A parser that has put nothing back is coherent. -/
lemma coherent_of_ahead_eq_none {p : Parser} (h : p.ahead = none) : p.Coherent := by
  intro t ht
  simp [h] at ht

@[simp] lemma coherent_next (p : Parser) : p.next.2.Coherent :=
  coherent_of_ahead_eq_none p.ahead_next

@[simp] lemma frames_next (p : Parser) : p.next.2.frames = p.frames := by
  unfold next
  split <;> rfl

@[simp] lemma frames_peek (p : Parser) : p.peek.frames = p.frames := p.frames_next

/-- Nothing but the tokens of the source is pending if nothing was put back. -/
lemma pending_of_ahead_eq_none {p : Parser} (h : p.ahead = none) :
    p.pending = p.source.tokens.1 := by
  simp [pending, h]

/-- What reading a token does: either nothing is pending and the end of the input is
read, or the first pending token is. -/
lemma next_cases {p : Parser} (h : p.Coherent) :
    (p.next.1 = Token.endOfInput ∧ p.pending = [] ∧ p.next.2.pending = []) ∨
      (p.next.1.isEnd = false ∧ p.pending = p.next.1 :: p.next.2.pending) := by
  rw [pending_of_ahead_eq_none p.ahead_next]
  cases hahead : p.ahead with
  | none =>
    have hnext : p.next = (p.source.token.1, { p with source := p.source.token.2 }) := by
      simp [next, hahead]
    rw [hnext, pending_of_ahead_eq_none hahead]
    cases hend : p.source.token.1.isEnd with
    | true =>
      refine Or.inl ⟨Source.token_fst_eq_endOfInput hend, ?_, Source.tokens_token_of_isEnd hend⟩
      rw [Source.tokens_of_isEnd hend]
    | false =>
      refine Or.inr ⟨rfl, ?_⟩
      rw [Source.tokens_of_not_isEnd hend]
  | some t =>
    have hnext : p.next = (t, { p with ahead := none }) := by simp [next, hahead]
    rw [hnext]
    cases hend : t.isEnd with
    | true =>
      obtain ⟨rfl, htokens⟩ := h t hahead hend
      exact Or.inl ⟨rfl, by simp [pending, hahead, hend], htokens⟩
    | false => exact Or.inr ⟨rfl, by simp [pending, hahead, hend]⟩

/-- The token that is read is the first one pending. -/
lemma next_fst {p : Parser} (h : p.Coherent) : p.next.1 = Pushdown.next p.pending := by
  rcases next_cases h with ⟨hnext, hpending, -⟩ | ⟨-, hpending⟩
  · rw [hnext, hpending]
    rfl
  · rw [hpending]
    rfl

/-- Reading a token leaves the others pending. -/
@[simp] lemma pending_next {p : Parser} (h : p.Coherent) : p.next.2.pending = p.pending.tail := by
  rcases next_cases h with ⟨-, hpending, hrest⟩ | ⟨-, hpending⟩
  · rw [hrest, hpending]
    rfl
  · rw [hpending]
    rfl

/-- The end of the input is read when nothing is pending. -/
lemma isEnd_next_iff {p : Parser} (h : p.Coherent) : p.next.1.isEnd = true ↔ p.pending = [] := by
  rcases next_cases h with ⟨hnext, hpending, -⟩ | ⟨hnext, hpending⟩
  · simp [hnext, hpending, Token.endOfInput, Token.isEnd]
  · simp [hnext, hpending]

/-- Looking at a token leaves it pending. -/
@[simp] lemma pending_peek {p : Parser} (h : p.Coherent) : p.peek.pending = p.pending := by
  have hrest : p.next.2.pending = p.next.2.source.tokens.1 :=
    pending_of_ahead_eq_none p.ahead_next
  rcases next_cases h with ⟨hnext, hpending, -⟩ | ⟨hnext, hpending⟩
  · rw [hpending]
    simp [peek, unread, pending, hnext, Token.endOfInput, Token.isEnd]
  · rw [hpending, hrest]
    simp [peek, unread, pending, hnext]

/-- Looking at a token keeps a parser coherent. -/
@[simp] lemma coherent_peek {p : Parser} (h : p.Coherent) : p.peek.Coherent := by
  intro t ht hend
  obtain rfl : p.next.1 = t := Option.some.inj ht
  rcases next_cases h with ⟨hnext, -, hrest⟩ | ⟨hnext, -⟩
  · refine ⟨hnext, ?_⟩
    rw [← hrest, pending_of_ahead_eq_none p.ahead_next]
    rfl
  · simp [hnext] at hend

/-! ### Steps -/

/-- A step of a parser as a step of the automaton. -/
def Progress.view : Progress → Pushdown.Turn
  | .stop outcome p => .stop outcome p.pending
  | .go p => .go p.frames p.pending

/-- Which frames are open does not matter for the tokens. -/
@[simp] lemma pending_mk_frames (p : Parser) (frames : List Frame) :
    pending { p with frames } = p.pending := rfl

@[simp] lemma view_fail (p : Parser) (e : ParseError) :
    (p.fail e).view = .stop (.error e) p.pending := rfl

@[simp] lemma view_deliver (p : Parser) (e : Expr) (frames : List Frame) :
    (p.deliver e frames).view = Pushdown.deliver e p.pending frames := by
  induction frames generalizing e with
  | nil => rfl
  | cons frame outer ih =>
    cases frame with
    | list items => rfl
    | quote =>
      unfold deliver Pushdown.deliver
      cases e.quote? with
      | some q => exact ih q
      | none => rfl

@[simp] lemma view_number (p : Parser) (negative : Bool) (digits : String) :
    (p.number negative digits).view = Pushdown.number p.frames negative digits p.pending := by
  unfold number Pushdown.number
  cases Decimal.read? negative digits with
  | some n => exact view_deliver p _ _
  | none => rfl

/-- Starting an expression is the same on the pending tokens. -/
lemma view_start {p : Parser} (h : p.Coherent) (t : Token) :
    (p.start t).view = Pushdown.start p.frames t p.pending := by
  unfold start Pushdown.start
  cases t.kind with
  | atom => exact view_deliver p _ _
  | number => exact view_number p _ _
  | minus =>
    dsimp only
    unfold minus
    rw [next_fst h]
    split
    · rw [view_number, frames_next, pending_next h]
    · rw [view_deliver, pending_peek h]
  | string => exact view_deliver p _ _
  | lparen => rfl
  | quote => rfl
  | rparen => rfl
  | comment => rfl
  | eof => rfl
  | error => rfl

/-- Entering an expression is the same on the pending tokens.  Whether the next token
has been looked at before it turns out that the expression is nested too deep makes no
difference. -/
lemma view_enter {p q : Parser} (h : p.Coherent) (hq : q.pending = p.pending) :
    (if depthLimit ≤ p.frames.length then q.fail .tooDeep
      else p.next.2.start p.next.1).view = Pushdown.enter p.frames p.pending := by
  unfold Pushdown.enter
  split
  · rw [view_fail, hq]
  · rw [view_start p.coherent_next, frames_next, pending_next h, next_fst h]

/-- A step of a parser is a step of the automaton on its pending tokens. -/
theorem view_step {p : Parser} (h : p.Coherent) :
    p.step.view = Pushdown.step p.frames p.pending := by
  have henter := view_enter h rfl
  have hpeek := view_enter h (pending_peek h)
  unfold step Pushdown.step
  cases hframes : p.frames with
  | nil =>
    rw [hframes] at henter
    exact henter
  | cons frame outer =>
    rw [hframes] at henter hpeek
    cases frame with
    | quote => exact henter
    | list items =>
      rw [← next_fst h]
      cases hkind : p.next.1.kind with
      | rparen => exact (view_deliver _ _ _).trans (by rw [pending_next h])
      | eof => exact (view_fail _ _).trans (by rw [pending_next h])
      | _ => exact hpeek

/-! ### What a step leaves behind -/

/-- The parser that a step leads to is coherent, and has nothing open any more if the
step was the last. -/
def Progress.Coherent : Progress → Prop
  | .stop _ p => p.Coherent ∧ p.frames = []
  | .go p => p.Coherent

lemma coherent_fail {p : Parser} (h : p.Coherent) (e : ParseError) : (p.fail e).Coherent :=
  ⟨h, rfl⟩

lemma coherent_deliver {p : Parser} (h : p.Coherent) (e : Expr) (frames : List Frame) :
    (p.deliver e frames).Coherent := by
  induction frames generalizing e with
  | nil => exact ⟨h, rfl⟩
  | cons frame outer ih =>
    cases frame with
    | list items => exact h
    | quote =>
      unfold deliver
      cases e.quote? with
      | some q => exact ih q
      | none => exact coherent_fail h _

lemma coherent_number {p : Parser} (h : p.Coherent) (negative : Bool) (digits : String) :
    (p.number negative digits).Coherent := by
  unfold number
  cases Decimal.read? negative digits with
  | some n => exact coherent_deliver h _ _
  | none => exact coherent_fail h _

lemma coherent_start {p : Parser} (h : p.Coherent) (t : Token) : (p.start t).Coherent := by
  unfold start
  cases t.kind with
  | atom => exact coherent_deliver h _ _
  | number => exact coherent_number h _ _
  | minus =>
    dsimp only
    unfold minus
    split
    · exact coherent_number p.coherent_next _ _
    · exact coherent_deliver (coherent_peek h) _ _
  | string => exact coherent_deliver h _ _
  | lparen => exact h
  | quote => exact h
  | rparen => exact coherent_fail h _
  | comment => exact coherent_fail h _
  | eof => exact coherent_fail h _
  | error => exact coherent_fail h _

/-- A step keeps a parser coherent, and the last one leaves nothing open. -/
theorem coherent_step {p : Parser} (h : p.Coherent) : p.step.Coherent := by
  unfold step
  split
  · split
    · exact coherent_deliver p.coherent_next _ _
    · exact coherent_fail p.coherent_next _
    · split
      · exact coherent_fail (coherent_peek h) _
      · exact coherent_start p.coherent_next _
  · split
    · exact coherent_fail h _
    · exact coherent_start p.coherent_next _

/-! ### Expressions and scripts -/

/-- A parser reads an expression like the automaton on its pending tokens. -/
theorem expression_eq {p : Parser} (h : p.Coherent) :
    (p.expression.1, p.expression.2.pending) = Pushdown.expression p.frames p.pending ∧
      p.expression.2.Coherent ∧ p.expression.2.frames = [] := by
  fun_induction expression p with
  | case1 p outcome q hstep =>
    have hview := view_step h
    have hq := coherent_step h
    rw [hstep] at hview hq
    rw [Pushdown.expression_eq_resume, ← hview]
    exact ⟨rfl, hq⟩
  | case2 p q hstep hlt ih =>
    have hview := view_step h
    have hq := coherent_step h
    rw [hstep] at hview hq
    rw [Pushdown.expression_eq_resume, ← hview]
    exact ih hq

/-- A parser with nothing open reads a script like the automaton on its pending tokens. -/
theorem scriptInto_eq {p : Parser} (h : p.Coherent) (hframes : p.frames = [])
    (done : List Expr) :
    ((p.scriptInto done).1, (p.scriptInto done).2.pending) =
      ((Pushdown.script p.pending).1.map (done.reverse ++ ·), (Pushdown.script p.pending).2) ∧
    (p.scriptInto done).2.Coherent ∧ (p.scriptInto done).2.frames = [] := by
  fun_induction scriptInto done p with
  | case1 done p hend =>
    have hnil : p.pending = [] := (isEnd_next_iff h).mp hend
    rw [hnil, Pushdown.script_nil]
    refine ⟨?_, coherent_peek h, by rw [atEnd, frames_peek, hframes]⟩
    rw [atEnd, pending_peek h, hnil]
    simp [Except.map]
  | case2 done p hend e q hexpr hlt ih =>
    obtain ⟨heq, hq, hqframes⟩ := expression_eq (coherent_peek h)
    have hexpr' : p.peek.expression = (.ok e, q) := hexpr
    rw [hexpr', frames_peek, hframes, pending_peek h] at heq
    rw [hexpr'] at hq hqframes
    rw [Pushdown.script_of_ok heq.symm]
    obtain ⟨hscript, hrest⟩ := ih hq hqframes
    refine ⟨?_, hrest⟩
    rw [hscript]
    cases (Pushdown.script q.pending).1 <;> simp [Except.map]
  | case3 done p hend err q hexpr =>
    obtain ⟨heq, hq, hqframes⟩ := expression_eq (coherent_peek h)
    have hexpr' : p.peek.expression = (.error err, q) := hexpr
    rw [hexpr', frames_peek, hframes, pending_peek h] at heq
    rw [hexpr'] at hq hqframes
    have hne : p.pending ≠ [] := fun hnil => hend ((isEnd_next_iff h).mpr hnil)
    rw [Pushdown.script_of_error hne heq.symm]
    exact ⟨rfl, hq, hqframes⟩

/-- The tokens of a text are pending at its start. -/
lemma pending_ofString (s : String) :
    (ofString s).pending = (Source.ofString s).tokens.1 := rfl

lemma coherent_ofString (s : String) : (ofString s).Coherent :=
  coherent_of_ahead_eq_none rfl

end Parser

/-- The first expression of a text is read off its tokens. -/
theorem parseExpr_eq (s : String) :
    parseExpr s = (Pushdown.expression [] (Source.ofString s).tokens.1).1 := by
  have heq := (Parser.expression_eq (Parser.coherent_ofString s)).1
  exact congrArg Prod.fst heq

/-- All expressions of a text are read off its tokens. -/
theorem parseScript_eq (s : String) :
    parseScript s = (Pushdown.script (Source.ofString s).tokens.1).1 := by
  have heq := (Parser.scriptInto_eq (Parser.coherent_ofString s) rfl []).1
  rw [Parser.pending_ofString] at heq
  have hfst := congrArg Prod.fst heq
  unfold parseScript Parser.script
  rw [hfst]
  cases (Pushdown.script (Source.ofString s).tokens.1).1 <;> rfl

/-- The first of all expressions of a text is its first expression. -/
theorem parseExpr_of_parseScript {s : String} {e : Expr} {es : List Expr}
    (h : parseScript s = .ok (e :: es)) : parseExpr s = .ok e := by
  rw [parseScript_eq] at h
  obtain ⟨rest, hrest⟩ := Pushdown.exists_expression_of_script h
  rw [parseExpr_eq, hrest]

end TinyLisp
