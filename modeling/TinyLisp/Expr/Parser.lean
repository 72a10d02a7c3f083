import TinyLisp.Expr.ParseError
import TinyLisp.Token.Lexer

/-!
# Parsing expressions

A parser reads expressions off a source, token by token.  It is a machine with a
stack: the lists and quotes that are open, innermost first.  `Parser.step` reads as
many tokens as it takes to open a list or a quote, to complete an item, or to be
done with the expression; `Parser.expression` makes steps until it is done.

One token of look-ahead is needed, to tell a minus sign from a negative number and
an item from the end of a list.  A token that was read too early is put back and is
the next to be read.  There is room for one such token only, and `Parser.unread`
asks for a proof that the room is free.

Every step that is not the last uses up tokens (`remaining_lt_of_step`), and so
does every expression (`remaining_expression_lt`), which is why parsing ends.
-/

namespace TinyLisp

/-- An expression that has been opened and still lacks its end. -/
inductive Frame
  /-- A list and its items so far, last first. -/
  | list (items : List Expr)
  /-- A quotation mark that waits for its operand. -/
  | quote
  deriving DecidableEq, Repr

/-- A parser: the source behind the tokens read, the token that was put back, and
the lists and quotes that are open, innermost first. -/
structure Parser where
  source : Source
  ahead : Option Token := none
  frames : List Frame := []
  deriving DecidableEq, Repr

namespace Parser

/-- A parser at the start of a text. -/
def ofString (s : String) : Parser :=
  { source := .ofString s }

/-! ### Tokens -/

/-- Reads the next token: the one that was put back, else one from the source. -/
def next (p : Parser) : Token × Parser :=
  match p.ahead with
  | some t => (t, { p with ahead := none })
  | none => (p.source.token.1, { p with source := p.source.token.2 })

/-- Puts a token back. -/
def unread (p : Parser) (t : Token) (_vacant : p.ahead = none) : Parser :=
  { p with ahead := some t }

/-- Reading a token leaves room for putting it back. -/
@[simp] theorem ahead_next (p : Parser) : p.next.2.ahead = none := by
  unfold next
  split <;> simp_all

/-- Reads the next token and puts it back. -/
def peek (p : Parser) : Parser :=
  p.next.2.unread p.next.1 p.ahead_next

/-- Nothing is left but the end of the input. -/
def atEnd (p : Parser) : Bool × Parser :=
  (p.next.1.isEnd, p.peek)

/-- An upper bound for the number of tokens left. -/
def remaining (p : Parser) : Nat :=
  p.source.pulls.length + if p.ahead.any (!·.isEnd) then 1 else 0

@[simp] theorem remaining_mk_frames (p : Parser) (frames : List Frame) :
    remaining { p with frames } = p.remaining := rfl

theorem remaining_next_le (p : Parser) : p.next.2.remaining ≤ p.remaining := by
  unfold next
  split
  · simp_all [remaining]
  · simpa [remaining, *] using p.source.length_token_le

/-- Reading a token other than the end of the input leaves fewer tokens. -/
theorem remaining_next_lt {p : Parser} (h : p.next.1.isEnd = false) :
    p.next.2.remaining < p.remaining := by
  revert h
  unfold next
  split
  · simp_all [remaining]
  · intro h
    simpa [remaining, *] using Source.length_token_lt h

/-- Looking at the next token leaves as many. -/
theorem remaining_peek_le (p : Parser) : p.peek.remaining ≤ p.remaining := by
  have hp : p.peek.remaining = p.next.2.remaining + if p.next.1.isEnd then 0 else 1 := by
    cases h : p.next.1.isEnd <;> simp [peek, unread, remaining, h]
  cases h : p.next.1.isEnd
  · have := remaining_next_lt h
    simp [hp, h]
    omega
  · have := p.remaining_next_le
    simp [hp, h]
    omega

/-! ### Steps -/

/-- What a step leads to. -/
inductive Progress
  /-- The expression is complete or faulty. -/
  | stop (outcome : Except ParseError Expr) (p : Parser)
  /-- There is more to read. -/
  | go (p : Parser)

/-- The parser after a step. -/
def Progress.parser : Progress → Parser
  | .stop _ p => p
  | .go p => p

@[simp] theorem Progress.parser_stop (outcome : Except ParseError Expr) (p : Parser) :
    (Progress.stop outcome p).parser = p := rfl

@[simp] theorem Progress.parser_go (p : Parser) : (Progress.go p).parser = p := rfl

/-- Gives up on the expression and on all that is open. -/
def fail (p : Parser) (e : ParseError) : Progress :=
  .stop (.error e) { p with frames := [] }

/-- Hands a complete expression to what is open around it: a list takes it as its
next item, and a quote is complete with it. -/
def deliver (p : Parser) (e : Expr) : List Frame → Progress
  | [] => .stop (.ok e) { p with frames := [] }
  | .list items :: outer => .go { p with frames := .list (e :: items) :: outer }
  | .quote :: outer =>
    match e.quote? with
    | some q => p.deliver q outer
    | none => p.fail (.quotedNonList e)

/-- Completes a number, given its sign and its digits. -/
def number (p : Parser) (negative : Bool) (digits : String) : Progress :=
  match Decimal.read? negative digits with
  | some n => p.deliver (.number n) p.frames
  | none => p.fail (.invalidNumber (if negative then "-" ++ digits else digits))

/-- A minus sign has been read.  Before a number it is the sign of that number, and
otherwise it is a name. -/
def minus (p : Parser) (sign : String) : Progress :=
  if p.next.1.kind = .number then p.next.2.number true p.next.1.text
  else p.peek.deliver (.atom sign) p.frames

/-- Starts an expression with the token `t`, which has been read. -/
def start (p : Parser) (t : Token) : Progress :=
  match t.kind with
  | .atom => p.deliver (.atom t.text) p.frames
  | .number => p.number false t.text
  | .minus => p.minus t.text
  | .string => p.deliver (.text t.content) p.frames
  | .lparen => .go { p with frames := .list [] :: p.frames }
  | .quote => .go { p with frames := .quote :: p.frames }
  | .rparen | .comment | .eof | .error => p.fail (.ofToken t)

/-- Makes a step.  Inside a list the next token may close the list; everywhere else
an expression has to start, if it is not nested too deep. -/
def step (p : Parser) : Progress :=
  match p.frames with
  | .list items :: outer =>
    match p.next.1.kind with
    | .rparen => p.next.2.deliver (.list items.reverse) outer
    | .eof => p.next.2.fail .unclosedList
    | _ =>
      if depthLimit ≤ p.frames.length then p.peek.fail .tooDeep
      else p.next.2.start p.next.1
  | _ =>
    if depthLimit ≤ p.frames.length then p.fail .tooDeep
    else p.next.2.start p.next.1

/-! ### Steps use up tokens -/

@[simp] theorem remaining_fail (p : Parser) (e : ParseError) :
    (p.fail e).parser.remaining = p.remaining := rfl

@[simp] theorem remaining_deliver (p : Parser) (e : Expr) (frames : List Frame) :
    (p.deliver e frames).parser.remaining = p.remaining := by
  induction frames generalizing e with
  | nil => rfl
  | cons frame outer ih =>
    cases frame with
    | list items => rfl
    | quote =>
      unfold deliver
      split
      · exact ih _
      · rfl

@[simp] theorem remaining_number (p : Parser) (negative : Bool) (digits : String) :
    (p.number negative digits).parser.remaining = p.remaining := by
  unfold number
  split <;> simp

theorem remaining_minus_le (p : Parser) (sign : String) :
    (p.minus sign).parser.remaining ≤ p.remaining := by
  unfold minus
  split
  · simpa using p.remaining_next_le
  · simpa using p.remaining_peek_le

theorem remaining_start_le (p : Parser) (t : Token) :
    (p.start t).parser.remaining ≤ p.remaining := by
  unfold start
  split
  case h_3 => exact remaining_minus_le p t.text
  all_goals simp

/-- The step is not the failure of an expression. -/
def Progress.isFine : Progress → Bool
  | .stop (.error _) _ => false
  | _ => true

theorem start_of_isEnd {p : Parser} {t : Token} (h : t.isEnd = true) :
    (p.start t).isFine = false := by
  simp only [Token.isEnd, decide_eq_true_eq] at h
  simp [start, h, fail, Progress.isFine]

theorem remaining_start_next_lt {p : Parser} (h : (p.next.2.start p.next.1).isFine = true) :
    (p.next.2.start p.next.1).parser.remaining < p.remaining := by
  cases ht : p.next.1.isEnd
  · exact Nat.lt_of_le_of_lt (remaining_start_le _ _) (remaining_next_lt ht)
  · simp [start_of_isEnd ht] at h

/-- A step that does not fail uses up a token. -/
theorem remaining_step_lt {p : Parser} (h : p.step.isFine = true) :
    p.step.parser.remaining < p.remaining := by
  revert h
  unfold step
  split
  · split
    · next hk =>
      intro _
      have ht : p.next.1.isEnd = false := by simp [Token.isEnd, hk]
      simpa using remaining_next_lt ht
    · simp [fail, Progress.isFine]
    · split
      · simp [fail, Progress.isFine]
      · exact remaining_start_next_lt
  · split
    · simp [fail, Progress.isFine]
    · exact remaining_start_next_lt

theorem remaining_lt_of_step {p q : Parser} (h : p.step = .go q) :
    q.remaining < p.remaining := by
  have := remaining_step_lt (p := p) (by simp [h, Progress.isFine])
  simpa [h] using this

/-! ### Expressions -/

/-- Reads an expression, and no token behind it but the one that a minus sign may
have asked for. -/
def expression (p : Parser) : Except ParseError Expr × Parser :=
  match h : p.step with
  | .stop outcome q => (outcome, q)
  | .go q =>
    have := remaining_lt_of_step h
    q.expression
termination_by p.remaining

/-- Reading an expression uses up a token. -/
theorem remaining_expression_lt {p q : Parser} {e : Expr} (h : p.expression = (.ok e, q)) :
    q.remaining < p.remaining := by
  fun_induction expression p with
  | case1 p outcome r hs =>
    obtain ⟨rfl, rfl⟩ := Prod.mk.inj h
    have := remaining_step_lt (p := p) (by simp [hs, Progress.isFine])
    simpa [hs] using this
  | case2 p r hs hlt ih => exact Nat.lt_trans (ih h) hlt

/-- Reads the next expression, or nothing at the end of the input. -/
def expression? (p : Parser) : Option (Except ParseError Expr) × Parser :=
  if p.atEnd.1 then (none, p.atEnd.2)
  else (some p.atEnd.2.expression.1, p.atEnd.2.expression.2)

/-- Reads expressions up to the end of the input or the first error; `done` holds
those read so far, last first. -/
def scriptInto (done : List Expr) (p : Parser) : Except ParseError (List Expr) × Parser :=
  if p.atEnd.1 then (.ok done.reverse, p.atEnd.2)
  else
    match h : p.atEnd.2.expression with
    | (.ok e, q) =>
      have : q.remaining < p.remaining :=
        Nat.lt_of_lt_of_le (remaining_expression_lt h) p.remaining_peek_le
      scriptInto (e :: done) q
    | (.error e, q) => (.error e, q)
termination_by p.remaining

/-- Reads all expressions up to the end of the input, or fails at the first error. -/
def script (p : Parser) : Except ParseError (List Expr) × Parser :=
  p.scriptInto []

end Parser

/-- The first expression of a text; what follows it is ignored. -/
def parseExpr (s : String) : Except ParseError Expr :=
  (Parser.ofString s).expression.1

/-- All expressions of a text. -/
def parseScript (s : String) : Except ParseError (List Expr) :=
  (Parser.ofString s).script.1

end TinyLisp
