import TinyLisp.Expr.Query
import TinyLisp.Proofs.Expr.Pending

/-!
# Parsing by calls

A `Parser` keeps the lists and quotes that are open on a stack, and how deep an expression is
nested is the height of that stack.  A `Descent` reads expressions by calls that call each
other, one for an expression and one for the items of a list.  What is open is known only to
the calls that have not returned, and so these are counted.  The counter is raised when an
expression is asked for, and the nesting limit is checked against it.  It is lowered when the
call returns, be it with an expression or with an error.

However a call ends, it leaves the counter as it was, because all the calls inside it do
(`depth_rest`).  So where an expression is asked for, the counter is the number of lists and
quotes that are open, and the calls do what the steps of a parser do (`resume_calls`).  Between
queries nothing is open and the counter is zero, and all answers are those of the parser
(`askAll_view`).
-/

namespace TinyLisp

namespace Parser

/-- Starts an expression, if it is not nested too deep. -/
def enter (p : Parser) : Progress :=
  if depthLimit ≤ p.frames.length then p.fail .tooDeep else p.next.2.start p.next.1

/-- Goes on behind a step that has been made. -/
def resume : Progress → Except ParseError Expr × Parser
  | .stop outcome p => (outcome, p)
  | .go p => p.expression

/-- Reading an expression is making a step and going on. -/
lemma expression_eq_resume_step (p : Parser) : p.expression = resume p.step := by
  rw [expression]
  split <;> simp [resume, *]

/-- A token that has been looked at is read next, and reading it leaves what reading it at
once would have left. -/
lemma next_peek (p : Parser) : p.peek.next = p.next := by
  have hvacant : { p.next.2 with ahead := none } = p.next.2 := by
    rw [← p.ahead_next]
  exact Prod.ext rfl hvacant

/-- Inside a list, an item starts with a token that has been looked at. -/
lemma step_eq_enter_peek {p : Parser} {items : List Expr} {outer : List Frame}
    (hframes : p.frames = .list items :: outer) (hclose : p.next.1.kind ≠ .rparen)
    (hend : p.next.1.kind ≠ .eof) : p.step = p.peek.enter := by
  rw [enter, next_peek, frames_peek, step]
  split
  · split <;> first | contradiction | rfl
  · simp_all

/-- Reading a script is reading an expression and going on. -/
lemma scriptInto_eq_ite (done : List Expr) (p : Parser) :
    p.scriptInto done =
      if p.atEnd.1 then (.ok done.reverse, p.atEnd.2)
      else
        match p.atEnd.2.expression with
        | (.ok e, q) => scriptInto (e :: done) q
        | (.error e, q) => (.error e, q) := by
  rw [scriptInto]
  split
  · rfl
  · split <;> simp [*]

end Parser

/-- A parser that opens lists and quotes by calls: the source behind the tokens read, the token
that was put back, and the number of expressions asked for that are not complete. -/
structure Descent where
  source : Source
  ahead : Option Token := none
  depth : ℕ := 0

namespace Descent

/-- The parser with the same tokens before it and these lists and quotes open. -/
def view (d : Descent) (frames : List Frame) : Parser where
  source := d.source
  ahead := d.ahead
  frames := frames

@[simp] lemma frames_view (d : Descent) (frames : List Frame) : (d.view frames).frames = frames :=
  rfl

/-! ### Tokens -/

/-- Reads the next token: the one that was put back, else one from the source. -/
def next (d : Descent) : Token × Descent :=
  match d.ahead with
  | some t => (t, { d with ahead := none })
  | none => (d.source.token.1, { d with source := d.source.token.2 })

/-- Puts a token back. -/
def unread (d : Descent) (t : Token) (_vacant : d.ahead = none) : Descent :=
  { d with ahead := some t }

/-- Reading a token leaves room for putting it back. -/
lemma ahead_next (d : Descent) : d.next.2.ahead = none := by
  unfold next
  split <;> simp_all

/-- Reads the next token and puts it back. -/
def peek (d : Descent) : Descent :=
  d.next.2.unread d.next.1 d.ahead_next

/-- An upper bound for the number of tokens left. -/
def remaining (d : Descent) : ℕ :=
  (d.view []).remaining

/-- Tokens are read as by a parser, whatever is open. -/
lemma next_view (d : Descent) (frames : List Frame) :
    (d.view frames).next = (d.next.1, d.next.2.view frames) := by
  unfold Parser.next next view
  cases d.ahead <;> rfl

lemma peek_view (d : Descent) (frames : List Frame) :
    (d.view frames).peek = d.peek.view frames := by
  unfold Parser.peek Parser.unread
  rw [next_view]
  rfl

/-- Tokens are read whatever the counter is, and the counter stays. -/
lemma next_mk_depth (d : Descent) (n : ℕ) :
    next { d with depth := n } = (d.next.1, { d.next.2 with depth := n }) := by
  unfold next
  cases d.ahead <;> rfl

@[simp] lemma depth_next (d : Descent) : d.next.2.depth = d.depth := by
  unfold next
  cases d.ahead <;> rfl

@[simp] lemma depth_peek (d : Descent) : d.peek.depth = d.depth := d.depth_next

lemma remaining_next_le (d : Descent) : d.next.2.remaining ≤ d.remaining := by
  have hle := (d.view []).remaining_next_le
  rwa [next_view] at hle

/-- Reading a token other than the end of the input leaves fewer tokens. -/
lemma remaining_next_lt {d : Descent} (h : d.next.1.kind ≠ .eof) :
    d.next.2.remaining < d.remaining := by
  have hlt := Parser.remaining_next_lt (p := d.view [])
  rw [next_view] at hlt
  apply hlt
  simpa [Token.isEnd] using h

lemma remaining_peek_le (d : Descent) : d.peek.remaining ≤ d.remaining := by
  have hle := (d.view []).remaining_peek_le
  rwa [peek_view] at hle

/-! ### Calls -/

/-- What a call returns, and the parser that it leaves.  With an expression, it has used up a
token. -/
structure Return (d : Descent) where
  outcome : Except ParseError Expr
  rest : Descent
  used : ∀ e, outcome = .ok e → rest.remaining < d.remaining

/-- What a call returns may be returned by the call that made it. -/
def Return.ofLe {d d' : Descent} (r : Return d) (h : d.remaining ≤ d'.remaining) : Return d' where
  outcome := r.outcome
  rest := r.rest
  used := fun e he => Nat.lt_of_lt_of_le (r.used e he) h

/-- The quotation of an expression, which has to be a list. -/
def quotation (e : Expr) : Except ParseError Expr :=
  match e.quote? with
  | some q => .ok q
  | none => .error (.quotedNonList e)

/-- Quotes the expression that a call returns. -/
def Return.quote {d : Descent} (r : Return d) : Return d where
  outcome := r.outcome.bind quotation
  rest := r.rest
  used := by
    intro e he
    cases hr : r.outcome with
    | ok operand => exact r.used operand hr
    | error err => simp [hr, Except.bind] at he

/-- The number with the given sign and digits. -/
def number (negative : Bool) (digits : String) : Except ParseError Expr :=
  match Decimal.read? negative digits with
  | some n => .ok (.number n)
  | none => .error (.invalidNumber (if negative then "-" ++ digits else digits))

/-- A minus sign has been read.  Before a number it is the sign of that number, and otherwise
it is a name. -/
def minus (d : Descent) (sign : String) : Except ParseError Expr × Descent :=
  if d.next.1.kind = .number then (number true d.next.1.text, d.next.2)
  else (.ok (.atom sign), d.peek)

/-- The token `t` has been read, and it opens neither a list nor a quote. -/
def leaf (d : Descent) (t : Token) : Except ParseError Expr × Descent :=
  match t.kind with
  | .atom => (.ok (.atom t.text), d)
  | .number => (number false t.text, d)
  | .minus => d.minus t.text
  | .string => (.ok (.text t.content), d)
  | _ => (.error (.ofToken t), d)

lemma remaining_leaf_le (d : Descent) (t : Token) : (d.leaf t).2.remaining ≤ d.remaining := by
  unfold leaf minus
  split
  case h_3 =>
    split
    · exact d.remaining_next_le
    · exact d.remaining_peek_le
  all_goals exact Nat.le_refl _

/-- The end of the input is no expression. -/
lemma kind_ne_eof_of_leaf {d : Descent} {t : Token} {e : Expr} (h : (d.leaf t).1 = .ok e) :
    t.kind ≠ .eof := by
  intro hkind
  simp [leaf, hkind] at h

-- The calls end because an item, if it is complete, has used up a token.  Where the tokens
-- stay, the second component goes down.
mutual

/-- Reads an expression one level deeper, if it is not nested too deep. -/
def expression (d : Descent) : Return d :=
  if depthLimit ≤ d.depth then
    { outcome := .error .tooDeep
      rest := d
      used := by simp }
  else
    let r := nested { d with depth := d.depth + 1 }
    { outcome := r.outcome
      rest := { r.rest with depth := r.rest.depth - 1 }
      used := r.used }
termination_by (d.remaining, 1)

/-- Reads the expression that starts with the next token. -/
def nested (d : Descent) : Return d :=
  match hkind : d.next.1.kind with
  | .lparen =>
    have hlt : d.next.2.remaining < d.remaining := remaining_next_lt (by simp [hkind])
    (d.next.2.list []).ofLe hlt.le
  | .quote =>
    have hlt : d.next.2.remaining < d.remaining := remaining_next_lt (by simp [hkind])
    d.next.2.expression.quote.ofLe hlt.le
  | _ =>
    { outcome := (d.next.2.leaf d.next.1).1
      rest := (d.next.2.leaf d.next.1).2
      used := fun _ he => Nat.lt_of_le_of_lt (remaining_leaf_le _ _)
        (remaining_next_lt (kind_ne_eof_of_leaf he)) }
termination_by (d.remaining, 0)

/-- Reads the items of a list up to its closing parenthesis; `items` holds those read so far,
last first. -/
def list (d : Descent) (items : List Expr) : Return d :=
  match hkind : d.next.1.kind with
  | .rparen =>
    { outcome := .ok (.list items.reverse)
      rest := d.next.2
      used := fun _ _ => remaining_next_lt (by simp [hkind]) }
  | .eof =>
    { outcome := .error .unclosedList
      rest := d.next.2
      used := by simp }
  | _ =>
    -- the token is put back, and the item starts with it
    have hle := d.remaining_peek_le
    match hitem : d.peek.expression.outcome with
    | .ok e =>
      have hlt := Nat.lt_of_lt_of_le (d.peek.expression.used e hitem) hle
      (d.peek.expression.rest.list (e :: items)).ofLe hlt.le
    | .error _ => d.peek.expression.ofLe hle
termination_by (d.remaining, 2)
decreasing_by
  all_goals
    first
    | exact Prod.Lex.left _ _ hlt
    | exact Prod.Lex.right' _ hle (by decide)

end

/-! ### What the calls return -/

section

variable {d : Descent}

lemma nested_of_lparen (h : d.next.1.kind = .lparen) :
    d.nested = (d.next.2.list []).ofLe d.remaining_next_le := by
  rw [nested]
  split <;> simp_all

lemma nested_of_quote (h : d.next.1.kind = .quote) :
    d.nested = d.next.2.expression.quote.ofLe d.remaining_next_le := by
  rw [nested]
  split <;> simp_all

lemma nested_of_leaf (hlist : d.next.1.kind ≠ .lparen) (hquote : d.next.1.kind ≠ .quote) :
    (d.nested.outcome, d.nested.rest) = d.next.2.leaf d.next.1 := by
  rw [nested]
  split <;> simp_all

lemma list_of_rparen (h : d.next.1.kind = .rparen) (items : List Expr) :
    (d.list items).outcome = .ok (.list items.reverse) ∧ (d.list items).rest = d.next.2 := by
  rw [list]
  split <;> simp_all

lemma list_of_eof (h : d.next.1.kind = .eof) (items : List Expr) :
    (d.list items).outcome = .error .unclosedList ∧ (d.list items).rest = d.next.2 := by
  rw [list]
  split <;> simp_all

/-- A list goes on behind an item. -/
lemma list_of_ok {e : Expr} (hclose : d.next.1.kind ≠ .rparen) (hend : d.next.1.kind ≠ .eof)
    (h : d.peek.expression.outcome = .ok e) (items : List Expr) :
    ∃ hle, d.list items = (d.peek.expression.rest.list (e :: items)).ofLe hle := by
  refine ⟨(Nat.lt_of_lt_of_le (d.peek.expression.used e h) d.remaining_peek_le).le, ?_⟩
  rw [list]
  split
  · contradiction
  · contradiction
  · split
    · next e' he' =>
      obtain rfl : e' = e := Except.ok.inj (he'.symm.trans h)
      rfl
    · next herr => simp [h] at herr

/-- A list ends where an item is faulty. -/
lemma list_of_error {err : ParseError} (hclose : d.next.1.kind ≠ .rparen)
    (hend : d.next.1.kind ≠ .eof) (h : d.peek.expression.outcome = .error err)
    (items : List Expr) :
    d.list items = d.peek.expression.ofLe d.remaining_peek_le := by
  rw [list]
  split
  · contradiction
  · contradiction
  · split
    · next he => simp [h] at he
    · rfl

end

/-! ### The counter -/

lemma depth_leaf (d : Descent) (t : Token) : (d.leaf t).2.depth = d.depth := by
  unfold leaf minus
  split
  case h_3 => split <;> simp
  all_goals rfl

/-- However a call ends, it leaves the counter as it was. -/
lemma depth_rest :
    (∀ d : Descent, d.expression.rest.depth = d.depth) ∧
    (∀ d : Descent, d.nested.rest.depth = d.depth) ∧
    ∀ (d : Descent) (items : List Expr), (d.list items).rest.depth = d.depth := by
  apply expression.mutual_induct
  case case1 => -- nested too deep
    intro d hdeep
    rw [expression, if_pos hdeep]
  case case2 => -- the counter is raised and lowered
    intro d hdeep ih
    rw [expression, if_neg hdeep]
    dsimp only
    rw [ih, Nat.add_sub_cancel]
  case case3 => -- a list
    intro d hkind _ ih
    rw [nested_of_lparen hkind]
    exact ih.trans d.depth_next
  case case4 => -- a quote, whatever its operand
    intro d hkind _ ih
    rw [nested_of_quote hkind]
    exact ih.trans d.depth_next
  case case5 => -- nothing is opened
    intro d hlist hquote
    have hleaf : d.nested.rest = (d.next.2.leaf d.next.1).2 :=
      congrArg Prod.snd (nested_of_leaf hlist hquote)
    rw [hleaf, depth_leaf, depth_next]
  case case6 => -- the end of a list
    intro d items hkind
    rw [(list_of_rparen hkind items).2, depth_next]
  case case7 => -- the end of the input
    intro d items hkind
    rw [(list_of_eof hkind items).2, depth_next]
  case case8 => -- an item
    intro d items _ e hitem _ hclose hend ih ih'
    obtain ⟨_, hlist⟩ := list_of_ok hclose hend hitem items
    rw [hlist]
    exact ih'.trans (ih.trans d.depth_peek)
  case case9 => -- a faulty item
    intro d items _ err hitem hclose hend ih
    rw [list_of_error hclose hend hitem]
    exact ih.trans d.depth_peek

/-! ### Calls do what steps do -/

/-- What is open does not matter to those that an expression is handed over to. -/
lemma deliver_view (d : Descent) (frames : List Frame) (e : Expr) (outer : List Frame) :
    (d.view frames).deliver e outer = (d.view []).deliver e outer := by
  induction outer generalizing e with
  | nil => rfl
  | cons frame outer ih =>
    cases frame with
    | list items => rfl
    | quote =>
      unfold Parser.deliver
      cases e.quote? with
      | some q => exact ih q
      | none => rfl

/-- What becomes of an outcome where these lists and quotes are open: an expression is handed
over to them, and an error closes them all. -/
def finish (d : Descent) (outcome : Except ParseError Expr) (frames : List Frame) :
    Parser.Progress :=
  match outcome with
  | .ok e => (d.view []).deliver e frames
  | .error err => .stop (.error err) (d.view [])

/-- Where a parser with these lists and quotes open ends up when a call inside them has
returned. -/
def Return.resume {d : Descent} (r : Return d) (frames : List Frame) :
    Except ParseError Expr × Parser :=
  Parser.resume (r.rest.finish r.outcome frames)

/-- An error closes all that is open. -/
lemma Return.resume_of_error {d : Descent} {r : Return d} {err : ParseError}
    (h : r.outcome = .error err) (frames : List Frame) :
    r.resume frames = (.error err, r.rest.view []) := by
  rw [Return.resume, h]
  rfl

/-- A quote that is open takes the expression that a call returns. -/
lemma Return.resume_quote {d : Descent} (r : Return d) (frames : List Frame) :
    r.resume (.quote :: frames) = r.quote.resume frames := by
  obtain ⟨outcome, rest, used⟩ := r
  cases outcome with
  | error err => rfl
  | ok e =>
    unfold Return.resume Return.quote finish
    dsimp only [Except.bind]
    rw [Parser.deliver, quotation]
    cases e.quote? <;> rfl

lemma number_view (d : Descent) (negative : Bool) (digits : String) (frames : List Frame) :
    (d.view frames).number negative digits = d.finish (number negative digits) frames := by
  unfold Parser.number number
  cases Decimal.read? negative digits with
  | some n => exact d.deliver_view frames _ frames
  | none => rfl

/-- With a token that opens nothing, an expression is complete or faulty. -/
lemma start_view {t : Token} (hlist : t.kind ≠ .lparen) (hquote : t.kind ≠ .quote) (d : Descent)
    (frames : List Frame) :
    (d.view frames).start t = (d.leaf t).2.finish (d.leaf t).1 frames := by
  unfold Parser.start leaf
  cases hkind : t.kind with
  | lparen => contradiction
  | quote => contradiction
  | minus =>
    dsimp only
    unfold Parser.minus minus
    rw [next_view, peek_view]
    split
    · exact number_view _ _ _ frames
    · exact d.peek.deliver_view frames _ frames
  | number => exact d.number_view _ _ frames
  | atom => exact d.deliver_view frames _ frames
  | string => exact d.deliver_view frames _ frames
  | _ => rfl

/-- An item of a list is asked for when its first token has been put back. -/
lemma step_view_list {d : Descent} (hclose : d.next.1.kind ≠ .rparen)
    (hend : d.next.1.kind ≠ .eof) (items : List Expr) (frames : List Frame) :
    (d.view (.list items :: frames)).step = (d.peek.view (.list items :: frames)).enter := by
  rw [← peek_view]
  apply Parser.step_eq_enter_peek (frames_view d _)
  · rwa [next_view]
  · rwa [next_view]

/-- While the counter is the number of lists and quotes that are open, a parser comes to where
the calls come: when it starts an expression, when the next token has been read for it, and
inside a list. -/
theorem resume_calls :
    (∀ (d : Descent) (frames : List Frame), frames.length = d.depth →
      Parser.resume (d.view frames).enter = d.expression.resume frames) ∧
    (∀ (d : Descent) (frames : List Frame), frames.length + 1 = d.depth →
      Parser.resume ((d.next.2.view frames).start d.next.1) = d.nested.resume frames) ∧
    ∀ (d : Descent) (items : List Expr) (frames : List Frame), frames.length + 1 = d.depth →
      (d.view (.list items :: frames)).expression = (d.list items).resume frames := by
  -- along the calls; a call inside a list or a quote has one more frame around it
  apply expression.mutual_induct
  case case1 => -- nested too deep
    intro d hdeep frames hframes
    have henter : (d.view frames).enter = .stop (.error .tooDeep) (d.view []) :=
      if_pos (hdeep.trans_eq hframes.symm)
    rw [expression, if_pos hdeep, henter]
    rfl
  case case2 => -- the counter is raised and lowered
    intro d hdeep ih frames hframes
    have henter : (d.view frames).enter = (d.next.2.view frames).start d.next.1 := by
      rw [Parser.enter, next_view, frames_view, hframes, if_neg hdeep]
    have hnested := ih frames (congrArg (· + 1) hframes)
    rw [next_mk_depth] at hnested
    rw [expression, if_neg hdeep, henter]
    exact hnested
  case case3 => -- a list
    intro d hkind _ ih frames hframes
    have hstart : (d.next.2.view frames).start d.next.1 =
        .go (d.next.2.view (.list [] :: frames)) := by
      rw [Parser.start, hkind]
      rfl
    rw [nested_of_lparen hkind, hstart]
    exact ih frames (hframes.trans d.depth_next.symm)
  case case4 => -- a quote
    intro d hkind _ ih frames hframes
    have hstart : (d.next.2.view frames).start d.next.1 =
        .go (d.next.2.view (.quote :: frames)) := by
      rw [Parser.start, hkind]
      rfl
    have hoperand := ih (.quote :: frames) (hframes.trans d.depth_next.symm)
    rw [Return.resume_quote] at hoperand
    rw [nested_of_quote hkind, hstart, Parser.resume, Parser.expression_eq_resume_step]
    exact hoperand
  case case5 => -- nothing is opened
    intro d hlist hquote frames _
    rw [start_view hlist hquote, ← nested_of_leaf hlist hquote]
    rfl
  case case6 => -- the end of a list
    intro d items hkind frames _
    obtain ⟨houtcome, hrest⟩ := list_of_rparen hkind items
    rw [Parser.expression_eq_resume_step, Parser.step, Return.resume, houtcome, hrest]
    dsimp only [frames_view]
    rw [next_view, hkind]
    exact congrArg Parser.resume (deliver_view _ _ _ _)
  case case7 => -- the end of the input
    intro d items hkind frames _
    obtain ⟨houtcome, hrest⟩ := list_of_eof hkind items
    rw [Parser.expression_eq_resume_step, Parser.step, Return.resume, houtcome, hrest]
    dsimp only [frames_view]
    rw [next_view, hkind]
    rfl
  case case8 => -- an item
    intro d items _ e hitem _ hclose hend ih ih' frames hframes
    obtain ⟨_, hlist⟩ := list_of_ok hclose hend hitem items
    have hdepth : d.peek.expression.rest.depth = d.depth :=
      (depth_rest.1 d.peek).trans d.depth_peek
    rw [Parser.expression_eq_resume_step, step_view_list hclose hend,
      ih (.list items :: frames) (hframes.trans d.depth_peek.symm), hlist, Return.resume, hitem]
    exact ih' frames (hframes.trans hdepth.symm)
  case case9 => -- a faulty item
    intro d items _ err hitem hclose hend ih frames hframes
    rw [Parser.expression_eq_resume_step, step_view_list hclose hend,
      ih (.list items :: frames) (hframes.trans d.depth_peek.symm),
      list_of_error hclose hend hitem, Return.resume_of_error hitem]
    exact (Return.resume_of_error hitem frames).symm

/-- With the counter at zero, an expression is read as by a parser with nothing open. -/
lemma expression_view {d : Descent} (h : d.depth = 0) :
    (d.view []).expression = (d.expression.outcome, d.expression.rest.view []) := by
  have hstep : (d.view []).step = (d.view []).enter := rfl
  have hfinish : d.expression.resume [] = (d.expression.outcome, d.expression.rest.view []) := by
    unfold Return.resume finish
    cases d.expression.outcome <;> rfl
  rw [Parser.expression_eq_resume_step, hstep, resume_calls.1 d [] h.symm, hfinish]

/-! ### Queries -/

/-- Nothing is left but the end of the input. -/
def atEnd (d : Descent) : Bool × Descent :=
  (d.next.1.isEnd, d.peek)

/-- Reads the next expression, or nothing at the end of the input. -/
def expression? (d : Descent) : Option (Except ParseError Expr) × Descent :=
  if d.atEnd.1 then (none, d.atEnd.2)
  else (some d.atEnd.2.expression.outcome, d.atEnd.2.expression.rest)

/-- Reads expressions up to the end of the input or the first error; `done` holds those read so
far, last first. -/
def scriptInto (done : List Expr) (d : Descent) : Except ParseError (List Expr) × Descent :=
  if d.atEnd.1 then (.ok done.reverse, d.atEnd.2)
  else
    match h : d.atEnd.2.expression.outcome with
    | .ok e =>
      have := Nat.lt_of_lt_of_le (d.atEnd.2.expression.used e h) d.remaining_peek_le
      scriptInto (e :: done) d.atEnd.2.expression.rest
    | .error err => (.error err, d.atEnd.2.expression.rest)
termination_by d.remaining

/-- Answers a query. -/
def ask (d : Descent) : Parser.Query → Parser.Answer × Descent
  | .expression => (.expression d.expression.outcome, d.expression.rest)
  | .expression? => (.expression? d.expression?.1, d.expression?.2)
  | .atEnd => (.atEnd d.atEnd.1, d.atEnd.2)
  | .script => (.script (d.scriptInto []).1, (d.scriptInto []).2)

/-- Answers queries one after the other.  Each answer comes with the number of bytes consumed so
far. -/
def askAll (d : Descent) : List Parser.Query → List (Parser.Answer × ℕ)
  | [] => []
  | q :: qs => ((d.ask q).1, (d.ask q).2.source.consumed) :: (d.ask q).2.askAll qs

lemma depth_expression_atEnd (d : Descent) : d.atEnd.2.expression.rest.depth = d.depth :=
  (depth_rest.1 d.peek).trans d.depth_peek

lemma depth_scriptInto (done : List Expr) (d : Descent) :
    (scriptInto done d).2.depth = d.depth := by
  fun_induction scriptInto done d with
  | case1 done d hend => exact d.depth_peek
  | case2 done d hend e he _ ih => exact ih.trans d.depth_expression_atEnd
  | case3 done d hend err herr => exact d.depth_expression_atEnd

/-- Whatever is asked, the counter is left as it was. -/
lemma depth_ask (d : Descent) (q : Parser.Query) : (d.ask q).2.depth = d.depth := by
  cases q with
  | expression => exact depth_rest.1 d
  | expression? =>
    unfold ask expression?
    dsimp only
    split
    · exact d.depth_peek
    · exact d.depth_expression_atEnd
  | atEnd => exact d.depth_peek
  | script => exact depth_scriptInto [] d

lemma atEnd_view (d : Descent) : (d.view []).atEnd = (d.atEnd.1, d.atEnd.2.view []) := by
  rw [Parser.atEnd, next_view, peek_view, atEnd]

lemma expression_atEnd_view {d : Descent} (h : d.depth = 0) :
    (d.view []).atEnd.2.expression =
      (d.atEnd.2.expression.outcome, d.atEnd.2.expression.rest.view []) := by
  rw [atEnd_view]
  exact expression_view (d.depth_peek.trans h)

lemma scriptInto_view {d : Descent} (h : d.depth = 0) (done : List Expr) :
    Parser.scriptInto done (d.view []) =
      ((scriptInto done d).1, (scriptInto done d).2.view []) := by
  fun_induction scriptInto done d with
  | case1 done d hend =>
    rw [Parser.scriptInto_eq_ite, atEnd_view]
    exact if_pos hend
  | case2 done d hend e he _ ih =>
    rw [Parser.scriptInto_eq_ite, expression_atEnd_view h, he, atEnd_view, if_neg hend]
    exact ih (d.depth_expression_atEnd.trans h)
  | case3 done d hend err herr =>
    rw [Parser.scriptInto_eq_ite, expression_atEnd_view h, herr, atEnd_view]
    exact if_neg hend

/-- With the counter at zero, every query is answered as by a parser with nothing open. -/
lemma ask_view {d : Descent} (h : d.depth = 0) (q : Parser.Query) :
    (d.view []).ask q = ((d.ask q).1, (d.ask q).2.view []) := by
  cases q with
  | expression => rw [Parser.ask, expression_view h, ask]
  | expression? =>
    unfold Parser.ask ask Parser.expression? expression?
    dsimp only
    rw [expression_atEnd_view h, atEnd_view]
    split <;> rfl
  | atEnd => rw [Parser.ask, atEnd_view, ask]
  | script => rw [Parser.ask, Parser.script, scriptInto_view h, ask]

/-- So are queries one after the other, and as many bytes are consumed. -/
theorem askAll_view {d : Descent} (h : d.depth = 0) (qs : List Parser.Query) :
    (d.view []).askAll qs = d.askAll qs := by
  induction qs generalizing d with
  | nil => rfl
  | cons q qs ih =>
    rw [Parser.askAll, askAll, ask_view h, ih ((d.depth_ask q).trans h)]
    rfl

end Descent

end TinyLisp
