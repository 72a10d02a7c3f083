import TinyLisp.Proofs.Expr.Descent
import TinyLisp.Proofs.Expr.Query
import TinyLisp.Source.Reader

/-!
# A parser is its pending tokens

Nothing of what a parser has been asked before shows in its later answers, but for the
tokens that are gone.  Between two queries nothing is open, whatever faults there have
been.  The answers are those of a fresh parser before the tokens still pending, and
these are some last tokens of the source (`Parser.IsReady.after`).  Asking
whether the input is at its end makes no difference to any other answer.

A parser that works by calls has a counter instead of a stack, and between two queries its
counter is at zero (`Descent.depth_after`).

A parser can put back a single token.  `Guarded` has the steps of a parser with a guard
in place of the proof that there is room: where another token already waits, the step
is not made.  The guard never acts (`Guarded.step_eq`).
-/

namespace TinyLisp

/-! ### Putting tokens back -/

namespace Guarded

/-- Puts a token back, if there is room for it. -/
def unread (p : Parser) (t : Token) : Option Parser :=
  match p.ahead with
  | none => some { p with ahead := some t }
  | some _ => none

/-- Reads the next token and puts it back. -/
def peek (p : Parser) : Option Parser :=
  unread p.next.2 p.next.1

/-- A minus sign has been read.  A token that is not its number is put back. -/
def minus (p : Parser) (sign : String) : Option Parser.Progress :=
  if p.next.1.kind = .number then some (p.next.2.number true p.next.1.text)
  else (peek p).map fun q => q.deliver (.atom sign) p.frames

/-- Starts an expression with the next token, if it is not nested too deep. -/
def enter (p : Parser) : Option Parser.Progress :=
  if depthLimit ≤ p.frames.length then some (p.fail .tooDeep)
  else if p.next.1.kind = .minus then minus p.next.2 p.next.1.text
  else some (p.next.2.start p.next.1)

/-- Makes a step.  Inside a list, a token that does not close the list is put back before
an item is started with it. -/
def step (p : Parser) : Option Parser.Progress :=
  match p.frames with
  | .list items :: outer =>
    match p.next.1.kind with
    | .rparen => some (p.next.2.deliver (.list items.reverse) outer)
    | .eof => some (p.next.2.fail .unclosedList)
    | _ => (peek p).bind enter
  | _ => enter p

/-- Looking at the next token always finds room for putting it back. -/
lemma peek_eq (p : Parser) : peek p = some p.peek := by
  simp [peek, unread, Parser.peek, Parser.unread]

lemma minus_eq (p : Parser) (sign : String) : minus p sign = some (p.minus sign) := by
  unfold minus Parser.minus
  rw [peek_eq]
  split
  · rfl
  · rfl

lemma enter_eq (p : Parser) : enter p = some p.enter := by
  unfold enter Parser.enter
  split
  · rfl
  · split
    · next hkind => rw [minus_eq, Parser.start, hkind]
    · rfl

/-- Every step finds room for the tokens that it puts back. -/
lemma step_eq (p : Parser) : step p = some p.step := by
  have hpeek : (peek p).bind enter = some p.peek.enter := by
    rw [peek_eq, Option.bind_some, enter_eq]
  unfold step
  rw [hpeek, enter_eq]
  split
  · next items outer hframes =>
    split
    · next hkind => simp [Parser.step, hframes, hkind]
    · next hkind => simp [Parser.step, hframes, hkind]
    · next hclose hend => rw [Parser.step_eq_enter_peek hframes hclose hend]
  · next hlist =>
    unfold Parser.step
    split
    · next items outer hframes => exact absurd hframes (hlist items outer)
    · rfl

end Guarded

/-! ### The tokens that are left -/

namespace Pushdown

@[simp] lemma rest_number (frames : List Frame) (negative : Bool) (digits : String)
    (rest : List Token) : (number frames negative digits rest).rest = rest := by
  unfold number
  split
  · exact rest_deliver _ _ _
  · rfl

/-- Starting an expression leaves the tokens behind it. -/
lemma rest_start_suffix (frames : List Frame) (t : Token) (rest : List Token) :
    (start frames t rest).rest <:+ rest := by
  unfold start
  cases t.kind with
  | minus =>
    dsimp only
    split
    · rw [rest_number]
      exact List.tail_suffix rest
    · simp
  | _ => simp

/-- A step leaves the tokens that it has not read, even if it fails. -/
lemma rest_step_suffix (frames : List Frame) (ts : List Token) :
    (step frames ts).rest <:+ ts := by
  have henter : (enter frames ts).rest <:+ ts := by
    unfold enter
    split
    · exact List.suffix_refl ts
    · exact (rest_start_suffix _ _ _).trans (List.tail_suffix ts)
  unfold step
  split
  · split
    · rw [rest_deliver]
      exact List.tail_suffix ts
    · exact List.tail_suffix ts
    · exact henter
  · exact henter

/-- So does a run that reads an expression. -/
lemma rest_expression_suffix (frames : List Frame) (ts : List Token) :
    (expression frames ts).2 <:+ ts := by
  fun_induction expression frames ts with
  | case1 frames ts outcome rest hstep =>
    have hsuffix := rest_step_suffix frames ts
    rwa [hstep] at hsuffix
  | case2 frames ts frames' rest hstep _ ih =>
    have hsuffix := rest_step_suffix frames ts
    rw [hstep] at hsuffix
    exact ih.trans hsuffix

/-- So does a run that reads a script. -/
lemma rest_script_suffix (ts : List Token) : (script ts).2 <:+ ts := by
  fun_induction script ts with
  | case1 => exact List.nil_suffix
  | case2 ts hne e rest hexpr _ ih =>
    have hsuffix := rest_expression_suffix [] ts
    rw [hexpr] at hsuffix
    exact ih.trans hsuffix
  | case3 ts hne err rest hexpr =>
    have hsuffix := rest_expression_suffix [] ts
    rwa [hexpr] at hsuffix

/-- Whatever is asked, the tokens left are some last ones of those before. -/
lemma rest_ask_suffix (ts : List Token) (q : Parser.Query) : (ask ts q).2 <:+ ts := by
  cases q with
  | expression => exact rest_expression_suffix [] ts
  | expression? =>
    unfold ask
    dsimp only
    split
    · exact List.nil_suffix
    · exact rest_expression_suffix [] ts
  | atEnd => exact List.suffix_refl ts
  | script => exact rest_script_suffix ts

/-- Asking for the end of the input makes no difference to the other answers. -/
lemma filter_zip_askAll (ts : List Token) (qs : List Parser.Query) :
    (qs.zip (askAll ts qs)).filter (·.1 ≠ .atEnd) =
      (qs.filter (· ≠ .atEnd)).zip (askAll ts (qs.filter (· ≠ .atEnd))) := by
  induction qs generalizing ts with
  | nil => rfl
  | cons q qs ih =>
    by_cases hq : q = .atEnd
    · subst hq
      exact ih ts
    · rw [askAll, List.zip_cons_cons, List.filter_cons_of_pos (by simpa using hq),
        List.filter_cons_of_pos (by simpa using hq), askAll, List.zip_cons_cons, ih]

end Pushdown

/-- Some last tokens of a source are all the tokens of another one. -/
lemma Source.exists_tokens_eq {s : Source} {ts : List Token} (h : ts <:+ s.tokens.1) :
    ∃ s' : Source, s'.tokens.1 = ts := by
  induction s using tokens_induction with
  | ended s hend =>
    rw [tokens_of_isEnd hend, List.suffix_nil] at h
    exact ⟨s, by rw [tokens_of_isEnd hend, h]⟩
  | more s hend ih =>
    rw [tokens_of_not_isEnd hend, List.suffix_cons_iff] at h
    rcases h with rfl | h
    · exact ⟨s, by rw [tokens_of_not_isEnd hend]⟩
    · exact ih h

/-! ### Answering queries -/

namespace Parser

/-- The parser when it has answered queries. -/
def after (p : Parser) (qs : List Query) : Parser :=
  qs.foldl (fun p q => (p.ask q).2) p

/-- Answering queries keeps a parser ready, and leaves some last ones of its pending
tokens. -/
lemma IsReady.after {p : Parser} (h : p.IsReady) (qs : List Query) :
    (p.after qs).IsReady ∧ (p.after qs).pending <:+ p.pending := by
  induction qs generalizing p with
  | nil => exact ⟨h, List.suffix_refl _⟩
  | cons q qs ih =>
    obtain ⟨-, hpending, hready⟩ := h.ask q
    have hsuffix : (p.ask q).2.pending <:+ p.pending := by
      rw [hpending]
      exact Pushdown.rest_ask_suffix p.pending q
    obtain ⟨hlast, hrest⟩ := ih hready
    exact ⟨hlast, hrest.trans hsuffix⟩

/-- Ready parsers with the same tokens before them give the same answers. -/
lemma IsReady.askAll_eq {p q : Parser} (hp : p.IsReady) (hq : q.IsReady)
    (h : p.pending = q.pending) (qs : List Query) :
    (p.askAll qs).map Prod.fst = (q.askAll qs).map Prod.fst := by
  rw [hp.askAll, hq.askAll, h]

end Parser

namespace Descent

/-- The parser when it has answered queries. -/
def after (d : Descent) (qs : List Parser.Query) : Descent :=
  qs.foldl (fun d q => (d.ask q).2) d

/-- Answering queries leaves the counter as it was. -/
lemma depth_after (d : Descent) (qs : List Parser.Query) : (d.after qs).depth = d.depth := by
  induction qs generalizing d with
  | nil => rfl
  | cons q qs ih => exact (ih (d.ask q).2).trans (d.depth_ask q)

/-- It leaves the tokens that a parser leaves. -/
lemma after_view {d : Descent} (h : d.depth = 0) (qs : List Parser.Query) :
    (d.view []).after qs = (d.after qs).view [] := by
  induction qs generalizing d with
  | nil => rfl
  | cons q qs ih =>
    rw [Parser.after, List.foldl_cons, ask_view h]
    exact ih ((d.depth_ask q).trans h)

end Descent

/-- A parser is its pending tokens, on any source and whatever it has been asked.  The counter
of the parser that works by calls is at zero, as every call leaves it as it was, and this parser
gives the same answers and leaves the same tokens.  Nothing is open, and no token is put back
where another one waits.  Some source has just the pending tokens, and a fresh parser on such a
source gives the same answers.  Asking for the end of the input makes no difference to the other
answers. -/
theorem parser_is_pending (s : Source) (qs : List Parser.Query) :
    (Descent.after { source := s } qs).depth = 0 ∧
    (∀ d : Descent, d.expression.rest.depth = d.depth) ∧
    Descent.askAll { source := s } qs = Parser.askAll { source := s } qs ∧
    (Descent.after { source := s } qs).view [] = Parser.after { source := s } qs ∧
    (Parser.after { source := s } qs).frames = [] ∧
    (∀ p : Parser, Guarded.peek p = some p.peek ∧ Guarded.step p = some p.step) ∧
    (∃ s' : Source, s'.tokens.1 = (Parser.after { source := s } qs).pending) ∧
    (∀ s' : Source, s'.tokens.1 = (Parser.after { source := s } qs).pending → ∀ qs',
      ((Parser.after { source := s } qs).askAll qs').map Prod.fst =
        (Parser.askAll { source := s' } qs').map Prod.fst) ∧
    (qs.zip ((Parser.askAll { source := s } qs).map Prod.fst)).filter (·.1 ≠ .atEnd) =
      (qs.filter (· ≠ .atEnd)).zip
        ((Parser.askAll { source := s } (qs.filter (· ≠ .atEnd))).map Prod.fst) := by
  have hstart := Parser.isReady_mk s
  obtain ⟨hready, hsuffix⟩ := hstart.after qs
  refine ⟨Descent.depth_after _ qs, Descent.depth_rest.1, (Descent.askAll_view rfl qs).symm,
    (Descent.after_view rfl qs).symm, hready.frames_eq,
    fun p => ⟨Guarded.peek_eq p, Guarded.step_eq p⟩, ?_, ?_, ?_⟩
  · exact Source.exists_tokens_eq hsuffix
  · intro s' hs' qs'
    apply hready.askAll_eq (Parser.isReady_mk s')
    rw [← hs', Parser.pending_of_ahead_eq_none rfl]
  · rw [hstart.askAll, hstart.askAll]
    exact Pushdown.filter_zip_askAll _ qs

/-- A token has been put back, an expression was faulty, and the reader has failed inside a
string literal.  The parser goes on as a fresh one would. -/
theorem parser_is_pending_failed :
    (Source.ofString "(b").tokens.1 =
        (Parser.after { source := .ofChunks [.data (Utf8.encode "- ) \"a\n"), .failed,
          .data (Utf8.encode "(b")] } [.expression, .expression, .expression]).pending ∧
      ((Parser.after { source := .ofChunks [.data (Utf8.encode "- ) \"a\n"), .failed,
          .data (Utf8.encode "(b")] } [.expression, .expression, .expression]).askAll
            [.atEnd, .script]).map Prod.fst =
        (Parser.askAll { source := .ofString "(b" } [.atEnd, .script]).map Prod.fst := by
  have h : (Source.ofString "(b").tokens.1 =
      (Parser.after { source := .ofChunks [.data (Utf8.encode "- ) \"a\n"), .failed,
        .data (Utf8.encode "(b")] } [.expression, .expression, .expression]).pending := by
    decide +kernel
  exact ⟨h, (parser_is_pending _ _).2.2.2.2.2.2.2.1 _ h [.atEnd, .script]⟩

end TinyLisp
