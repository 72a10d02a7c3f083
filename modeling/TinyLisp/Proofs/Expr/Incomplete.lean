import TinyLisp.Proofs.Expr.Language
import TinyLisp.Proofs.Expr.Run
import TinyLisp.Proofs.Token.Continuation

/-!
# Incomplete sources

A source whose first expression is faulty may just be too short.  The fault says so: it
is found at the end of the input exactly if the source can be continued to one that is
parsed (`parseExpr_isEndOfInput_iff`).  Every other fault is final.

That a fault at the end can be mended is shown by an explicit continuation, which closes
what is open (`exists_completion`).  That any other fault stays is shown the other way
round: where a longer source is parsed, the shorter one is parsed or ends too early
(`continuable_of_continues`).  The steps of the longer source are followed as far as
the tokens of the shorter one go.
-/

namespace TinyLisp

/-- The fault is found at the end of the input. -/
def ParseError.IsEndOfInput : ParseError → Prop
  | .unclosedList => True
  | .unexpected kind _ => kind = .eof
  | _ => False

namespace Pushdown

open Token

/-! ### Where the input may end -/

/-- Something is lacking, but nothing is too deep: a list is open that may be closed, or
an expression may start. -/
def Completable (frames : List Frame) : Prop :=
  frames.length < depthLimit ∨ ∃ items outer, frames = .list items :: outer

/-- Where a step is made, something may still come. -/
lemma Moves.completable {frames : List Frame} {ts : List Token} {turn : Turn}
    (h : Moves frames ts turn) : Completable frames := by
  cases h with
  | leaf _ hdepth => exact Or.inl hdepth
  | lparen _ hdepth => exact Or.inl hdepth
  | quote _ hdepth => exact Or.inl hdepth
  | rparen _ => exact Or.inr ⟨_, _, rfl⟩

/-- Handing over an expression fails only where something cannot be quoted. -/
lemma deliver_error {e : Expr} {rest rest' : List Token} {frames : List Frame} {err : ParseError}
    (h : deliver e rest frames = .stop (.error err) rest') : ∃ x, err = .quotedNonList x := by
  induction frames generalizing e with
  | nil => simp [deliver] at h
  | cons frame outer ih =>
    cases frame with
    | list items => simp [deliver] at h
    | quote =>
      unfold deliver at h
      split at h
      · exact ih h
      · obtain ⟨hout, -⟩ := Turn.stop.inj h
        exact ⟨e, (Except.error.inj hout).symm⟩

/-- An expression is found to lack its start only at the end of the input. -/
lemma kind_of_start_error {frames : List Frame} {t : Token} {rest rest' : List Token}
    {err : ParseError} (h : start frames t rest = .stop (.error err) rest')
    (hend : err.IsEndOfInput) : t.kind = .eof := by
  have hdeliver : ∀ {e ts}, deliver e ts frames = .stop (.error err) rest' → t.kind = .eof := by
    intro e ts hdeliver
    obtain ⟨x, rfl⟩ := deliver_error hdeliver
    exact absurd hend (by simp [ParseError.IsEndOfInput])
  have hnumber : ∀ {negative digits ts},
      number frames negative digits ts = .stop (.error err) rest' → t.kind = .eof := by
    intro negative digits ts hnumber
    unfold number at hnumber
    split at hnumber
    · exact hdeliver hnumber
    · obtain ⟨hout, -⟩ := Turn.stop.inj hnumber
      obtain rfl := Except.error.inj hout
      exact absurd hend (by simp [ParseError.IsEndOfInput])
  have htoken : Turn.stop (.error (.ofToken t)) rest = .stop (.error err) rest' →
      t.kind = .eof := by
    intro hstop
    obtain ⟨hout, -⟩ := Turn.stop.inj hstop
    obtain rfl := Except.error.inj hout
    exact hend
  unfold start at h
  split at h
  · exact hdeliver h
  · exact hnumber h
  · split at h
    · exact hnumber h
    · exact hdeliver h
  · exact hdeliver h
  · simp at h
  · simp at h
  all_goals exact htoken h

/-- A step fails at the end of the input only if no token is left and something may still
come. -/
lemma completable_of_step_error {frames : List Frame} {ts rest : List Token} {err : ParseError}
    (h : step frames ts = .stop (.error err) rest) (hend : err.IsEndOfInput)
    (hproper : ∀ t ∈ ts, t.kind ≠ .eof) : ts = [] ∧ Completable frames := by
  have hnil : (next ts).kind = .eof → ts = [] := by
    intro hkind
    cases ts with
    | nil => rfl
    | cons t ts => exact absurd hkind (hproper t List.mem_cons_self)
  have henter : enter frames ts = .stop (.error err) rest → ts = [] ∧ Completable frames := by
    intro henter
    unfold enter at henter
    split at henter
    · obtain ⟨hout, -⟩ := Turn.stop.inj henter
      obtain rfl := Except.error.inj hout
      exact absurd hend (by simp [ParseError.IsEndOfInput])
    · next hdepth =>
      exact ⟨hnil (kind_of_start_error henter hend), Or.inl (Nat.not_le.mp hdepth)⟩
  unfold step at h
  split at h
  · next items outer =>
    split at h
    · have hfine := isFine_deliver_of_quote (e := .list items.reverse) rfl ts.tail outer
      rw [h] at hfine
      simp [Turn.isFine] at hfine
    · next hkind => exact ⟨hnil hkind, Or.inr ⟨items, outer, rfl⟩⟩
    · exact henter h
  · exact henter h

/-! ### Mending a fault at the end of the input -/

/-- Closing parentheses. -/
def closers (n : ℕ) : List Token :=
  List.replicate n { kind := .rparen, text := ")" }

/-- Closing parentheses are spelled as such. -/
lemma lexes_closers (n : ℕ) : Lexes (List.replicate n ')') (closers n) := by
  induction n with
  | zero => exact .nil (by simp)
  | succ n ih => exact Lexes.spelled .rparen ih

/-- As many closing parentheses as lists are open complete the expression. -/
lemma expression_closers {frames : List Frame} (hne : frames ≠ [])
    (hquote : frames.head? ≠ some .quote) :
    ∃ e rest, expression frames (closers (lists frames)) = (.ok e, rest) := by
  cases frames with
  | nil => exact absurd rfl hne
  | cons frame outer =>
    cases frame with
    | quote => exact absurd rfl hquote
    | list items =>
      have hfine := isFine_deliver_of_quote (e := .list items.reverse) rfl (closers (lists outer))
        outer
      obtain ⟨-, hlists, hhead⟩ := frames_deliver hfine
      have hrest := rest_deliver (.list items.reverse) (closers (lists outer)) outer
      have hmoves : Moves (.list items :: outer) (closers (lists (.list items :: outer)))
          (deliver (.list items.reverse) (closers (lists outer)) outer) := .rparen rfl
      rw [expression_eq_resume, hmoves.step_eq]
      cases hturn : deliver (.list items.reverse) (closers (lists outer)) outer with
      | stop outcome rest =>
        cases outcome with
        | ok e => exact ⟨e, rest, rfl⟩
        | error err => simp [hturn, Turn.isFine] at hfine
      | go frames' rest =>
        rw [hturn] at hlists hhead hrest hmoves
        have hfewer : lists frames' < lists (.list items :: outer) := by
          have : lists frames' = lists outer := hlists
          simp [lists, this]
        obtain rfl : rest = closers (lists frames') := by
          rw [show lists frames' = lists outer from hlists]
          exact hrest
        exact expression_closers (hmoves.frames_ne_nil rfl) hhead
termination_by lists frames

/-- Whatever may still come can come: some parentheses complete the expression. -/
lemma exists_completion {frames : List Frame} (h : Completable frames) :
    ∃ more vs, Lexes more vs ∧ (∀ c ∈ more.head?, c ∈ delimiters) ∧ (next vs).kind ≠ .number ∧
      ∃ e rest, expression frames vs = (.ok e, rest) := by
  by_cases hlist : ∃ items outer, frames = .list items :: outer
  · obtain ⟨items, outer, rfl⟩ := hlist
    refine ⟨_, _, lexes_closers (lists (.list items :: outer)), ?_, ?_, ?_⟩
    · simp [lists, List.replicate_succ, delimiters]
    · simp [lists, closers, List.replicate_succ, next]
    · exact expression_closers (by simp) (by simp)
  · have hdepth : frames.length < depthLimit := h.resolve_right hlist
    refine ⟨'(' :: List.replicate (lists frames + 1) ')', _,
      .spelled .lparen (lexes_closers (lists frames + 1)), by simp [delimiters],
      by simp [next], ?_⟩
    rw [expression_eq_resume, (Moves.lparen rfl hdepth).step_eq]
    have hopen : Frame.list [] :: frames ≠ [] := by simp
    exact expression_closers hopen (by simp)

/-- Sealing tokens makes no number of the next one. -/
lemma kind_next_of_seals {ts us vs : List Token} (h : Seals ts us) (hvs : (next vs).kind ≠ .number)
    (hnumber : (next (us ++ vs)).kind = .number) : (next ts).kind = .number := by
  cases h with
  | refl =>
    cases ts with
    | nil => exact absurd hnumber hvs
    | cons t ts => exact hnumber
  | string hs hs' => exact absurd hnumber (by simp [next, hs'])
  | cons _ => exact hnumber

/-- A step that uses up its tokens, the last of them a string literal, reads just that
literal as an item of a list. -/
lemma Moves.of_string {frames frames' : List Frame} {init : List Token} {s : Token}
    (h : Moves frames (init ++ [s]) (.go frames' [])) (hs : s.kind = .string) :
    init = [] ∧ frames.length < depthLimit ∧ ∃ items outer, frames = .list items :: outer := by
  generalize hts : init ++ [s] = ts at h
  generalize hturn : Turn.go frames' [] = turn at h
  have hlast : ∀ us {t}, init ++ [s] = us ++ [t] → t.kind ≠ .string → False := by
    intro us t heq ht
    obtain rfl := List.singleton_inj.mp (List.append_inj' heq rfl).2
    exact ht hs
  cases h with
  | @leaf _ used rest e hleaf hdepth =>
    have hrest := congrArg Turn.rest hturn
    rw [rest_deliver, rest_go] at hrest
    subst hrest
    rw [List.append_nil] at hts
    have hlist : ∃ items outer, frames = .list items :: outer := by
      have hfine : (deliver e [] frames).isFine = true := by rw [← hturn]; rfl
      have hhead := hleaf.head?_ne_quote hfine
      cases frames with
      | nil => simp [deliver] at hturn
      | cons frame outer =>
        cases frame with
        | list items => exact ⟨items, outer, rfl⟩
        | quote => exact absurd rfl hhead
    refine ⟨?_, hdepth, hlist⟩
    cases hleaf with
    | atom ht => exact (hlast [] hts (by simp [ht])).elim
    | number ht _ => exact (hlast [] hts (by simp [ht])).elim
    | @negative m t _ _ _ ht _ => exact (hlast [m] hts (by simp [ht])).elim
    | minus hm _ => exact (hlast [] hts (by simp [hm])).elim
    | @string t _ _ =>
      have hsplit : init ++ [s] = [] ++ [t] := hts
      exact (List.append_inj' hsplit rfl).1
  | lparen ht _ =>
    obtain ⟨-, rfl⟩ := Turn.go.inj hturn
    exact (hlast [] hts (by simp [ht])).elim
  | quote ht _ =>
    obtain ⟨-, rfl⟩ := Turn.go.inj hturn
    exact (hlast [] hts (by simp [ht])).elim
  | rparen ht =>
    have hrest := congrArg Turn.rest hturn
    rw [rest_deliver, rest_go] at hrest
    subst hrest
    exact (hlast [] hts (by simp [ht])).elim

/-- A run that uses up its tokens can be repeated when they are sealed and others follow.
The last literal may be another, but it is an item of the same list. -/
lemma Runs.exists_seal {frames frames' : List Frame} {ts ts' : List Token}
    (h : Runs frames ts frames' []) (hseals : Seals ts ts') (hopen : Completable frames') :
    ∃ frames'', Completable frames'' ∧ ∀ vs, (next vs).kind ≠ .number →
      Runs frames (ts' ++ vs) frames'' vs := by
  generalize hnil : ([] : List Token) = last at h
  induction h generalizing ts' with
  | refl =>
    subst hnil
    cases hseals
    exact ⟨_, hopen, fun vs _ => .refl⟩
  | @head frames frames₁ frames' ts ts₁ _ hmoves hrest ih =>
    obtain ⟨used, rfl, hbefore⟩ := hmoves.before
    rw [rest_go] at hmoves hseals hbefore
    rcases hseals.of_append with ⟨rest', rfl, hrest'⟩ | ⟨init, s, s', rfl, rfl, rfl, hs, hs'⟩
    · obtain ⟨frames'', hopen', hruns⟩ := ih hrest' hopen hnil
      refine ⟨frames'', hopen', fun vs hvs => .head ?_ (hruns vs hvs)⟩
      rw [List.append_assoc]
      exact hbefore (rest' ++ vs) fun _ => kind_next_of_seals hrest' hvs
    · rw [List.append_nil] at hmoves
      obtain ⟨rfl, hdepth, items, outer, rfl⟩ := hmoves.of_string hs
      refine ⟨.list (.text s'.content :: items) :: outer, Or.inr ⟨_, _, rfl⟩, fun vs hvs => ?_⟩
      exact .head (.leaf (.string hs') hdepth) .refl

/-! ### Following the steps of a longer source -/

/-- The outcome leaves hope: it is an expression, or a fault at the end of the input. -/
def Continuable : Except ParseError Expr → Prop
  | .ok _ => True
  | .error err => err.IsEndOfInput

/-- Where something may still come, running out of tokens leaves hope. -/
lemma continuable_nil {frames : List Frame} (h : Completable frames) :
    Continuable (expression frames []).1 := by
  rw [expression_eq_resume]
  rcases h with hdepth | ⟨items, outer, rfl⟩
  · have henter : enter frames [] = .stop (.error (.ofToken endOfInput)) [] :=
      if_neg (Nat.not_le.mpr hdepth)
    unfold step
    split
    · trivial
    · rw [henter]
      rfl
  · trivial

/-- So does a leaf that is the last to be read, where no quote waits for it. -/
lemma continuable_leaf {used : List Token} {e : Expr} {frames : List Frame} (h : Leaf used e [])
    (hdepth : frames.length < depthLimit) (hhead : frames.head? ≠ some .quote) :
    Continuable (expression frames used).1 := by
  have hmoves : Moves frames used (deliver e [] frames) := by
    simpa using Moves.leaf h hdepth
  rw [expression_eq_resume, hmoves.step_eq]
  cases frames with
  | nil => trivial
  | cons frame outer =>
    cases frame with
    | list items => exact continuable_nil (Or.inr ⟨_, _, rfl⟩)
    | quote => exact absurd rfl hhead

/-- The next token keeps its kind when tokens are continued, unless there is none. -/
lemma kind_next_of_continues {ts us : List Token} (h : Continues ts us)
    (hus : (next us).kind ≠ .number) : (next ts).kind ≠ .number := by
  cases ts with
  | nil => simp [next, endOfInput]
  | cons t ts =>
    obtain ⟨u, us', rfl, hkind, -, -⟩ := h.of_cons
    intro ht
    exact hus (hkind.trans ht)

/-- Where a longer source has a leaf, a shorter one has the same leaf, or ends in one. -/
lemma Leaf.of_continues {used rest ts : List Token} {e : Expr} (h : Leaf used e rest)
    (hts : Continues ts (used ++ rest)) (hne : ts ≠ []) :
    (∃ ts', ts = used ++ ts' ∧ Leaf used e ts' ∧ Continues ts' rest) ∨ ∃ e', Leaf ts e' [] := by
  obtain ⟨t, ts', rfl⟩ := List.exists_cons_of_ne_nil hne
  obtain ⟨u, us, hus, hkind, hcontinues, hgrows⟩ := hts.of_cons
  cases h with
  | @atom _ _ hu =>
    obtain ⟨rfl, rfl⟩ := List.cons.inj hus
    have ht := hkind.symm.trans hu
    rcases hgrows with rfl | ⟨rfl, -⟩
    · exact Or.inl ⟨ts', rfl, .atom hu, hcontinues⟩
    · exact Or.inr ⟨_, .atom ht⟩
  | @string _ _ hu =>
    obtain ⟨rfl, rfl⟩ := List.cons.inj hus
    have ht := hkind.symm.trans hu
    rcases hgrows with rfl | ⟨rfl, -⟩
    · exact Or.inl ⟨ts', rfl, .string hu, hcontinues⟩
    · exact Or.inr ⟨_, .string ht⟩
  | @number _ n _ hu hn =>
    obtain ⟨rfl, rfl⟩ := List.cons.inj hus
    have ht := hkind.symm.trans hu
    rcases hgrows with rfl | ⟨rfl, hgrows⟩
    · exact Or.inl ⟨ts', rfl, .number hu hn, hcontinues⟩
    · obtain ⟨m, hm⟩ := Decimal.exists_read?_of_isPrefix (hgrows.digits ht) hn
      exact Or.inr ⟨_, .number ht hm⟩
  | @minus _ _ hu hrest =>
    obtain ⟨rfl, rfl⟩ := List.cons.inj hus
    have ht := hkind.symm.trans hu
    have hnext := kind_next_of_continues hcontinues hrest
    rcases hgrows with rfl | ⟨rfl, -⟩
    · exact Or.inl ⟨ts', rfl, .minus hu hnext, hcontinues⟩
    · exact Or.inr ⟨_, .minus ht hnext⟩
  | @negative u v n _ hu hv hn =>
    -- the shorter source may end between the minus sign and the number
    obtain ⟨rfl, rfl⟩ := List.cons.inj hus
    have ht := hkind.symm.trans hu
    cases ts' with
    | nil => exact Or.inr ⟨_, .minus ht (by simp [next, endOfInput])⟩
    | cons w ws =>
      obtain rfl : u = t := hgrows.resolve_right (by simp)
      obtain ⟨v', us', hvs, hkind', hcontinues', hgrows'⟩ := hcontinues.of_cons
      obtain ⟨rfl, rfl⟩ := List.cons.inj hvs
      have hw := hkind'.symm.trans hv
      rcases hgrows' with rfl | ⟨rfl, hgrows'⟩
      · exact Or.inl ⟨ws, rfl, .negative hu hv hn, hcontinues'⟩
      · obtain ⟨m, hm⟩ := Decimal.exists_read?_of_isPrefix (hgrows'.digits hw) hn
        exact Or.inr ⟨_, .negative hu hw hm⟩

/-- A shorter source follows a step of a longer one, or ends with it and leaves hope. -/
lemma Moves.of_continues {frames : List Frame} {ts us : List Token} {turn : Turn}
    (h : Moves frames us turn) (hfine : turn.isFine = true) (hts : Continues ts us) :
    Continuable (expression frames ts).1 ∨
      ∃ ts', Continues ts' turn.rest ∧ Moves frames ts (turn.before ts') := by
  by_cases hne : ts = []
  · rw [hne]
    exact Or.inl (continuable_nil h.completable)
  have hsingle : ∀ {v vs}, us = v :: vs →
      ∃ t ts', ts = t :: ts' ∧ t.kind = v.kind ∧ Continues ts' vs := by
    rintro v vs rfl
    obtain ⟨t, ts', rfl⟩ := List.exists_cons_of_ne_nil hne
    obtain ⟨u, us', hus, hkind, hcontinues, -⟩ := hts.of_cons
    obtain ⟨rfl, rfl⟩ := List.cons.inj hus
    exact ⟨t, ts', rfl, hkind.symm, hcontinues⟩
  cases h with
  | @leaf _ used rest e hleaf hdepth =>
    rw [rest_deliver]
    rcases hleaf.of_continues hts hne with ⟨ts', rfl, hleaf', hcontinues⟩ | ⟨e', hleaf'⟩
    · refine Or.inr ⟨ts', hcontinues, ?_⟩
      rw [before_deliver]
      exact .leaf hleaf' hdepth
    · exact Or.inl (continuable_leaf hleaf' hdepth (hleaf.head?_ne_quote hfine))
  | lparen ht hdepth =>
    obtain ⟨t, ts', rfl, hkind, hcontinues⟩ := hsingle rfl
    exact Or.inr ⟨ts', hcontinues, .lparen (hkind.trans ht) hdepth⟩
  | quote ht hdepth =>
    obtain ⟨t, ts', rfl, hkind, hcontinues⟩ := hsingle rfl
    exact Or.inr ⟨ts', hcontinues, .quote (hkind.trans ht) hdepth⟩
  | rparen ht =>
    obtain ⟨t, ts', rfl, hkind, hcontinues⟩ := hsingle rfl
    rw [rest_deliver]
    refine Or.inr ⟨ts', hcontinues, ?_⟩
    rw [before_deliver]
    exact .rparen (hkind.trans ht)

/-- Where a longer source has an expression, a shorter one leaves hope. -/
theorem continuable_of_continues {frames : List Frame} {ts us rest : List Token} {e : Expr}
    (h : expression frames us = (.ok e, rest)) (hts : Continues ts us) :
    Continuable (expression frames ts).1 := by
  revert ts
  refine expression_induction (motive := fun frames us _ _ => ∀ {ts}, Continues ts us →
    Continuable (expression frames ts).1) ?_ ?_ h
  · intro frames us e rest hmoves ts hts
    rcases hmoves.of_continues rfl hts with hdone | ⟨ts', -, hmoves'⟩
    · exact hdone
    · rw [expression_eq_resume, hmoves'.step_eq]
      trivial
  · intro frames frames' us us' e rest hmoves ih ts hts
    rcases hmoves.of_continues rfl hts with hdone | ⟨ts', hcontinues, hmoves'⟩
    · exact hdone
    · rw [expression_eq_resume, hmoves'.step_eq]
      exact ih hcontinues

end Pushdown

/-! ### Faults of sources -/

/-- The tokens of a text that goes on continue its tokens. -/
lemma continues_tokens_append (a t : String) :
    Token.Continues (Source.ofString a).tokens.1 (Source.ofString (a ++ t)).tokens.1 := by
  have hcontinues := (Token.lexes_tokens_ofList a.toList).continues t.toList
  rwa [← String.toList_append] at hcontinues

/-- A source that fails at the end of the input can be continued to one that does not. -/
lemma exists_parseExpr_append {a : String} {err : ParseError} (h : parseExpr a = .error err)
    (hend : err.IsEndOfInput) : ∃ t e, parseExpr (a ++ t) = .ok e := by
  have hlexes := Token.lexes_tokens_ofList a.toList
  have hproper : ∀ t ∈ (Source.ofList a.toList).tokens.1, t.kind ≠ .eof :=
    hlexes.forall_mem fun t r rest ht => ht.isProper.1
  rw [parseExpr_eq] at h
  obtain ⟨frames, ts, hruns, hstep⟩ := Pushdown.exists_runs_of_error (Prod.ext h rfl)
  obtain ⟨rfl, hopen⟩ := Pushdown.completable_of_step_error hstep hend
    fun t ht => hproper t (hruns.suffix.subset ht)
  obtain ⟨tail, ts', hseals, hsealed⟩ := hlexes.exists_seal
  obtain ⟨frames', hopen', hruns'⟩ := hruns.exists_seal hseals hopen
  obtain ⟨more, vs, hmore, hdelim, hnext, e, rest, hexpr⟩ := Pushdown.exists_completion hopen'
  refine ⟨String.ofList (tail ++ more), e, ?_⟩
  have htokens : (Source.ofString (a ++ String.ofList (tail ++ more))).tokens.1 = ts' ++ vs := by
    refine Token.tokens_ofList_eq ?_
    simpa using hsealed more vs hdelim hmore
  rw [parseExpr_eq, htokens, (hruns' vs hnext).expression_eq, hexpr]

/-- A fault is found at the end of the input exactly if the source can be continued to one
that is parsed.  Every other fault is final. -/
theorem parseExpr_isEndOfInput_iff {a : String} {err : ParseError}
    (h : parseExpr a = .error err) : err.IsEndOfInput ↔ ∃ t e, parseExpr (a ++ t) = .ok e := by
  constructor
  · exact exists_parseExpr_append h
  · rintro ⟨t, e, ht⟩
    rw [parseExpr_eq] at h ht
    have hopen := Pushdown.continuable_of_continues (Prod.ext ht rfl) (continues_tokens_append a t)
    rw [h] at hopen
    exact hopen

/-- A string literal ends behind a backslash, inside a quoted list that lacks its end. -/
theorem parseExpr_isEndOfInput_iff_literal :
    parseExpr "'(1 \"a\\" = .error .unclosedList ∧ ParseError.unclosedList.IsEndOfInput ∧
      ∃ t e, parseExpr ("'(1 \"a\\" ++ t) = .ok e := by
  have h : parseExpr "'(1 \"a\\" = .error .unclosedList := by decide +kernel
  exact ⟨h, trivial, (parseExpr_isEndOfInput_iff h).mp trivial⟩

end TinyLisp
