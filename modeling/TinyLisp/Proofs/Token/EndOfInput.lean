import TinyLisp.Proofs.Source.Lookahead
import TinyLisp.Token.Query

/-!
# The end of the input is final

A reader may fail and deliver more afterwards, so that a source can go on behind an attempt
that yields no character.  The end of the input is nevertheless found only once.  Tokens are
read here with a lookahead, which keeps the outcome it has looked at (`Lookahead.token`), and
the tokens are those of the source (`Lookahead.token_eq`).  The end of the input is answered
only with the lack of a character kept (`Lookahead.seen_token`).  From then on no attempt is
made, and nothing changes any more (`Lookahead.token_of_seen`).
-/

namespace TinyLisp

namespace Source

/-- Looking twice is looking once. -/
lemma settle_settle (s : Source) : s.settle.settle = s.settle := by
  obtain ⟨pulls, n⟩ := s
  rcases pulls with _ | ⟨_ | _, pulls⟩ <;> rfl

/-- The character behind a run is not of its class. -/
lemma not_of_front?_span {p : Char → Bool} {s : Source} {c : Char}
    (h : (s.span p).2.front? = some c) : p c = false := by
  have hhead := List.head?_dropWhile_not (fun a : Pull => a.holds p) s.pulls
  unfold span at h
  dsimp only at h
  generalize s.pulls.dropWhile (·.holds p) = rest at h hhead
  rcases rest with _ | ⟨⟨d, k⟩ | k, rest⟩
  · simp [settle, front?] at h
  · obtain rfl : d = c := by simpa [settle, front?, Pull.char?] using h
    simpa [Pull.holds] using hhead
  · simp [settle, front?] at h

end Source

/-- A character that starts no other token starts a name. -/
lemma endsAtom_eq_false {c : Char} (hspace : isSpace c = false)
    (hkind : Token.Kind.ofChar? c = none) (hsemicolon : c ≠ ';') (hquote : c ≠ '\x22') :
    endsAtom c = false := by
  unfold Token.Kind.ofChar? at hkind
  split_ifs at hkind with hopen hclose
  simp [endsAtom, hspace, hsemicolon, hquote, hopen, hclose]

namespace Lookahead

/-! ### Tokens -/

/-- Reads the token that starts with the character `c`, which has been looked at. -/
def tokenFrom (c : Char) (l : Lookahead) : Token × Lookahead :=
  match Token.Kind.ofChar? c with
  | some kind => ({ kind, text := String.ofList [c] }, l.next.2)
  | none =>
    if c.isDigit then
      let (text, rest) := l.readWhile isNumeral
      ({ kind := .number, text := String.ofList text }, rest)
    else if c = ';' then
      let (text, rest) := l.takeThrough (· ≠ '\n')
      ({ kind := .comment, text := String.ofList text }, rest)
    else if c = '\x22' then
      let (text, closed, rest) := l.next.2.literal l.next.1.toList
      ({ kind := .string, text := String.ofList text, truncated := !closed }, rest)
    else
      let (text, rest) := l.readWhile (!endsAtom ·)
      ({ kind := .atom, text := String.ofList text }, rest)

/-- Reads the next token. -/
def token (l : Lookahead) : Token × Lookahead :=
  let (_, l) := l.readWhile isSpace
  match l.peek with
  | (none, l) => (Token.endOfInput, l)
  | (some c, l) => tokenFrom c l

/-- A token is the one that the source has, given its first character. -/
lemma tokenFrom_eq {l : Lookahead} {c : Char} (h : l.seen = some (some c))
    (hspace : isSpace c = false) :
    (l.tokenFrom c).1 = (Source.tokenFrom c l.view.skip).1 ∧
      (l.tokenFrom c).2.view = (Source.tokenFrom c l.view.skip).2 := by
  have hseen : l.seen ≠ some none := by simp [h]
  have hnext : l.next.1 = some c := by simp [next, h]
  have hfront : l.view.front? = some c := (next_fst l).symm.trans hnext
  have hview := view_next hseen
  unfold tokenFrom Source.tokenFrom
  cases hkind : Token.Kind.ofChar? c with
  | some kind => exact ⟨rfl, hview⟩
  | none =>
    dsimp only
    split_ifs with hdigit hsemicolon hquote
    · obtain ⟨htext, hrest⟩ := readWhile_eq isNumeral l
      have hnumeral : isNumeral c = true := by simp [isNumeral, hdigit]
      rw [Source.span_of_front? hfront hnumeral] at htext hrest
      exact ⟨by rw [htext], hrest⟩
    · obtain ⟨htext, hrest⟩ := takeThrough_eq (· ≠ '\n') hseen
      rw [Source.through_of_front? hfront (by rw [hsemicolon]; rfl)] at htext hrest
      exact ⟨by rw [htext], hrest⟩
    · obtain ⟨htext, hclosed, hrest⟩ := literal_eq l.next.1.toList (seen_next l)
      rw [hview, hnext, Option.toList_some] at htext hclosed hrest
      rw [hnext, Option.toList_some]
      exact ⟨by rw [htext, hclosed], hrest⟩
    · obtain ⟨htext, hrest⟩ := readWhile_eq (!endsAtom ·) l
      have hname : (!endsAtom c) = true := by
        rw [endsAtom_eq_false hspace hkind hsemicolon hquote]
        rfl
      rw [Source.span_of_front? hfront hname] at htext hrest
      exact ⟨by rw [htext], hrest⟩

/-- Behind the blanks, either the lack of a character has been looked at, or the character that
the next token starts with. -/
lemma token_cases (l : Lookahead) :
    (l.token.1 = Token.endOfInput ∧ l.token.2.seen = some none ∧
      l.view.token = (Token.endOfInput, l.token.2.view)) ∨
    ∃ c l', l'.seen = some (some c) ∧ isSpace c = false ∧ l.token = tokenFrom c l' ∧
      l.view.token = Source.tokenFrom c l'.view.skip := by
  obtain ⟨-, hview⟩ := readWhile_eq isSpace l
  have hspace : ∀ c, (l.view.span isSpace).2.front? = some c → isSpace c = false :=
    fun c => Source.not_of_front?_span
  have hsettle : (l.view.span isSpace).2.settle = (l.view.span isSpace).2 :=
    Source.settle_settle _
  unfold token Source.token
  dsimp only
  rw [← hview] at hspace hsettle ⊢
  generalize (l.readWhile isSpace).2 = l' at hspace hsettle ⊢
  have hpeek := view_peek l'
  have hseen : l'.peek.2.seen = some l'.view.front? := by rw [← next_fst]; rfl
  have hpair : l'.peek = (l'.view.front?, l'.peek.2) := Prod.ext (next_fst l') rfl
  rw [hsettle] at hpeek
  rw [hpair]
  cases hfront : l'.view.front? with
  | none =>
    rw [hfront] at hseen
    exact Or.inl ⟨rfl, hseen, by rw [hpeek]⟩
  | some c =>
    rw [hfront] at hseen
    exact Or.inr ⟨c, l'.peek.2, hseen, hspace c hfront, rfl, by rw [hpeek]⟩

/-- The next token is that of the source. -/
lemma token_eq (l : Lookahead) :
    l.token.1 = l.view.token.1 ∧ l.token.2.view = l.view.token.2 := by
  rcases token_cases l with ⟨htoken, -, hsource⟩ | ⟨c, l', hseen, hspace, htoken, hsource⟩
  · rw [hsource]
    exact ⟨htoken, rfl⟩
  · rw [htoken, hsource]
    exact tokenFrom_eq hseen hspace

/-- The end of the input is answered with the lack of a character looked at. -/
lemma seen_token {l : Lookahead} (h : l.token.1.isEnd = true) : l.token.2.seen = some none := by
  rcases token_cases l with ⟨-, hseen, -⟩ | ⟨c, l', hseen, hspace, htoken, -⟩
  · exact hseen
  · rw [htoken, (tokenFrom_eq hseen hspace).1, Source.isEnd_tokenFrom] at h
    simp at h

/-- From then on there is nothing but the end of the input, and nothing changes. -/
lemma token_of_seen {l : Lookahead} (h : l.seen = some none) : l.token = (Token.endOfInput, l) := by
  have hpeek : l.peek = (none, l) := by
    obtain ⟨s, seen⟩ := l
    obtain rfl : seen = some none := h
    rfl
  have hnext : l.next.1 = none := congrArg Prod.fst hpeek
  have hif : l.nextIf isSpace = (none, l) := by simp [nextIf, hnext, hpeek]
  have hblank : l.readWhile isSpace = ([], l) := by
    rw [readWhile.eq_def]
    split <;> simp_all
  unfold token
  rw [hblank]
  dsimp only
  rw [hpeek]

/-! ### Queries -/

/-- Reads tokens up to the end of the input. -/
def tokens (l : Lookahead) : List Token × Lookahead :=
  if l.token.1.isEnd then ([], l.token.2)
  else (l.token.1 :: (tokens l.token.2).1, (tokens l.token.2).2)
termination_by l.view.pulls.length
decreasing_by
  all_goals
    obtain ⟨htoken, hview⟩ := token_eq l
    rw [hview]
    apply Source.length_token_lt
    rw [← htoken]
    simp_all

/-- Answers a query. -/
def ask (l : Lookahead) : Source.Query → Source.Answer × Lookahead
  | .token => (.token l.token.1, l.token.2)
  | .token? => (.token? (if l.token.1.isEnd then none else some l.token.1), l.token.2)
  | .tokens => (.tokens l.tokens.1, l.tokens.2)

/-- Answers queries one after the other.  Each answer comes with the number of bytes
consumed so far. -/
def askAll (l : Lookahead) : List Source.Query → List (Source.Answer × ℕ)
  | [] => []
  | q :: qs => ((l.ask q).1, (l.ask q).2.source.consumed) :: (l.ask q).2.askAll qs

/-- The lookahead when it has answered queries. -/
def after (l : Lookahead) (qs : List Source.Query) : Lookahead :=
  qs.foldl (fun l q => (l.ask q).2) l

lemma tokens_eq (l : Lookahead) :
    l.tokens.1 = l.view.tokens.1 ∧ l.tokens.2.view = l.view.tokens.2 := by
  fun_induction tokens l with
  | case1 l hend =>
    obtain ⟨htoken, hview⟩ := token_eq l
    rw [htoken] at hend
    rw [Source.tokens_of_isEnd hend]
    exact ⟨rfl, hview⟩
  | case2 l hend ih =>
    obtain ⟨htoken, hview⟩ := token_eq l
    rw [htoken, Bool.not_eq_true] at hend
    rw [Source.tokens_of_not_isEnd hend, htoken, ← hview, ih.1]
    exact ⟨rfl, ih.2⟩

/-- Every query is answered as by the source. -/
lemma ask_eq (l : Lookahead) (q : Source.Query) :
    (l.ask q).1 = (l.view.ask q).1 ∧ (l.ask q).2.view = (l.view.ask q).2 := by
  obtain ⟨htoken, hview⟩ := token_eq l
  cases q with
  | token => exact ⟨congrArg Source.Answer.token htoken, hview⟩
  | token? =>
    unfold ask Source.ask Source.token?
    dsimp only
    rw [htoken, hview]
    split_ifs <;> exact ⟨rfl, rfl⟩
  | tokens =>
    obtain ⟨htokens, hrest⟩ := tokens_eq l
    exact ⟨congrArg Source.Answer.tokens htokens, hrest⟩

/-- So are queries one after the other, and as many bytes are consumed. -/
lemma askAll_eq (l : Lookahead) (qs : List Source.Query) : l.askAll qs = l.view.askAll qs := by
  induction qs generalizing l with
  | nil => rfl
  | cons q qs ih =>
    obtain ⟨hanswer, hview⟩ := ask_eq l q
    rw [askAll, Source.askAll, ih, ← consumed_view, hanswer, hview]

end Lookahead

/-! ### Behind the end -/

/-- The answer has come to the end of the input. -/
def Source.Answer.ReachesEnd : Source.Answer → Prop
  | .token t => t.isEnd = true
  | .token? t => t = none
  | .tokens _ => True

/-- The answer that there is nothing more. -/
def Source.Query.nothing : Source.Query → Source.Answer
  | .token => .token Token.endOfInput
  | .token? => .token? none
  | .tokens => .tokens []

namespace Lookahead

lemma seen_tokens (l : Lookahead) : l.tokens.2.seen = some none := by
  fun_induction tokens l with
  | case1 l hend => exact seen_token hend
  | case2 l hend ih => exact ih

/-- The end of the input is answered to no query unless the lack of a character is kept. -/
lemma seen_ask {l : Lookahead} {q : Source.Query} (h : (l.ask q).1.ReachesEnd) :
    (l.ask q).2.seen = some none := by
  cases q with
  | token => exact seen_token h
  | token? =>
    have hnone : (if l.token.1.isEnd then none else some l.token.1) = none := h
    apply seen_token
    by_contra hend
    rw [if_neg hend] at hnone
    simp at hnone
  | tokens => exact seen_tokens l

/-- With the lack of a character kept, nothing is answered and nothing changes. -/
lemma ask_of_seen {l : Lookahead} (h : l.seen = some none) (q : Source.Query) :
    l.ask q = (q.nothing, l) := by
  have htoken := token_of_seen h
  have hend : l.token.1.isEnd = true := by rw [htoken]; rfl
  cases q with
  | token => rw [ask, htoken, Source.Query.nothing]
  | token? => rw [ask, if_pos hend, htoken, Source.Query.nothing]
  | tokens => rw [ask, tokens, if_pos hend, htoken, Source.Query.nothing]

lemma after_of_seen {l : Lookahead} (h : l.seen = some none) (qs : List Source.Query) :
    l.after qs = l := by
  induction qs with
  | nil => rfl
  | cons q qs ih => rw [after, List.foldl_cons, ask_of_seen h]; exact ih

/-- Each answer is given by what the queries before it have left. -/
lemma getElem?_askAll (l : Lookahead) (qs : List Source.Query) (i : ℕ) :
    (l.askAll qs)[i]? = qs[i]?.map fun q =>
      (((l.after (qs.take i)).ask q).1, ((l.after (qs.take i)).ask q).2.source.consumed) := by
  induction qs generalizing l i with
  | nil => rfl
  | cons q qs ih =>
    cases i with
    | zero => rfl
    | succ i => exact ih (l.ask q).2 i

end Lookahead

/-- The end of the input is final, on any source and whatever is asked.  Once it has been
answered, nothing else is answered to any later query, and no further byte is consumed.  The
answers are those of a lookahead, which makes no attempt on the source any more. -/
theorem askAll_behind_end (s : Source) (qs : List Source.Query) {i j n : ℕ} {a : Source.Answer}
    (ha : (s.askAll qs)[i]? = some (a, n)) (hend : a.ReachesEnd) (hij : i < j) :
    (s.askAll qs)[j]? = qs[j]?.map (fun q => (q.nothing, n)) ∧
    Lookahead.askAll { source := s } qs = s.askAll qs ∧
    Lookahead.after { source := s } (qs.take j) =
      Lookahead.after { source := s } (qs.take (i + 1)) := by
  have hall : Lookahead.askAll { source := s } qs = s.askAll qs := Lookahead.askAll_eq _ qs
  rw [← hall, Lookahead.getElem?_askAll] at ha
  obtain ⟨q, hq, hanswer⟩ := Option.map_eq_some_iff.mp ha
  obtain ⟨rfl, rfl⟩ := Prod.mk.inj hanswer
  have hseen := Lookahead.seen_ask hend
  have hafter : Lookahead.after { source := s } (qs.take (i + 1)) =
      ((Lookahead.after { source := s } (qs.take i)).ask q).2 := by
    rw [List.take_add_one, hq, Lookahead.after, List.foldl_append]
    rfl
  have hlater : Lookahead.after { source := s } (qs.take j) =
      Lookahead.after { source := s } (qs.take (i + 1)) := by
    obtain ⟨k, rfl⟩ := Nat.exists_eq_add_of_le hij
    rw [← hafter] at hseen
    rw [List.take_add, Lookahead.after, List.foldl_append]
    exact Lookahead.after_of_seen hseen _
  refine ⟨?_, hall, hlater⟩
  rw [← hall, Lookahead.getElem?_askAll, hlater, hafter]
  simp only [Lookahead.ask_of_seen hseen]

/-- Behind a failure inside a literal the source goes on, and behind the next failure it does
not, though a list is delivered there. -/
theorem askAll_behind_end_list :
    (Source.askAll (.ofChunks [.data (Utf8.encode "\"x\n"), .failed, .data (Utf8.encode "y\n"),
        .failed, .data (Utf8.encode "(z)")]) [.token, .token, .token, .token?, .tokens])[2]? =
      some (.token Token.endOfInput, 5) ∧
    (Source.askAll (.ofChunks [.data (Utf8.encode "\"x\n"), .failed, .data (Utf8.encode "y\n"),
        .failed, .data (Utf8.encode "(z)")]) [.token, .token, .token, .token?, .tokens])[4]? =
      some (.tokens [], 5) := by
  have hend : (Source.askAll (.ofChunks [.data (Utf8.encode "\"x\n"), .failed,
      .data (Utf8.encode "y\n"), .failed, .data (Utf8.encode "(z)")])
        [.token, .token, .token, .token?, .tokens])[2]? = some (.token Token.endOfInput, 5) := by
    decide +kernel
  exact ⟨hend, (askAll_behind_end _ _ hend rfl (by decide)).1⟩

end TinyLisp
