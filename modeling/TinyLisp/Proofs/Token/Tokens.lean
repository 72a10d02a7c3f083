import Mathlib.Data.List.TakeWhile
import TinyLisp.Token.Lexer

/-!
# The tokens of a source, one by one

`Source.tokens` gathers tokens in an accumulator.  Here it is unfolded into the
recursion that a reader has in mind: the first token, then the tokens of what is
left (`tokens_of_isEnd`, `tokens_of_not_isEnd`).

The end of the input is where this recursion stops, and it stops for good: once a
source has answered with `Token.endOfInput`, there is no attempt left to be made
(`pulls_token_eq_nil`), whatever failures the source is made of.

The last section is about texts, the sources without failures: for each operation
on sources it has the equation that speaks of lists of characters only.
-/

namespace TinyLisp.Source

/-! ### The end of the input -/

/-- A source that has been looked at has a character at its front or nothing left. -/
lemma pulls_settle_eq_nil {s : Source} (h : s.settle.front? = none) : s.settle.pulls = [] := by
  unfold settle at h ⊢
  split
  · assumption
  · next c n rest hs => simp [hs, front?, Pull.char?] at h
  · rfl

/-- The token that ends the input is `Token.endOfInput`, with its empty text. -/
lemma token_fst_eq_endOfInput {s : Source} (h : s.token.1.isEnd = true) :
    s.token.1 = Token.endOfInput := by
  revert h
  unfold token
  dsimp only
  split
  · intro _
    rfl
  · intro h
    rw [isEnd_tokenFrom] at h
    simp at h

/-- Behind the end of the input no attempt is left. -/
lemma pulls_token_eq_nil {s : Source} (h : s.token.1.isEnd = true) : s.token.2.pulls = [] := by
  revert h
  unfold token
  dsimp only
  split
  · next hfront =>
    intro _
    exact pulls_settle_eq_nil hfront
  · intro h
    rw [isEnd_tokenFrom] at h
    simp at h

/-- A source without attempts has no token but the end of the input. -/
lemma isEnd_token_of_pulls_eq_nil {s : Source} (h : s.pulls = []) : s.token.1.isEnd = true := by
  simp [token, span, settle, front?, h, Token.endOfInput, Token.isEnd]

/-! ### Unfolding `tokens` -/

/-- The tokens read so far stand before those still to be read. -/
lemma tokensInto_eq (done : List Token) (s : Source) :
    s.tokensInto done = (done.reverse ++ s.tokens.1, s.tokens.2) := by
  have key : ∀ done more : List Token, s.tokensInto (done ++ more) =
      (more.reverse ++ (s.tokensInto done).1, (s.tokensInto done).2) := by
    intro done more
    fun_induction tokensInto done s with
    | case1 done s h =>
      rw [tokensInto, if_pos h, List.reverse_append]
    | case2 done s h ih =>
      rw [tokensInto, if_neg h]
      exact ih
  simpa [tokens] using key [] done

/-- At the end of the input there are no tokens. -/
lemma tokens_of_isEnd {s : Source} (h : s.token.1.isEnd = true) : s.tokens = ([], s.token.2) := by
  rw [tokens, tokensInto, if_pos h]
  rfl

/-- Anywhere else the next token comes first. -/
lemma tokens_of_not_isEnd {s : Source} (h : s.token.1.isEnd = false) :
    s.tokens = (s.token.1 :: s.token.2.tokens.1, s.token.2.tokens.2) := by
  rw [tokens, tokensInto, if_neg (by simp [h]), tokensInto_eq]
  rfl

/-- Behind the end of the input there are no tokens. -/
lemma tokens_token_of_isEnd {s : Source} (h : s.token.1.isEnd = true) :
    s.token.2.tokens.1 = [] := by
  rw [tokens_of_isEnd (isEnd_token_of_pulls_eq_nil (pulls_token_eq_nil h))]

/-- Induction along the tokens of a source. -/
theorem tokens_induction {motive : Source → Prop}
    (ended : ∀ s : Source, s.token.1.isEnd = true → motive s)
    (more : ∀ s : Source, s.token.1.isEnd = false → motive s.token.2 → motive s)
    (s : Source) : motive s := by
  cases h : s.token.1.isEnd with
  | true => exact ended s h
  | false =>
    have := length_token_lt h
    exact more s h (tokens_induction ended more s.token.2)
termination_by s.pulls.length

/-- No token of a source is the end of the input. -/
lemma isEnd_of_mem_tokens {s : Source} {t : Token} (h : t ∈ s.tokens.1) : t.isEnd = false := by
  induction s using tokens_induction with
  | ended s hs =>
    rw [tokens_of_isEnd hs] at h
    simp at h
  | more s hs ih =>
    rw [tokens_of_not_isEnd hs] at h
    rcases List.mem_cons.mp h with rfl | h
    · exact hs
    · exact ih h

/-! ### Texts

A text is a source without failures and without cost.  Reading from it is the
ordinary business with lists of characters, and what is left is a text again. -/

/-- Looking at a text changes nothing. -/
@[simp] lemma settle_ofList (cs : List Char) : (ofList cs).settle = ofList cs := by
  cases cs <;> rfl

/-- The character at the front of a text is its first one. -/
@[simp] lemma front?_ofList (cs : List Char) : (ofList cs).front? = cs.head? := by
  cases cs <;> rfl

/-- Passing over an attempt drops a character. -/
@[simp] lemma skip_ofList (cs : List Char) : (ofList cs).skip = ofList cs.tail := by
  cases cs <;> rfl

/-- Attempts that cost nothing cost nothing together. -/
lemma total_map_char (cs : List Char) : Pull.total (cs.map (.char · 0)) = 0 := by
  induction cs with
  | nil => rfl
  | cons c cs ih => exact ih

/-- The characters of a text are found again in its attempts. -/
lemma filterMap_map_char (cs : List Char) : (cs.map (.char · 0)).filterMap Pull.char? = cs := by
  rw [List.filterMap_map]
  exact List.filterMap_some

/-- The attempts that yield a run of a class of characters. -/
lemma takeWhile_pulls_ofList (p : Char → Bool) (cs : List Char) :
    (ofList cs).pulls.takeWhile (·.holds p) = (cs.takeWhile p).map (.char · 0) :=
  List.takeWhile_map ..

/-- The attempts behind a run of a class of characters. -/
lemma dropWhile_pulls_ofList (p : Char → Bool) (cs : List Char) :
    (ofList cs).pulls.dropWhile (·.holds p) = (cs.dropWhile p).map (.char · 0) :=
  List.dropWhile_map ..

/-- A run of a class of characters is taken off a text. -/
lemma span_ofList (p : Char → Bool) (cs : List Char) :
    (ofList cs).span p = (cs.takeWhile p, ofList (cs.dropWhile p)) := by
  unfold span
  rw [takeWhile_pulls_ofList, dropWhile_pulls_ofList]
  dsimp only
  rw [total_map_char, filterMap_map_char]
  exact congrArg _ (settle_ofList _)

/-- The same run, and with it the character behind it. -/
lemma through_ofList (p : Char → Bool) (cs : List Char) :
    (ofList cs).through p = (cs.takeWhile p, ofList (cs.dropWhile p).tail) := by
  unfold through
  rw [takeWhile_pulls_ofList, dropWhile_pulls_ofList]
  dsimp only
  rw [total_map_char, filterMap_map_char]
  exact congrArg _ (skip_ofList _)

/-- A run of a class of characters ends where a text goes on with another one. -/
lemma span_ofList_append {p : Char → Bool} {run rest : List Char} (hrun : ∀ c ∈ run, p c = true)
    (hrest : ∀ c ∈ rest.head?, p c = false) :
    (ofList (run ++ rest)).span p = (run, ofList rest) := by
  rw [span_ofList, List.takeWhile_append_of_pos hrun, List.dropWhile_append_of_pos hrun]
  cases rest with
  | nil => simp
  | cons c rest => simp [hrest c rfl]

end TinyLisp.Source
