import TinyLisp.Source.Basic
import TinyLisp.Token.Basic

/-!
# Reading tokens

`Source.token` reads the next token of a source.  Spaces, tabs and newlines
separate tokens; a parenthesis, a quotation mark or a minus sign is a token by
itself; a number, a name and a comment reach as far as they can; a string literal
ends at the first quote that no backslash escapes.  At the end of the source, and
ever after, the token is `Token.endOfInput`.

Every other token uses up part of the source (`length_token_lt`), which is why
reading all tokens ends.
-/

namespace TinyLisp

/-- What separates tokens. -/
def isSpace (c : Char) : Bool :=
  c = ' ' || c = '\t' || c = '\n'

/-- What cannot stand inside a name. -/
def endsAtom (c : Char) : Bool :=
  c = '(' || c = ')' || c = '\x22' || c = ';' || isSpace c

/-- What a number consists of behind its first digit. -/
def isNumeral (c : Char) : Bool :=
  c.isDigit || c = '_'

/-- The kind of a token that is a single character. -/
def Token.Kind.ofChar? (c : Char) : Option Token.Kind :=
  if c = '(' then some .lparen
  else if c = ')' then some .rparen
  else if c = '\x27' then some .quote
  else if c = '-' then some .minus
  else none

namespace Source

/-- What is read of a string literal behind its opening quote. -/
structure Literal where
  /-- The characters of the literal, its closing quote included. -/
  text : List Char
  /-- The closing quote was found. -/
  closed : Bool
  /-- What is left of the source. -/
  rest : Source

/-- Reads a string literal behind its opening quote; `text` holds what was read so
far, last first, and `n` is the number of bytes consumed.  A backslash is dropped
and the next character is taken as it is.  A missing character ends the literal,
except behind a backslash, where reading goes on. -/
def literal (text : List Char) (n : Nat) : List Pull → Literal
  | [] => { text := text.reverse, closed := false, rest := ⟨[], n⟩ }
  | .gap k :: rest => { text := text.reverse, closed := false, rest := ⟨rest, n + k⟩ }
  | .char c k :: rest =>
    if c = '\x22' then { text := (c :: text).reverse, closed := true, rest := ⟨rest, n + k⟩ }
    else if c = '\\' then
      match rest with
      | [] => { text := text.reverse, closed := false, rest := ⟨[], n + k⟩ }
      | .gap j :: rest => literal text (n + k + j) rest
      | .char d j :: rest => literal (d :: text) (n + k + j) rest
    else literal (c :: text) (n + k) rest

/-- Reads the token that starts with the character `c`, which has been taken. -/
def tokenFrom (c : Char) (s : Source) : Token × Source :=
  match Token.Kind.ofChar? c with
  | some kind => ({ kind, text := String.ofList [c] }, s)
  | none =>
    if c.isDigit then
      let (text, rest) := s.span isNumeral
      ({ kind := .number, text := String.ofList (c :: text) }, rest)
    else if c = ';' then
      let (text, rest) := s.through (· ≠ '\n')
      ({ kind := .comment, text := String.ofList (c :: text) }, rest)
    else if c = '\x22' then
      let lit := literal [c] s.consumed s.pulls
      ({ kind := .string, text := String.ofList lit.text, truncated := !lit.closed }, lit.rest)
    else
      let (text, rest) := s.span (!endsAtom ·)
      ({ kind := .atom, text := String.ofList (c :: text) }, rest)

/-- Reads the next token. -/
def token (s : Source) : Token × Source :=
  let (_, s) := s.span isSpace
  match s.front? with
  | none => (Token.endOfInput, s)
  | some c => tokenFrom c s.skip

/-! ### Reading a token uses up part of the source -/

theorem length_literal_le (text : List Char) (n : Nat) (pulls : List Pull) :
    (literal text n pulls).rest.pulls.length ≤ pulls.length := by
  fun_induction literal text n pulls <;> simp_all <;> omega

theorem length_tokenFrom_le (c : Char) (s : Source) :
    (tokenFrom c s).2.pulls.length ≤ s.pulls.length := by
  unfold tokenFrom
  split
  · exact Nat.le_refl _
  · split
    · exact length_span_le _ _
    · split
      · exact length_through_le _ _
      · split
        · exact length_literal_le _ _ _
        · exact length_span_le _ _

theorem isEnd_tokenFrom (c : Char) (s : Source) : (tokenFrom c s).1.isEnd = false := by
  have h : ∀ kind, Token.Kind.ofChar? c = some kind → kind ≠ .eof := by
    unfold Token.Kind.ofChar?
    grind
  unfold tokenFrom
  split
  · simp_all [Token.isEnd]
  · grind [Token.isEnd]

/-- A token never leaves more of the source than there was. -/
theorem length_token_le (s : Source) : s.token.2.pulls.length ≤ s.pulls.length := by
  unfold token
  have hs := length_span_le isSpace s
  dsimp only
  split
  · exact hs
  · exact Nat.le_trans (length_tokenFrom_le _ _) (Nat.le_trans (length_skip_le _) hs)

/-- A token other than the end of the input uses up part of the source. -/
theorem length_token_lt {s : Source} (h : s.token.1.isEnd = false) :
    s.token.2.pulls.length < s.pulls.length := by
  revert h
  unfold token
  have hs := length_span_le isSpace s
  dsimp only
  split
  · intro h
    simp [Token.endOfInput, Token.isEnd] at h
  · next c hc =>
    intro _
    exact Nat.lt_of_le_of_lt (length_tokenFrom_le _ _)
      (Nat.lt_of_lt_of_le (length_skip_lt (pulls_ne_nil_of_front? hc)) hs)

/-! ### All tokens -/

/-- Reads tokens up to the end of the input; `done` holds those read so far, last
first. -/
def tokensInto (done : List Token) (s : Source) : List Token × Source :=
  if s.token.1.isEnd then (done.reverse, s.token.2)
  else tokensInto (s.token.1 :: done) s.token.2
termination_by s.pulls.length
decreasing_by exact length_token_lt (by simp_all)

/-- The tokens before the end of the input. -/
def tokens (s : Source) : List Token × Source :=
  tokensInto [] s

/-- The next token, or nothing at the end of the input. -/
def token? (s : Source) : Option Token × Source :=
  if s.token.1.isEnd then (none, s.token.2) else (some s.token.1, s.token.2)

end Source

/-- The tokens of a text, the end of the input included. -/
def tokenize (s : String) : List Token :=
  (Source.ofString s).tokens.1 ++ [Token.endOfInput]

end TinyLisp
