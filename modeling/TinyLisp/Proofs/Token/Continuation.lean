import TinyLisp.Proofs.Token.Enclosing
import TinyLisp.Proofs.Token.Layout

/-!
# The tokens of a text that goes on

When more is written behind a text, all its tokens but the last stay as they are.  The
last one may grow: a name gets longer, a number gets more digits, a string literal or a
comment goes on.  It stays of its kind (`Token.Grows`, `Token.Continues`).

Conversely, every text can be continued in such a way that nothing grows any more.  It
is enough to close a string literal that is open, or to end the line of a comment
(`Token.Lexes.exists_seal`).

Some texts do not grow at all.  A newline keeps them apart from what follows, unless a
string literal is cut short (`Token.Lexes.append_newline`), and a closing parenthesis
always is a token by itself (`Token.Lexes.exists_append_of_rparen`).
-/

namespace TinyLisp.Token

/-! ### Tokens that grow -/

/-- What the last token of a text may become when the text goes on: the kind stays, and
a number keeps the digits it has. -/
structure Grows (t u : Token) : Prop where
  kind_eq : u.kind = t.kind
  digits : t.kind = .number → t.text.toList <+: u.text.toList

/-- The tokens of a text may become these when the text goes on: only the last of them
grows, and others may follow. -/
inductive Continues : List Token → List Token → Prop
  | nil {us : List Token} : Continues [] us
  | last {t u : Token} {us : List Token} (h : Grows t u) : Continues [t] (u :: us)
  | cons {t : Token} {ts us : List Token} (h : Continues ts us) : Continues (t :: ts) (t :: us)

/-- The first token keeps its kind, and it stays the same unless it is the last one. -/
lemma Continues.of_cons {t : Token} {ts us : List Token} (h : Continues (t :: ts) us) :
    ∃ u us', us = u :: us' ∧ u.kind = t.kind ∧ Continues ts us' ∧
      (u = t ∨ ts = [] ∧ Grows t u) := by
  cases h with
  | @last _ u us' hgrows => exact ⟨u, us', rfl, hgrows.kind_eq, .nil, Or.inr ⟨rfl, hgrows⟩⟩
  | @cons _ _ us' hts => exact ⟨t, us', rfl, rfl, hts, Or.inl rfl⟩

/-- The first character of a token decides on its kind. -/
lemma kind_tokenFrom (c : Char) (s s' : Source) :
    (Source.tokenFrom c s).1.kind = (Source.tokenFrom c s').1.kind := by
  unfold Source.tokenFrom
  split
  · rfl
  · split_ifs <;> rfl

/-- Only a digit starts a number. -/
lemma isDigit_of_kind_tokenFrom {c : Char} {s : Source}
    (h : (Source.tokenFrom c s).1.kind = .number) : c.isDigit := by
  unfold Source.tokenFrom Kind.ofChar? at h
  grind

/-- A run of a class of characters only gets longer when more follows. -/
lemma takeWhile_prefix_takeWhile_append (p : Char → Bool) (cs more : List Char) :
    cs.takeWhile p <+: (cs ++ more).takeWhile p := by
  rw [List.takeWhile_append]
  split
  · have hrun : cs.takeWhile p <+: cs := List.takeWhile_prefix p
    exact hrun.trans (List.prefix_append _ _)
  · exact List.prefix_refl _

/-- The token that starts with a character grows when more follows. -/
lemma grows_tokenFrom (c : Char) (cs more : List Char) :
    Grows (Source.tokenFrom c (.ofList cs)).1 (Source.tokenFrom c (.ofList (cs ++ more))).1 := by
  refine ⟨kind_tokenFrom c _ _, fun hkind => ?_⟩
  have hdigit := isDigit_of_kind_tokenFrom hkind
  rw [tokenFrom_of_isDigit hdigit, tokenFrom_of_isDigit hdigit, Source.span_ofList,
    Source.span_ofList]
  simpa using takeWhile_prefix_takeWhile_append isNumeral cs more

/-- Where something follows already, more does not matter to a token. -/
lemma Spelling.append_of_ne_nil {t : Token} {r rest : List Char} (h : Spelling t r rest)
    (hne : rest ≠ []) (more : List Char) : Spelling t r (rest ++ more) := by
  have hhead : (rest ++ more).head? = rest.head? := by
    obtain ⟨c, cs, rfl⟩ := List.exists_cons_of_ne_nil hne
    rfl
  cases h with
  | lparen => exact .lparen
  | rparen => exact .rparen
  | quote => exact .quote
  | minus => exact .minus
  | number hc hcs hrest => exact .number hc hcs (hhead ▸ hrest)
  | atom hc hcs hrest => exact .atom hc hcs (hhead ▸ hrest)
  | comment hcs => exact .comment hcs
  | string hb => exact .string hb
  | lastComment => exact absurd rfl hne
  | openString => exact absurd rfl hne
  | brokenString => exact absurd rfl hne

/-- An empty text has no tokens. -/
lemma Lexes.eq_nil_of_nil {ts : List Token} (h : Lexes [] ts) : ts = [] := by
  rw [← tokens_ofList_eq h]
  exact tokens_ofList_eq (.nil (by simp))

/-- When a text goes on, only its last token grows. -/
theorem Lexes.continues {cs : List Char} {ts : List Token} (h : Lexes cs ts) (more : List Char) :
    Continues ts (Source.ofList (cs ++ more)).tokens.1 := by
  induction h with
  | nil _ => exact .nil
  | @cons w r rest t ts hw ht hrest ih =>
    by_cases hne : rest = []
    · subst hne
      obtain rfl := hrest.eq_nil_of_nil
      obtain ⟨c, cs, rfl, hc, htoken⟩ := ht.tokenFrom
      have hgrows := grows_tokenFrom c cs more
      rw [List.append_nil] at htoken
      rw [htoken] at hgrows
      have hnext := token_blanks_append hw hc (cs ++ more)
      have hsplit : w ++ c :: cs ++ [] ++ more = w ++ c :: (cs ++ more) := by simp
      rw [hsplit, Source.tokens_of_not_isEnd (by rw [hnext]; exact Source.isEnd_tokenFrom c _),
        hnext]
      exact .last hgrows
    · have htoken := (ht.append_of_ne_nil hne more).token hw
      rw [List.append_assoc, Source.tokens_of_not_isEnd (by rw [htoken]; exact ht.isEnd), htoken]
      exact .cons ih

/-! ### Texts that nothing can grow behind -/

/-- The tokens are the same but for a string literal at the end, which may be another. -/
inductive Seals : List Token → List Token → Prop
  | refl {ts : List Token} : Seals ts ts
  | string {s s' : Token} (hs : s.kind = .string) (hs' : s'.kind = .string) : Seals [s] [s']
  | cons {t : Token} {ts us : List Token} (h : Seals ts us) : Seals (t :: ts) (t :: us)

/-- Only the last token can be sealed, and it is a string literal. -/
lemma Seals.of_append {used rest ts : List Token} (h : Seals (used ++ rest) ts) :
    (∃ rest', ts = used ++ rest' ∧ Seals rest rest') ∨
      ∃ init s s', used = init ++ [s] ∧ rest = [] ∧ ts = init ++ [s'] ∧
        s.kind = .string ∧ s'.kind = .string := by
  induction used generalizing ts with
  | nil => exact Or.inl ⟨ts, rfl, h⟩
  | cons t used ih =>
    rw [List.cons_append] at h
    generalize hus : t :: (used ++ rest) = us at h
    cases h with
    | refl => exact Or.inl ⟨rest, hus.symm, .refl⟩
    | @string s s' hs hs' =>
      obtain ⟨rfl, hnil⟩ := List.cons.inj hus
      obtain ⟨rfl, rfl⟩ := List.append_eq_nil_iff.mp hnil
      exact Or.inr ⟨[], t, s', rfl, rfl, rfl, hs, hs'⟩
    | @cons _ _ us' hseals =>
      obtain ⟨rfl, rfl⟩ := List.cons.inj hus
      rcases ih hseals with ⟨rest', rfl, hrest⟩ | ⟨init, s, s', rfl, rfl, rfl, hs, hs'⟩
      · exact Or.inl ⟨rest', rfl, hrest⟩
      · exact Or.inr ⟨t :: init, s, s', rfl, rfl, rfl, hs, hs'⟩

/-- What is spelled in two pieces is spelled by both together. -/
lemma Encodes.append {b t b' t' : List Char} (h : Encodes b t) (h' : Encodes b' t') :
    Encodes (b ++ b') (t ++ t') := by
  induction h with
  | nil => exact h'
  | plain hquote hslash _ ih => exact .plain hquote hslash ih
  | escaped _ ih => exact .escaped ih

/-- The last token of a text can be sealed, so that a delimiter may follow. -/
lemma Spelling.exists_seal {t : Token} {r : List Char} (h : Spelling t r []) :
    ∃ tail t', Seals [t] [t'] ∧
      ∀ rest : List Char, (∀ c ∈ rest.head?, c ∈ delimiters) → Spelling t' (r ++ tail) rest := by
  have hplain : (∀ rest : List Char, (∀ c ∈ rest.head?, c ∈ delimiters) → Spelling t r rest) →
      ∃ tail t', Seals [t] [t'] ∧
        ∀ rest : List Char, (∀ c ∈ rest.head?, c ∈ delimiters) → Spelling t' (r ++ tail) rest :=
    fun hspelling => ⟨[], t, .refl, by simpa using hspelling⟩
  cases h with
  | lparen => exact hplain fun _ _ => .lparen
  | rparen => exact hplain fun _ _ => .rparen
  | quote => exact hplain fun _ _ => .quote
  | minus => exact hplain fun _ _ => .minus
  | number hc hcs _ =>
    refine hplain fun rest hrest => .number hc hcs ?_
    rintro d hd (hdigit | rfl)
    · exact not_mem_delimiters_of_isDigit hdigit (hrest d hd)
    · exact absurd (hrest _ hd) (by decide)
  | atom hc hcs _ => exact hplain fun rest hrest => .atom hc hcs hrest
  | comment hcs => exact hplain fun _ _ => .comment hcs
  | string hb => exact hplain fun _ _ => .string hb
  | lastComment hcs => exact ⟨['\n'], _, .refl, fun _ _ => .comment hcs⟩
  | openString hb => exact ⟨['\x22'], _, .string rfl rfl, fun _ _ => .string hb⟩
  | @brokenString b u hb =>
    -- the dangling backslash escapes whatever is written first
    have hencodes : Encodes (b ++ ['\\', 'x']) (u ++ ['x']) := hb.append (.escaped .nil)
    refine ⟨['x', '\x22'],
      { kind := .string, text := String.ofList ('\x22' :: (u ++ ['x']) ++ ['\x22']) },
      .string rfl rfl, fun rest _ => ?_⟩
    have hspelling : Spelling _ ('\x22' :: (b ++ ['\\', 'x']) ++ ['\x22']) rest := .string hencodes
    simpa using hspelling

/-- Every text can be sealed, so that a delimiter and what follows it have their own
tokens. -/
theorem Lexes.exists_seal {cs : List Char} {ts : List Token} (h : Lexes cs ts) :
    ∃ tail ts', Seals ts ts' ∧ ∀ more us, (∀ c ∈ more.head?, c ∈ delimiters) → Lexes more us →
      Lexes (cs ++ tail ++ more) (ts' ++ us) := by
  induction h with
  | nil hw => exact ⟨[], [], .refl, fun more us _ hus => by simpa using hus.blanks_append hw⟩
  | @cons w r rest t ts hw ht hrest ih =>
    by_cases hne : rest = []
    · subst hne
      obtain rfl := hrest.eq_nil_of_nil
      obtain ⟨tail, t', hseals, hspelling⟩ := ht.exists_seal
      refine ⟨tail, [t'], hseals, fun more us hmore hus => ?_⟩
      simpa using Lexes.cons hw (hspelling more hmore) hus
    · obtain ⟨tail, ts', hseals, hlexes⟩ := ih
      refine ⟨tail, t :: ts', hseals.cons, fun more us hmore hus => ?_⟩
      have hspelling := ht.append_of_ne_nil hne (tail ++ more)
      have hlexes' : Lexes (rest ++ (tail ++ more)) (ts' ++ us) := by
        simpa using hlexes more us hmore hus
      simpa using Lexes.cons hw hspelling hlexes'

/-! ### Texts that do not grow -/

/-- A token that is not cut short ends with its line at the latest.  A comment takes the
newline. -/
lemma Spelling.before_newline {t : Token} {r : List Char} (h : Spelling t r [])
    (ht : t.truncated = false) (rest : List Char) :
    Spelling t r ('\n' :: rest) ∨ Spelling t (r ++ ['\n']) rest := by
  cases h with
  | lparen => exact Or.inl .lparen
  | rparen => exact Or.inl .rparen
  | quote => exact Or.inl .quote
  | minus => exact Or.inl .minus
  | number hc hcs _ => exact Or.inl (.number hc hcs (by simp [Char.isDigit]))
  | atom hc hcs _ => exact Or.inl (.atom hc hcs (by simp [delimiters]))
  | comment hcs => exact Or.inl (.comment hcs)
  | string hb => exact Or.inl (.string hb)
  | lastComment hcs => exact Or.inr (.comment hcs)
  | openString => simp at ht
  | brokenString => simp at ht

/-- A text without a literal that is cut short keeps its tokens when another one is written on
the next line, and so does the other one. -/
theorem Lexes.append_newline {cs ds : List Char} {ts us : List Token} (h : Lexes cs ts)
    (hts : ∀ t ∈ ts, t.truncated = false) (hus : Lexes ds us) :
    Lexes (cs ++ '\n' :: ds) (ts ++ us) := by
  have hline : Lexes ('\n' :: ds) us := hus.blanks_append (w := ['\n']) (by simp [blanks])
  induction h with
  | nil hw => exact hline.blanks_append hw
  | @cons w r rest t ts hw ht hrest ih =>
    obtain ⟨htwhole, hts⟩ := List.forall_mem_cons.mp hts
    by_cases hne : rest = []
    · subst hne
      obtain rfl := hrest.eq_nil_of_nil
      rcases ht.before_newline htwhole ds with hspelling | hspelling
      · simpa using Lexes.cons hw hspelling hline
      · simpa using Lexes.cons hw hspelling hus
    · have hspelling := ht.append_of_ne_nil hne ('\n' :: ds)
      simpa using Lexes.cons hw hspelling (ih hts)

/-- Up to a closing parenthesis, the tokens of a text stay as they are when more is written
behind it. -/
theorem Lexes.exists_append_of_rparen {cs : List Char} {used rest : List Token}
    (h : Lexes cs (used ++ rest)) (hused : EndsWith .rparen used) (more : List Char) :
    ∃ us, Lexes (cs ++ more) (used ++ us) := by
  generalize hts : used ++ rest = ts at h
  induction h generalizing used with
  | nil _ =>
    obtain ⟨rfl, -⟩ := List.append_eq_nil_iff.mp hts
    exact absurd hused (not_endsWith_nil _)
  | @cons w r rest' t ts hw ht hrest ih =>
    cases used with
    | nil => exact absurd hused (not_endsWith_nil _)
    | cons u used =>
      obtain ⟨rfl, rfl⟩ := List.cons.inj hts
      cases used with
      | nil =>
        obtain ⟨us, hus⟩ := exists_lexes (rest' ++ more)
        have hkind : u.kind = .rparen := by simpa [EndsWith] using hused
        cases ht with
        | rparen => exact ⟨us, by simpa using Lexes.cons hw .rparen hus⟩
        | _ => simp at hkind
      | cons v used =>
        have hne : rest' ≠ [] := by
          rintro rfl
          exact absurd hrest.eq_nil_of_nil (by simp)
        have hlast : EndsWith .rparen (v :: used) := by simpa [EndsWith] using hused
        obtain ⟨us, hus⟩ := ih hlast rfl
        exact ⟨us, by simpa using Lexes.cons hw (ht.append_of_ne_nil hne more) hus⟩

end TinyLisp.Token
