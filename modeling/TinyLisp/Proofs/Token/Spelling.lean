import Mathlib.Data.List.Induction
import TinyLisp.Proofs.Token.Tokens

/-!
# How tokens are spelled

`Token.Spelling t r rest` says that the characters `r` spell the token `t` where the
characters `rest` follow.  What follows matters, because a name or a number reaches
as far as it can.  `Token.Lexes cs ts` says that a text is made of the spellings of
the tokens `ts`, one after the other, and of blanks between them and at both ends.

The relations are stated without the functions that read tokens.  The main result is
that they describe exactly what is read: every text is such a sequence of spellings
(`lexes_tokens_ofList`), and of no other tokens (`tokens_ofList_eq`).
-/

namespace TinyLisp

/-- What may stand between tokens. -/
def blanks : List Char := [' ', '\t', '\n']

/-- What cannot stand inside a name. -/
def delimiters : List Char := ['(', ')', '\x22', ';', ' ', '\t', '\n']

namespace Token

/-- The characters `b` spell the text `t` between the quotes of a string literal: a
backslash stands before some characters of `t`, and at least before each quote and
each backslash. -/
inductive Encodes : List Char → List Char → Prop
  | nil : Encodes [] []
  | plain {c : Char} {b t : List Char} (hquote : c ≠ '\x22') (hslash : c ≠ '\\') :
      Encodes b t → Encodes (c :: b) (c :: t)
  | escaped {c : Char} {b t : List Char} : Encodes b t → Encodes ('\\' :: c :: b) (c :: t)

/-- The characters in the middle spell the token where the last ones follow. -/
inductive Spelling : Token → List Char → List Char → Prop
  | lparen {rest : List Char} : Spelling { kind := .lparen, text := "(" } ['('] rest
  | rparen {rest : List Char} : Spelling { kind := .rparen, text := ")" } [')'] rest
  | quote {rest : List Char} : Spelling { kind := .quote, text := "'" } ['\x27'] rest
  | minus {rest : List Char} : Spelling { kind := .minus, text := "-" } ['-'] rest
  /-- A digit, then digits and underscores up to the first other character. -/
  | number {c : Char} {cs rest : List Char} (hc : c.isDigit)
      (hcs : ∀ d ∈ cs, d.isDigit ∨ d = '_') (hrest : ∀ d ∈ rest.head?, ¬(d.isDigit ∨ d = '_')) :
      Spelling { kind := .number, text := String.ofList (c :: cs) } (c :: cs) rest
  /-- Anything else up to the first delimiter. -/
  | atom {c : Char} {cs rest : List Char} (hc : ¬(c.isDigit ∨ c = '-' ∨ c = '\x27'))
      (hcs : ∀ d ∈ c :: cs, d ∉ delimiters) (hrest : ∀ d ∈ rest.head?, d ∈ delimiters) :
      Spelling { kind := .atom, text := String.ofList (c :: cs) } (c :: cs) rest
  /-- A semicolon and the rest of its line.  The newline is not part of the text. -/
  | comment {cs rest : List Char} (hcs : '\n' ∉ cs) :
      Spelling { kind := .comment, text := String.ofList (';' :: cs) } (';' :: cs ++ ['\n']) rest
  /-- A semicolon and the rest of the last line. -/
  | lastComment {cs : List Char} (hcs : '\n' ∉ cs) :
      Spelling { kind := .comment, text := String.ofList (';' :: cs) } (';' :: cs) []
  /-- A string literal up to the first quote that is not escaped. -/
  | string {b t rest : List Char} (h : Encodes b t) :
      Spelling { kind := .string, text := String.ofList ('\x22' :: t ++ ['\x22']) }
        ('\x22' :: b ++ ['\x22']) rest
  /-- A string literal without such a quote. -/
  | openString {b t : List Char} (h : Encodes b t) :
      Spelling { kind := .string, text := String.ofList ('\x22' :: t), truncated := true }
        ('\x22' :: b) []
  /-- A string literal that ends in a backslash with nothing to escape. -/
  | brokenString {b t : List Char} (h : Encodes b t) :
      Spelling { kind := .string, text := String.ofList ('\x22' :: t), truncated := true }
        ('\x22' :: b ++ ['\\']) []

/-- A text is made of the spellings of tokens, with blanks between them and at both
ends. -/
inductive Lexes : List Char → List Token → Prop
  | nil {w : List Char} (hw : ∀ c ∈ w, c ∈ blanks) : Lexes w []
  | cons {w r rest : List Char} {t : Token} {ts : List Token} (hw : ∀ c ∈ w, c ∈ blanks)
      (ht : Spelling t r rest) (hrest : Lexes rest ts) : Lexes (w ++ r ++ rest) (t :: ts)

/-! ### Classes of characters -/

lemma isSpace_iff (c : Char) : isSpace c = true ↔ c ∈ blanks := by
  simp [isSpace, blanks, or_assoc]

lemma endsAtom_iff (c : Char) : endsAtom c = true ↔ c ∈ delimiters := by
  simp [endsAtom, isSpace, delimiters, or_assoc]

lemma isNumeral_iff (c : Char) : isNumeral c = true ↔ c.isDigit ∨ c = '_' := by
  simp [isNumeral]

/-- A digit is no delimiter. -/
lemma not_mem_delimiters_of_isDigit {c : Char} (hc : c.isDigit) : c ∉ delimiters := by
  intro h
  simp only [delimiters, List.mem_cons, List.not_mem_nil, or_false] at h
  rcases h with rfl | rfl | rfl | rfl | rfl | rfl | rfl <;> simp [Char.isDigit] at hc

/-- Blanks are delimiters. -/
lemma mem_delimiters_of_mem_blanks {c : Char} (hc : c ∈ blanks) : c ∈ delimiters := by
  simp only [blanks, List.mem_cons, List.not_mem_nil, or_false] at hc
  simp [delimiters, hc]

/-! ### String literals -/

/-- A character that is neither a quote nor a backslash is part of the literal. -/
lemma literal_cons {c : Char} (hquote : c ≠ '\x22') (hslash : c ≠ '\\') (seen cs : List Char) :
    Source.literal seen 0 ((c :: cs).map (.char · 0)) =
      Source.literal (c :: seen) 0 (cs.map (.char · 0)) := by
  rw [List.map_cons, Source.literal.eq_def]
  simp [hquote, hslash]

/-- So is any character behind a backslash. -/
lemma literal_backslash_cons (c : Char) (seen cs : List Char) :
    Source.literal seen 0 (('\\' :: c :: cs).map (.char · 0)) =
      Source.literal (c :: seen) 0 (cs.map (.char · 0)) := by
  rw [List.map_cons, List.map_cons, Source.literal.eq_def]
  simp

/-- Reading a literal up to its closing quote decodes it. -/
lemma literal_of_encodes {b t : List Char} (h : Encodes b t) (seen rest : List Char) :
    Source.literal seen 0 ((b ++ '\x22' :: rest).map (.char · 0)) =
      { text := seen.reverse ++ t ++ ['\x22'], closed := true, rest := .ofList rest } := by
  induction h generalizing seen with
  | nil =>
    rw [List.nil_append, List.map_cons, Source.literal.eq_def]
    simp [Source.ofList]
  | @plain c b t hquote hslash _ ih =>
    rw [List.cons_append, literal_cons hquote hslash, ih]
    simp
  | @escaped c b t _ ih =>
    rw [List.cons_append, List.cons_append, literal_backslash_cons, ih]
    simp

/-- A literal whose closing quote is missing is decoded as far as it goes, and a
backslash at its end counts for nothing. -/
lemma literal_of_encodes_open {b t : List Char} (h : Encodes b t) (seen : List Char)
    {tail : List Char} (htail : tail = [] ∨ tail = ['\\']) :
    Source.literal seen 0 ((b ++ tail).map (.char · 0)) =
      { text := seen.reverse ++ t, closed := false, rest := .ofList [] } := by
  induction h generalizing seen with
  | nil => rcases htail with rfl | rfl <;> rw [Source.literal.eq_def] <;> simp [Source.ofList]
  | @plain c b t hquote hslash _ ih =>
    rw [List.cons_append, literal_cons hquote hslash, ih]
    simp
  | @escaped c b t _ ih =>
    rw [List.cons_append, List.cons_append, literal_backslash_cons, ih]
    simp

/-- What follows an opening quote is a literal with or without a closing quote. -/
lemma exists_encodes (cs : List Char) :
    (∃ b t rest, Encodes b t ∧ cs = b ++ '\x22' :: rest) ∨
      ∃ b t tail, Encodes b t ∧ cs = b ++ tail ∧ (tail = [] ∨ tail = ['\\']) := by
  induction cs using List.twoStepInduction with
  | nil => exact Or.inr ⟨[], [], [], .nil, rfl, Or.inl rfl⟩
  | singleton c =>
    by_cases hquote : c = '\x22'
    · exact Or.inl ⟨[], [], [], .nil, by rw [hquote]; rfl⟩
    by_cases hslash : c = '\\'
    · exact Or.inr ⟨[], [], ['\\'], .nil, by rw [hslash]; rfl, Or.inr rfl⟩
    · exact Or.inr ⟨[c], [c], [], .plain hquote hslash .nil, rfl, Or.inl rfl⟩
  | cons_cons c d cs ih ih' =>
    by_cases hquote : c = '\x22'
    · exact Or.inl ⟨[], [], d :: cs, .nil, by rw [hquote]; rfl⟩
    by_cases hslash : c = '\\'
    · subst hslash
      rcases ih with ⟨b, t, rest, hb, rfl⟩ | ⟨b, t, tail, hb, rfl, htail⟩
      · exact Or.inl ⟨'\\' :: d :: b, d :: t, rest, .escaped hb, rfl⟩
      · exact Or.inr ⟨'\\' :: d :: b, d :: t, tail, .escaped hb, rfl, htail⟩
    · rcases ih' d with ⟨b, t, rest, hb, hcs⟩ | ⟨b, t, tail, hb, hcs, htail⟩
      · exact Or.inl ⟨c :: b, c :: t, rest, .plain hquote hslash hb, by rw [hcs]; rfl⟩
      · exact Or.inr ⟨c :: b, c :: t, tail, .plain hquote hslash hb, by rw [hcs]; rfl, htail⟩

/-! ### Reading a token -/

/-- A digit starts a number. -/
lemma tokenFrom_of_isDigit {c : Char} (hc : c.isDigit) (s : Source) :
    Source.tokenFrom c s =
      ({ kind := .number, text := String.ofList (c :: (s.span isNumeral).1) },
        (s.span isNumeral).2) := by
  have hkind : Kind.ofChar? c = none := by
    unfold Kind.ofChar?
    split_ifs with h1 h2 h3 h4 <;> first | rfl | (subst_vars; simp [Char.isDigit] at hc)
  simp [Source.tokenFrom, hkind, hc]

/-- What has no other meaning starts a name. -/
lemma tokenFrom_of_not_mem_delimiters {c : Char} (hc : ¬(c.isDigit ∨ c = '-' ∨ c = '\x27'))
    (hdelim : c ∉ delimiters) (s : Source) :
    Source.tokenFrom c s =
      ({ kind := .atom, text := String.ofList (c :: (s.span (!endsAtom ·)).1) },
        (s.span (!endsAtom ·)).2) := by
  simp only [delimiters, List.mem_cons, List.not_mem_nil, or_false, not_or] at hdelim
  simp only [not_or] at hc
  simp [Source.tokenFrom, Kind.ofChar?, hc, hdelim]

/-- A double quote starts a string literal. -/
lemma tokenFrom_doubleQuote (cs : List Char) :
    Source.tokenFrom '\x22' (.ofList cs) =
      ({ kind := .string,
         text := String.ofList (Source.literal ['\x22'] 0 (cs.map (.char · 0))).text,
         truncated := !(Source.literal ['\x22'] 0 (cs.map (.char · 0))).closed },
        (Source.literal ['\x22'] 0 (cs.map (.char · 0))).rest) := rfl

/-- A semicolon starts a comment. -/
lemma tokenFrom_semicolon (s : Source) :
    Source.tokenFrom ';' s =
      ({ kind := .comment, text := String.ofList (';' :: (s.through (· ≠ '\n')).1) },
        (s.through (· ≠ '\n')).2) := rfl

/-- A token that is spelled at the front of a text is read off it, given its first
character. -/
lemma Spelling.tokenFrom {t : Token} {r rest : List Char} (h : Spelling t r rest) :
    ∃ c cs, r = c :: cs ∧ c ∉ blanks ∧
      Source.tokenFrom c (.ofList (cs ++ rest)) = (t, .ofList rest) := by
  cases h with
  | lparen => exact ⟨'(', [], rfl, by decide, rfl⟩
  | rparen => exact ⟨')', [], rfl, by decide, rfl⟩
  | quote => exact ⟨'\x27', [], rfl, by decide, rfl⟩
  | minus => exact ⟨'-', [], rfl, by decide, rfl⟩
  | @number c cs _ hc hcs hrest =>
    refine ⟨c, cs, rfl, ?_, ?_⟩
    · exact fun hblank => not_mem_delimiters_of_isDigit hc (mem_delimiters_of_mem_blanks hblank)
    · have hspan : (Source.ofList (cs ++ rest)).span isNumeral = (cs, .ofList rest) :=
        Source.span_ofList_append (fun d hd => (isNumeral_iff d).mpr (hcs d hd))
          (fun d hd => Bool.eq_false_iff.mpr (mt (isNumeral_iff d).mp (hrest d hd)))
      rw [tokenFrom_of_isDigit hc, hspan]
  | @atom c cs _ hc hcs hrest =>
    have hdelim : c ∉ delimiters := hcs c List.mem_cons_self
    refine ⟨c, cs, rfl, fun hblank => hdelim (mem_delimiters_of_mem_blanks hblank), ?_⟩
    have hspan : (Source.ofList (cs ++ rest)).span (!endsAtom ·) = (cs, .ofList rest) := by
      refine Source.span_ofList_append (fun d hd => ?_) (fun d hd => ?_)
      · have hd' : ¬endsAtom d = true := mt (endsAtom_iff d).mp (hcs d (List.mem_cons_of_mem c hd))
        simpa using hd'
      · simpa [endsAtom_iff] using hrest d hd
    rw [tokenFrom_of_not_mem_delimiters hc hdelim, hspan]
  | @comment cs _ hcs =>
    refine ⟨';', cs ++ ['\n'], rfl, by decide, ?_⟩
    have hrun : ∀ d ∈ cs, decide (d ≠ '\n') = true :=
      fun d hd => decide_eq_true (ne_of_mem_of_not_mem hd hcs)
    rw [tokenFrom_semicolon, Source.through_ofList, List.append_assoc,
      List.takeWhile_append_of_pos hrun, List.dropWhile_append_of_pos hrun]
    simp
  | @lastComment cs hcs =>
    refine ⟨';', cs, rfl, by decide, ?_⟩
    have hrun : ∀ d ∈ cs, decide (d ≠ '\n') = true :=
      fun d hd => decide_eq_true (ne_of_mem_of_not_mem hd hcs)
    rw [tokenFrom_semicolon, Source.through_ofList, List.takeWhile_append_of_pos hrun,
      List.dropWhile_append_of_pos hrun]
    simp
  | @string b u _ hb =>
    refine ⟨'\x22', b ++ ['\x22'], rfl, by decide, ?_⟩
    rw [tokenFrom_doubleQuote, List.append_assoc, List.singleton_append,
      literal_of_encodes hb]
    rfl
  | @openString b u hb =>
    refine ⟨'\x22', b, rfl, by decide, ?_⟩
    rw [tokenFrom_doubleQuote, literal_of_encodes_open hb _ (Or.inl rfl)]
    rfl
  | @brokenString b u hb =>
    refine ⟨'\x22', b ++ ['\\'], rfl, by decide, ?_⟩
    rw [tokenFrom_doubleQuote, List.append_assoc, List.append_nil,
      literal_of_encodes_open hb _ (Or.inr rfl)]
    rfl

/-- Where a text does not go on with a blank, a token is spelled. -/
lemma exists_spelling {c : Char} (hc : c ∉ blanks) (cs : List Char) :
    ∃ t r rest, c :: cs = r ++ rest ∧ Spelling t r rest := by
  by_cases hdigit : c.isDigit
  · refine ⟨_, c :: cs.takeWhile isNumeral, cs.dropWhile isNumeral, ?_,
      .number hdigit (fun d hd => ?_) (fun d hd => ?_)⟩
    · rw [List.cons_append, List.takeWhile_append_dropWhile]
    · exact (isNumeral_iff d).mp (List.mem_takeWhile_imp hd)
    · have hd' := List.head?_dropWhile_not isNumeral cs
      rw [Option.mem_def.mp hd] at hd'
      simpa [← isNumeral_iff] using hd'
  by_cases hdelim : c ∈ delimiters
  · -- every delimiter but the blanks starts a token of its own kind
    simp only [delimiters, List.mem_cons, List.not_mem_nil, or_false] at hdelim
    simp only [blanks, List.mem_cons, List.not_mem_nil, or_false, not_or] at hc
    rcases hdelim with rfl | rfl | rfl | rfl | hblank
    · exact ⟨_, ['('], cs, rfl, .lparen⟩
    · exact ⟨_, [')'], cs, rfl, .rparen⟩
    · rcases exists_encodes cs with ⟨b, t, rest, hb, rfl⟩ | ⟨b, t, tail, hb, rfl, rfl | rfl⟩
      · exact ⟨_, '\x22' :: b ++ ['\x22'], rest, by simp, .string hb⟩
      · exact ⟨_, '\x22' :: b, [], by simp, .openString hb⟩
      · exact ⟨_, '\x22' :: b ++ ['\\'], [], by simp, .brokenString hb⟩
    · by_cases hline : '\n' ∈ cs
      · obtain ⟨line, rest, rfl, hfirst⟩ := List.eq_append_cons_of_mem hline
        exact ⟨_, ';' :: line ++ ['\n'], rest, by simp, .comment hfirst⟩
      · exact ⟨_, ';' :: cs, [], by simp, .lastComment hline⟩
    · tauto
  · by_cases hminus : c = '-'
    · exact ⟨_, ['-'], cs, by rw [hminus]; rfl, .minus⟩
    by_cases hquote : c = '\x27'
    · exact ⟨_, ['\x27'], cs, by rw [hquote]; rfl, .quote⟩
    refine ⟨_, c :: cs.takeWhile (!endsAtom ·), cs.dropWhile (!endsAtom ·), ?_,
      .atom (by simp [hdigit, hminus, hquote]) (fun d hd => ?_) (fun d hd => ?_)⟩
    · rw [List.cons_append, List.takeWhile_append_dropWhile]
    · rcases List.mem_cons.mp hd with rfl | hd
      · exact hdelim
      · have hd' := List.mem_takeWhile_imp hd
        rw [← endsAtom_iff]
        simpa using hd'
    · have hd' := List.head?_dropWhile_not (!endsAtom ·) cs
      rw [Option.mem_def.mp hd] at hd'
      simpa [← endsAtom_iff] using hd'

/-- Behind blanks, the next character starts a token. -/
lemma token_blanks_append {w : List Char} (hw : ∀ c ∈ w, c ∈ blanks) {c : Char} (hc : c ∉ blanks)
    (cs : List Char) : (Source.ofList (w ++ c :: cs)).token = Source.tokenFrom c (.ofList cs) := by
  have hspan : (Source.ofList (w ++ c :: cs)).span isSpace = (w, .ofList (c :: cs)) := by
    refine Source.span_ofList_append (fun d hd => (isSpace_iff d).mpr (hw d hd)) ?_
    rintro d hd
    obtain rfl : c = d := by simpa using hd
    exact Bool.eq_false_iff.mpr (mt (isSpace_iff c).mp hc)
  unfold Source.token
  rw [hspan]
  simp

/-- Behind blanks, a token that is spelled is read. -/
lemma Spelling.token {w r rest : List Char} {t : Token} (hw : ∀ c ∈ w, c ∈ blanks)
    (h : Spelling t r rest) :
    (Source.ofList (w ++ r ++ rest)).token = (t, .ofList rest) := by
  obtain ⟨c, cs, rfl, hc, htoken⟩ := h.tokenFrom
  rw [List.append_assoc, List.cons_append, token_blanks_append hw hc, htoken]

/-- What is spelled is not the end of the input. -/
lemma Spelling.isEnd {t : Token} {r rest : List Char} (h : Spelling t r rest) :
    t.isEnd = false := by
  cases h <;> rfl

/-- A text of blanks has no token. -/
lemma token_of_blanks {w : List Char} (hw : ∀ c ∈ w, c ∈ blanks) :
    (Source.ofList w).token = (endOfInput, .ofList []) := by
  have hspan : (Source.ofList (w ++ [])).span isSpace = (w, .ofList []) :=
    Source.span_ofList_append (fun d hd => (isSpace_iff d).mpr (hw d hd)) (by simp)
  rw [List.append_nil] at hspan
  unfold Source.token
  rw [hspan]
  simp

/-! ### Reading all tokens -/

/-- The tokens that are spelled in a text are the tokens that are read off it. -/
theorem tokens_ofList_eq {cs : List Char} {ts : List Token} (h : Lexes cs ts) :
    (Source.ofList cs).tokens.1 = ts := by
  induction h with
  | nil hw =>
    rw [Source.tokens_of_isEnd (by rw [token_of_blanks hw]; rfl)]
  | cons hw ht _ ih =>
    have htoken := ht.token hw
    have hend := ht.isEnd
    rw [Source.tokens_of_not_isEnd (by rw [htoken]; exact hend), htoken, ih]

/-- Every text is made of spellings and of blanks. -/
lemma exists_lexes (cs : List Char) : ∃ ts, Lexes cs ts := by
  have hsplit : cs.takeWhile isSpace ++ cs.dropWhile isSpace = cs :=
    List.takeWhile_append_dropWhile
  have hblanks : ∀ c ∈ cs.takeWhile isSpace, c ∈ blanks :=
    fun c hc => (isSpace_iff c).mp (List.mem_takeWhile_imp hc)
  cases hrest : cs.dropWhile isSpace with
  | nil =>
    rw [hrest, List.append_nil] at hsplit
    exact ⟨[], .nil (hsplit ▸ hblanks)⟩
  | cons c rest =>
    have hc : c ∉ blanks := by
      have := List.head?_dropWhile_not isSpace cs
      rw [hrest] at this
      simpa [← isSpace_iff] using this
    obtain ⟨t, r, rest', hr, ht⟩ := exists_spelling hc rest
    have hlt : rest'.length < cs.length := by
      obtain ⟨d, ds, rfl, -⟩ := ht.tokenFrom
      rw [← hsplit, hrest, hr]
      simp only [List.length_append, List.length_cons]
      omega
    obtain ⟨ts, hts⟩ := exists_lexes rest'
    refine ⟨t :: ts, ?_⟩
    rw [← hsplit, hrest, hr, ← List.append_assoc]
    exact .cons hblanks ht hts
termination_by cs.length

/-- Every text is made of the spellings of its tokens and of blanks. -/
theorem lexes_tokens_ofList (cs : List Char) : Lexes cs (Source.ofList cs).tokens.1 := by
  obtain ⟨ts, hts⟩ := exists_lexes cs
  rw [tokens_ofList_eq hts]
  exact hts

/-- A token that is spelled has a text, is neither the end of the input nor an error,
and is cut short only if it is a string literal. -/
lemma Spelling.isProper {t : Token} {r rest : List Char} (h : Spelling t r rest) :
    t.kind ≠ .eof ∧ t.kind ≠ .error ∧ t.text ≠ "" ∧ (t.truncated = true → t.kind = .string) := by
  cases h <;> simp [← String.toList_inj]

/-- What holds of every spelled token holds of the tokens of a text. -/
lemma Lexes.forall_mem {cs : List Char} {ts : List Token} {P : Token → Prop} (h : Lexes cs ts)
    (hP : ∀ t r rest, Spelling t r rest → P t) : ∀ t ∈ ts, P t := by
  induction h with
  | nil _ => simp
  | cons _ ht _ ih => exact List.forall_mem_cons.mpr ⟨hP _ _ _ ht, ih⟩

/-- Reading the tokens of a text cuts it, without loss, into spellings and blanks.  The
tokens end with the end of the input, which is none of the others, and no other tokens
are spelled by the text. -/
theorem tokenize_lexes (s : String) :
    ∃ ts, tokenize s = ts ++ [endOfInput] ∧ Lexes s.toList ts ∧
      (∀ t ∈ ts, t.kind ≠ .eof ∧ t.kind ≠ .error ∧ t.text ≠ "" ∧
        (t.truncated = true → t.kind = .string)) ∧
      ∀ us, Lexes s.toList us → us = ts := by
  have hlex := lexes_tokens_ofList s.toList
  refine ⟨_, rfl, hlex, hlex.forall_mem fun t r rest ht => ht.isProper, ?_⟩
  intro us hus
  exact (tokens_ofList_eq hus).symm

end Token

end TinyLisp
