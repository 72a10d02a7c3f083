import TinyLisp.Proofs.Expr.Producible
import TinyLisp.Proofs.Expr.Reading
import TinyLisp.Proofs.Expr.Run
import TinyLisp.Session.Basic

/-!
# How much of a stream is consumed

The first expression of a stream takes the characters up to the end of its last token, and a
bare minus sign takes a look at what follows it (`Extent`).  Bytes are consumed by whole
lines, so what is consumed is the lines up to the one on which these characters end
(`consumed_expression`).

It follows that a session stays on the line on which the expression ends, unless the
expression is a bare minus sign and the token that it looks at ends further down
(`consumed_le_iff`).
-/

namespace TinyLisp

/-! ### The characters of an expression -/

/-- The characters `looked` are those that are looked at behind the expression `e`, where the
characters `rest` follow. -/
inductive LooksAt : Expr → List Char → List Char → Prop
  /-- Only a minus sign makes it necessary to look further. -/
  | nothing {e : Expr} {rest : List Char} (he : e ≠ .atom "-") : LooksAt e [] rest
  /-- The next token is looked at, to see if it is a number. -/
  | token {t : Token} {w r rest : List Char} (hw : ∀ c ∈ w, c ∈ blanks)
      (ht : Token.Spelling t r rest) : LooksAt (.atom "-") (w ++ r) rest
  /-- There is no next token. -/
  | blanks {w : List Char} (hw : ∀ c ∈ w, c ∈ blanks) : LooksAt (.atom "-") w []

/-- At the front of the text `cs`, the characters `read` spell the tokens `used` of the
expression `e`, without any blanks behind the last of them, and the characters `looked` are
looked at. -/
structure Extent (cs : List Char) (e : Expr) (used : List Token) (read looked rest : List Char) :
    Prop where
  text : cs = read ++ looked ++ rest
  spellings : Token.Spellings used read (looked ++ rest)
  parse : parseScript (String.ofList read) = .ok [e]
  looksAt : LooksAt e looked rest

/-- The characters of an expression are some. -/
lemma Extent.read_ne_nil {cs read looked rest : List Char} {e : Expr} {used : List Token}
    (h : Extent cs e used read looked rest) : read ≠ [] := by
  rintro rfl
  have hparse := h.parse
  have hempty : parseScript (String.ofList []) = .ok [] := by decide +kernel
  rw [hempty] at hparse
  simp at hparse

lemma Extent.bytes_ne_nil {bytes : List UInt8} {read looked rest : List Char} {e : Expr}
    {used : List Token} (h : Extent (Utf8.lossy bytes) e used read looked rest) : bytes ≠ [] := by
  rintro rfl
  have htext : [] = read ++ looked ++ rest := h.text
  simp [h.read_ne_nil] at htext

/-- A text that ends with a minus sign as its last token ends with that character. -/
lemma Token.Spellings.getLast?_read {init : List Token} {m : Token} {read rest : List Char}
    (h : Spellings (init ++ [m]) read rest) (hm : m.kind = .minus) :
    read.getLast? = some '-' := by
  generalize hts : init ++ [m] = ts at h
  cases h with
  | nil => simp at hts
  | @concat ts t read w r _ _ _ ht =>
    obtain ⟨-, hlast⟩ := List.append_inj' hts rfl
    obtain rfl : m = t := by simpa using hlast
    cases ht with
    | minus => simp
    | _ => simp at hm

namespace Parser

/-- The tokens that have been taken are those of the expression: it is all that is read off
the characters that spell them. -/
lemma HasRead.parseScript_eq {s : Source} {used : List Token} {e : Expr} {q : Parser}
    (h : HasRead s used q) (hq : Parser.expression { source := s } = (.ok e, q))
    {read rest : List Char} (hread : Token.Spellings used read rest) :
    parseScript (String.ofList read) = .ok [e] := by
  have hexpr : Pushdown.expression [] s.tokens.1 = (.ok e, q.pending) := by
    have heq := (expression_eq (p := { source := s }) (coherent_of_ahead_eq_none rfl)).1
    rw [hq] at heq
    exact heq.symm
  obtain ⟨used', hused', hbefore⟩ := Pushdown.expression_before hexpr
  have hused : used' = used := by
    rw [h.tokens_eq] at hused'
    exact (List.append_cancel_right hused').symm
  have halone := hbefore [] fun _ => by simp [Pushdown.next, Token.endOfInput]
  rw [hused, List.append_nil] at halone
  have htokens : (Source.ofString (String.ofList read)).tokens.1 = used := by
    rw [Source.ofString, String.toList_ofList]
    exact Token.tokens_ofList_eq hread.lexes
  rw [TinyLisp.parseScript_eq, htokens, Pushdown.script_of_ok halone, Pushdown.script_nil]
  rfl

/-- Reading a token is looking at what stands behind a minus sign. -/
lemma exists_looksAt {s : Source} {cs : List Char} (h : s.HoldsLines cs) :
    ∃ looked rest, cs = looked ++ rest ∧ LooksAt (.atom "-") looked rest ∧
      s.token.2 = s.advance looked.length := by
  rcases h.token_cases with ⟨w, r, rest, hcs, hw, ht, hsource⟩ | ⟨hw, -, hsource⟩
  · exact ⟨w ++ r, rest, hcs, .token hw ht, hsource⟩
  · exact ⟨cs, [], (List.append_nil cs).symm, .blanks hw, hsource⟩

/-- An expression that is read off the lines of a source leaves it behind the last character
that it had to look at. -/
theorem exists_extent {s : Source} {cs : List Char} (hs : s.HoldsLines cs) {e : Expr} {q : Parser}
    (hq : Parser.expression { source := s } = (.ok e, q)) :
    ∃ used read looked rest, Extent cs e used read looked rest ∧
      (e = .atom "-" → read.getLast? = some '-') ∧
      q.source = s.advance (read ++ looked).length := by
  obtain ⟨used, hread, hleaves⟩ := (HasRead.mk s).expression hq
  rw [List.nil_append] at hread hleaves
  have hparse : ∀ {read rest}, Token.Spellings used read rest →
      parseScript (String.ofList read) = .ok [e] :=
    fun hspellings => hread.parseScript_eq hq hspellings
  have hnamed : ∀ {read rest}, Token.Spellings used read rest → ∀ t ∈ used, t.IsNamed :=
    fun hspellings => hspellings.lexes.forall_mem fun t r rest ht => ht.isNamed
  unfold HasRead at hread
  cases hleaves with
  | clear hahead he =>
    rw [hahead] at hread
    obtain ⟨read, rest, rfl, hspellings, hsource⟩ := hread.exists_spellings hs
    have hname : e ≠ .atom "-" := by
      intro hatom
      obtain ⟨t, ht, hkind, htext⟩ := he "-" hatom
      exact ((hnamed hspellings t ht).atom hkind).2 htext
    refine ⟨used, read, [], rest, ⟨?_, hspellings, hparse hspellings, .nothing hname⟩, ?_, ?_⟩
    · rw [List.append_nil]
    · exact fun hatom => absurd hatom hname
    · rw [List.append_nil, hsource]
  | @ahead init m t hused hm he hahead =>
    rw [hahead] at hread
    obtain ⟨s', htakes, htoken⟩ := hread
    obtain ⟨read, rest, rfl, hspellings, rfl⟩ := htakes.exists_spellings hs
    have hsign : m.text = "-" := (hnamed hspellings m (by simp [hused])).minus hm
    rw [hsign] at he
    subst he
    have hlast : read.getLast? = some '-' := (hused ▸ hspellings).getLast?_read hm
    have hrest := hs.advance read.length
    rw [List.drop_left] at hrest
    obtain ⟨looked, rest, rfl, hlooksAt, hsource⟩ := exists_looksAt hrest
    refine ⟨used, read, looked, rest,
      ⟨by rw [List.append_assoc], hspellings, hparse hspellings, hlooksAt⟩, fun _ => hlast, ?_⟩
    rw [htoken, Source.advance_advance, ← List.length_append] at hsource
    exact hsource

end Parser

/-! ### Lines consumed -/

/-- What is consumed of a stream is the lines up to the one with the last character that its
first expression had to look at. -/
lemma exists_extent_ofChunks {chunks : List Chunk} {bytes : List UInt8}
    (h : Delivers chunks bytes) {e : Expr} {q : Parser}
    (hq : Parser.expression { source := .ofChunks chunks } = (.ok e, q)) :
    ∃ used read looked rest, Extent (Utf8.lossy bytes) e used read looked rest ∧
      (e = .atom "-" → read.getLast? = some '-') ∧
      q.source.consumed = (Lines.through bytes (Lines.lastLine (read ++ looked))).length := by
  obtain ⟨used, read, looked, rest, hextent, hminus, hsource⟩ :=
    Parser.exists_extent (Source.holdsLines_ofChunks h) hq
  have hne : read ++ looked ≠ [] := by simp [hextent.read_ne_nil]
  refine ⟨used, read, looked, rest, hextent, hminus, ?_⟩
  rw [hsource]
  exact Source.consumed_advance_ofChunks h hne hextent.text

/-- Reading the first expression of a stream consumes whole lines, up to the one on which the
last token read ends.  That token is the last one of the expression, or else the one behind a
bare minus sign, and the whole stream is consumed if there is no such token. -/
theorem consumed_expression {chunks : List Chunk} {bytes : List UInt8} (h : Delivers chunks bytes)
    {e : Expr} {q : Parser} (hq : Parser.expression { source := .ofChunks chunks } = (.ok e, q)) :
    ∃ used read looked rest, Extent (Utf8.lossy bytes) e used read looked rest ∧
      q.source.consumed = (Lines.through bytes (Lines.lastLine (read ++ looked))).length ∧
      (rest = [] → q.source.consumed = bytes.length) ∧
      ∀ out, (runSource (.ofChunks chunks) out).2 = q.source := by
  obtain ⟨used, read, looked, rest, hextent, -, hconsumed⟩ := exists_extent_ofChunks h hq
  refine ⟨used, read, looked, rest, hextent, hconsumed, ?_, ?_⟩
  · rintro rfl
    rw [hconsumed, ← List.append_nil (read ++ looked), ← hextent.text,
      Lines.through_lastLine_lossy hextent.bytes_ne_nil]
  · intro out
    rw [runSource, hq]

/-- Behind the minus sign stands a comment, with which the second line ends. -/
theorem consumed_expression_minus :
    Delivers [.data (Utf8.encode "-\n;"), .interrupted, .data (Utf8.encode "x\n1")]
        (Utf8.encode "-\n;x\n1") ∧
      Parser.expression { source := .ofChunks [.data (Utf8.encode "-\n;"), .interrupted,
          .data (Utf8.encode "x\n1")] } =
        (.ok (.atom "-"),
          { source := { pulls := [.char '1' 1], consumed := 5 },
            ahead := some { kind := .comment, text := ";x" } }) ∧
      ∃ used read looked rest,
        Extent (Utf8.lossy (Utf8.encode "-\n;x\n1")) (.atom "-") used read looked rest ∧
        5 = (Lines.through (Utf8.encode "-\n;x\n1") (Lines.lastLine (read ++ looked))).length ∧
        (rest = [] → 5 = (Utf8.encode "-\n;x\n1").length) ∧
        ∀ out, (runSource (.ofChunks [.data (Utf8.encode "-\n;"), .interrupted,
          .data (Utf8.encode "x\n1")]) out).2 = { pulls := [.char '1' 1], consumed := 5 } := by
  have hbytes : Utf8.encode "-\n;x\n1" =
      Utf8.encode "-\n;" ++ (Utf8.encode "x\n1" ++ []) := by
    decide +kernel
  have h : Delivers [.data (Utf8.encode "-\n;"), .interrupted, .data (Utf8.encode "x\n1")]
      (Utf8.encode "-\n;x\n1") := by
    rw [hbytes]
    exact .data (.interrupted (.data .nil))
  have hq : Parser.expression { source := .ofChunks [.data (Utf8.encode "-\n;"), .interrupted,
      .data (Utf8.encode "x\n1")] } =
      (.ok (.atom "-"),
        { source := { pulls := [.char '1' 1], consumed := 5 },
          ahead := some { kind := .comment, text := ";x" } }) := by
    decide +kernel
  exact ⟨h, hq, consumed_expression h hq⟩

/-- No byte behind the line on which the first expression of a stream ends has been consumed
when the expression has been evaluated, exactly if what is looked at behind it does not go
beyond that line. -/
theorem consumed_le_iff {chunks : List Chunk} {bytes : List UInt8} (h : Delivers chunks bytes)
    {e : Expr} {q : Parser} (hq : Parser.expression { source := .ofChunks chunks } = (.ok e, q)) :
    ∃ used read looked rest, Extent (Utf8.lossy bytes) e used read looked rest ∧
      ∀ out, (runSource (.ofChunks chunks) out).2.consumed ≤
        (Lines.through bytes (Lines.lastLine read)).length ↔ '\n' ∉ looked.dropLast := by
  obtain ⟨used, read, looked, rest, hextent, hminus, hconsumed⟩ := exists_extent_ofChunks h hq
  have hlines : Lines.lastLine (read ++ looked) < (Lines.split bytes).length := by
    rw [Lines.length_split hextent.bytes_ne_nil, hextent.text]
    exact Nat.lt_succ_of_le (Lines.lastLine_le_append _ _)
  refine ⟨used, read, looked, rest, hextent, fun out => ?_⟩
  rw [runSource, hq, hconsumed, Lines.length_through_le_iff hlines]
  by_cases hlooked : looked = []
  · simp [hlooked]
  · -- only a minus sign looks further, and it does not end a line
    have hatom : e = .atom "-" := by
      cases hextent.looksAt with
      | nothing _ => exact absurd rfl hlooked
      | token _ _ => rfl
      | blanks _ => rfl
    have hlast := Lines.lastLine_eq_count (hminus hatom) (by decide)
    rw [Lines.lastLine_append hlooked, hlast, ← List.count_eq_zero, Lines.lastLine]
    omega

/-- A comment behind the minus sign takes the rest of its line, and nothing of the next. -/
theorem consumed_le_of_comment :
    Delivers [.data (Utf8.encode "- ;x\n1\n")] (Utf8.encode "- ;x\n1\n") ∧
      Parser.expression { source := .ofChunks [.data (Utf8.encode "- ;x\n1\n")] } =
        (.ok (.atom "-"),
          { source := { pulls := [.char '1' 2, .char '\n' 0], consumed := 5 },
            ahead := some { kind := .comment, text := ";x" } }) ∧
      ∃ used read looked rest,
        Extent (Utf8.lossy (Utf8.encode "- ;x\n1\n")) (.atom "-") used read looked rest ∧
        ∀ out, (runSource (.ofChunks [.data (Utf8.encode "- ;x\n1\n")]) out).2.consumed ≤
          (Lines.through (Utf8.encode "- ;x\n1\n") (Lines.lastLine read)).length ↔
            '\n' ∉ looked.dropLast := by
  have h : Delivers [.data (Utf8.encode "- ;x\n1\n")] (Utf8.encode "- ;x\n1\n") := by
    have hdata : Delivers [.data (Utf8.encode "- ;x\n1\n")]
        (Utf8.encode "- ;x\n1\n" ++ []) := .data .nil
    simpa using hdata
  have hq : Parser.expression { source := .ofChunks [.data (Utf8.encode "- ;x\n1\n")] } =
      (.ok (.atom "-"),
        { source := { pulls := [.char '1' 2, .char '\n' 0], consumed := 5 },
          ahead := some { kind := .comment, text := ";x" } }) := by
    decide +kernel
  exact ⟨h, hq, consumed_le_iff h hq⟩

/-- The line of the minus sign has two bytes, but the list on the next line is consumed with
it. -/
theorem consumed_beyond_minus :
    Extent (Utf8.lossy (Utf8.encode "-\n(print 1)\n")) (.atom "-")
        [{ kind := .minus, text := "-" }] ['-'] ['\n', '('] "print 1)\n".toList ∧
      (Lines.through (Utf8.encode "-\n(print 1)\n") (Lines.lastLine ['-'])).length = 2 ∧
      (runSource (.ofChunks [.data (Utf8.encode "-\n(print 1)\n")]) {}).2.consumed = 12 := by
  refine ⟨⟨by decide +kernel, ?_, by decide +kernel, ?_⟩, by decide +kernel, by decide +kernel⟩
  · have hnil : Token.Spellings [] [] ([] ++ ['-'] ++ '\n' :: "(print 1)\n".toList) := .nil
    exact hnil.concat (by simp) .minus
  · exact .token (w := ['\n']) (by simp [blanks]) .lparen

end TinyLisp
