import Mathlib.Data.List.DropRight
import TinyLisp.Proofs.Session.Stream
import TinyLisp.Proofs.Token.Continuation

/-!
# Reading from a stream that fails

A failure costs a reader the line it is in the middle of.  So its characters up to the
failure are those of the finished lines (`free_ofChunks_failed`), and what stands there
is a text whose last character, if any, is a newline (`EndsLine`).

Where that text ends between two tokens, the failure is the end of the input, for good.
The one token that a newline leaves unfinished is a string literal.  It takes its
characters unseen, so it ends at the failure, and the next token is read off whatever is
delivered behind it.  `tokens_ofChunks_failed` has the tokens in both cases, and
`later_chunks_unread_iff` draws the line between them.
-/

namespace TinyLisp

/-- The lines of `bytes` that have a newline at their end. -/
def Lines.finished (bytes : List UInt8) : List UInt8 :=
  bytes.rdropWhile (· ≠ newline)

/-- A text that does not stop in the middle of a line. -/
def EndsLine (cs : List Char) : Prop :=
  ∀ c ∈ cs.getLast?, c = '\n'

/-- What a text that does not stop in the middle of a line ends with does not either. -/
lemma EndsLine.of_append {cs rest : List Char} (h : EndsLine (cs ++ rest)) : EndsLine rest := by
  intro c hc
  apply h
  rw [List.getLast?_append, Option.mem_def.mp hc]
  rfl

/-- It has a newline, unless it is empty. -/
lemma EndsLine.newline_mem {cs : List Char} (h : EndsLine cs) (hcs : cs ≠ []) : '\n' ∈ cs := by
  have hlast := h _ (List.getLast?_eq_some_getLast hcs)
  rw [← hlast]
  exact List.getLast_mem hcs

/-! ### Finished lines -/

/-- Without a newline no line is finished. -/
lemma Lines.finished_of_not_mem {line : List UInt8} (h : newline ∉ line) : finished line = [] := by
  rw [finished, List.rdropWhile_eq_nil_iff]
  intro b hb
  exact decide_eq_true (ne_of_mem_of_not_mem hb h)

/-- A line is finished by its newline, whatever follows. -/
lemma Lines.finished_append_newline (line bytes : List UInt8) :
    finished (line ++ newline :: bytes) = line ++ newline :: finished bytes := by
  induction bytes using List.reverseRecOn with
  | nil => simp [finished]
  | append_singleton bytes b ih =>
    have hassoc : line ++ newline :: (bytes ++ [b]) = (line ++ newline :: bytes) ++ [b] := by simp
    unfold finished at ih ⊢
    rw [hassoc, List.rdropWhile_concat, List.rdropWhile_concat, ih]
    split_ifs <;> simp

/-- The text of finished lines ends with a newline. -/
lemma endsLine_lossy_finished (bytes : List UInt8) :
    EndsLine (Utf8.lossy (Lines.finished bytes)) := by
  induction bytes using List.reverseRecOn with
  | nil => simp [Lines.finished, EndsLine, Utf8.lossy, Utf8.scan, Utf8.Decoder.finish]
  | append_singleton bytes b ih =>
    unfold Lines.finished at ih ⊢
    rw [List.rdropWhile_concat]
    split_ifs with hb
    · exact ih
    · obtain rfl : b = Lines.newline := by simpa using hb
      have hscan := Utf8.scan_append_newline bytes []
      intro c hc
      rw [Utf8.lossy, hscan] at hc
      simpa [Utf8.scan, Utf8.Decoder.finish, eq_comm] using hc

namespace Source

/-! ### The characters before a failure -/

/-- A text, then a failure, then some more attempts. -/
def cut (cs : List Char) (later : List Pull) : Source :=
  { pulls := cs.map (.char · 0) ++ .gap 0 :: later }

/-- A reader that fails in the middle of a line has the characters of the lines before it. -/
lemma map_free_readerPulls_failed {line : List UInt8} (hline : Lines.newline ∉ line)
    (bytes : List UInt8) (rest : List (Option UInt8)) :
    (readerPulls line (bytes.map some ++ none :: rest)).map Pull.free =
      (cut (Utf8.lossy (Lines.finished (line.reverse ++ bytes)))
        ((readerPulls [] rest).map Pull.free)).pulls := by
  induction bytes generalizing line with
  | nil =>
    have hnone : Lines.finished line.reverse = [] :=
      Lines.finished_of_not_mem (by simpa using hline)
    rw [List.append_nil, hnone]
    rfl
  | cons b bytes ih =>
    rw [List.map_cons, List.cons_append, readerPulls]
    split_ifs with hb
    · have hline' := Utf8.lossy_append_newline line.reverse (Lines.finished bytes)
      rw [List.map_append, map_free_linePulls, ih List.not_mem_nil, List.reverse_cons, hb,
        Lines.finished_append_newline, hline', List.reverse_nil, List.nil_append]
      simp [cut]
    · have hline' : Lines.newline ∉ b :: line := by simpa [eq_comm, hline] using hb
      rw [ih hline', List.reverse_cons, List.append_assoc, List.singleton_append]

/-- The characters of a reader up to its first failure are those of the finished lines. -/
lemma free_ofChunks_failed {chunks : List Chunk} {bytes : List UInt8} (h : Delivers chunks bytes)
    (later : List Chunk) :
    (ofChunks (chunks ++ .failed :: later)).free =
      cut (Utf8.lossy (Lines.finished bytes)) (ofChunks later).free.pulls := by
  have hbytes : (chunks ++ .failed :: later).flatMap Chunk.bytes =
      bytes.map some ++ none :: later.flatMap Chunk.bytes := by
    rw [List.flatMap_append, h.flatMap_bytes, List.flatMap_cons]
    rfl
  have hpulls := map_free_readerPulls_failed List.not_mem_nil bytes (later.flatMap Chunk.bytes)
  unfold ofChunks free
  rw [hbytes, hpulls]
  rfl

/-! ### Reading up to a failure

Looking at a failure ends the source, so a run of characters stops there for good.  Taken
unseen, it is passed over like a character. -/

/-- Looking at the next character changes none of the tokens. -/
lemma tokens_settle_cut (cs : List Char) (later : List Pull) :
    (cut cs later).settle.tokens.1 = (cut cs later).tokens.1 := by
  cases cs with
  | nil =>
    have hend : (cut [] later).token.1.isEnd = true := rfl
    have hend' : (cut [] later).settle.token.1.isEnd = true := rfl
    rw [tokens_of_isEnd hend, tokens_of_isEnd hend']
  | cons c cs => rfl

/-- The attempts that yield a run of a class of characters end with the run, or where the
text is cut. -/
lemma pulls_cut_append {p : Char → Bool} {run rest : List Char} (hrun : ∀ c ∈ run, p c = true)
    (hrest : ∀ c ∈ rest.head?, p c = false) (later : List Pull) :
    (cut (run ++ rest) later).pulls.takeWhile (·.holds p) = run.map (.char · 0) ∧
      (cut (run ++ rest) later).pulls.dropWhile (·.holds p) = (cut rest later).pulls := by
  have hheld : ∀ a ∈ run.map (Pull.char · 0), a.holds p = true := by
    intro a ha
    obtain ⟨c, hc, rfl⟩ := List.mem_map.mp ha
    exact hrun c hc
  have hpulls : (cut (run ++ rest) later).pulls =
      run.map (.char · 0) ++ (cut rest later).pulls := by
    simp [cut]
  rw [hpulls, List.takeWhile_append_of_pos hheld, List.dropWhile_append_of_pos hheld]
  cases rest with
  | nil => simp [cut, Pull.holds]
  | cons c rest => simp [cut, Pull.holds, hrest c rfl]

/-- A run of a class of characters is taken off, and what follows has been looked at. -/
lemma span_cut_append {p : Char → Bool} {run rest : List Char} (hrun : ∀ c ∈ run, p c = true)
    (hrest : ∀ c ∈ rest.head?, p c = false) (later : List Pull) :
    (cut (run ++ rest) later).span p = (run, (cut rest later).settle) := by
  obtain ⟨htake, hdrop⟩ := pulls_cut_append hrun hrest later
  unfold span
  rw [htake, hdrop]
  dsimp only
  rw [total_map_char, filterMap_map_char]
  rfl

/-- The same run, and with it the character behind it. -/
lemma through_cut_append {p : Char → Bool} {run rest : List Char} {c : Char}
    (hrun : ∀ d ∈ run, p d = true) (hc : p c = false) (later : List Pull) :
    (cut (run ++ c :: rest) later).through p = (run, cut rest later) := by
  have hrest : ∀ d ∈ (c :: rest).head?, p d = false := by
    intro d hd
    obtain rfl : c = d := by simpa using hd
    exact hc
  obtain ⟨htake, hdrop⟩ := pulls_cut_append hrun hrest later
  unfold through
  rw [htake, hdrop]
  dsimp only
  rw [total_map_char, filterMap_map_char]
  rfl

end Source

namespace Token

/-- What is spelled inside a literal is read, and the literal goes on with what follows. -/
lemma literal_append_of_encodes {b t : List Char} (h : Encodes b t) (seen : List Char)
    (pulls : List Pull) :
    Source.literal seen 0 (b.map (.char · 0) ++ pulls) =
      Source.literal (t.reverse ++ seen) 0 pulls := by
  induction h generalizing seen with
  | nil => rfl
  | @plain c b t hquote hslash _ ih =>
    rw [List.map_cons, List.cons_append, Source.literal.eq_def]
    simp [hquote, hslash, ih]
  | @escaped c b t _ ih =>
    rw [List.map_cons, List.map_cons, List.cons_append, List.cons_append, Source.literal.eq_def]
    simp [ih]

/-- Only the end of the text cuts a token short. -/
lemma Spelling.rest_eq_nil {t : Token} {r rest : List Char} (h : Spelling t r rest)
    (ht : t.truncated = true) : rest = [] := by
  cases h <;> first | rfl | simp at ht

/-- A double quote starts a string literal, whatever the source. -/
lemma tokenFrom_doubleQuote_of_literal (s : Source) {lit : Source.Literal}
    (h : Source.literal ['\x22'] s.consumed s.pulls = lit) :
    Source.tokenFrom '\x22' s =
      ({ kind := .string, text := String.ofList lit.text, truncated := !lit.closed },
        lit.rest) := by
  subst h
  rfl

/-- The tokens that follow a token at a failure: those of the rest of the text, or, if the
failure cuts the token short, those of what is delivered later. -/
def tokensBehind (t : Token) (rest : List Char) (later : List Pull) : List Token :=
  if t.truncated then (Source.tokens { pulls := later }).1 else (Source.cut rest later).tokens.1

/-- A token that is spelled at the front of a text without an unfinished line is read off
it, given its first character, also where a failure follows the text. -/
lemma Spelling.tokenFrom_cut {t : Token} {r rest : List Char} (h : Spelling t r rest)
    (hline : EndsLine (r ++ rest)) (later : List Pull) :
    ∃ c cs left, r = c :: cs ∧ c ∉ blanks ∧
      Source.tokenFrom c (.cut (cs ++ rest) later) = (t, left) ∧
      left.tokens.1 = tokensBehind t rest later := by
  cases h with
  | lparen => exact ⟨'(', [], .cut rest later, rfl, by decide, rfl, rfl⟩
  | rparen => exact ⟨')', [], .cut rest later, rfl, by decide, rfl, rfl⟩
  | quote => exact ⟨'\x27', [], .cut rest later, rfl, by decide, rfl, rfl⟩
  | minus => exact ⟨'-', [], .cut rest later, rfl, by decide, rfl, rfl⟩
  | @number c cs _ hc hcs hrest =>
    have hspan := Source.span_cut_append (fun d hd => (isNumeral_iff d).mpr (hcs d hd))
      (fun d hd => Bool.eq_false_iff.mpr (mt (isNumeral_iff d).mp (hrest d hd))) later
    refine ⟨c, cs, (Source.cut rest later).settle, rfl, ?_, ?_, Source.tokens_settle_cut rest later⟩
    · exact fun hblank => not_mem_delimiters_of_isDigit hc (mem_delimiters_of_mem_blanks hblank)
    · rw [tokenFrom_of_isDigit hc, hspan]
  | @atom c cs _ hc hcs hrest =>
    have hdelim : c ∉ delimiters := hcs c List.mem_cons_self
    have hspan : (Source.cut (cs ++ rest) later).span (!endsAtom ·) =
        (cs, (Source.cut rest later).settle) := by
      refine Source.span_cut_append (fun d hd => ?_) (fun d hd => ?_) later
      · have hd' : ¬endsAtom d = true := mt (endsAtom_iff d).mp (hcs d (List.mem_cons_of_mem c hd))
        simpa using hd'
      · simpa [endsAtom_iff] using hrest d hd
    refine ⟨c, cs, (Source.cut rest later).settle, rfl, ?_, ?_, Source.tokens_settle_cut rest later⟩
    · exact fun hblank => hdelim (mem_delimiters_of_mem_blanks hblank)
    · rw [tokenFrom_of_not_mem_delimiters hc hdelim, hspan]
  | @comment cs _ hcs =>
    have hthrough : (Source.cut (cs ++ '\n' :: rest) later).through (· ≠ '\n') =
        (cs, .cut rest later) :=
      Source.through_cut_append (fun d hd => decide_eq_true (ne_of_mem_of_not_mem hd hcs))
        (by decide) later
    refine ⟨';', cs ++ ['\n'], .cut rest later, rfl, by decide, ?_, rfl⟩
    rw [tokenFrom_semicolon, List.append_assoc, List.singleton_append, hthrough]
  | @lastComment cs hcs =>
    -- a comment without a newline is an unfinished line
    have hmem : '\n' ∈ ';' :: cs ++ [] := hline.newline_mem (by simp)
    simp [hcs] at hmem
  | @string b u _ hb =>
    have hliteral : Source.literal ['\x22'] 0 (Source.cut (b ++ ['\x22'] ++ rest) later).pulls =
        { text := '\x22' :: u ++ ['\x22'], closed := true, rest := .cut rest later } := by
      rw [Source.cut, List.append_assoc, List.map_append, List.append_assoc,
        literal_append_of_encodes hb, List.singleton_append, List.map_cons, List.cons_append,
        Source.literal.eq_def]
      simp [Source.cut]
    exact ⟨'\x22', b ++ ['\x22'], .cut rest later, rfl, by decide,
      tokenFrom_doubleQuote_of_literal (.cut _ later) hliteral, rfl⟩
  | @openString b u hb =>
    -- the failure is taken unseen, and the source goes on behind it
    have hliteral : Source.literal ['\x22'] 0 (Source.cut (b ++ []) later).pulls =
        { text := '\x22' :: u, closed := false, rest := { pulls := later } } := by
      rw [Source.cut, List.append_nil, literal_append_of_encodes hb, Source.literal.eq_def]
      simp
    exact ⟨'\x22', b, { pulls := later }, rfl, by decide,
      tokenFrom_doubleQuote_of_literal (.cut _ later) hliteral, rfl⟩
  | @brokenString b u hb =>
    -- so is a literal that stops behind a backslash
    have hlast : '\\' = '\n' := hline '\\' (by rw [List.append_nil, List.getLast?_concat]; rfl)
    simp at hlast

/-- The first token of a text without an unfinished line, where a failure follows. -/
lemma Spelling.token_cut {w r rest : List Char} {t : Token} (hw : ∀ c ∈ w, c ∈ blanks)
    (h : Spelling t r rest) (hline : EndsLine (r ++ rest)) (later : List Pull) :
    (Source.cut (w ++ r ++ rest) later).tokens.1 = t :: tokensBehind t rest later := by
  obtain ⟨c, cs, left, rfl, hc, htoken, hleft⟩ := h.tokenFrom_cut hline later
  have hspan : (Source.cut (w ++ c :: (cs ++ rest)) later).span isSpace =
      (w, .cut (c :: (cs ++ rest)) later) := by
    refine Source.span_cut_append (fun d hd => (isSpace_iff d).mpr (hw d hd)) ?_ later
    rintro d hd
    obtain rfl : c = d := by simpa using hd
    exact Bool.eq_false_iff.mpr (mt (isSpace_iff c).mp hc)
  have hread : (Source.cut (w ++ c :: cs ++ rest) later).token = (t, left) := by
    rw [List.append_assoc, List.cons_append, ← htoken]
    unfold Source.token
    rw [hspan]
    rfl
  rw [Source.tokens_of_not_isEnd (by rw [hread]; exact h.isEnd), hread, hleft]

/-- Blanks before a failure hold no token. -/
lemma tokens_cut_of_blanks {w : List Char} (hw : ∀ c ∈ w, c ∈ blanks) (later : List Pull) :
    (Source.cut w later).tokens.1 = [] := by
  have hspan : (Source.cut (w ++ []) later).span isSpace = (w, .ofList []) :=
    Source.span_cut_append (fun d hd => (isSpace_iff d).mpr (hw d hd)) (by simp) later
  rw [List.append_nil] at hspan
  have hend : (Source.cut w later).token.1.isEnd = true := by
    unfold Source.token
    rw [hspan]
    rfl
  rw [Source.tokens_of_isEnd hend]

/-- The tokens before a failure are those of the text.  More follow only behind a literal
that the failure cuts short. -/
lemma Lexes.tokens_cut {cs : List Char} {ts : List Token} (h : Lexes cs ts) (hline : EndsLine cs)
    (later : List Pull) :
    (Source.cut cs later).tokens.1 =
      ts ++ if ts.any (·.truncated) then (Source.tokens { pulls := later }).1 else [] := by
  induction h with
  | nil hw => simp [tokens_cut_of_blanks hw]
  | @cons w r rest t ts hw ht hrest ih =>
    have hline' : EndsLine (r ++ rest) := by
      rw [List.append_assoc] at hline
      exact hline.of_append
    rw [ht.token_cut hw hline', tokensBehind]
    by_cases hcut : t.truncated = true
    · -- nothing can be spelled behind a token that is cut short
      obtain rfl := ht.rest_eq_nil hcut
      obtain rfl := hrest.eq_nil_of_nil
      simp [hcut]
    · rw [if_neg hcut, ih hline'.of_append]
      simp [hcut]

end Token

/-! ### Readers -/

/-- The tokens of a reader that fails are those of its finished lines.  If the failure cuts
a literal short, they are followed by the tokens of what is delivered later. -/
theorem tokens_ofChunks_failed {chunks : List Chunk} {bytes : List UInt8}
    (h : Delivers chunks bytes) (later : List Chunk) {ts : List Token}
    (hts : (Source.ofList (Utf8.lossy (Lines.finished bytes))).tokens.1 = ts) :
    (Source.ofChunks (chunks ++ .failed :: later)).tokens.1 =
      ts ++ if ts.any (·.truncated) then (Source.ofChunks later).tokens.1 else [] := by
  have hlex := Token.lexes_tokens_ofList (Utf8.lossy (Lines.finished bytes))
  rw [hts] at hlex
  have hcut := hlex.tokens_cut (endsLine_lossy_finished bytes) (Source.ofChunks later).free.pulls
  have hlater : (Source.tokens { pulls := (Source.ofChunks later).free.pulls }).1 =
      (Source.ofChunks later).tokens.1 := Source.tokens_free _
  rw [← Source.tokens_free, Source.free_ofChunks_failed h, hcut, hlater]

/-- What a reader delivers behind its first failure makes no difference, to its tokens or
to a session that runs it, exactly if no string literal is open at the end of the lines
that were finished before the failure. -/
theorem later_chunks_unread_iff {chunks : List Chunk} {bytes : List UInt8}
    (h : Delivers chunks bytes) :
    (∀ later later' : List Chunk, (Source.ofChunks (chunks ++ .failed :: later)).tokens.1 =
        (Source.ofChunks (chunks ++ .failed :: later')).tokens.1 ∧
      ∀ out, (runSource (.ofChunks (chunks ++ .failed :: later)) out).1 =
        (runSource (.ofChunks (chunks ++ .failed :: later')) out).1) ↔
    ∀ t ∈ (Source.ofList (Utf8.lossy (Lines.finished bytes))).tokens.1, t.truncated = false := by
  set ts := (Source.ofList (Utf8.lossy (Lines.finished bytes))).tokens.1 with hts
  have htokens := fun later => tokens_ofChunks_failed h later hts.symm
  constructor
  · intro hunread t ht
    -- a number delivered later shows whether it is read
    have hone : (Source.ofChunks [.data [0x31]]).tokens.1 = [{ kind := .number, text := "1" }] := by
      decide +kernel
    have hnone : (Source.ofChunks []).tokens.1 = [] := by decide +kernel
    have hsame := (hunread [.data [0x31]] []).1
    rw [htokens, htokens, hone, hnone] at hsame
    by_contra hcut
    have hany : ts.any (·.truncated) = true := List.any_eq_true.mpr ⟨t, ht, by simpa using hcut⟩
    simp [hany] at hsame
  · intro hwhole later later'
    have hany : ts.any (·.truncated) = false := by simpa using hwhole
    have hsame : (Source.ofChunks (chunks ++ .failed :: later)).tokens.1 =
        (Source.ofChunks (chunks ++ .failed :: later')).tokens.1 := by
      rw [htokens, htokens, hany]
      rfl
    refine ⟨hsame, fun out => ?_⟩
    rw [runSource_fst, runSource_fst, hsame]

/-- A double quote inside a comment opens no literal, so the input ends with `(+ 1;"` where
the next line fails. -/
theorem later_chunks_unread_comment :
    Delivers [.data (Utf8.encode "(+ "), .interrupted, .data (Utf8.encode "1;\"\n2)")]
        (Utf8.encode "(+ 1;\"\n2)") ∧
      ∀ later later' : List Chunk,
        (Source.ofChunks (.data (Utf8.encode "(+ ") :: .interrupted ::
            .data (Utf8.encode "1;\"\n2)") :: .failed :: later)).tokens.1 =
          (Source.ofChunks (.data (Utf8.encode "(+ ") :: .interrupted ::
            .data (Utf8.encode "1;\"\n2)") :: .failed :: later')).tokens.1 ∧
        ∀ out, (runSource (.ofChunks (.data (Utf8.encode "(+ ") :: .interrupted ::
            .data (Utf8.encode "1;\"\n2)") :: .failed :: later)) out).1 =
          (runSource (.ofChunks (.data (Utf8.encode "(+ ") :: .interrupted ::
            .data (Utf8.encode "1;\"\n2)") :: .failed :: later')) out).1 := by
  have hbytes : Utf8.encode "(+ 1;\"\n2)" =
      Utf8.encode "(+ " ++ (Utf8.encode "1;\"\n2)" ++ []) := by
    decide +kernel
  have h : Delivers [.data (Utf8.encode "(+ "), .interrupted, .data (Utf8.encode "1;\"\n2)")]
      (Utf8.encode "(+ 1;\"\n2)") := by
    rw [hbytes]
    exact .data (.interrupted (.data .nil))
  exact ⟨h, (later_chunks_unread_iff h).mpr (by decide +kernel)⟩

/-- A failure in the middle of a literal does not end the input: a number that is delivered
later is a token, and a parenthesis that is delivered later closes a list, which is then
evaluated. -/
theorem later_chunks_read_in_literal :
    (Source.ofChunks [.data (Utf8.encode "\"a\n"), .failed, .data (Utf8.encode "1")]).tokens.1 ≠
        (Source.ofChunks [.data (Utf8.encode "\"a\n"), .failed]).tokens.1 ∧
      (runSource (.ofChunks [.data (Utf8.encode "(print \"a\n"), .failed,
          .data (Utf8.encode ")")]) {}).1 ≠
        (runSource (.ofChunks [.data (Utf8.encode "(print \"a\n"), .failed]) {}).1 ∧
      (runSource (.ofChunks [.data (Utf8.encode "(print \"a\n"), .failed,
          .data (Utf8.encode ")")]) {}).1.2.written = Utf8.encode "a\n" := by
  decide +kernel

end TinyLisp
