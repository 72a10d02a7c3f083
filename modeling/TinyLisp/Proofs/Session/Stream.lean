import TinyLisp.Proofs.Expr.Query
import TinyLisp.Proofs.Source.Reader
import TinyLisp.Session.Basic

/-!
# Reading from a stream

A parser on a reader and a parser on the text that the bytes of the reader are decoded
to have the same tokens before them.  They give the same answers, whatever they are
asked and for how long, and evaluating the first expression has the same outcome and
leaves the same sink.
-/

namespace TinyLisp

/-- The first expression of a source is evaluated as it is read off the tokens. -/
lemma runSource_fst (s : Source) (out : Sink) :
    (runSource s out).1 = evalParsed (Pushdown.expression [] s.tokens.1).1 out := by
  have hread := (Parser.isReady_mk s).expression.1
  unfold runSource
  dsimp only
  rw [hread]
  rfl

/-- The first expression of a text is evaluated as it is read off the tokens. -/
lemma evalText_eq (code : String) (out : Sink) :
    evalText code out =
      evalParsed (Pushdown.expression [] (Source.ofString code).tokens.1).1 out := by
  rw [evalText, parseExpr_eq]

/-- Reading from a stream is the same as reading from the text that its bytes are
decoded to, however they are cut and however often the reader is interrupted. -/
theorem answers_ofChunks {chunks : List Chunk} {bytes : List UInt8} (h : Delivers chunks bytes) :
    (∀ qs, (Parser.askAll { source := .ofChunks chunks } qs).map Prod.fst =
      ((Parser.ofString (String.ofList (Utf8.lossy bytes))).askAll qs).map Prod.fst) ∧
    ∀ out, (runSource (.ofChunks chunks) out).1 =
      evalText (String.ofList (Utf8.lossy bytes)) out := by
  have htokens := Source.tokens_ofChunks h
  constructor
  · intro qs
    have hstream := (Parser.isReady_mk (.ofChunks chunks)).askAll qs
    have htext := (Parser.isReady_mk (.ofString (String.ofList (Utf8.lossy bytes)))).askAll qs
    rw [Parser.pending_of_ahead_eq_none rfl, htokens] at hstream
    exact hstream.trans htext.symm
  · intro out
    rw [runSource_fst, evalText_eq, htokens]

/-- A character is cut in two by an interruption, another one by the end of its line, and
the parser goes on behind an unexpected parenthesis. -/
theorem answers_ofChunks_cut :
    Delivers [.data [0x29, 0xC3], .interrupted, .data [], .data [0xA9, 0x0A, 0xC3], .data [0x0A]]
        [0x29, 0xC3, 0xA9, 0x0A, 0xC3, 0x0A] ∧
      (Parser.askAll { source := .ofChunks [.data [0x29, 0xC3], .interrupted, .data [],
          .data [0xA9, 0x0A, 0xC3], .data [0x0A]] } [.expression?, .atEnd, .script]).map Prod.fst =
        ((Parser.ofString (String.ofList (Utf8.lossy [0x29, 0xC3, 0xA9, 0x0A, 0xC3, 0x0A]))).askAll
          [.expression?, .atEnd, .script]).map Prod.fst ∧
      (runSource (.ofChunks [.data [0x29, 0xC3], .interrupted, .data [],
          .data [0xA9, 0x0A, 0xC3], .data [0x0A]]) {}).1 =
        evalText (String.ofList (Utf8.lossy [0x29, 0xC3, 0xA9, 0x0A, 0xC3, 0x0A])) {} := by
  have h : Delivers
      [.data [0x29, 0xC3], .interrupted, .data [], .data [0xA9, 0x0A, 0xC3], .data [0x0A]]
      [0x29, 0xC3, 0xA9, 0x0A, 0xC3, 0x0A] :=
    .data (.interrupted (.data (.data (.data .nil))))
  exact ⟨h, (answers_ofChunks h).1 _, (answers_ofChunks h).2 _⟩

end TinyLisp
