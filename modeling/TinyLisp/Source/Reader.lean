import TinyLisp.Source.Basic
import TinyLisp.Text.Lines
import TinyLisp.Text.Utf8

/-!
# Readers

A reader delivers bytes in chunks of any size and can be interrupted or fail
between them.  It is drained a line at a time: all bytes through the next newline
are consumed before the first character of the line is handed out, and each line
is decoded on its own, invalid parts being replaced.

An interruption is retried and leaves no trace.  Any other failure loses the bytes
of the unfinished line: they are consumed, but no character comes of them.
-/

namespace TinyLisp

/-- One delivery of a reader. -/
inductive Chunk
  /-- Some bytes, possibly none. -/
  | data (bytes : List UInt8)
  /-- An interruption, after which reading is simply tried again. -/
  | interrupted
  /-- A failure. -/
  | failed
  deriving DecidableEq, Repr

/-- The deliveries of a reader byte by byte, `none` standing for a failure. -/
def Chunk.bytes : Chunk → List (Option UInt8)
  | .data bytes => bytes.map some
  | .interrupted => []
  | .failed => [none]

namespace Source

/-- The pulls that a line of bytes is good for.  The whole line is consumed when
its first character is asked for. -/
def linePulls (line : List UInt8) : List Pull :=
  match Utf8.lossy line with
  | [] => []
  | c :: cs => .char c line.length :: cs.map (.char · 0)

/-- The pulls of a reader that is in the middle of a line; `line` holds the bytes
of that line read so far, last first. -/
def readerPulls (line : List UInt8) : List (Option UInt8) → List Pull
  | [] => linePulls line.reverse
  | none :: rest => .gap line.length :: readerPulls [] rest
  | some b :: rest =>
    if b = Lines.newline then linePulls (b :: line).reverse ++ readerPulls [] rest
    else readerPulls (b :: line) rest

/-- The characters of a reader. -/
def ofChunks (chunks : List Chunk) : Source :=
  { pulls := readerPulls [] (chunks.flatMap Chunk.bytes) }

/-- The characters of a reader that delivers all its bytes at once. -/
def ofBytes (bytes : List UInt8) : Source :=
  ofChunks [.data bytes]

end Source

end TinyLisp
