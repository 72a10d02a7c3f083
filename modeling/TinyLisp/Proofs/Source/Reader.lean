import TinyLisp.Proofs.Text.Utf8
import TinyLisp.Proofs.Token.Cost
import TinyLisp.Source.Reader

/-!
# The characters of a reader

A reader that is interrupted now and then, but does not fail, delivers some bytes in
the end (`Delivers`).  How they are cut into chunks leaves no trace in the source, and
neither does the fact that they are decoded one line at a time: the characters of the
source are those of all bytes, decoded together (`free_ofChunks`).
-/

namespace TinyLisp

/-- The chunks are the bytes, cut at any places, with any interruptions between them. -/
inductive Delivers : List Chunk → List UInt8 → Prop
  | nil : Delivers [] []
  | data {bytes rest : List UInt8} {chunks : List Chunk} (h : Delivers chunks rest) :
      Delivers (.data bytes :: chunks) (bytes ++ rest)
  | interrupted {bytes : List UInt8} {chunks : List Chunk} (h : Delivers chunks bytes) :
      Delivers (.interrupted :: chunks) bytes

/-- Byte by byte, a reader that does not fail delivers its bytes. -/
lemma Delivers.flatMap_bytes {chunks : List Chunk} {bytes : List UInt8}
    (h : Delivers chunks bytes) : chunks.flatMap Chunk.bytes = bytes.map some := by
  induction h with
  | nil => rfl
  | data _ ih => rw [List.flatMap_cons, ih, List.map_append, Chunk.bytes]
  | interrupted _ ih => rw [List.flatMap_cons, ih, Chunk.bytes, List.nil_append]

namespace Source

/-- A line has the characters that its bytes are decoded to. -/
lemma map_free_linePulls (line : List UInt8) :
    (linePulls line).map Pull.free = (Utf8.lossy line).map (.char · 0) := by
  unfold linePulls
  cases Utf8.lossy line with
  | nil => rfl
  | cons c cs => simp [Pull.free]

/-- A reader in the middle of a line has the characters of that line and of all that
follows. -/
lemma map_free_readerPulls (line bytes : List UInt8) :
    (readerPulls line (bytes.map some)).map Pull.free =
      (Utf8.lossy (line.reverse ++ bytes)).map (.char · 0) := by
  induction bytes generalizing line with
  | nil => rw [List.append_nil]; exact map_free_linePulls _
  | cons b bytes ih =>
    rw [List.map_cons, readerPulls]
    split_ifs with hb
    · rw [List.map_append, map_free_linePulls, ih, List.reverse_cons, List.reverse_nil,
        List.nil_append, hb, Utf8.lossy_append_newline line.reverse bytes, List.map_append]
    · rw [ih, List.reverse_cons, List.append_assoc, List.singleton_append]

/-- A reader that does not fail has the characters of all its bytes. -/
theorem free_ofChunks {chunks : List Chunk} {bytes : List UInt8} (h : Delivers chunks bytes) :
    (ofChunks chunks).free = ofList (Utf8.lossy bytes) := by
  unfold free ofChunks ofList
  rw [h.flatMap_bytes, map_free_readerPulls, List.reverse_nil, List.nil_append]

/-- So it has the tokens of the text that the bytes are decoded to. -/
theorem tokens_ofChunks {chunks : List Chunk} {bytes : List UInt8} (h : Delivers chunks bytes) :
    (ofChunks chunks).tokens.1 = (ofString (String.ofList (Utf8.lossy bytes))).tokens.1 := by
  rw [← tokens_free, free_ofChunks h, ofString, String.toList_ofList]

end Source

end TinyLisp
