import TinyLisp.Proofs.Source.Advance
import TinyLisp.Proofs.Text.Replacement

/-!
# Characters one call at a time

`Source.ofChunks` has the outcomes of all attempts that can be made on a reader.  A
`LineReader` makes them when it is called: it hands out the characters of a line, and when
there are none left, it collects the bytes of the next line from the chunks and decodes them.
The source that is left shows in its view, and each call is an attempt on that source, across
all failures (`view_next`).

Where nothing fails, the calls yield the characters that all bytes are decoded to together,
and nothing ever after (`next_after_of_delivers`).
-/

namespace TinyLisp

/-- A reader of characters: the chunks still to be delivered, what is left of the line decoded
last, and the number of bytes consumed. -/
structure LineReader where
  chunks : List Chunk
  line : List Char := []
  consumed : ℕ := 0

namespace LineReader

/-- What comes of reading a line. -/
structure Reading where
  /-- The bytes that were consumed. -/
  bytes : List UInt8
  /-- The reader failed before the line was finished. -/
  failed : Bool
  /-- What is still to be delivered. -/
  chunks : List Chunk

/-- Reads bytes through the next newline, or up to the end of the chunks; `line` holds those
read so far.  After an interruption, reading goes on. -/
def readLine (line : List UInt8) : List Chunk → Reading
  | [] => { bytes := line, failed := false, chunks := [] }
  | .interrupted :: chunks => readLine line chunks
  | .failed :: chunks => { bytes := line, failed := true, chunks }
  | .data bytes :: chunks =>
    if Lines.newline ∈ bytes then
      { bytes := line ++ bytes.takeWhile (· ≠ Lines.newline) ++ [Lines.newline]
        failed := false
        chunks := .data (bytes.dropWhile (· ≠ Lines.newline)).tail :: chunks }
    else readLine (line ++ bytes) chunks

/-- The characters of a line.  If it could not be finished, it is lost. -/
def Reading.chars (line : Reading) : List Char :=
  if line.failed then [] else Utf8.lossy line.bytes

/-- The next character, if there is one. -/
def next (r : LineReader) : Option Char × LineReader :=
  match r.line with
  | c :: cs => (some c, { r with line := cs })
  | [] =>
    let line := readLine [] r.chunks
    (line.chars.head?,
      { chunks := line.chunks
        line := line.chars.tail
        consumed := r.consumed + line.bytes.length })

/-- The reader when it has been called `n` times. -/
def after (r : LineReader) : ℕ → LineReader
  | 0 => r
  | n + 1 => r.next.2.after n

/-! ### Calls are attempts -/

/-- The attempts that can still be made. -/
def view (r : LineReader) : Source where
  pulls := r.line.map (.char · 0) ++ Source.readerPulls [] (r.chunks.flatMap Chunk.bytes)
  consumed := r.consumed

/-- Bytes without a newline add to the line. -/
lemma readerPulls_map_append {body : List UInt8} (h : Lines.newline ∉ body) (line : List UInt8)
    (rest : List (Option UInt8)) :
    Source.readerPulls line (body.map some ++ rest) =
      Source.readerPulls (body.reverse ++ line) rest := by
  induction body generalizing line with
  | nil => rfl
  | cons b body ih =>
    rw [List.mem_cons, not_or] at h
    rw [List.map_cons, List.cons_append, Source.readerPulls, if_neg (Ne.symm h.1), ih h.2,
      List.reverse_cons, List.append_assoc, List.singleton_append]

/-- The attempts that a line is good for. -/
def Reading.pulls (line : Reading) : List Pull :=
  if line.failed then [.gap line.bytes.length] else Source.linePulls line.bytes

/-- The attempts of a reader in the middle of a line are those of this line, and those of what
is delivered behind it. -/
lemma readerPulls_eq_readLine (line : List UInt8) (chunks : List Chunk) :
    Source.readerPulls line.reverse (chunks.flatMap Chunk.bytes) =
      (readLine line chunks).pulls ++
        Source.readerPulls [] ((readLine line chunks).chunks.flatMap Chunk.bytes) := by
  induction line, chunks using readLine.induct with
  | case1 line =>
    have hnil : Source.readerPulls [] [] = [] := rfl
    simp [readLine, Reading.pulls, hnil, Source.readerPulls]
  | case2 line chunks ih => exact ih
  | case3 line chunks => simp [readLine, Reading.pulls, Source.readerPulls, Chunk.bytes]
  | case4 line bytes chunks hmem =>
    obtain ⟨body, rest, rfl, hbody⟩ := List.eq_append_cons_of_mem hmem
    have hne : ∀ b ∈ body, decide (b ≠ Lines.newline) = true := by
      intro b hb
      exact decide_eq_true (ne_of_mem_of_not_mem hb hbody)
    rw [readLine, if_pos hmem, List.takeWhile_append_of_pos hne, List.dropWhile_append_of_pos hne,
      List.flatMap_cons, Chunk.bytes, List.map_append, List.append_assoc,
      readerPulls_map_append hbody]
    simp [Reading.pulls, Source.readerPulls, Chunk.bytes]
  | case5 line bytes chunks hmem ih =>
    rw [readLine, if_neg hmem, List.flatMap_cons, Chunk.bytes, readerPulls_map_append hmem, ← ih,
      List.reverse_append]

/-- A line without a byte is the end of the chunks. -/
lemma chunks_readLine_eq_nil {line : List UInt8} {chunks : List Chunk}
    (hfailed : (readLine line chunks).failed = false) (hnil : (readLine line chunks).bytes = []) :
    (readLine line chunks).chunks = [] := by
  induction line, chunks using readLine.induct with
  | case1 line => rfl
  | case2 line chunks ih => exact ih hfailed hnil
  | case3 line chunks => simp [readLine] at hfailed
  | case4 line bytes chunks hmem =>
    rw [readLine, if_pos hmem] at hnil
    simp at hnil
  | case5 line bytes chunks hmem ih =>
    rw [readLine, if_neg hmem] at hfailed hnil ⊢
    exact ih hfailed hnil

/-- Each call is an attempt, whatever its outcome. -/
theorem view_next (r : LineReader) : r.next.1 = r.view.front? ∧ r.next.2.view = r.view.skip := by
  obtain ⟨chunks, line, n⟩ := r
  cases line with
  | cons c cs => exact ⟨rfl, rfl⟩
  | nil =>
    -- a line is read; without a byte, it leaves nothing behind it
    have hpulls := readerPulls_eq_readLine [] chunks
    have hend := @chunks_readLine_eq_nil [] chunks
    unfold next view
    rw [List.reverse_nil] at hpulls
    rw [List.map_nil, List.nil_append, hpulls]
    dsimp only
    generalize readLine [] chunks = reading at hend ⊢
    obtain ⟨bytes, failed, rest⟩ := reading
    cases failed with
    | true => exact ⟨rfl, rfl⟩
    | false =>
      by_cases hbytes : bytes = []
      · obtain rfl := hbytes
        obtain rfl : rest = [] := hend rfl rfl
        exact ⟨rfl, rfl⟩
      · obtain ⟨c, cs, hcs⟩ := List.exists_cons_of_ne_nil (Utf8.lossy_ne_nil hbytes)
        simp [Reading.chars, Reading.pulls, Source.linePulls, hcs, Source.front?, Source.skip,
          Pull.char?, Pull.cost]

/-- So calls are as many attempts. -/
lemma view_after (r : LineReader) (n : ℕ) : (r.after n).view = r.view.advance n := by
  induction n generalizing r with
  | zero => simp [after, Source.advance, Pull.total]
  | succ n ih =>
    rw [after, ih, (view_next r).2, Source.skip_eq_advance, Source.advance_advance, Nat.add_comm]

lemma view_mk (chunks : List Chunk) : view { chunks } = Source.ofChunks chunks := rfl

end LineReader

namespace Source

/-! ### A reader that does not fail -/

/-- The attempts on a reader yield its characters one after the other. -/
lemma front?_advance_ofChunks {chunks : List Chunk} {bytes : List UInt8}
    (h : Delivers chunks bytes) (n : ℕ) :
    ((ofChunks chunks).advance n).front? = (Utf8.lossy bytes)[n]? := by
  rw [← front?_free, ((holdsLines_ofChunks h).advance n).free_eq, front?_ofList, List.head?_drop]

/-- All attempts together consume all bytes. -/
lemma total_readerPulls (bytes : List UInt8) :
    Pull.total (readerPulls [] (bytes.map some)) = bytes.length := by
  induction bytes using Lines.lines_induction with
  | nil => rfl
  | last line hne hline => rw [readerPulls_of_not_mem hline, total_linePulls hne]
  | more body rest hbody ih =>
    rw [readerPulls_append_newline hbody, Pull.total_append, ih, total_linePulls (by simp)]
    simp only [List.length_append, List.length_cons, List.length_nil]
    omega

/-- When all characters have been taken, no attempt is left and all bytes are consumed. -/
lemma advance_ofChunks_of_length_le {chunks : List Chunk} {bytes : List UInt8}
    (h : Delivers chunks bytes) {n : ℕ} (hn : (Utf8.lossy bytes).length ≤ n) :
    (ofChunks chunks).advance n = { pulls := [], consumed := bytes.length } := by
  rw [← (holdsLines_ofChunks h).length_pulls] at hn
  rw [advance, List.drop_of_length_le hn, List.take_of_length_le hn, ofChunks, h.flatMap_bytes,
    total_readerPulls, Nat.zero_add]

/-- Taking all characters takes those of the text that the bytes are decoded to. -/
lemma chars_ofChunks {chunks : List Chunk} {bytes : List UInt8} (h : Delivers chunks bytes) :
    (ofChunks chunks).chars = (Utf8.lossy bytes, { pulls := [], consumed := bytes.length }) := by
  have hall : (Utf8.lossy bytes).takeWhile (fun _ => true) = Utf8.lossy bytes :=
    List.takeWhile_eq_self_iff.mpr fun _ _ => rfl
  have hfree := through_free (fun _ => true) (ofChunks chunks)
  have hrun := takeWhile_free (fun _ => true) (ofChunks chunks)
  rw [free_ofChunks h, through_ofList, hall] at hfree
  rw [free_ofChunks h, takeWhile_pulls_ofList, hall] at hrun
  have hlength := congrArg List.length hrun
  rw [List.length_map, List.length_map] at hlength
  refine Prod.ext (congrArg Prod.fst hfree).symm ?_
  rw [chars, through_snd]
  apply advance_ofChunks_of_length_le h
  omega

end Source

/-- A reader that does not fail yields, call by call, the characters of all its bytes, decoded
together and with one replacement for each invalid part.  When it has yielded nothing for the
first time, all bytes are consumed, and it yields nothing ever after. -/
theorem next_after_of_delivers {chunks : List Chunk} {bytes : List UInt8}
    (h : Delivers chunks bytes) :
    (∀ n, (LineReader.after { chunks } n).next.1 = (Utf8.lossy bytes)[n]?) ∧
    (∀ n, (Utf8.lossy bytes).length < n →
      (LineReader.after { chunks } n).consumed = bytes.length) ∧
    (Source.ofChunks chunks).chars =
      (Utf8.lossy bytes, { pulls := [], consumed := bytes.length }) ∧
    ∀ cs, Utf8.Decodes bytes cs ↔ cs = (Source.ofChunks chunks).chars.1 := by
  refine ⟨fun n => ?_, fun n hn => ?_, Source.chars_ofChunks h, fun cs => ?_⟩
  · rw [(LineReader.view_next _).1, LineReader.view_after, LineReader.view_mk,
      Source.front?_advance_ofChunks h]
  · have hview := LineReader.view_after { chunks } n
    rw [LineReader.view_mk, Source.advance_ofChunks_of_length_le h hn.le] at hview
    exact congrArg Source.consumed hview
  · rw [Source.chars_ofChunks h]
    exact Utf8.decodes_iff

/-- A character is cut in two by an interruption, another one is cut short by the end of its
line, and a third one by the end of the input. -/
theorem next_after_of_delivers_cut :
    Delivers [.data [0xC3], .interrupted, .data [], .data [0xA9, 0x0A, 0xE2, 0x82],
        .data [0x0A, 0xF0, 0x9F]] [0xC3, 0xA9, 0x0A, 0xE2, 0x82, 0x0A, 0xF0, 0x9F] ∧
      (Source.ofChunks [.data [0xC3], .interrupted, .data [], .data [0xA9, 0x0A, 0xE2, 0x82],
        .data [0x0A, 0xF0, 0x9F]]).chars =
          (['é', '\n', '\uFFFD', '\n', '\uFFFD'], { pulls := [], consumed := 8 }) ∧
      (∀ n, (LineReader.after { chunks := [.data [0xC3], .interrupted, .data [],
          .data [0xA9, 0x0A, 0xE2, 0x82], .data [0x0A, 0xF0, 0x9F]] } n).next.1 =
        ['é', '\n', '\uFFFD', '\n', '\uFFFD'][n]?) ∧
      (LineReader.after { chunks := [.data [0xC3], .interrupted, .data [],
          .data [0xA9, 0x0A, 0xE2, 0x82], .data [0x0A, 0xF0, 0x9F]] } 6).consumed = 8 := by
  have h : Delivers [.data [0xC3], .interrupted, .data [], .data [0xA9, 0x0A, 0xE2, 0x82],
      .data [0x0A, 0xF0, 0x9F]] [0xC3, 0xA9, 0x0A, 0xE2, 0x82, 0x0A, 0xF0, 0x9F] :=
    .data (.interrupted (.data (.data (.data .nil))))
  have hlossy : Utf8.lossy [0xC3, 0xA9, 0x0A, 0xE2, 0x82, 0x0A, 0xF0, 0x9F] =
      ['é', '\n', '\uFFFD', '\n', '\uFFFD'] := by
    decide +kernel
  obtain ⟨hnext, hconsumed, hchars, -⟩ := next_after_of_delivers h
  rw [hlossy] at hnext hconsumed hchars
  exact ⟨h, hchars, hnext, hconsumed 6 (by decide)⟩

end TinyLisp
