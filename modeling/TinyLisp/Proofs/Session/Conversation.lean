import TinyLisp.Command.Program
import TinyLisp.Proofs.Expr.Pending
import TinyLisp.Proofs.Session.Limit
import TinyLisp.Proofs.Text.Lines
import TinyLisp.Proofs.Token.Spelling

/-!
# Conversations, line by line

What a conversation writes is put together from what its lines write, each taken by itself.
A line adds its reply to the one channel and its report to the other (`Console.reply`,
`Console.report`), and both depend on nothing but the line: the console is left as it was
found, with so much more written (`Console.answer_eq`).

The conversation goes on up to the first line that is no text (`Console.transcript_eq`).  So
input that ends with its line can be cut off (`Console.transcript_append`).
-/

namespace TinyLisp

/-- A sink that takes whatever is written to it and can be flushed. -/
structure Sink.IsOpen (out : Sink) : Prop where
  room : out.room = none
  flushFails : out.flushFails = false

/-- An open sink takes all the bytes of a text that is evaluated, and changes nothing. -/
lemma evalText_of_isOpen {out : Sink} (h : out.IsOpen) (code : String) :
    evalText code out =
      ((evalText code {}).1,
        { out with
          written := out.written ++ (evalText code {}).2.written
          flushes := out.flushes + (evalText code {}).2.flushes }) := by
  have heval : ∀ sink, evalText code sink =
      (sink.verdict (Step.eval code).bytes (Step.eval code).outcome,
        sink.completed (Step.eval code).bytes (Step.eval code).outcome) :=
    Step.evalParsed_eq (.eval code)
  obtain ⟨written, room, whenFull, flushes, flushFails⟩ := out
  obtain ⟨rfl, rfl⟩ : room = none ∧ flushFails = false := ⟨h.room, h.flushFails⟩
  rw [heval, heval {}]
  simp [Sink.verdict, Sink.completed, Sink.fits, Sink.accepted]

namespace Console

/-! ### One line -/

/-- What a line adds to the output: what its first expression prints, then the value and the
end of the line.  A fault adds nothing more. -/
def reply (line : String) : List UInt8 :=
  (evalText line {}).2.written ++
    match (evalText line {}).1 with
    | .ok (some v) => Utf8.encode (v.render ++ "\n")
    | .ok none => Utf8.encode "\n"
    | .error _ => []

/-- What a line adds to the error output: its fault, unless it is blank. -/
def report (line : String) : String :=
  if Blank.isBlank line then ""
  else
    match (evalText line {}).1 with
    | .ok _ => ""
    | .error fault => "Error -- " ++ fault.message ++ "\n"

/-- A digit is not white. -/
lemma isWhite_of_isDigit {c : Char} (h : c.isDigit) : Blank.isWhite c = false := by
  have hdigit : 48 ≤ c.toNat ∧ c.toNat ≤ 57 := by
    simpa [Char.isDigit, UInt32.le_iff_toNat_le] using h
  simp only [Blank.isWhite, Blank.ranges, List.any_cons, List.any_nil, Bool.or_false,
    Bool.or_eq_false_iff, Bool.and_eq_false_iff, decide_eq_false_iff_not]
  omega

/-- A token of white characters is a name. -/
lemma kind_of_isWhite {t : Token} {r rest : List Char} (h : Token.Spelling t r rest)
    (hwhite : ∀ c ∈ r, Blank.isWhite c = true) : t.kind = .atom := by
  have hdark : ∀ c ∈ ['(', ')', '\x27', '-', ';', '\x22'], Blank.isWhite c = false := by
    simp [Blank.isWhite, Blank.ranges]
  have hnot : ∀ c ∈ ['(', ')', '\x27', '-', ';', '\x22'], c ∉ r := by
    intro c hc hr
    simpa [hwhite c hr] using hdark c hc
  cases h with
  | atom => rfl
  | number hc =>
    have hdigit := isWhite_of_isDigit hc
    rw [hwhite _ List.mem_cons_self] at hdigit
    simp at hdigit
  | _ => simp at hnot

/-- The first expression of a blank line, if there is one, is a name. -/
lemma parseExpr_of_isBlank {line : String} (h : Blank.isBlank line = true) :
    (∃ err, parseExpr line = .error err) ∨ ∃ name, parseExpr line = .ok (.atom name) := by
  have hwhite : ∀ c ∈ line.toList, Blank.isWhite c = true := List.all_eq_true.mp h
  have hlex := Token.lexes_tokens_ofList line.toList
  rw [parseExpr_eq, Source.ofString, Pushdown.expression_eq_resume]
  generalize (Source.ofList line.toList).tokens.1 = ts at hlex ⊢
  generalize line.toList = cs at hlex hwhite
  cases hlex with
  | nil => exact Or.inl ⟨_, rfl⟩
  | @cons w r rest t ts hw ht hrest =>
    have hkind : t.kind = .atom := kind_of_isWhite ht fun c hc => hwhite c (by simp [hc])
    have hmoves : Pushdown.Moves [] ([t] ++ ts) (Pushdown.deliver (.atom t.text) ts []) :=
      .leaf (.atom hkind) (by decide)
    rw [← List.singleton_append, hmoves.step_eq]
    exact Or.inr ⟨t.text, rfl⟩

/-- A blank line has no value and prints nothing. -/
lemma reply_of_isBlank {line : String} (h : Blank.isBlank line = true) : reply line = [] := by
  unfold reply evalText
  rcases parseExpr_of_isBlank h with ⟨err, herr⟩ | ⟨name, hname⟩
  · rw [herr]
    rfl
  · rw [hname]
    rfl

/-- What is said is written to an open sink. -/
lemma say_eq {c : Console} (h : c.out.IsOpen) (text : String) :
    (c.say text).out.written = c.out.written ++ Utf8.encode (text ++ "\n") ∧
      (c.say text).err = c.err ∧ (c.say text).out.IsOpen := by
  have hout : (c.say text).out =
      { c.out with written := c.out.written ++ Utf8.encode (text ++ "\n") } := by
    simp [say, Sink.write, h.room]
  exact ⟨by rw [hout], rfl, by rw [hout]; exact ⟨h.room, h.flushFails⟩⟩

/-- A line adds its reply and its report, and leaves the sink open. -/
lemma answer_eq {c : Console} (h : c.out.IsOpen) (line : String) :
    (c.answer line).out.written = c.out.written ++ reply line ∧
      (c.answer line).err = c.err ++ report line ∧ (c.answer line).out.IsOpen := by
  unfold answer report
  split_ifs with hblank
  · rw [reply_of_isBlank hblank]
    exact ⟨by simp, by simp, h⟩
  · rw [evalText_of_isOpen h line, reply]
    obtain ⟨outcome, sink⟩ := evalText line {}
    -- the sink behind the evaluation is as open as before
    have hopen (written : List UInt8) (flushes : ℕ) : { c.out with written, flushes }.IsOpen :=
      ⟨h.room, h.flushFails⟩
    cases outcome with
    | error fault => exact ⟨by simp [complain], by simp [complain, String.append_assoc], hopen _ _⟩
    | ok value =>
      cases value with
      | none =>
        obtain ⟨hwritten, herr, hout⟩ := say_eq (c := { c with out := _ }) (hopen _ _) ""
        exact ⟨by simpa using hwritten, by simpa using herr, hout⟩
      | some v =>
        obtain ⟨hwritten, herr, hout⟩ := say_eq (c := { c with out := _ }) (hopen _ _) v.render
        exact ⟨by simpa using hwritten, by simpa using herr, hout⟩

/-! ### All lines -/

/-- What is seen of a conversation: its exit status, and what it writes to the two channels
behind the greeting. -/
structure Transcript where
  status : ℕ
  out : List UInt8
  err : String
  deriving DecidableEq

/-- A conversation that goes on with another one, which has the last word on the status. -/
def Transcript.andThen (t u : Transcript) : Transcript where
  status := u.status
  out := t.out ++ u.out
  err := t.err ++ u.err

/-- The transcript of a conversation on the given input. -/
def transcript (input : List UInt8) : Transcript where
  status := (converse input).1
  out := (converse input).2.out.written
  err := String.ofList ((converse input).2.err.toList.drop greeting.toList.length)

/-- The line is a text. -/
def isText (line : List UInt8) : Bool :=
  (Utf8.strict? line).isSome

/-- The texts that are answered, without the ends of their lines: those before the first line
that is no text. -/
def answered (lines : List (List UInt8)) : List String :=
  ((lines.takeWhile isText).filterMap Utf8.strict?).map Lines.chomp

/-- What a line that is no text adds to the error output. -/
def refusal : String := "Error -- stream did not contain valid UTF-8\n"

/-- Lines add the replies and reports of those that are answered. -/
lemma answerAll_eq {c : Console} (h : c.out.IsOpen) (lines : List (List UInt8)) :
    (c.answerAll lines).1 = (if lines.all isText then 0 else 1) ∧
      (c.answerAll lines).2.out.written = c.out.written ++ (answered lines).flatMap reply ∧
      (c.answerAll lines).2.err = c.err ++ (String.join ((answered lines).map report) ++
        if lines.all isText then "" else refusal) := by
  induction lines generalizing c with
  | nil => simp [answerAll, answered]
  | cons line lines ih =>
    unfold answerAll
    cases htext : Utf8.strict? line with
    | none =>
      have hline : isText line = false := by simp [isText, htext]
      simp [answered, hline, complain, refusal, Utf8.complaint, String.append_assoc]
    | some text =>
      have hline : isText line = true := by simp [isText, htext]
      obtain ⟨hwritten, herr, hopen⟩ := answer_eq h (Lines.chomp text)
      obtain ⟨hstatus, hout, hreports⟩ := ih hopen
      have hanswered : answered (line :: lines) = Lines.chomp text :: answered lines := by
        simp [answered, hline, htext]
      dsimp only
      rw [hstatus, hout, hreports, hwritten, herr, hanswered]
      simp [hline, String.append_assoc]

/-- The whole transcript, put together from its lines. -/
lemma transcript_eq (input : List UInt8) :
    transcript input =
      { status := if (Lines.split input).all isText then 0 else 1
        out := (answered (Lines.split input)).flatMap reply
        err := String.join ((answered (Lines.split input)).map report) ++
          if (Lines.split input).all isText then "" else refusal } := by
  obtain ⟨hstatus, hout, herr⟩ :=
    answerAll_eq (c := { err := greeting }) ⟨rfl, rfl⟩ (Lines.split input)
  rw [transcript, converse, hstatus, hout, herr, String.toList_append, List.drop_left,
    String.ofList_toList, List.nil_append]

/-- What a conversation writes to the error output comes behind its greeting. -/
lemma err_converse (input : List UInt8) :
    (converse input).2.err = greeting ++ (transcript input).err := by
  obtain ⟨-, -, herr⟩ := answerAll_eq (c := { err := greeting }) ⟨rfl, rfl⟩ (Lines.split input)
  rw [transcript_eq, converse, herr]

/-- Lines that are all texts are all answered, whatever follows them. -/
lemma answered_append {lines : List (List UInt8)} (h : ∀ line ∈ lines, isText line = true)
    (more : List (List UInt8)) : answered (lines ++ more) = answered lines ++ answered more := by
  have hself : lines.takeWhile isText = lines := List.takeWhile_eq_self_iff.mpr h
  rw [answered, answered, answered, List.takeWhile_append_of_pos h, hself, List.filterMap_append,
    List.map_append]

/-- A conversation on input from the command line is put together from its lines.  Lines that
are all texts can be cut off in front, and the first line that is no text is the end. -/
theorem transcript_append :
    (∀ files input, program ["repl"] files input = some (converse input) ∧
      (converse input).2.err = greeting ++ (transcript input).err) ∧
    (∀ xs ys, xs.getLast? = some Lines.newline → (∀ line ∈ Lines.split xs, isText line = true) →
      transcript (xs ++ ys) = (transcript xs).andThen (transcript ys)) ∧
    (∀ input, (∀ line ∈ Lines.split input, isText line = true) →
      transcript input =
        { status := 0
          out := (answered (Lines.split input)).flatMap reply
          err := String.join ((answered (Lines.split input)).map report) }) ∧
    ∀ xs line later, (∀ b ∈ xs.getLast?, b = Lines.newline) →
      (∀ line ∈ Lines.split xs, isText line = true) →
      Lines.split (line ++ later) = line :: Lines.split later → isText line = false →
      transcript (xs ++ line ++ later) =
        { status := 1, out := (transcript xs).out, err := (transcript xs).err ++ refusal } := by
  refine ⟨fun files input => ⟨rfl, err_converse input⟩, ?_, ?_, ?_⟩
  · intro xs ys hend htexts
    have hsplit : Lines.split (xs ++ ys) = Lines.split xs ++ Lines.split ys := by
      apply Lines.split_append
      intro b hb
      rw [hend] at hb
      exact (Option.some.inj hb).symm
    have hall : (Lines.split xs).all isText = true := List.all_eq_true.mpr htexts
    rw [transcript_eq, transcript_eq xs, transcript_eq ys, hsplit, answered_append htexts,
      List.all_append, hall, Transcript.andThen]
    simp [String.append_assoc]
  · intro input htexts
    rw [transcript_eq, List.all_eq_true.mpr htexts]
    simp
  · intro xs line later hend htexts hline hbad
    have hsplit : Lines.split (xs ++ line ++ later) =
        Lines.split xs ++ line :: Lines.split later := by
      rw [List.append_assoc, Lines.split_append hend, hline]
    have hall : (Lines.split xs).all isText = true := List.all_eq_true.mpr htexts
    have hnone : answered (line :: Lines.split later) = [] := by simp [answered, hbad]
    rw [transcript_eq, transcript_eq xs, hsplit, answered_append htexts, hnone, hall]
    simp [hbad]

/-- A line that is faulty behind a piece of output, with a carriage return at its end, and a
blank line.  Then a line with a value, one that is no text, and one that has no effect. -/
theorem transcript_append_faulty :
    (Utf8.encode "(print 1 (print 2) x)\r\n \n").getLast? = some Lines.newline ∧
      (∀ line ∈ Lines.split (Utf8.encode "(print 1 (print 2) x)\r\n \n"), isText line = true) ∧
      transcript (Utf8.encode "(print 1 (print 2) x)\r\n \n") =
        { status := 0, out := Utf8.encode "2", err := "Error -- cannot evaluate atom: x\n" } ∧
      transcript (Utf8.encode "(print 1 (print 2) x)\r\n \n" ++
          (Utf8.encode "(+ 3 4)\n" ++ [0xFF, 0x0A] ++ Utf8.encode "5\n")) =
        { status := 1
          out := Utf8.encode "27\n"
          err := "Error -- cannot evaluate atom: x\n" ++
            "Error -- stream did not contain valid UTF-8\n" } := by
  have hend : (Utf8.encode "(print 1 (print 2) x)\r\n \n").getLast? = some Lines.newline := by
    decide +kernel
  have htexts : ∀ line ∈ Lines.split (Utf8.encode "(print 1 (print 2) x)\r\n \n"),
      isText line = true := by
    decide +kernel
  refine ⟨hend, htexts, ?_, ?_⟩
  · rw [transcript_append.2.2.1 _ htexts]
    decide +kernel
  · rw [transcript_append.2.1 _ _ hend htexts]
    decide +kernel

end Console

end TinyLisp
