/-!
# Character sources

A source hands out characters one at a time.  It may stand for a text at hand or
for a reader that delivers bytes line by line and can fail.  Both are a list of
*pulls*: what each successive attempt to get a character yields, and how many
bytes that attempt makes the reader consume.

There are two ways to get at the next character, and they treat a failed attempt
differently.  Looking at it (`settle`, `span`) takes a failure for the end of the
source, for good.  Taking it unseen (`through`) reports the failure once, and the
next attempt goes on behind it.
-/

namespace TinyLisp

/-- The outcome of one attempt to get a character. -/
inductive Pull
  /-- A character, for which the reader had to consume `cost` bytes. -/
  | char (c : Char) (cost : Nat)
  /-- No character: the reader consumed `cost` bytes and failed. -/
  | gap (cost : Nat)
  deriving DecidableEq, Repr

namespace Pull

/-- The bytes consumed by the attempt. -/
def cost : Pull → Nat
  | .char _ n => n
  | .gap n => n

/-- The character obtained. -/
def char? : Pull → Option Char
  | .char c _ => some c
  | .gap _ => none

/-- The attempt yields a character of the given class. -/
def holds (p : Char → Bool) : Pull → Bool
  | .char c _ => p c
  | .gap _ => false

/-- The bytes consumed by a run of attempts. -/
def total (pulls : List Pull) : Nat :=
  pulls.foldl (fun n a => n + a.cost) 0

end Pull

/-- A source of characters: the attempts still to come, and the number of bytes
that the attempts so far have consumed. -/
structure Source where
  pulls : List Pull
  consumed : Nat := 0
  deriving DecidableEq, Repr

namespace Source

/-- A text as a source: nothing is consumed and nothing fails. -/
def ofList (cs : List Char) : Source :=
  { pulls := cs.map (.char · 0) }

/-- A text as a source. -/
def ofString (s : String) : Source :=
  ofList s.toList

/-- Looks at the next character without taking it.  What the reader consumes for
it is consumed now; a failure seen this way ends the source. -/
def settle (s : Source) : Source :=
  match s.pulls with
  | [] => s
  | .char c n :: rest => { pulls := .char c 0 :: rest, consumed := s.consumed + n }
  | .gap n :: _ => { pulls := [], consumed := s.consumed + n }

/-- The character at the front, if there is one. -/
def front? (s : Source) : Option Char :=
  s.pulls.head?.bind Pull.char?

/-- Makes one attempt and passes over its outcome. -/
def skip (s : Source) : Source :=
  match s.pulls with
  | [] => s
  | a :: rest => { pulls := rest, consumed := s.consumed + a.cost }

/-- Takes the longest run of characters of a class, looking at each before taking
it.  The character behind the run has been looked at and is still there. -/
def span (p : Char → Bool) (s : Source) : List Char × Source :=
  let run := s.pulls.takeWhile (·.holds p)
  let rest : Source :=
    { pulls := s.pulls.dropWhile (·.holds p), consumed := s.consumed + Pull.total run }
  (run.filterMap Pull.char?, rest.settle)

/-- Takes characters unseen as long as they are of a class, and with them the
first attempt that yields anything else. -/
def through (p : Char → Bool) (s : Source) : List Char × Source :=
  let run := s.pulls.takeWhile (·.holds p)
  let rest : Source :=
    { pulls := s.pulls.dropWhile (·.holds p), consumed := s.consumed + Pull.total run }
  (run.filterMap Pull.char?, rest.skip)

/-- Takes every character up to the first attempt that yields none. -/
def chars (s : Source) : List Char × Source :=
  s.through fun _ => true

/-! ### The number of attempts left -/

theorem length_settle_le (s : Source) : s.settle.pulls.length ≤ s.pulls.length := by
  unfold settle
  split <;> simp_all

theorem length_skip_le (s : Source) : s.skip.pulls.length ≤ s.pulls.length := by
  unfold skip
  split <;> simp_all

/-- Passing over an attempt leaves one attempt less. -/
theorem length_skip_lt {s : Source} (h : s.pulls ≠ []) :
    s.skip.pulls.length < s.pulls.length := by
  unfold skip
  split <;> simp_all

theorem length_span_le (p : Char → Bool) (s : Source) :
    (s.span p).2.pulls.length ≤ s.pulls.length :=
  Nat.le_trans (length_settle_le _) (List.dropWhile_sublist _).length_le

theorem length_through_le (p : Char → Bool) (s : Source) :
    (s.through p).2.pulls.length ≤ s.pulls.length :=
  Nat.le_trans (length_skip_le _) (List.dropWhile_sublist _).length_le

/-- A source with a character at its front is not at its end. -/
theorem pulls_ne_nil_of_front? {s : Source} {c : Char} (h : s.front? = some c) :
    s.pulls ≠ [] := by
  intro h'
  simp [front?, h'] at h

end Source

end TinyLisp
