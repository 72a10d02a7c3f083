import TinyLisp.Session.Basic
import TinyLisp.Text.Blank
import TinyLisp.Text.Lines

/-!
# Conversations

A conversation is held line by line.  The first expression of each line is
evaluated, and its value is printed behind whatever the expression itself printed.
A fault is reported on the side and the conversation goes on.  It ends with the
input, or at the first line that is no text.
-/

namespace TinyLisp

/-- The two channels that a program writes to. -/
structure Console where
  out : Sink := {}
  err : String := ""
  deriving DecidableEq, Repr

namespace Console

/-- Prints a text and ends the line. -/
def say (c : Console) (text : String) : Console :=
  { c with out := (c.out.write (Utf8.encode (text ++ "\n"))).2 }

/-- Reports what went wrong. -/
def complain (c : Console) (message : String) : Console :=
  { c with err := c.err ++ "Error -- " ++ message ++ "\n" }

/-- Answers a line.  A blank line has no answer, and an absent value is answered by
ending the line. -/
def answer (c : Console) (line : String) : Console :=
  if Blank.isBlank line then c
  else
    match evalText line c.out with
    | (.ok (some v), out) => { c with out }.say v.render
    | (.ok none, out) => { c with out }.say ""
    | (.error fault, out) => { c with out }.complain fault.message

/-- Answers lines one after the other.  The exit status tells whether all of them
were texts. -/
def answerAll (c : Console) : List (List UInt8) → Nat × Console
  | [] => (0, c)
  | line :: rest =>
    match Utf8.strict? line with
    | none => (1, c.complain Utf8.complaint)
    | some text => answerAll (c.answer (Lines.chomp text)) rest

/-- What a conversation starts with. -/
def greeting : String := "Welcome to glispr REPL.\n"

/-- A conversation on the given input, with its exit status. -/
def converse (input : List UInt8) : Nat × Console :=
  answerAll { err := greeting } (Lines.split input)

end Console

end TinyLisp
